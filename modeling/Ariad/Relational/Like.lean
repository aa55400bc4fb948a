import Ariad.Javascript.Text

/-!
# Patterns of `LIKE`

* `like` — whether a text has the form of a pattern: `%` stands for any text, `_` for any character, and a character
  behind the escape character for itself. Upper and lower case of ASCII letters are the same.
* `matchTokens_any`, `matchTokens_chars` — what `%` and what a row of characters takes from the start of a text.
* `like_escaped` — the pattern of a prefix.
* `like_of_prefix`, `like_of_infix` — what starts with a text, or has it inside, has the form of its pattern.
-/

namespace Ariad.Like

open List

inductive Token where
  | any
  | one
  | char (c : Char)
  deriving DecidableEq

def tokenOf (c : Char) : Token := if c = '%' then .any else if c = '_' then .one else .char c

/-- The tokens of a pattern. The flag says that the escape character stands before it; nothing has the form of a
pattern that ends with the escape character. -/
def tokens (escape : Option Char) : Bool → Text → Option (List Token)
  | false, [] => some []
  | true, [] => none
  | true, c :: t => (tokens escape false t).map (.char c :: ·)
  | false, c :: t =>
    if escape = some c then tokens escape true t else (tokens escape false t).map (tokenOf c :: ·)

def matchTokens : List Token → Text → Bool
  | [], s => s.isEmpty
  | .any :: p, s => s.tails.any (matchTokens p)
  | .one :: p, _ :: t => matchTokens p t
  | .char d :: p, c :: t => c.toLower = d.toLower && matchTokens p t
  | .one :: _, [] => false
  | .char _ :: _, [] => false

/-- `text LIKE pattern ESCAPE escape` -/
def like (escape : Option Char) (pattern text : Text) : Bool :=
  match tokens escape false pattern with
  | some p => matchTokens p text
  | none => false

/-! ## Tokens one after the other -/

/-- Upper and lower case of ASCII letters are the same. -/
def fold (t : Text) : Text := t.map Char.toLower

theorem matchTokens_any {p : List Token} {s : Text} :
    matchTokens (.any :: p) s = true ↔ ∃ a b, s = a ++ b ∧ matchTokens p b = true := by
  rw [matchTokens, any_eq_true]
  constructor
  · rintro ⟨b, hb, hp⟩
    obtain ⟨a, rfl⟩ := (mem_tails ..).mp hb
    exact ⟨a, b, rfl, hp⟩
  · rintro ⟨a, b, rfl, hp⟩
    exact ⟨b, (mem_tails ..).mpr (suffix_append a b), hp⟩

theorem matchTokens_chars {t : Text} {p : List Token} {s : Text} :
    matchTokens (t.map .char ++ p) s = true ↔ ∃ a b, s = a ++ b ∧ fold a = fold t ∧ matchTokens p b = true := by
  induction t generalizing s with
  | nil =>
    constructor
    · exact fun h => ⟨[], s, rfl, rfl, h⟩
    · rintro ⟨a, b, rfl, ha, hb⟩
      obtain rfl : a = [] := by simpa [fold] using ha
      exact hb
  | cons d t ih =>
    cases s with
    | nil =>
      refine iff_of_false (by simp [matchTokens]) ?_
      rintro ⟨a, b, hs, ha, -⟩
      obtain ⟨rfl, rfl⟩ := append_eq_nil_iff.mp hs.symm
      simp [fold] at ha
    | cons c s =>
      rw [map_cons, cons_append, matchTokens, Bool.and_eq_true_iff, ih, decide_eq_true_iff]
      constructor
      · rintro ⟨hc, a, b, rfl, ha, hb⟩
        exact ⟨c :: a, b, rfl, by simp only [fold, map_cons] at ha ⊢; rw [hc, ha], hb⟩
      · rintro ⟨a, b, hs, ha, hb⟩
        cases a with
        | nil => simp [fold] at ha
        | cons e a =>
          obtain ⟨rfl, rfl⟩ := List.cons.inj hs
          obtain ⟨hc, ha⟩ := List.cons.inj ha
          exact ⟨hc, a, b, rfl, ha, hb⟩

/-! ## Escaped texts -/

/-- A text with the escape character before each character that is not literal in a pattern. -/
def escaped (escape : Char) (t : Text) : Text :=
  t.flatMap fun c => if c = escape ∨ c = '%' ∨ c = '_' then [escape, c] else [c]

theorem tokens_escaped (escape : Char) (t pattern : Text) :
    tokens (some escape) false (escaped escape t ++ pattern) =
      (tokens (some escape) false pattern).map (t.map .char ++ ·) := by
  induction t with
  | nil => simp [escaped]
  | cons c t ih =>
    rw [escaped, flatMap_cons, ← escaped, append_assoc]
    by_cases hc : c = escape ∨ c = '%' ∨ c = '_'
    · rw [if_pos hc, cons_append, tokens, if_pos rfl, cons_append, nil_append, tokens, ih,
        Option.map_map]
      rfl
    · obtain ⟨hescape, hany, hone⟩ := not_or.mp hc |>.imp id not_or.mp
      rw [if_neg hc, cons_append, nil_append, tokens, if_neg (by simpa using Ne.symm hescape), ih,
        Option.map_map, tokenOf, if_neg hany, if_neg hone]
      rfl

/-- The escaped text and `%`: what starts with the text. -/
theorem like_escaped (escape : Char) (hescape : escape ≠ '%') (t s : Text) :
    like (some escape) (escaped escape t ++ ['%']) s = (fold t).isPrefixOf (fold s) := by
  have htokens : tokens (some escape) false ['%'] = some [.any] := by
    rw [tokens, if_neg (by simpa using hescape)]
    rfl
  rw [like, tokens_escaped, htokens, Bool.eq_iff_iff, List.isPrefixOf_iff_prefix]
  simp only [Option.map_some]
  rw [matchTokens_chars]
  constructor
  · rintro ⟨a, b, rfl, ha, -⟩
    exact ⟨fold b, by rw [← ha, fold, fold, fold, map_append]⟩
  · rintro ⟨u, hu⟩
    obtain ⟨a, b, rfl, ha, hb⟩ := map_eq_append_iff.mp hu.symm
    exact ⟨a, b, rfl, ha, matchTokens_any.mpr ⟨b, [], by simp, rfl⟩⟩

/-! ## Texts as patterns -/

variable {w s : Text} {p : List Token}
/-- Without `%`, a text has the form of itself. -/
theorem matchTokens_self (h : '%' ∉ w) (hp : matchTokens p s = true) :
    matchTokens (w.map tokenOf ++ p) (w ++ s) = true := by
  induction w with
  | nil => exact hp
  | cons c w ih =>
    rw [mem_cons, not_or] at h
    have htail := ih h.2
    rw [map_cons, cons_append, cons_append, tokenOf, if_neg (Ne.symm h.1)]
    split
    · exact htail
    · simp [matchTokens, htail]

theorem tokens_none (w : Text) : tokens none false w = some (w.map tokenOf) := by
  induction w with
  | nil => rfl
  | cons c w ih =>
    rw [tokens, if_neg (by simp), ih]
    rfl

theorem like_of_prefix (h : '%' ∉ w) (hs : w <+: s) : like none (w ++ ['%']) s = true := by
  obtain ⟨rest, rfl⟩ := hs
  rw [like, tokens_none, map_append]
  exact matchTokens_self h (matchTokens_any.mpr ⟨rest, [], by simp, rfl⟩)

theorem like_of_infix (h : '%' ∉ w) (hs : w <:+: s) : like none ('%' :: (w ++ ['%'])) s = true := by
  obtain ⟨before, rest, rfl⟩ := hs
  have hprefix := like_of_prefix h (prefix_append w rest)
  rw [like, tokens_none] at hprefix ⊢
  exact matchTokens_any.mpr ⟨before, w ++ rest, append_assoc .., hprefix⟩

end Ariad.Like
