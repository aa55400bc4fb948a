import Ariad.Javascript.Json

/-!
# JSON texts

All of JSON, as `JSON.parse` reads it. A string is the list of its UTF-16 code units, since an escape may name half
of a character.

* `stringUnits` — a string up to its closing quote.
* `Reads` — a value at the head of a text, and what is behind it; `Parses`: a whole text.
* `Reads.escapes_le` — every quote, backslash and control character in a string was written with a backslash.
* `stringUnits_plain`, `stringUnits_unquoted` — a text between quotes that has nothing to escape, or no quote.
* `Reads.object_inv`, `Reads.members_inv`, `Reads.string_inv` — what a brace or a quote begins.
* `Reads.compactMember`, `Reads.compactLast` — members without white space.
-/

namespace Ariad.JsonText

open List Option

open Json (hexValue unescape)

/-! ## Strings -/

/-- The code units of a text. -/
def units (t : Text) : List ℕ := t.flatMap utf16

/-- The code unit of `\u` and four digits. -/
def hexUnit (a b c d : Char) : Option ℕ := do
  return (← hexValue a.toLower) * 4096 + (← hexValue b.toLower) * 256 + (← hexValue c.toLower) * 16 +
    (← hexValue d.toLower)

/-- The code units up to the closing quote, and what is behind it. -/
def stringUnits : Text → Option (List ℕ × Text)
  | [] => none
  | '"' :: rest => some ([], rest)
  | '\\' :: 'u' :: a :: b :: c :: d :: rest =>
    (hexUnit a b c d).bind fun u => (stringUnits rest).map fun p => (u :: p.1, p.2)
  | '\\' :: e :: rest => (unescape e).bind fun x => (stringUnits rest).map fun p => (x.toNat :: p.1, p.2)
  | c :: rest => if c = '\\' ∨ c.toNat < 32 then none else (stringUnits rest).map fun p => (utf16 c ++ p.1, p.2)

/-! ## Values -/

inductive Value where
  | null
  | bool (b : Bool)
  | number (t : Text)
  | string (us : List ℕ)
  | array (items : List Value)
  | object (members : List (List ℕ × Value))

/-- White space between tokens. -/
def isJsonSpace (c : Char) : Bool := c = ' ' || c = '\t' || c = '\n' || c = '\r'

def Digits (t : Text) : Prop := t ≠ [] ∧ ∀ c ∈ t, c.isDigit = true

/-- A number as it is written: sign, integer without a leading zero, fraction, exponent. -/
inductive IsNumber : Text → Prop where
  | mk {sign int frac exp : Text} : sign = [] ∨ sign = ['-'] → Digits int → (∀ c t, int ≠ '0' :: c :: t) →
    (frac = [] ∨ ∃ t, Digits t ∧ frac = '.' :: t) →
    (exp = [] ∨ ∃ e s t, (e = 'e' ∨ e = 'E') ∧ (s = [] ∨ s = ['+'] ∨ s = ['-']) ∧ Digits t ∧ exp = e :: (s ++ t)) →
    IsNumber (sign ++ int ++ frac ++ exp)

/-- A character that a number may go on with. -/
def numberChar (c : Char) : Bool := c.isDigit || c = '.' || c = 'e' || c = 'E' || c = '+' || c = '-'

/-- What can be read: a value, the items of an array, the members of an object. -/
inductive Item where
  | value (v : Value)
  | items (vs : List Value)
  | members (ms : List (List ℕ × Value))

/-- **What is at the head of a text, and what is behind it.** White space may stand before every token. -/
inductive Reads : Text → Item → Text → Prop where
  | space {c : Char} {t r : Text} {i : Item} : isJsonSpace c = true → Reads t i r → Reads (c :: t) i r
  | null {r : Text} : Reads ('n' :: 'u' :: 'l' :: 'l' :: r) (.value .null) r
  | true_ {r : Text} : Reads ('t' :: 'r' :: 'u' :: 'e' :: r) (.value (.bool true)) r
  | false_ {r : Text} : Reads ('f' :: 'a' :: 'l' :: 's' :: 'e' :: r) (.value (.bool false)) r
  | number {n r : Text} : IsNumber n → (∀ c ∈ r.head?, numberChar c = false) → Reads (n ++ r) (.value (.number n)) r
  | string {t r : Text} {us : List ℕ} : stringUnits t = some (us, r) → Reads ('"' :: t) (.value (.string us)) r
  | emptyArray {s r : Text} : (∀ c ∈ s, isJsonSpace c = true) → Reads ('[' :: (s ++ ']' :: r)) (.value (.array [])) r
  | array {t r : Text} {vs : List Value} : Reads t (.items vs) r → Reads ('[' :: t) (.value (.array vs)) r
  | emptyObject {s r : Text} : (∀ c ∈ s, isJsonSpace c = true) → Reads ('{' :: (s ++ '}' :: r)) (.value (.object [])) r
  | object {t r : Text} {ms : List (List ℕ × Value)} : Reads t (.members ms) r → Reads ('{' :: t) (.value (.object ms)) r
  | lastItem {t s r : Text} {v : Value} : Reads t (.value v) (s ++ ']' :: r) → (∀ c ∈ s, isJsonSpace c = true) →
    Reads t (.items [v]) r
  | item {t s t' r : Text} {v : Value} {vs : List Value} : Reads t (.value v) (s ++ ',' :: t') →
    (∀ c ∈ s, isJsonSpace c = true) → Reads t' (.items vs) r → Reads t (.items (v :: vs)) r
  | lastMember {t s t' s' r : Text} {k : List ℕ} {v : Value} : stringUnits t = some (k, s ++ ':' :: t') →
    (∀ c ∈ s, isJsonSpace c = true) → Reads t' (.value v) (s' ++ '}' :: r) → (∀ c ∈ s', isJsonSpace c = true) →
    Reads ('"' :: t) (.members [(k, v)]) r
  | member {t s t' s' t'' r : Text} {k : List ℕ} {v : Value} {ms : List (List ℕ × Value)} :
    stringUnits t = some (k, s ++ ':' :: t') → (∀ c ∈ s, isJsonSpace c = true) →
    Reads t' (.value v) (s' ++ ',' :: t'') → (∀ c ∈ s', isJsonSpace c = true) → Reads t'' (.members ms) r →
    Reads ('"' :: t) (.members ((k, v) :: ms)) r

/-- The text is JSON for the value. -/
def Parses (t : Text) (v : Value) : Prop := ∃ r, Reads t (.value v) r ∧ ∀ c ∈ r, isJsonSpace c = true

/-- The member of an object; of two with the same key the last one. -/
def Value.member : Value → Text → Option Value
  | .object members, key => (members.filter fun m => m.1 = units key).getLast?.map Prod.snd
  | _, _ => none

/-- A text whose member `key` is the string. -/
def HasString (t key s : Text) : Prop := ∃ v, Parses t v ∧ v.member key = some (.string (units s))

/-! ## What has to be escaped -/

/-- Quotes, backslashes and control characters. -/
def needsEscape (u : ℕ) : Bool := u = 34 || u = 92 || u < 32

/-- A text that can stand between quotes as it is. -/
def Plain (t : Text) : Prop := ∀ c ∈ t, needsEscape c.toNat = false

instance (t : Text) : Decidable (Plain t) := List.decidableBAll _ t

variable {t r : Text} {us : List ℕ}

theorem countP_utf16 (c : Char) : (utf16 c).countP needsEscape = if needsEscape c.toNat then 1 else 0 := by
  rw [utf16]
  split
  · simp [countP_cons]
  · rename_i hlarge
    have hunit {u : ℕ} (hu : 0xD800 ≤ u) : needsEscape u = false := by
      simp only [needsEscape, Bool.or_eq_false_iff, decide_eq_false_iff_not]
      omega
    have hhigh := hunit (u := 0xD800 + (c.toNat - 0x10000) / 0x400) (by omega)
    have hlow := hunit (u := 0xDC00 + (c.toNat - 0x10000) % 0x400) (by omega)
    rw [countP_cons, countP_cons, hhigh, hlow, hunit (by omega)]
    rfl

/-- A text needs as many escapes as its code units. -/
theorem countP_units (t : Text) : (units t).countP needsEscape = t.countP fun c => needsEscape c.toNat := by
  induction t with
  | nil => rfl
  | cons c t ih =>
    rw [units, flatMap_cons, countP_append, countP_utf16, ← units, ih, countP_cons, Nat.add_comm]

theorem stringUnits_char {c : Char} (h : needsEscape c.toNat = false) (rest : Text) :
    stringUnits (c :: rest) = (stringUnits rest).map fun p => (utf16 c ++ p.1, p.2) := by
  have hquote : c ≠ '"' := by
    rintro rfl
    cases h
  have hslash : c ≠ '\\' := by
    rintro rfl
    cases h
  have hcontrol : ¬(c = '\\' ∨ c.toNat < 32) := by
    rintro (hc | hc)
    · exact hslash hc
    · simp [needsEscape, hc] at h
  rw [stringUnits, if_neg hcontrol]
  · exact hquote
  · exact fun _ _ _ _ _ hc => absurd hc hslash
  · exact fun _ _ hc => absurd hc hslash

/-- **Text that needs no escapes is read as it is.** -/
theorem stringUnits_plain {t : Text} (h : Plain t) (rest : Text) :
    stringUnits (t ++ '"' :: rest) = some (units t, rest) := by
  induction t with
  | nil => rfl
  | cons c t ih =>
    have hc : needsEscape c.toNat = false := h c mem_cons_self
    have ht : Plain t := fun d hd => h d (mem_cons_of_mem _ hd)
    rw [cons_append, stringUnits_char hc, ih ht]
    rfl

/-- What is read of a string, character by character or escape by escape, up to its quote. -/
inductive UnitsRead : Text → List ℕ → Text → Prop where
  | quote (rest : Text) : UnitsRead ('"' :: rest) [] rest
  | unicode {a b c d : Char} {rest r : Text} {u : ℕ} {us : List ℕ} (hu : hexUnit a b c d = some u)
      (h : UnitsRead rest us r) : UnitsRead ('\\' :: 'u' :: a :: b :: c :: d :: rest) (u :: us) r
  | escape {e x : Char} {rest r : Text} {us : List ℕ} (hread : stringUnits rest = some (us, r))
      (h : UnitsRead rest us r) : UnitsRead ('\\' :: e :: rest) (x.toNat :: us) r
  | char {c : Char} {rest r : Text} {us : List ℕ} (hquote : c ≠ '"') (hslash : c ≠ '\\') (hcontrol : 32 ≤ c.toNat)
      (h : UnitsRead rest us r) : UnitsRead (c :: rest) (utf16 c ++ us) r

theorem unitsRead (h : stringUnits t = some (us, r)) : UnitsRead t us r := by
  induction t using stringUnits.induct generalizing us r with
  | case1 => cases h
  | case2 rest =>
    rw [stringUnits] at h
    obtain ⟨rfl, rfl⟩ := Prod.mk.inj (Option.some.inj h)
    exact .quote _
  | case3 a b c d rest ih =>
    rw [stringUnits] at h
    obtain ⟨u, hu, h⟩ := bind_eq_some_iff.mp h
    obtain ⟨⟨us', r'⟩, hrest, heq⟩ := map_eq_some_iff.mp h
    obtain ⟨rfl, rfl⟩ := Prod.mk.inj heq
    exact .unicode hu (ih hrest)
  | case4 e rest hu ih =>
    rw [stringUnits] at h
    · obtain ⟨x, -, h⟩ := bind_eq_some_iff.mp h
      obtain ⟨⟨us', r'⟩, hrest, heq⟩ := map_eq_some_iff.mp h
      obtain ⟨rfl, rfl⟩ := Prod.mk.inj heq
      exact .escape hrest (ih hrest)
    · exact hu
  | case5 c rest hquote hu hslash hbad =>
    rw [stringUnits, if_pos hbad] at h
    · cases h
    · exact hquote
    · exact hu
    · exact hslash
  | case6 c rest hquote hu hslash hgood ih =>
    rw [stringUnits, if_neg hgood] at h
    · obtain ⟨⟨us', r'⟩, hrest, heq⟩ := map_eq_some_iff.mp h
      obtain ⟨rfl, rfl⟩ := Prod.mk.inj heq
      rw [not_or, not_lt] at hgood
      exact .char hquote hgood.1 hgood.2 (ih hrest)
    · exact hquote
    · exact hu
    · exact hslash

/-- What is read from a string took a backslash for each unit that has to be escaped. -/
theorem stringUnits_escapes (h : stringUnits t = some (us, r)) :
    us.countP needsEscape + r.count '\\' ≤ t.count '\\' := by
  replace h := unitsRead h
  induction h with
  | quote rest => simp
  | @unicode a b c d rest r u us hu h ih =>
    have hsub : rest.count '\\' ≤ ('u' :: a :: b :: c :: d :: rest).count '\\' :=
      Sublist.count_le _ (sublist_append_right ['u', a, b, c, d] rest)
    rw [count_cons_self, countP_cons]
    split <;> omega
  | @escape e x rest r us hread h ih =>
    have hsub : rest.count '\\' ≤ (e :: rest).count '\\' := count_le_count_cons
    rw [count_cons_self, countP_cons]
    split <;> omega
  | @char c rest r us hquote hslash hcontrol h ih =>
    have h34 : c.toNat ≠ 34 := fun hc => hquote (Char.toNat_inj.mp hc)
    have h92 : c.toNat ≠ 92 := fun hc => hslash (Char.toNat_inj.mp hc)
    have hplain : needsEscape c.toNat = false := by
      simp only [needsEscape, h34, h92, decide_false, Bool.false_or, decide_eq_false_iff_not]
      omega
    have hsub : rest.count '\\' ≤ (c :: rest).count '\\' := count_le_count_cons
    rw [countP_append, countP_utf16, hplain, if_neg (by decide)]
    omega

theorem length_utf16_pos (c : Char) : 1 ≤ (utf16 c).length := by
  rw [utf16]
  split <;> simp

theorem length_units_cons (c : Char) (t : Text) : (units (c :: t)).length = (utf16 c).length + (units t).length := by
  rw [units, flatMap_cons, length_append, units]

theorem two_le_length_units (a b : Char) (t : Text) : 2 ≤ (units (a :: b :: t)).length := by
  have ha := length_utf16_pos a
  have hb := length_utf16_pos b
  rw [length_units_cons, length_units_cons]
  omega

/-- The first character of a text before a quote, if it is no quote. -/
theorem head_of_append {t rest s : Text} {c : Char} (hc : c ≠ '"') (h : t ++ '"' :: rest = c :: s) :
    ∃ t', t = c :: t' ∧ t' ++ '"' :: rest = s := by
  cases t with
  | nil => exact absurd (List.cons.inj h).1.symm hc
  | cons d t =>
    obtain ⟨rfl, ht⟩ := List.cons.inj h
    exact ⟨t, rfl, ht⟩

/-- A quote is no hexadecimal digit. -/
theorem hexUnit_quote {a b c d : Char} (h : '"' ∈ [a, b, c, d]) : hexUnit a b c d = none := by
  have hquote : hexValue ('"'.toLower) = none := by decide
  simp only [mem_cons, not_mem_nil, or_false] at h
  rw [hexUnit]
  rcases h with rfl | rfl | rfl | rfl
  · rw [hquote]
    rfl
  · rw [hquote]
    cases hexValue a.toLower <;> rfl
  · rw [hquote]
    cases hexValue a.toLower <;> cases hexValue b.toLower <;> rfl
  · rw [hquote]
    cases hexValue a.toLower <;> cases hexValue b.toLower <;> cases hexValue c.toLower <;> rfl

/-- How a text without quotes is read before a quote: to its end, shorter for every escape, or past the quote. -/
def ReadsUnquoted (t rest r : Text) (us : List ℕ) : Prop :=
  (r = rest ∧ us.length ≤ (units t).length ∧ ('\\' ∈ t → us.length < (units t).length)) ∨
    ∃ us', stringUnits rest = some (us', r)

theorem ReadsUnquoted.escape {s t rest r : Text} (u : ℕ) (h : ReadsUnquoted t rest r us)
    (hs : 2 ≤ (units s).length) : ReadsUnquoted (s ++ t) rest r (u :: us) := by
  rcases h with ⟨hr, hle, -⟩ | h
  · refine .inl ⟨hr, ?_, fun _ => ?_⟩ <;> simp only [units, flatMap_append, length_append, length_cons] at * <;>
      omega
  · exact .inr h

/-- **A text without quotes, between quotes**: every escape in it makes it shorter, or a backslash at its end takes the
closing quote away. -/
theorem stringUnits_unquoted {t rest r : Text} (h : '"' ∉ t)
    (hread : stringUnits (t ++ '"' :: rest) = some (us, r)) : ReadsUnquoted t rest r us := by
  -- By what is read first; of the text itself at least its first character is.
  generalize hs : t ++ '"' :: rest = s at hread
  replace hread := unitsRead hread
  induction hread generalizing t with
  | quote s =>
    cases t with
    | nil =>
      obtain ⟨-, rfl⟩ := List.cons.inj hs
      exact .inl ⟨rfl, le_rfl, fun hmem => absurd hmem not_mem_nil⟩
    | cons c t =>
      obtain ⟨rfl, -⟩ := List.cons.inj hs
      exact absurd mem_cons_self h
  | @unicode a b c d s r u us hu _ ih =>
    obtain ⟨t₁, rfl, hu₁⟩ := head_of_append (by decide) hs
    obtain ⟨t, rfl, ht⟩ := head_of_append (by decide) hu₁
    rcases append_eq_append_iff.mp (show t ++ '"' :: rest = [a, b, c, d] ++ s from ht) with
      ⟨v, hv, hs'⟩ | ⟨v, rfl, hs'⟩
    · cases v with
      | nil =>
        have hunits : 2 ≤ (units ('\\' :: 'u' :: t)).length := two_le_length_units '\\' 'u' t
        have hnil := ih (t := []) not_mem_nil hs'
        simpa using hnil.escape u hunits
      | cons q v =>
        obtain ⟨rfl, -⟩ := List.cons.inj hs'
        have hquote : '"' ∈ [a, b, c, d] := hv ▸ mem_append_right _ mem_cons_self
        rw [hexUnit_quote hquote] at hu
        cases hu
    · have hv : '"' ∉ v := fun hmem => h (by simp [hmem])
      exact (ih hv hs'.symm).escape u (two_le_length_units '\\' 'u' [a, b, c, d])
  | @escape e x s r us hrest _ ih =>
    obtain ⟨t, rfl, ht⟩ := head_of_append (by decide) hs
    cases t with
    | nil =>
      obtain ⟨-, rfl⟩ := List.cons.inj ht
      exact .inr ⟨us, hrest⟩
    | cons c t =>
      obtain ⟨rfl, htail⟩ := List.cons.inj ht
      have hmem : '"' ∉ t := fun hmem => h (mem_cons_of_mem _ (mem_cons_of_mem _ hmem))
      exact (ih hmem htail).escape x.toNat (two_le_length_units '\\' c [])
  | @char c s r us hquote hslash _ _ ih =>
    obtain ⟨t, rfl, ht⟩ := head_of_append hquote hs
    have hmem : '"' ∉ t := fun hmem => h (mem_cons_of_mem _ hmem)
    rcases ih hmem ht with ⟨hr, hle, hlt⟩ | hpast
    · refine .inl ⟨hr, ?_, fun hin => ?_⟩
      · rw [length_units_cons, length_append]
        exact Nat.add_le_add_left hle _
      · have := hlt (mem_of_ne_of_mem hslash.symm hin)
        rw [length_units_cons, length_append]
        exact Nat.add_lt_add_left this _
    · exact .inr hpast

/-! ## What is read -/

/-- Strings in `i` need at most `n` escapes. -/
def Item.Bounded (n : ℕ) : Item → Prop
  | .value (.string us) => us.countP needsEscape ≤ n
  | .members ms => ∀ m ∈ ms, ∀ us, m.2 = .string us → us.countP needsEscape ≤ n
  | _ => True

theorem Item.Bounded.mono {n m : ℕ} (hnm : n ≤ m) {i : Item} (h : i.Bounded n) : i.Bounded m := by
  cases i with
  | value v =>
    cases v with
    | string us => exact le_trans h hnm
    | _ => trivial
  | items vs => trivial
  | members ms => exact fun p hp us hus => (h p hp us hus).trans hnm

/-- **Every quote, backslash and control character in a string was written with a backslash.** -/
theorem Reads.escapes_le {i : Item} (h : Reads t i r) : r.count '\\' ≤ t.count '\\' ∧ i.Bounded (t.count '\\') := by
  have hsub {a b : Text} (hab : b.Sublist a) : b.count '\\' ≤ a.count '\\' := hab.count_le _
  induction h with
  | @space c t r i _ _ ih =>
    have := hsub (sublist_cons_self c t)
    exact ⟨ih.1.trans this, ih.2.mono this⟩
  | null => exact ⟨hsub (sublist_append_right ['n', 'u', 'l', 'l'] _), trivial⟩
  | true_ => exact ⟨hsub (sublist_append_right ['t', 'r', 'u', 'e'] _), trivial⟩
  | false_ => exact ⟨hsub (sublist_append_right ['f', 'a', 'l', 's', 'e'] _), trivial⟩
  | number => exact ⟨hsub (sublist_append_right _ _), trivial⟩
  | @string t r us hus =>
    have hle := stringUnits_escapes hus
    have := hsub (sublist_cons_self '"' t)
    exact ⟨by omega, show us.countP needsEscape ≤ _ by omega⟩
  | @emptyArray s r => exact ⟨hsub (sublist_append_right ('[' :: (s ++ [']'])) r |>.trans (by simp)), trivial⟩
  | @array t _ _ _ ih => exact ⟨ih.1.trans (hsub (sublist_cons_self '[' t)), trivial⟩
  | @emptyObject s r => exact ⟨hsub (sublist_append_right ('{' :: (s ++ ['}'])) r |>.trans (by simp)), trivial⟩
  | @object t _ _ _ ih => exact ⟨ih.1.trans (hsub (sublist_cons_self '{' t)), trivial⟩
  | @lastItem t s r v _ _ ih =>
    have := hsub ((sublist_cons_self ']' r).trans (sublist_append_right s _))
    exact ⟨this.trans ih.1, trivial⟩
  | @item t s t' r v vs _ _ _ ih ih' =>
    have := hsub ((sublist_cons_self ',' t').trans (sublist_append_right s _))
    exact ⟨ih'.1.trans (this.trans ih.1), trivial⟩
  | @lastMember t s t' s' r k v hkey _ _ _ ih =>
    have hkey := stringUnits_escapes hkey
    have hvalue := hsub ((sublist_cons_self ':' t').trans (sublist_append_right s _))
    have hrest := hsub ((sublist_cons_self '}' r).trans (sublist_append_right s' _))
    have hquote := hsub (sublist_cons_self '"' t)
    refine ⟨by omega, fun p hp us hus => ?_⟩
    obtain rfl := mem_singleton.mp hp
    obtain rfl : v = .string us := hus
    have hbound : us.countP needsEscape ≤ t'.count '\\' := ih.2
    omega
  | @member t s t' s' t'' r k v ms hkey _ _ _ _ ih ih' =>
    have hkey := stringUnits_escapes hkey
    have hvalue := hsub ((sublist_cons_self ':' t').trans (sublist_append_right s _))
    have hrest := hsub ((sublist_cons_self ',' t'').trans (sublist_append_right s' _))
    have hquote := hsub (sublist_cons_self '"' t)
    have hle := ih.1
    refine ⟨by omega, fun p hp us hus => ?_⟩
    rcases mem_cons.mp hp with rfl | hp
    · obtain rfl : v = .string us := hus
      have hbound : us.countP needsEscape ≤ t'.count '\\' := ih.2
      omega
    · have hbound : us.countP needsEscape ≤ t''.count '\\' := ih'.2 p hp us hus
      omega

/-! ## What a text begins with -/

theorem IsNumber.head {n : Text} (h : IsNumber n) : ∃ c t, n = c :: t ∧ numberChar c = true := by
  obtain @⟨sign, int, frac, exp, hsign, ⟨hne, hdigits⟩, -, -, -⟩ := h
  rcases hsign with rfl | rfl
  · obtain ⟨c, t, rfl⟩ := exists_cons_of_ne_nil hne
    have hc : c.isDigit = true := hdigits c mem_cons_self
    exact ⟨c, t ++ frac ++ exp, rfl, by simp [numberChar, hc]⟩
  · exact ⟨'-', int ++ frac ++ exp, rfl, rfl⟩

theorem Reads.not_number {n r t : Text} {c : Char} (hc : numberChar c = false) (hn : IsNumber n) : c :: t ≠ n ++ r := by
  obtain ⟨d, n', rfl, hd⟩ := hn.head
  intro h
  obtain ⟨rfl, -⟩ := List.cons.inj h
  exact absurd hc (by simp [hd])

/-- White space up to a token. -/
theorem space_append {s t t' : Text} {c d : Char} (hs : ∀ x ∈ s, isJsonSpace x = true) (hd : isJsonSpace d = false)
    (h : s ++ c :: t = d :: t') : c = d ∧ t = t' := by
  cases s with
  | nil => exact List.cons.inj h
  | cons x s =>
    obtain ⟨rfl, -⟩ := List.cons.inj h
    exact absurd (hs x mem_cons_self) (by simp [hd])

/-- Behind a quote a string is read. -/
theorem Reads.string_inv {v : Value} (h : Reads ('"' :: t) (.value v) r) :
    ∃ us, v = .string us ∧ stringUnits t = some (us, r) := by
  generalize hs : '"' :: t = s at h
  generalize hi : Item.value v = i at h
  cases h with
  | string hus =>
    obtain ⟨-, rfl⟩ := List.cons.inj hs
    exact ⟨_, Item.value.inj hi, hus⟩
  | number hn =>
    exact absurd hs (Reads.not_number (by decide) hn)
  | space hc =>
    obtain ⟨rfl, -⟩ := List.cons.inj hs
    cases hc
  | null | true_ | false_ | emptyArray | array | emptyObject | object => cases hs
  | lastItem | item | lastMember | member => cases hi

/-- Behind a brace an object is read. -/
theorem Reads.object_inv {v : Value} (h : Reads ('\x7b' :: t) (.value v) r) :
    v = .object [] ∨ ∃ ms, v = .object ms ∧ Reads t (.members ms) r := by
  generalize hs : '\x7b' :: t = s at h
  generalize hi : Item.value v = i at h
  cases h with
  | emptyObject => exact .inl (Item.value.inj hi)
  | object hms =>
    obtain ⟨-, rfl⟩ := List.cons.inj hs
    exact .inr ⟨_, Item.value.inj hi, hms⟩
  | number hn =>
    exact absurd hs (Reads.not_number (by decide) hn)
  | space hc =>
    obtain ⟨rfl, -⟩ := List.cons.inj hs
    cases hc
  | null | true_ | false_ | emptyArray | array | string => cases hs
  | lastItem | item | lastMember | member => cases hi

/-- The members of an object: the first one, and the end of the object or the others. -/
theorem Reads.members_inv {ms : List (List ℕ × Value)} (h : Reads ('"' :: t) (.members ms) r) :
    ∃ k s t' v s' rest, stringUnits t = some (k, s ++ ':' :: t') ∧ (∀ c ∈ s, isJsonSpace c = true) ∧
      Reads t' (.value v) (s' ++ rest) ∧ (∀ c ∈ s', isJsonSpace c = true) ∧ ((rest = '\x7d' :: r ∧ ms = [(k, v)]) ∨
        ∃ t'' ms', rest = ',' :: t'' ∧ Reads t'' (.members ms') r ∧ ms = (k, v) :: ms') := by
  generalize hs : '"' :: t = s at h
  generalize hi : Item.members ms = i at h
  cases h with
  | lastMember hkey hspace hv hspace' =>
    obtain ⟨-, rfl⟩ := List.cons.inj hs
    exact ⟨_, _, _, _, _, _, hkey, hspace, hv, hspace', .inl ⟨rfl, Item.members.inj hi⟩⟩
  | member hkey hspace hv hspace' hms =>
    obtain ⟨-, rfl⟩ := List.cons.inj hs
    exact ⟨_, _, _, _, _, _, hkey, hspace, hv, hspace', .inr ⟨_, _, rfl, hms, Item.members.inj hi⟩⟩
  | space hc =>
    obtain ⟨rfl, -⟩ := List.cons.inj hs
    cases hc
  | null | true_ | false_ | number | string | emptyArray | array | emptyObject | object => cases hi
  | lastItem | item => cases hi

/-! ## Compact texts -/

theorem Reads.plain {t : Text} (h : Plain t) (r : Text) : Reads ('"' :: (t ++ '"' :: r)) (.value (.string (units t))) r :=
  .string (stringUnits_plain h r)

/-- A natural number in decimal digits. -/
theorem Reads.nat (n : ℕ) {r : Text} (hr : ∀ c ∈ r.head?, numberChar c = false) :
    Reads (Nat.toDigits 10 n ++ r) (.value (.number (Nat.toDigits 10 n))) r := by
  refine .number ?_ hr
  have hdigits : Digits (Nat.toDigits 10 n) :=
    ⟨Nat.toDigits_ne_nil, fun c hc => Nat.isDigit_of_mem_toDigits (by decide) (by decide) hc⟩
  have hzero : ∀ c t, Nat.toDigits 10 n ≠ '0' :: c :: t := Json.toDigits_ne_zero_cons n
  simpa using IsNumber.mk (.inl rfl) hdigits hzero (.inl rfl) (.inl rfl)

theorem Reads.compactMember {k t t' r : Text} {v : Value} {ms : List (List ℕ × Value)} (hk : Plain k)
    (hv : Reads t (.value v) (',' :: t')) (hms : Reads t' (.members ms) r) :
    Reads ('"' :: (k ++ '"' :: ':' :: t)) (.members ((units k, v) :: ms)) r := by
  have hnone : ∀ c ∈ ([] : Text), isJsonSpace c = true := fun c hc => absurd hc not_mem_nil
  exact @Reads.member _ [] _ [] _ _ _ _ _ (stringUnits_plain hk _) hnone hv hnone hms

theorem Reads.compactLast {k t r : Text} {v : Value} (hk : Plain k) (hv : Reads t (.value v) ('\x7d' :: r)) :
    Reads ('"' :: (k ++ '"' :: ':' :: t)) (.members [(units k, v)]) r := by
  have hnone : ∀ c ∈ ([] : Text), isJsonSpace c = true := fun c hc => absurd hc not_mem_nil
  exact @Reads.lastMember _ [] _ [] _ _ _ (stringUnits_plain hk _) hnone hv hnone

end Ariad.JsonText
