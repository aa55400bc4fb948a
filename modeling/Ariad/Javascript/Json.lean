import Ariad.Javascript.Buffer

/-!
# JSON of flat objects

Objects whose members are strings and natural numbers, as `JSON.stringify` writes them.

* `stringify`, `parse` — the two directions. A text with anything else in it is not read.
* `parse_stringify` — what was written is read back.
* `jsonBytes`, `length_utf8_stringify` — the size of a written object in UTF-8.
-/

namespace Ariad.Json

open List Option Nat

/-! ## Writing -/

inductive Value where
  | str (t : Text)
  | num (n : ℕ)
  deriving DecidableEq

/-- The members of an object, in order. -/
abbrev Fields := List (Text × Value)

def hexDigit (n : ℕ) : Char := "0123456789abcdef".toList.getD n '0'

/-- A character within quotes. -/
def escape (c : Char) : Text :=
  if c = '"' then ['\\', '"']
  else if c = '\\' then ['\\', '\\']
  else if c.toNat = 8 then ['\\', 'b']
  else if c.toNat = 9 then ['\\', 't']
  else if c.toNat = 10 then ['\\', 'n']
  else if c.toNat = 12 then ['\\', 'f']
  else if c.toNat = 13 then ['\\', 'r']
  else if c.toNat < 32 then ['\\', 'u', '0', '0', hexDigit (c.toNat / 16), hexDigit (c.toNat % 16)]
  else [c]

def quote (t : Text) : Text := '"' :: (t.flatMap escape ++ ['"'])

def Value.text : Value → Text
  | str t => quote t
  | num n => Nat.toDigits 10 n

def member (m : Text × Value) : Text := quote m.1 ++ ':' :: m.2.text

/-- The members behind the first. -/
def moreMembers (o : Fields) : Text := o.flatMap fun m => ',' :: member m

def stringify : Fields → Text
  | [] => ['{', '}']
  | m :: o => '{' :: (member m ++ moreMembers o ++ ['}'])

/-! ## Reading -/

def hexValue (c : Char) : Option ℕ := "0123456789abcdef".toList.idxOf? c

/-- The character of `\u` and four digits. -/
def hexChar (a b c d : Char) : Option Char := do
  let n := (← hexValue a) * 4096 + (← hexValue b) * 256 + (← hexValue c) * 16 + (← hexValue d)
  if n.isValidChar then some (Char.ofNat n) else none

def unescape (c : Char) : Option Char :=
  if c = '"' ∨ c = '\\' ∨ c = '/' then some c
  else if c = 'b' then some (Char.ofNat 8)
  else if c = 't' then some (Char.ofNat 9)
  else if c = 'n' then some (Char.ofNat 10)
  else if c = 'f' then some (Char.ofNat 12)
  else if c = 'r' then some (Char.ofNat 13)
  else none

/-- The characters up to the closing quote, and what is behind it. -/
def parseChars : Text → Option (Text × Text)
  | [] => none
  | '"' :: rest => some ([], rest)
  | '\\' :: 'u' :: a :: b :: c :: d :: rest =>
    (hexChar a b c d).bind fun x => (parseChars rest).map fun p => (x :: p.1, p.2)
  | '\\' :: e :: rest => (unescape e).bind fun x => (parseChars rest).map fun p => (x :: p.1, p.2)
  | c :: rest => if c = '\\' ∨ c.toNat < 32 then none else (parseChars rest).map fun p => (c :: p.1, p.2)

def parseString : Text → Option (Text × Text)
  | '"' :: rest => parseChars rest
  | _ => none

/-- Decimal digits without a leading zero. -/
def parseNumber (t : Text) : Option (ℕ × Text) :=
  match t.takeWhile Char.isDigit with
  | [] => none
  | '0' :: _ :: _ => none
  | digits => some (Nat.ofDigitChars 10 digits 0, t.dropWhile Char.isDigit)

def parseValue (t : Text) : Option (Value × Text) :=
  match t with
  | '"' :: rest => (parseChars rest).map fun p => (.str p.1, p.2)
  | t => (parseNumber t).map fun p => (.num p.1, p.2)

def parseMember (t : Text) : Option ((Text × Value) × Text) :=
  (parseString t).bind fun p =>
    match p.2 with
    | ':' :: rest => (parseValue rest).map fun v => ((p.1, v.1), v.2)
    | _ => none

/-- The members behind a first one, up to the closing brace at the end of the text; the number bounds how many. -/
def parseMore : ℕ → Text → Option Fields
  | _, ['}'] => some []
  | k + 1, ',' :: rest => (parseMember rest).bind fun p => (parseMore k p.2).map (p.1 :: ·)
  | _, _ => none

def parse (t : Text) : Option Fields :=
  match t with
  | ['{', '}'] => some []
  | '{' :: rest => (parseMember rest).bind fun p => (parseMore t.length p.2).map (p.1 :: ·)
  | _ => none

/-! ## What was written is read back -/

theorem hexValue_hexDigit {n : ℕ} (h : n < 16) : hexValue (hexDigit n) = some n := by
  have hall : ∀ n < 16, hexValue (hexDigit n) = some n := by decide
  exact hall n h

theorem hexChar_hexDigit {c : Char} (h : c.toNat < 32) :
    hexChar '0' '0' (hexDigit (c.toNat / 16)) (hexDigit (c.toNat % 16)) = some c := by
  have hzero : hexValue '0' = some 0 := rfl
  have hvalue : 0 * 4096 + 0 * 256 + c.toNat / 16 * 16 + c.toNat % 16 = c.toNat := by omega
  simp only [hexChar, hzero, hexValue_hexDigit (n := c.toNat / 16) (by omega),
    hexValue_hexDigit (n := c.toNat % 16) (by omega), bind_eq_bind, bind_some, hvalue]
  rw [if_pos (.inl (by omega)), Char.ofNat_toNat]

theorem unescape_of_toNat {c e : Char} {n : ℕ} (h : c.toNat = n) (he : unescape e = some (Char.ofNat n)) :
    unescape e = some c := by
  rw [he, ← h, Char.ofNat_toNat]

theorem parseChars_unescape {c e : Char} (he : e ≠ 'u') (h : unescape e = some c) (rest : Text) :
    parseChars ('\\' :: e :: rest) = (parseChars rest).map fun p => (c :: p.1, p.2) := by
  rw [parseChars, h, bind_some]
  · rintro _ _ _ _ _ rfl
    exact absurd rfl he

theorem parseChars_escape (c : Char) (rest : Text) :
    parseChars (escape c ++ rest) = (parseChars rest).map fun p => (c :: p.1, p.2) := by
  rw [escape]
  iterate 2
    split
    · subst c
      exact parseChars_unescape (by decide) rfl rest
  iterate 5
    split
    · exact parseChars_unescape (by decide) (unescape_of_toNat (by assumption) rfl) rest
  split
  · rename_i hsmall
    have hchar := hexChar_hexDigit hsmall
    simp only [cons_append, nil_append]
    rw [parseChars, hchar, bind_some]
  · rename_i hquote hback _ _ _ _ _ hsmall
    simp only [cons_append, nil_append]
    rw [parseChars, if_neg]
    · rintro (hc | hc)
      · exact hback hc
      · exact hsmall hc
    · exact fun h => hquote h
    · intro _ _ _ _ _ h
      exact absurd h hback
    · intro _ _ h
      exact absurd h hback

theorem parseChars_flatMap (t rest : Text) : parseChars (t.flatMap escape ++ '"' :: rest) = some (t, rest) := by
  induction t with
  | nil => rw [flatMap_nil, nil_append, parseChars]
  | cons c t ih =>
    rw [flatMap_cons, append_assoc, parseChars_escape, ih]
    rfl

theorem parseString_quote (t rest : Text) : parseString (quote t ++ rest) = some (t, rest) := by
  rw [quote, cons_append, append_assoc, parseString]
  exact parseChars_flatMap t rest

/-- What is behind a number. -/
def Ends (rest : Text) : Prop := ∀ c ∈ rest.head?, c.isDigit = false

theorem takeWhile_digits {digits rest : Text} (h : ∀ c ∈ digits, c.isDigit = true) (hrest : Ends rest) :
    (digits ++ rest).takeWhile Char.isDigit = digits ∧ (digits ++ rest).dropWhile Char.isDigit = rest := by
  have hnil : rest.takeWhile Char.isDigit = [] ∧ rest.dropWhile Char.isDigit = rest := by
    cases rest with
    | nil => exact ⟨rfl, rfl⟩
    | cons c rest =>
      have hc : c.isDigit = false := hrest c rfl
      exact ⟨takeWhile_cons_of_neg (by simp [hc]), dropWhile_cons_of_neg (by simp [hc])⟩
  rw [takeWhile_append_of_pos h, dropWhile_append_of_pos h, hnil.1, hnil.2, append_nil]
  exact ⟨rfl, rfl⟩

/-- A number has no leading zero. -/
theorem toDigits_ne_zero_cons (n : ℕ) (c : Char) (digits : Text) : Nat.toDigits 10 n ≠ '0' :: c :: digits := by
  induction n using Nat.strong_induction_on generalizing c digits with
  | _ n ih =>
    by_cases hn : n < 10
    · rw [toDigits_of_lt_base hn]
      simp
    · rw [toDigits_of_base_le (by omega) (by omega)]
      intro h
      -- The digits of `n / 10` come first.
      cases hd : Nat.toDigits 10 (n / 10) with
      | nil => exact absurd hd toDigits_ne_nil
      | cons d ds =>
        rw [hd, cons_append, List.cons.injEq] at h
        obtain ⟨rfl, h⟩ := h
        cases ds with
        | nil =>
          have hvalue := ofDigitChars_toDigits (b := 10) (n := n / 10) (by omega) (by omega)
          rw [hd] at hvalue
          have hzero : Nat.ofDigitChars 10 ['0'] 0 = 0 := rfl
          omega
        | cons d ds => exact ih (n / 10) (by omega) d ds hd

theorem parseNumber_toDigits (n : ℕ) {rest : Text} (hrest : Ends rest) :
    parseNumber (Nat.toDigits 10 n ++ rest) = some (n, rest) := by
  have hdigits : ∀ c ∈ Nat.toDigits 10 n, c.isDigit = true :=
    fun c hc => isDigit_of_mem_toDigits (by omega) (by omega) hc
  obtain ⟨htake, hdrop⟩ := takeWhile_digits hdigits hrest
  have hvalue := ofDigitChars_toDigits (b := 10) (n := n) (by omega) (by omega)
  rw [parseNumber, htake, hdrop]
  split
  · rename_i hnil
    exact absurd hnil toDigits_ne_nil
  · rename_i hzero
    exact absurd hzero (toDigits_ne_zero_cons n _ _)
  · rw [hvalue]

theorem parseValue_text (v : Value) {rest : Text} (hrest : Ends rest) :
    parseValue (v.text ++ rest) = some (v, rest) := by
  cases v with
  | str t =>
    rw [Value.text, quote, cons_append, append_assoc, parseValue]
    have hchars : parseChars (t.flatMap escape ++ (['"'] ++ rest)) = some (t, rest) := parseChars_flatMap t rest
    rw [hchars, map_some]
  | num n =>
    have hvalue := parseNumber_toDigits n hrest
    rw [Value.text, parseValue, hvalue, map_some]
    -- A digit is no quote.
    intro rest' h
    cases hd : Nat.toDigits 10 n with
    | nil => exact toDigits_ne_nil hd
    | cons d ds =>
      have hdigit : d.isDigit = true :=
        isDigit_of_mem_toDigits (b := 10) (n := n) (by omega) (by omega) (hd ▸ mem_cons_self)
      rw [hd, cons_append, List.cons.injEq] at h
      obtain ⟨rfl, -⟩ := h
      exact absurd hdigit (by decide)

theorem parseMember_member (m : Text × Value) {rest : Text} (hrest : Ends rest) :
    parseMember (member m ++ rest) = some (m, rest) := by
  rw [member, append_assoc, parseMember, parseString_quote, bind_some, cons_append]
  simp only
  rw [parseValue_text m.2 hrest, map_some]

theorem ends_moreMembers (o : Fields) : Ends (moreMembers o ++ ['}']) := by
  cases o with
  | nil =>
    intro c hc
    obtain rfl := Option.some.inj hc
    rfl
  | cons m o =>
    intro c hc
    obtain rfl := Option.some.inj hc
    rfl

theorem parseMore_moreMembers (o : Fields) {k : ℕ} (hk : o.length ≤ k) :
    parseMore k (moreMembers o ++ ['}']) = some o := by
  induction o generalizing k with
  | nil =>
    cases k <;> rfl
  | cons m o ih =>
    obtain ⟨k, rfl⟩ : ∃ l, k = l + 1 := ⟨k - 1, by simp only [length_cons] at hk; omega⟩
    have hmember := parseMember_member m (ends_moreMembers o)
    have htext : moreMembers (m :: o) ++ ['}'] = ',' :: (member m ++ (moreMembers o ++ ['}'])) := by
      simp [moreMembers]
    rw [htext, parseMore, hmember, bind_some, ih (by simpa using hk), map_some]

theorem length_le_length_moreMembers (o : Fields) : o.length ≤ (moreMembers o).length := by
  induction o with
  | nil => exact Nat.zero_le _
  | cons m o ih =>
    simp only [moreMembers, flatMap_cons, length_append, length_cons] at ih ⊢
    omega

theorem parse_stringify (o : Fields) : parse (stringify o) = some o := by
  cases o with
  | nil => rfl
  | cons m o =>
    have hmember := parseMember_member m (ends_moreMembers o)
    have htext : stringify (m :: o) = '{' :: (member m ++ (moreMembers o ++ ['}'])) := by
      simp [stringify]
    have hlength : o.length ≤ (stringify (m :: o)).length := by
      have hmore := length_le_length_moreMembers o
      rw [htext]
      simp only [length_cons, length_append]
      omega
    rw [htext] at hlength ⊢
    rw [parse, hmember, bind_some, parseMore_moreMembers o hlength, map_some]
    intro h
    -- A member begins with a quote.
    simp [member, quote] at h

/-! ## Sizes -/

/-- The bytes of a character within quotes. -/
def charBytes (c : Char) : ℕ := (utf8 (escape c)).length

/-- The bytes of a string without its quotes. -/
def jsonBytes (t : Text) : ℕ := (t.map charBytes).sum

def Value.bytes : Value → ℕ
  | str t => jsonBytes t + 2
  | num n => (Nat.toDigits 10 n).length

theorem length_utf8_ascii {t : Text} (h : ∀ c ∈ t, c.utf8Size = 1) : (utf8 t).length = t.length := by
  rw [length_utf8]
  induction t with
  | nil => rfl
  | cons c t ih =>
    rw [map_cons, sum_cons, length_cons, ih fun d hd => h d (mem_cons_of_mem _ hd),
      h c mem_cons_self]
    omega

theorem length_utf8_quote (t : Text) : (utf8 (quote t)).length = jsonBytes t + 2 := by
  have htext : quote t = ['"'] ++ t.flatMap escape ++ ['"'] := rfl
  have hquote : (utf8 ['"']).length = 1 := by decide
  have hbody : (utf8 (t.flatMap escape)).length = jsonBytes t := by
    induction t with
    | nil => rfl
    | cons c t ih =>
      rw [flatMap_cons, length_utf8_append, ih rfl]
      rfl
  rw [htext, length_utf8_append, length_utf8_append, hquote, hbody]
  omega

theorem length_utf8_text (v : Value) : (utf8 v.text).length = v.bytes := by
  cases v with
  | str t => exact length_utf8_quote t
  | num n =>
    apply length_utf8_ascii
    intro c hc
    have hdigit : c.isDigit = true := isDigit_of_mem_toDigits (by omega) (by omega) hc
    rw [Char.utf8Size_eq_one_iff]
    simp only [Char.isDigit, Bool.and_eq_true, decide_eq_true_eq] at hdigit
    exact UInt32.le_trans hdigit.2 (by decide)

theorem length_utf8_member (m : Text × Value) : (utf8 (member m)).length = jsonBytes m.1 + 3 + m.2.bytes := by
  have htext : member m = quote m.1 ++ [':'] ++ m.2.text := by simp [member]
  have hcolon : (utf8 [':']).length = 1 := by decide
  rw [htext, length_utf8_append, length_utf8_append, length_utf8_quote, length_utf8_text, hcolon]

theorem length_utf8_moreMembers (o : Fields) :
    (utf8 (moreMembers o)).length = (o.map fun m => jsonBytes m.1 + 4 + m.2.bytes).sum := by
  induction o with
  | nil => rfl
  | cons m o ih =>
    have htext : moreMembers (m :: o) = [','] ++ member m ++ moreMembers o := by simp [moreMembers]
    have hcomma : (utf8 [',']).length = 1 := by decide
    rw [htext, length_utf8_append, length_utf8_append, length_utf8_member, hcomma, ih, map_cons, sum_cons]
    omega

/-- A member has its two strings or digits, and four more characters: two quotes, a colon, a comma or brace. -/
theorem length_utf8_stringify {o : Fields} (h : o ≠ []) :
    (utf8 (stringify o)).length = (o.map fun m => jsonBytes m.1 + 4 + m.2.bytes).sum + 1 := by
  cases o with
  | nil => exact absurd rfl h
  | cons m o =>
    have htext : stringify (m :: o) = ['{'] ++ member m ++ moreMembers o ++ ['}'] := by simp [stringify]
    have hopen : (utf8 ['{']).length = 1 := by decide
    have hclose : (utf8 ['}']).length = 1 := by decide
    rw [htext, length_utf8_append, length_utf8_append, length_utf8_append, length_utf8_member,
      length_utf8_moreMembers, hopen, hclose, map_cons, sum_cons]
    omega

end Ariad.Json
