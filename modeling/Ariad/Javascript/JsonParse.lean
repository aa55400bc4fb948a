import Mathlib.Algebra.Order.Floor.Semiring
import Mathlib.Data.Int.Log
import Mathlib.Tactic.Positivity
import Mathlib.Data.Rat.Floor
import Ariad.Javascript.CodeUnits

/-!
# Reading and writing JSON

* `parse` — `JSON.parse`: a number is kept as it is written.
* `numberOf` — the number that a literal is read as, to the nearest double.
* `pretty` — `JSON.stringify(object, null, 2)` of an object whose members are strings and natural numbers.
* `parse_pretty` — what was written is read back.
* `length_utf8_pretty_le` — the bytes of a written object.
-/

namespace Ariad.JsonText

open List Option Nat

/-! ## Numbers -/

/-- The parts of a number: sign, integer, fraction, and the exponent with its sign. -/
structure Literal where
  negative : Bool
  int : Text
  frac : Text
  exp : ℤ

/-- Decimal digits, at least one, and what is behind them. -/
def readDigits (t : Text) : Option (Text × Text) :=
  if t.takeWhile Char.isDigit = [] then none else some (t.takeWhile Char.isDigit, t.dropWhile Char.isDigit)

/-- The fraction of a number. -/
def readFraction : Text → Option (Text × Text)
  | '.' :: t => readDigits t
  | t => some ([], t)

/-- The exponent of a number. -/
def readExponent : Text → Option (ℤ × Text)
  | 'e' :: t | 'E' :: t =>
    match t with
    | '-' :: t => (readDigits t).map fun p => (-(Nat.ofDigitChars 10 p.1 0 : ℤ), p.2)
    | '+' :: t => (readDigits t).map fun p => ((Nat.ofDigitChars 10 p.1 0 : ℤ), p.2)
    | t => (readDigits t).map fun p => ((Nat.ofDigitChars 10 p.1 0 : ℤ), p.2)
  | t => some (0, t)

/-- The number at the head of a text, without its sign. -/
def readUnsigned (negative : Bool) (t : Text) : Option (Literal × Text) :=
  (readDigits t).bind fun int =>
    match int.1 with
    | '0' :: _ :: _ => none
    | _ => (readFraction int.2).bind fun frac => (readExponent frac.2).map fun exp =>
        (⟨negative, int.1, frac.1, exp.1⟩, exp.2)

def readLiteral : Text → Option (Literal × Text)
  | '-' :: t => readUnsigned true t
  | t => readUnsigned false t

def Literal.value (l : Literal) : ℚ :=
  (if l.negative then -1 else 1) * Nat.ofDigitChars 10 (l.int ++ l.frac) 0 * (10 : ℚ) ^ (l.exp - l.frac.length)

/-- The nearest integer, of two the even one. -/
def roundEven (q : ℚ) : ℤ :=
  if q - ⌊q⌋ < 1 / 2 then ⌊q⌋ else if 1 / 2 < q - ⌊q⌋ then ⌊q⌋ + 1 else if ⌊q⌋ % 2 = 0 then ⌊q⌋ else ⌊q⌋ + 1

/-- The place of the last of fifty-three binary digits, or of the last that there is. -/
def lastPlace (q : ℚ) : ℤ := max (Int.log 2 |q| - 52) (-1074)

/-- The nearest double, as long as the number is not too large for one. -/
def nearestDouble (q : ℚ) : ℚ := roundEven (q / 2 ^ lastPlace q) * 2 ^ lastPlace q

/-- The number that a literal stands for. -/
def numberOf (t : Text) : ℚ := ((readLiteral t).map fun l => nearestDouble l.1.value).getD 0

/-! ## Reading -/

def skipSpace (t : Text) : Text := t.dropWhile isJsonSpace

mutual

/-- The value at the head of a text, and what is behind it; the number bounds the depth. -/
def readValue : ℕ → Text → Option (Value × Text)
  | 0, _ => none
  | fuel + 1, t =>
    match skipSpace t with
    | 'n' :: 'u' :: 'l' :: 'l' :: r => some (.null, r)
    | 't' :: 'r' :: 'u' :: 'e' :: r => some (.bool true, r)
    | 'f' :: 'a' :: 'l' :: 's' :: 'e' :: r => some (.bool false, r)
    | '"' :: r => (stringUnits r).map fun p => (.string p.1, p.2)
    | '[' :: r =>
      match skipSpace r with
      | ']' :: r => some (.array [], r)
      | r => (readItems fuel r).map fun p => (.array p.1, p.2)
    | '\x7b' :: r =>
      match skipSpace r with
      | '\x7d' :: r => some (.object [], r)
      | r => (readMembers fuel r).map fun p => (.object p.1, p.2)
    | r => (readLiteral r).map fun p => (.number (r.take (r.length - p.2.length)), p.2)

/-- The items of an array up to its end. -/
def readItems : ℕ → Text → Option (List Value × Text)
  | 0, _ => none
  | fuel + 1, t =>
    (readValue fuel t).bind fun v =>
      match skipSpace v.2 with
      | ',' :: r => (readItems fuel r).map fun p => (v.1 :: p.1, p.2)
      | ']' :: r => some ([v.1], r)
      | _ => none

/-- The members of an object up to its end. -/
def readMembers : ℕ → Text → Option (List (List ℕ × Value) × Text)
  | 0, _ => none
  | fuel + 1, t =>
    match skipSpace t with
    | '"' :: r =>
      (stringUnits r).bind fun k =>
        match skipSpace k.2 with
        | ':' :: r =>
          (readValue fuel r).bind fun v =>
            match skipSpace v.2 with
            | ',' :: r => (readMembers fuel r).map fun p => ((k.1, v.1) :: p.1, p.2)
            | '\x7d' :: r => some ([(k.1, v.1)], r)
            | _ => none
        | _ => none
    | _ => none

end

/-- `JSON.parse`. -/
def parse (t : Text) : Option Value :=
  (readValue (t.length + 1) t).bind fun p => if skipSpace p.2 = [] then some p.1 else none

/-- `Object.keys`: the keys in the order of their first members. -/
def keys (members : List (List ℕ × Value)) : List (List ℕ) := (members.map Prod.fst).reverse.dedup.reverse

/-- `object[key]`: of two members with one key the last one. -/
def field (members : List (List ℕ × Value)) (key : List ℕ) : Option Value :=
  (members.reverse.find? fun m => m.1 = key).map Prod.snd

/-! ## Writing -/

inductive Scalar where
  | num (n : ℕ)
  | str (s : JsString)

/-- The value of a member. -/
def Scalar.value : Scalar → Value
  | num n => .number (Nat.toDigits 10 n)
  | str s => .string s.toUnits

def Scalar.text : Scalar → Text
  | num n => Nat.toDigits 10 n
  | str s => quote s.toUnits

def prettyMember (m : Text × Scalar) : Text := ' ' :: ' ' :: quote (units m.1) ++ ':' :: ' ' :: m.2.text

/-- The members behind the first one, and the end of the object. -/
def prettyRest : List (Text × Scalar) → Text
  | [] => ['\n', '\x7d']
  | m :: rest => ',' :: '\n' :: prettyMember m ++ prettyRest rest

/-- `JSON.stringify(object, null, 2)` -/
def pretty : List (Text × Scalar) → Text
  | [] => ['\x7b', '\x7d']
  | m :: rest => '\x7b' :: '\n' :: prettyMember m ++ prettyRest rest

/-- The object of the members. -/
def objectOf (members : List (Text × Scalar)) : List (List ℕ × Value) :=
  members.map fun m => (units m.1, m.2.value)

example : pretty [("n".toList, .num 12), ("s".toList, .str (.ofText "a\"".toList))] =
    "\x7b\n  \"n\": 12,\n  \"s\": \"a\\\"\"\n\x7d".toList := by decide

/-! ## What was written is read back -/

variable {r : Text}

theorem skipSpace_cons_of_not {c : Char} (h : isJsonSpace c = false) (t : Text) : skipSpace (c :: t) = c :: t :=
  dropWhile_cons_of_neg (by simp [h])

theorem skipSpace_cons {c : Char} (h : isJsonSpace c = true) (t : Text) : skipSpace (c :: t) = skipSpace t :=
  dropWhile_cons_of_pos h

theorem isDigit_toDigits {n : ℕ} : ∀ c ∈ Nat.toDigits 10 n, c.isDigit = true :=
  fun _ hc => isDigit_of_mem_toDigits (by omega) (by omega) hc

/-- What may stand behind a number. -/
def EndsNumber (r : Text) : Prop := ∀ c ∈ r.head?, numberChar c = false

theorem readDigits_toDigits (n : ℕ) (hr : EndsNumber r) :
    readDigits (Nat.toDigits 10 n ++ r) = some (Nat.toDigits 10 n, r) := by
  have hends : Json.Ends r := fun c hc => by
    have hc := hr c hc
    simp only [numberChar, Bool.or_eq_false_iff] at hc
    exact hc.1.1.1.1.1
  obtain ⟨htake, hdrop⟩ := Json.takeWhile_digits isDigit_toDigits hends
  rw [readDigits, htake, hdrop, if_neg toDigits_ne_nil]

theorem readFraction_ends (hr : EndsNumber r) : readFraction r = some ([], r) := by
  rw [readFraction]
  rintro t rfl
  exact absurd (hr '.' rfl) (by decide)

theorem readExponent_ends (hr : EndsNumber r) : readExponent r = some (0, r) := by
  rw [readExponent]
  · rintro t rfl
    exact absurd (hr 'e' rfl) (by decide)
  · rintro t rfl
    exact absurd (hr 'E' rfl) (by decide)

/-- The number that the digits of a natural number are. -/
theorem readLiteral_toDigits (n : ℕ) (hr : EndsNumber r) :
    readLiteral (Nat.toDigits 10 n ++ r) = some (⟨false, Nat.toDigits 10 n, [], 0⟩, r) := by
  have hunsigned : readUnsigned false (Nat.toDigits 10 n ++ r) = some (⟨false, Nat.toDigits 10 n, [], 0⟩, r) := by
    rw [readUnsigned, readDigits_toDigits n hr, bind_some]
    dsimp only
    split
    · rename_i hzero
      exact absurd hzero (Json.toDigits_ne_zero_cons n _ _)
    · rw [readFraction_ends hr, bind_some]
      dsimp only
      rw [readExponent_ends hr, map_some]
  rw [readLiteral, hunsigned]
  intro t h
  obtain ⟨d, ds, hd⟩ := exists_cons_of_ne_nil (toDigits_ne_nil (b := 10) (n := n))
  have hdigit : d.isDigit = true := isDigit_toDigits (n := n) d (hd ▸ mem_cons_self)
  rw [hd, cons_append, List.cons.injEq] at h
  obtain ⟨rfl, -⟩ := h
  exact absurd hdigit (by decide)

theorem readValue_num (fuel n : ℕ) (hr : EndsNumber r) :
    readValue (fuel + 1) (Nat.toDigits 10 n ++ r) = some (.number (Nat.toDigits 10 n), r) := by
  obtain ⟨d, ds, hd⟩ := exists_cons_of_ne_nil (toDigits_ne_nil (b := 10) (n := n))
  have hdigit : d.isDigit = true := isDigit_toDigits (n := n) d (hd ▸ mem_cons_self)
  have hspace : isJsonSpace d = false := by
    by_contra h
    rw [Bool.not_eq_false] at h
    simp only [isJsonSpace, Bool.or_eq_true, decide_eq_true_eq] at h
    rcases h with ((rfl | rfl) | rfl) | rfl <;> cases hdigit
  have hskip : skipSpace (Nat.toDigits 10 n ++ r) = Nat.toDigits 10 n ++ r := by
    rw [hd, cons_append, skipSpace_cons_of_not hspace]
  have hhead {c : Char} {t : Text} (hc : c.isDigit = false) : Nat.toDigits 10 n ++ r ≠ c :: t := by
    rw [hd, cons_append]
    rintro h
    obtain ⟨rfl, -⟩ := List.cons.inj h
    rw [hdigit] at hc
    cases hc
  rw [readValue, hskip]
  split
  iterate 6
    · rename_i h
      exact absurd h (hhead (by decide))
  · rw [readLiteral_toDigits n hr, map_some]
    simp

theorem readValue_str (fuel : ℕ) (s : JsString) (r : Text) :
    readValue (fuel + 1) (quote s.toUnits ++ r) = some (.string s.toUnits, r) := by
  have htext : quote s.toUnits ++ r = '"' :: (quoteUnits s.toUnits ++ '"' :: r) := by simp [quote]
  rw [htext, readValue, skipSpace_cons_of_not (by decide)]
  change (stringUnits (quoteUnits s.toUnits ++ '"' :: r)).map (fun p => (Value.string p.1, p.2)) = _
  rw [stringUnits_quoteUnits fun _ => JsString.lt_of_mem_toUnits]
  rfl

theorem readValue_scalar (fuel : ℕ) (v : Scalar) (hr : EndsNumber r) :
    readValue (fuel + 1) (' ' :: (v.text ++ r)) = some (v.value, r) := by
  have hspace (t : Text) : readValue (fuel + 1) (' ' :: t) = readValue (fuel + 1) t := by
    rw [readValue, readValue, skipSpace_cons (by decide)]
  rw [hspace]
  cases v with
  | num n => exact readValue_num fuel n hr
  | str s => exact readValue_str fuel s r

theorem lt_of_mem_units {t : Text} {u : ℕ} (h : u ∈ units t) : u < 0x10000 := by
  obtain ⟨c, -, hu⟩ := mem_flatMap.mp h
  have hchar : c.toNat < 0x110000 := by
    have hnat : c.toNat = c.val.toNat := rfl
    have hvalid := c.valid
    simp only [UInt32.isValidChar, Nat.isValidChar] at hvalid
    omega
  rw [utf16] at hu
  split at hu
  · rename_i hsmall
    exact mem_singleton.mp hu ▸ hsmall
  · rcases mem_cons.mp hu with rfl | hu
    · omega
    · rw [mem_singleton] at hu
      omega

theorem endsNumber_prettyRest (rest : List (Text × Scalar)) (tail : Text) : EndsNumber (prettyRest rest ++ tail) := by
  cases rest with
  | nil =>
    intro c hc
    obtain rfl := Option.some.inj hc
    rfl
  | cons m rest =>
    intro c hc
    obtain rfl := Option.some.inj hc
    rfl

/-- A member is read, and the members behind it are left. -/
theorem readMembers_member (fuel : ℕ) (m : Text × Scalar) {t : Text} (ht : EndsNumber t) :
    readMembers (fuel + 2) ('\n' :: (prettyMember m ++ t)) = match skipSpace t with
      | ',' :: r => (readMembers (fuel + 1) r).map fun p => ((units m.1, m.2.value) :: p.1, p.2)
      | '\x7d' :: r => some ([(units m.1, m.2.value)], r) | _ => none := by
  have htext : '\n' :: (prettyMember m ++ t) =
      '\n' :: ' ' :: ' ' :: '"' :: (quoteUnits (units m.1) ++ '"' :: ':' :: ' ' :: (m.2.text ++ t)) := by
    simp [prettyMember, quote]
  rw [htext, readMembers, skipSpace_cons (by decide), skipSpace_cons (by decide), skipSpace_cons (by decide),
    skipSpace_cons_of_not (by decide)]
  simp only [stringUnits_quoteUnits fun _ => lt_of_mem_units, bind_some, skipSpace_cons_of_not (c := ':') rfl,
    readValue_scalar fuel m.2 ht]

theorem readMembers_pretty (m : Text × Scalar) (rest : List (Text × Scalar)) (tail : Text) {fuel : ℕ}
    (hfuel : rest.length + 2 ≤ fuel) :
    readMembers fuel ('\n' :: (prettyMember m ++ (prettyRest rest ++ tail))) = some (objectOf (m :: rest), tail) := by
  induction rest generalizing m fuel with
  | nil =>
    obtain ⟨fuel, rfl⟩ := Nat.exists_eq_add_of_le' hfuel
    have hskip : skipSpace (prettyRest [] ++ tail) = '\x7d' :: tail := by
      rw [prettyRest, cons_append, singleton_append, skipSpace_cons (by decide),
        skipSpace_cons_of_not (by decide)]
    rw [length_nil, Nat.zero_add, readMembers_member fuel m (endsNumber_prettyRest [] tail), hskip]
    rfl
  | cons m' rest ih =>
    obtain ⟨fuel, rfl⟩ := Nat.exists_eq_add_of_le' (show 2 ≤ fuel by omega)
    have hskip : skipSpace (prettyRest (m' :: rest) ++ tail) =
        ',' :: '\n' :: (prettyMember m' ++ (prettyRest rest ++ tail)) := by
      rw [prettyRest, cons_append, cons_append, skipSpace_cons_of_not rfl, cons_append,
        cons_append, append_assoc]
    rw [length_cons] at hfuel
    simp only [readMembers_member fuel m (endsNumber_prettyRest _ tail), hskip,
      ih m' (show rest.length + 2 ≤ fuel + 1 by omega)]
    rfl

theorem length_le_length_prettyRest (rest : List (Text × Scalar)) : rest.length ≤ (prettyRest rest).length := by
  induction rest with
  | nil => exact Nat.zero_le _
  | cons m rest ih =>
    rw [prettyRest, length_cons, length_append, length_cons, length_cons]
    omega

theorem readMembers_skipSpace (fuel : ℕ) (t : Text) : readMembers fuel (skipSpace t) = readMembers fuel t := by
  cases fuel with
  | zero => rw [readMembers, readMembers]
  | succ fuel =>
    have hskip : skipSpace (skipSpace t) = skipSpace t := dropWhile_idempotent _ _
    rw [readMembers, readMembers, hskip]

/-- **What was written is read back.** -/
theorem parse_pretty {members : List (Text × Scalar)} (h : members ≠ []) {tail : Text} (htail : skipSpace tail = []) :
    parse (pretty members ++ tail) = some (.object (objectOf members)) := by
  obtain ⟨m, rest, rfl⟩ := exists_cons_of_ne_nil h
  have htext : pretty (m :: rest) ++ tail = '\x7b' :: '\n' :: (prettyMember m ++ (prettyRest rest ++ tail)) := by
    simp [pretty]
  have hlength := length_le_length_prettyRest rest
  have hskip : skipSpace ('\n' :: (prettyMember m ++ (prettyRest rest ++ tail))) =
      '"' :: (quoteUnits (units m.1) ++ '"' :: ':' :: ' ' :: (m.2.text ++ (prettyRest rest ++ tail))) := by
    rw [skipSpace_cons rfl, prettyMember, cons_append, cons_append, cons_append, cons_append,
      skipSpace_cons rfl, skipSpace_cons rfl, quote]
    simp only [cons_append, append_assoc, nil_append]
    exact skipSpace_cons_of_not rfl _
  have hfuel : rest.length + 2 ≤ (pretty (m :: rest) ++ tail).length := by
    rw [htext]
    simp only [length_cons, length_append]
    omega
  have hmembers := readMembers_pretty m rest tail hfuel
  rw [← readMembers_skipSpace, hskip] at hmembers
  have hvalue : readValue ((pretty (m :: rest) ++ tail).length + 1) (pretty (m :: rest) ++ tail) =
      some (.object (objectOf (m :: rest)), tail) := by
    rw [readValue]
    generalize (pretty (m :: rest) ++ tail).length = fuel at hmembers
    rw [htext, skipSpace_cons_of_not rfl]
    simp only [hskip]
    change (readMembers fuel _).map (fun p => (Value.object p.1, p.2)) = _
    rw [hmembers, map_some]
  rw [parse, hvalue, bind_some, if_pos htail]

/-! ## Natural numbers as doubles -/

theorem roundEven_intCast (n : ℤ) : roundEven n = n := by
  rw [roundEven, Int.floor_intCast, sub_self, if_pos (by norm_num)]

theorem floor_le_roundEven (q : ℚ) : ⌊q⌋ ≤ roundEven q := by
  rw [roundEven]
  split
  · exact le_refl _
  split
  · omega
  split
  · exact le_refl _
  · omega

/-- Below `2 ^ 53` a natural number is a double. -/
theorem nearestDouble_natCast {n : ℕ} (h : n < 2 ^ 53) : nearestDouble n = n := by
  have hlog : Int.log 2 |(n : ℚ)| ≤ 52 := by
    rw [abs_cast, Int.log_natCast]
    exact_mod_cast Nat.lt_succ_iff.mp (log_lt_of_lt_pow' (by decide) h)
  obtain ⟨k, hk⟩ : ∃ k : ℕ, lastPlace n = -(k : ℤ) :=
    ⟨(-lastPlace n).toNat, by rw [lastPlace]; omega⟩
  have hinteger : (n : ℚ) / 2 ^ lastPlace n = ((n * 2 ^ k : ℤ) : ℚ) := by
    rw [hk, zpow_neg, zpow_natCast, div_inv_eq_mul]
    push_cast
    rfl
  rw [nearestDouble, hinteger, roundEven_intCast, ← hinteger]
  exact div_mul_cancel₀ _ (zpow_ne_zero _ two_ne_zero)

/-- A larger one is read as a number that is as large. -/
theorem le_nearestDouble_natCast {n : ℕ} (h : 2 ^ 53 ≤ n) : (2 : ℚ) ^ 53 ≤ nearestDouble n := by
  have hpos : n ≠ 0 := by
    rintro rfl
    omega
  have hlog : (53 : ℤ) ≤ Int.log 2 |(n : ℚ)| := by
    rw [abs_cast, Int.log_natCast]
    exact_mod_cast (le_log_iff_pow_le (by decide) hpos).mpr h
  have hplace : lastPlace n = Int.log 2 |(n : ℚ)| - 52 := by
    rw [lastPlace]
    omega
  have hscaled : (2 : ℚ) ^ (52 : ℤ) ≤ n / 2 ^ lastPlace n := by
    have hle : (2 : ℚ) ^ Int.log 2 |(n : ℚ)| ≤ |(n : ℚ)| :=
      Int.zpow_log_le_self (by decide) (abs_pos.mpr (cast_ne_zero.mpr hpos))
    rw [le_div_iff₀ (zpow_pos two_pos _), ← zpow_add₀ two_ne_zero, hplace, add_sub_cancel]
    rwa [abs_cast] at hle ⊢
  have hround : (2 : ℚ) ^ (52 : ℤ) ≤ roundEven (n / 2 ^ lastPlace n) := by
    have hfloor : (2 ^ 52 : ℤ) ≤ ⌊(n : ℚ) / 2 ^ lastPlace n⌋ := Int.le_floor.mpr (by exact_mod_cast hscaled)
    exact_mod_cast le_trans hfloor (floor_le_roundEven _)
  calc (2 : ℚ) ^ 53 = 2 ^ (52 : ℤ) * 2 ^ (1 : ℤ) := by norm_num
    _ ≤ roundEven (n / 2 ^ lastPlace n) * 2 ^ lastPlace n := by
      refine mul_le_mul hround (zpow_le_zpow_right₀ (by norm_num) ?_) (by positivity) (le_trans (by positivity) hround)
      rw [hplace]
      omega
    _ = nearestDouble n := rfl

/-- The number of the digits of a natural number. -/
theorem numberOf_toDigits (n : ℕ) : numberOf (Nat.toDigits 10 n) = nearestDouble n := by
  have hread := readLiteral_toDigits n (r := []) fun c hc => by cases hc
  have hvalue := ofDigitChars_toDigits (b := 10) (n := n) (by omega) (by omega)
  rw [append_nil] at hread
  simp [numberOf, hread, Literal.value, hvalue]

/-! ## Sizes -/

theorem length_utf8_toDigits (n : ℕ) : (utf8 (Nat.toDigits 10 n)).length = (Nat.toDigits 10 n).length :=
  Json.length_utf8_text (.num n)

/-- The bytes of a value are at most these. -/
def Scalar.bound : Scalar → ℕ
  | num n => (Nat.toDigits 10 n).length
  | str s => 6 * s.length + 2

theorem length_utf8_scalar_le (v : Scalar) : (utf8 v.text).length ≤ v.bound := by
  cases v with
  | num n => exact le_of_eq (length_utf8_toDigits n)
  | str s =>
    have h := @length_utf8_quote_le s.toUnits fun _ => JsString.lt_of_mem_toUnits
    rwa [JsString.length_toUnits] at h

theorem length_utf8_prettyMember_le (m : Text × Scalar) :
    (utf8 (prettyMember m)).length ≤ 6 * (units m.1).length + 6 + m.2.bound := by
  have htext : prettyMember m = [' ', ' '] ++ quote (units m.1) ++ [':', ' '] ++ m.2.text := by simp [prettyMember]
  have hopen : (utf8 [' ', ' ']).length = 2 := by decide
  have hcolon : (utf8 [':', ' ']).length = 2 := by decide
  have hkey := @length_utf8_quote_le (units m.1) fun _ => lt_of_mem_units
  have hvalue := length_utf8_scalar_le m.2
  rw [htext, length_utf8_append, length_utf8_append, length_utf8_append, hopen, hcolon]
  omega

theorem length_utf8_prettyRest_le (rest : List (Text × Scalar)) :
    (utf8 (prettyRest rest)).length ≤ (rest.map fun m => 6 * (units m.1).length + 8 + m.2.bound).sum + 2 := by
  induction rest with
  | nil => decide
  | cons m rest ih =>
    have htext : prettyRest (m :: rest) = [',', '\n'] ++ prettyMember m ++ prettyRest rest := by simp [prettyRest]
    have hcomma : (utf8 [',', '\n']).length = 2 := by decide
    have hmember := length_utf8_prettyMember_le m
    rw [htext, length_utf8_append, length_utf8_append, hcomma, map_cons, sum_cons]
    omega

/-- A written object has at most these bytes. -/
theorem length_utf8_pretty_le (members : List (Text × Scalar)) :
    (utf8 (pretty members)).length ≤ (members.map fun m => 6 * (units m.1).length + 8 + m.2.bound).sum + 2 := by
  cases members with
  | nil => decide
  | cons m rest =>
    have htext : pretty (m :: rest) = ['\x7b', '\n'] ++ prettyMember m ++ prettyRest rest := by simp [pretty]
    have hopen : (utf8 ['\x7b', '\n']).length = 2 := by decide
    have hmember := length_utf8_prettyMember_le m
    have hrest := length_utf8_prettyRest_le rest
    rw [htext, length_utf8_append, length_utf8_append, hopen, map_cons, sum_cons]
    omega

end Ariad.JsonText
