import Ariad.Javascript.JsonText

/-!
# Strings as code units

A string of the language is a list of UTF-16 code units, which need not be a text: half of a character may stand
alone.

* `JsString` — a string; `ofText`: a text as one.
* `quoteUnits` — what `JSON.stringify` writes between the quotes: half characters as escapes.
* `stringUnits_quoteUnits` — what was written is read back.
* `length_utf8_quoteUnits_le` — six bytes for a unit are enough.
-/

namespace Ariad

open List Option

/-- A string, as its code units. -/
abbrev JsString := List UInt16

namespace JsString

def ofText (t : Text) : JsString := (JsonText.units t).map UInt16.ofNat

def toUnits (s : JsString) : List ℕ := s.map UInt16.toNat

def ofUnits (us : List ℕ) : JsString := us.map UInt16.ofNat

variable {u : ℕ}

@[simp] theorem ofUnits_toUnits (s : JsString) : ofUnits s.toUnits = s := by
  simp [ofUnits, toUnits, Function.comp_def]

@[simp] theorem length_toUnits (s : JsString) : s.toUnits.length = s.length := length_map ..

theorem lt_of_mem_toUnits {s : JsString} (h : u ∈ s.toUnits) : u < 0x10000 := by
  obtain ⟨v, -, rfl⟩ := mem_map.mp h
  exact v.toNat_lt

end JsString

namespace JsonText

open Json (hexDigit hexValue unescape)

/-! ## Writing -/

def isHigh (u : ℕ) : Bool := 0xD800 ≤ u && u < 0xDC00

def isLow (u : ℕ) : Bool := 0xDC00 ≤ u && u < 0xE000

/-- A code unit between quotes, where it is no half of a character that is written as a whole. -/
def quoteUnit (u : ℕ) : Text :=
  if u = 34 then ['\\', '"']
  else if u = 92 then ['\\', '\\']
  else if u = 8 then ['\\', 'b']
  else if u = 9 then ['\\', 't']
  else if u = 10 then ['\\', 'n']
  else if u = 12 then ['\\', 'f']
  else if u = 13 then ['\\', 'r']
  else if u < 32 ∨ isHigh u ∨ isLow u then
    ['\\', 'u', hexDigit (u / 4096), hexDigit (u / 256 % 16), hexDigit (u / 16 % 16), hexDigit (u % 16)]
  else [Char.ofNat u]

/-- The character of two halves. -/
def joinHalves (high low : ℕ) : Char := Char.ofNat (0x10000 + (high - 0xD800) * 0x400 + (low - 0xDC00))

def quoteUnits : List ℕ → Text
  | [] => []
  | [u] => quoteUnit u
  | high :: low :: rest =>
    if isHigh high ∧ isLow low then joinHalves high low :: quoteUnits rest
    else quoteUnit high ++ quoteUnits (low :: rest)

def quote (us : List ℕ) : Text := '"' :: (quoteUnits us ++ ['"'])

/-! ## What was written is read back -/

theorem toLower_hexDigit {n : ℕ} (h : n < 16) : (hexDigit n).toLower = hexDigit n := by
  have hall : ∀ n < 16, (hexDigit n).toLower = hexDigit n := by decide
  exact hall n h

theorem hexUnit_hexDigit (h : u < 0x10000) :
    hexUnit (hexDigit (u / 4096)) (hexDigit (u / 256 % 16)) (hexDigit (u / 16 % 16)) (hexDigit (u % 16)) = some u := by
  have hvalue {n : ℕ} (hn : n < 16) : hexValue (hexDigit n).toLower = some n := by
    rw [toLower_hexDigit hn, Json.hexValue_hexDigit hn]
  rw [hexUnit, hvalue (by omega), hvalue (by omega), hvalue (by omega), hvalue (by omega)]
  simp only [bind_eq_bind, bind_some, Option.pure_def, Option.some.injEq]
  omega

theorem stringUnits_escape {e : Char} (he : e ≠ 'u') (hu : (unescape e).map Char.toNat = some u) (t : Text) :
    stringUnits (['\\', e] ++ t) = (stringUnits t).map fun p => (u :: p.1, p.2) := by
  obtain ⟨x, hx, rfl⟩ := map_eq_some_iff.mp hu
  rw [cons_append, singleton_append, stringUnits, hx, bind_some]
  rintro _ _ _ _ _ rfl
  exact absurd rfl he

theorem isValidChar_of_bmp (h : u < 0x10000) (hhigh : isHigh u = false) (hlow : isLow u = false) : u.isValidChar := by
  simp only [isHigh, isLow, Bool.and_eq_false_iff, decide_eq_false_iff_not] at hhigh hlow
  rw [Nat.isValidChar]
  omega

theorem toNat_ofNat {n : ℕ} (h : n.isValidChar) : (Char.ofNat n).toNat = n := by
  rw [Char.ofNat, dif_pos h]
  rfl

/-- One code unit is read back. -/
theorem stringUnits_quoteUnit (h : u < 0x10000) (t : Text) :
    stringUnits (quoteUnit u ++ t) = (stringUnits t).map fun p => (u :: p.1, p.2) := by
  rw [quoteUnit]
  iterate 7
    split
    · subst u
      exact stringUnits_escape (by decide) rfl t
  split
  · simp only [cons_append, nil_append]
    rw [stringUnits, hexUnit_hexDigit h, bind_some]
  · rename_i h34 h92 _ _ _ _ _ hplain
    rw [not_or, not_or, Bool.not_eq_true, Bool.not_eq_true] at hplain
    obtain ⟨hcontrol, hhigh, hlow⟩ := hplain
    have hnat : (Char.ofNat u).toNat = u := toNat_ofNat (isValidChar_of_bmp h hhigh hlow)
    have hescape : needsEscape (Char.ofNat u).toNat = false := by simp [needsEscape, hnat, h34, h92, hcontrol]
    have hunits : utf16 (Char.ofNat u) = [u] := by rw [utf16, hnat, if_pos h]
    rw [cons_append, nil_append, stringUnits_char hescape, hunits]
    rfl

theorem toNat_joinHalves {high low : ℕ} (hhigh : isHigh high = true) (hlow : isLow low = true) :
    (joinHalves high low).toNat = 0x10000 + (high - 0xD800) * 0x400 + (low - 0xDC00) := by
  simp only [isHigh, isLow, Bool.and_eq_true, decide_eq_true_eq] at hhigh hlow
  refine toNat_ofNat ?_
  rw [Nat.isValidChar]
  omega

theorem utf16_joinHalves {high low : ℕ} (hhigh : isHigh high = true) (hlow : isLow low = true) :
    utf16 (joinHalves high low) = [high, low] := by
  have hnat := toNat_joinHalves hhigh hlow
  simp only [isHigh, isLow, Bool.and_eq_true, decide_eq_true_eq] at hhigh hlow
  have hhalf : 0xD800 + ((joinHalves high low).toNat - 0x10000) / 0x400 = high := by omega
  have hother : 0xDC00 + ((joinHalves high low).toNat - 0x10000) % 0x400 = low := by omega
  rw [utf16, if_neg (by omega), hhalf, hother]

/-- **A string that was written is read back.** -/
theorem stringUnits_quoteUnits {us : List ℕ} (h : ∀ u ∈ us, u < 0x10000) (rest : Text) :
    stringUnits (quoteUnits us ++ '"' :: rest) = some (us, rest) := by
  induction us using quoteUnits.induct with
  | case1 => rfl
  | case2 u =>
    rw [quoteUnits, stringUnits_quoteUnit (h u mem_cons_self)]
    rfl
  | case3 high low us hhalves ih =>
    have hus : ∀ u ∈ us, u < 0x10000 := fun u hu => h u (mem_cons_of_mem _ (mem_cons_of_mem _ hu))
    have hnat := toNat_joinHalves hhalves.1 hhalves.2
    have hescape : needsEscape (joinHalves high low).toNat = false := by
      simp only [needsEscape, hnat, Bool.or_eq_false_iff, decide_eq_false_iff_not]
      omega
    rw [quoteUnits, if_pos hhalves, cons_append, stringUnits_char hescape, ih hus,
      utf16_joinHalves hhalves.1 hhalves.2]
    rfl
  | case4 high low us hhalves ih =>
    rw [quoteUnits, if_neg hhalves, append_assoc, stringUnits_quoteUnit (h high mem_cons_self),
      ih fun u hu => h u (mem_cons_of_mem _ hu)]
    rfl

/-! ## Sizes -/

theorem length_utf8_char_le (c : Char) : (utf8 [c]).length ≤ 4 := by
  rw [length_utf8]
  exact c.utf8Size_le_four

theorem utf8Size_hexDigit {n : ℕ} (h : n < 16) : (hexDigit n).utf8Size = 1 := by
  have hall : ∀ n < 16, (hexDigit n).utf8Size = 1 := by decide
  exact hall n h

theorem length_utf8_quoteUnit_le (h : u < 0x10000) : (utf8 (quoteUnit u)).length ≤ 6 := by
  rw [quoteUnit]
  iterate 7
    split
    · decide
  split
  · have hslash : '\\'.utf8Size = 1 := by decide
    have hu : 'u'.utf8Size = 1 := by decide
    rw [length_utf8]
    simp only [map_cons, map_nil, sum_cons, sum_nil, hslash, hu,
      utf8Size_hexDigit (show u / 4096 < 16 by omega), utf8Size_hexDigit (show u / 256 % 16 < 16 by omega),
      utf8Size_hexDigit (show u / 16 % 16 < 16 by omega), utf8Size_hexDigit (show u % 16 < 16 by omega)]
    decide
  · exact le_trans (length_utf8_char_le _) (by decide)

/-- A code unit takes at most six bytes. -/
theorem length_utf8_quoteUnits_le {us : List ℕ} (h : ∀ u ∈ us, u < 0x10000) :
    (utf8 (quoteUnits us)).length ≤ 6 * us.length := by
  induction us using quoteUnits.induct with
  | case1 => exact Nat.zero_le _
  | case2 u => exact length_utf8_quoteUnit_le (h u mem_cons_self)
  | case3 high low us hhalves ih =>
    have hus := ih fun u hu => h u (mem_cons_of_mem _ (mem_cons_of_mem _ hu))
    have hchar := length_utf8_char_le (joinHalves high low)
    have happend := length_utf8_append [joinHalves high low] (quoteUnits us)
    rw [quoteUnits, if_pos hhalves, length_cons, length_cons]
    rw [singleton_append] at happend
    omega
  | case4 high low us hhalves ih =>
    have hus := ih fun u hu => h u (mem_cons_of_mem _ hu)
    have hunit := length_utf8_quoteUnit_le (h high mem_cons_self)
    rw [quoteUnits, if_neg hhalves, length_utf8_append, length_cons]
    omega

theorem length_utf8_quote_le {us : List ℕ} (h : ∀ u ∈ us, u < 0x10000) :
    (utf8 (quote us)).length ≤ 6 * us.length + 2 := by
  have hunits := length_utf8_quoteUnits_le h
  have hquote : (utf8 ['"']).length = 1 := by decide
  have htext : quote us = ['"'] ++ quoteUnits us ++ ['"'] := rfl
  rw [htext, length_utf8_append, length_utf8_append, hquote]
  omega

end JsonText

end Ariad
