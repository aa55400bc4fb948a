import Mathlib.Algebra.BigOperators.Group.List.Basic
import Mathlib.Algebra.Order.Ring.Int
import Ariad.Javascript.Text

/-!
# Texts as base64url

* `utf8`, `ofUtf8` — `Buffer.from(text, 'utf8')` and `toString('utf8')`.
* `base64url`, `ofBase64url` — `toString('base64url')` and `Buffer.from(text, 'base64url')`.
* `ofBase64url_base64url`, `ofUtf8_utf8` — what was written is read back.
* `length_base64url` — the length of a written text.
-/

namespace Ariad

open List

/-! ## UTF-8 -/

def utf8 (t : Text) : List UInt8 := t.flatMap String.utf8EncodeChar

/-- Bytes that are no UTF-8 are none of a text. -/
def ofUtf8 (bytes : List UInt8) : Option Text := bytes.toByteArray.utf8Decode?.map Array.toList

theorem ofUtf8_utf8 (t : Text) : ofUtf8 (utf8 t) = some t := by
  have h : (utf8 t).toByteArray = t.utf8Encode := rfl
  rw [ofUtf8, h, utf8Decode?_utf8Encode, Option.map_some]

theorem length_utf8 (t : Text) : (utf8 t).length = (t.map Char.utf8Size).sum := by
  rw [utf8, length_flatMap]
  congr 2
  funext c
  exact String.length_utf8EncodeChar c

theorem length_utf8_append (t u : Text) : (utf8 (t ++ u)).length = (utf8 t).length + (utf8 u).length := by
  rw [utf8, flatMap_append, length_append]
  rfl

/-! ## Six bits for a character -/

/-- The characters of the sixty-four values. -/
def base64Digits : Text := "ABCDEFGHIJKLMNOPQRSTUVWXYZabcdefghijklmnopqrstuvwxyz0123456789-_".toList

def base64Digit (n : ℕ) : Char := base64Digits.getD n 'A'

/-- The value of a character, in either alphabet. Other characters are skipped. -/
def base64Value (c : Char) : Option ℕ :=
  if c = '+' then some 62 else if c = '/' then some 63 else base64Digits.idxOf? c

theorem base64Value_base64Digit {n : ℕ} (h : n < 64) : base64Value (base64Digit n) = some n := by
  have hall : (List.range 64).all fun n => base64Value (base64Digit n) == some n := by decide +kernel
  exact eq_of_beq (all_eq_true.mp hall n (mem_range.mpr h))

/-! ## Groups of three bytes -/

/-- Bytes as numbers of six bits. -/
def sextets : List ℕ → List ℕ
  | a :: b :: c :: rest => a / 4 :: (a % 4 * 16 + b / 16) :: (b % 16 * 4 + c / 64) :: c % 64 :: sextets rest
  | [a, b] => [a / 4, a % 4 * 16 + b / 16, b % 16 * 4]
  | [a] => [a / 4, a % 4 * 16]
  | [] => []

/-- The whole bytes of numbers of six bits. -/
def octets : List ℕ → List ℕ
  | a :: b :: c :: d :: rest => (a * 4 + b / 16) :: (b % 16 * 16 + c / 4) :: (c % 4 * 64 + d) :: octets rest
  | [a, b, c] => [a * 4 + b / 16, b % 16 * 16 + c / 4]
  | [a, b] => [a * 4 + b / 16]
  | _ => []

theorem lt_of_mem_sextets {l : List ℕ} (h : ∀ a ∈ l, a < 256) : ∀ n ∈ sextets l, n < 64 := by
  fun_induction sextets l with
  | case1 a b c rest ih =>
    simp only [forall_mem_cons] at h ⊢
    obtain ⟨ha, hb, hc, hrest⟩ := h
    exact ⟨by omega, by omega, by omega, by omega, ih hrest⟩
  | case2 a b =>
    simp only [forall_mem_cons] at h ⊢
    obtain ⟨ha, hb, hrest⟩ := h
    exact ⟨by omega, by omega, by omega, nofun⟩
  | case3 a =>
    simp only [forall_mem_cons] at h ⊢
    obtain ⟨ha, hrest⟩ := h
    exact ⟨by omega, by omega, nofun⟩
  | case4 => exact nofun

theorem octets_sextets {l : List ℕ} (h : ∀ a ∈ l, a < 256) : octets (sextets l) = l := by
  fun_induction sextets l with
  | case1 a b c rest ih =>
    simp only [forall_mem_cons] at h
    obtain ⟨ha, hb, hc, hrest⟩ := h
    simp only [octets, ih hrest, List.cons.injEq, and_true]
    exact ⟨by omega, by omega, by omega⟩
  | case2 a b =>
    simp only [forall_mem_cons] at h
    simp only [octets, List.cons.injEq, and_true]
    exact ⟨by omega, by omega⟩
  | case3 a =>
    simp only [octets, List.cons.injEq, and_true]
    omega
  | case4 => rfl

theorem length_sextets (l : List ℕ) : (sextets l).length = (4 * l.length + 2) / 3 := by
  fun_induction sextets l with
  | case1 a b c rest ih =>
    simp only [length_cons, ih]
    omega
  | case2 => simp
  | case3 => simp
  | case4 => rfl

/-! ## Texts -/

def base64url (bytes : List UInt8) : Text := (sextets (bytes.map UInt8.toNat)).map base64Digit

def ofBase64url (t : Text) : List UInt8 := (octets (t.filterMap base64Value)).map UInt8.ofNat

theorem ofBase64url_base64url (bytes : List UInt8) : ofBase64url (base64url bytes) = bytes := by
  have hbytes : ∀ a ∈ bytes.map UInt8.toNat, a < 256 := by
    intro a ha
    obtain ⟨b, _, rfl⟩ := mem_map.mp ha
    exact b.toNat_lt
  have hvalues : (base64url bytes).filterMap base64Value = sextets (bytes.map UInt8.toNat) := by
    rw [base64url, filterMap_map]
    conv_rhs => rw [← filterMap_some (l := sextets (bytes.map UInt8.toNat))]
    exact filterMap_congr fun n hn => base64Value_base64Digit (lt_of_mem_sextets hbytes n hn)
  rw [ofBase64url, hvalues, octets_sextets hbytes, map_map]
  conv_rhs => rw [← map_id bytes]
  exact map_congr_left fun b _ => UInt8.ofNat_toNat

theorem length_base64url (bytes : List UInt8) : (base64url bytes).length = (4 * bytes.length + 2) / 3 := by
  rw [base64url, length_map, length_sextets, length_map]

end Ariad
