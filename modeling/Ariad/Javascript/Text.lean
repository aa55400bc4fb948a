import Mathlib.Data.List.DropRight
import Mathlib.Data.List.Infix

/-!
# Texts

A string of the program is the list of its characters. Here is what the program does with strings:
white space, trimming, lines, and the two ways a text is split into lines.

* `trim` — white space off both ends, as `String.prototype.trim`.
* `lines`, `joinLines` — `split('\n')` and `join('\n')`.
* `splitLines` — `split(/\r?\n/)`.
-/

namespace Ariad

open List

/-- A string, as its characters. -/
abbrev Text := List Char

instance : LawfulBEq Text := inferInstance

instance : LawfulBEq (List Text) := inferInstance

/-- The UTF-16 code units of a character. -/
def utf16 (c : Char) : List ℕ :=
  if c.toNat < 0x10000 then [c.toNat]
  else [0xD800 + (c.toNat - 0x10000) / 0x400, 0xDC00 + (c.toNat - 0x10000) % 0x400]

namespace Text

/-! ## White space -/

/-- The characters that `trim` removes and that the regular expressions call white space. -/
def isSpace (c : Char) : Bool :=
  (9 ≤ c.toNat && c.toNat ≤ 13) || c.toNat == 0x20 || c.toNat == 0xa0 || c.toNat == 0x1680 ||
    (0x2000 ≤ c.toNat && c.toNat ≤ 0x200a) || c.toNat == 0x2028 || c.toNat == 0x2029 ||
    c.toNat == 0x202f || c.toNat == 0x205f || c.toNat == 0x3000 || c.toNat == 0xfeff

/-- The line terminators of regular expressions: `.` matches every other character. -/
def isTerminator (c : Char) : Bool :=
  c.toNat == 10 || c.toNat == 13 || c.toNat == 0x2028 || c.toNat == 0x2029

def trimStart (t : Text) : Text := t.dropWhile isSpace

def trimEnd (t : Text) : Text := t.rdropWhile isSpace

def trim (t : Text) : Text := trimEnd (trimStart t)

/-- Nothing but white space. -/
def Blank (t : Text) : Prop := ∀ c ∈ t, isSpace c = true

instance (t : Text) : Decidable t.Blank :=
  decidable_of_iff (t.all isSpace = true) List.all_eq_true

@[simp] theorem trim_nil : trim [] = [] := rfl

theorem trim_eq_nil_iff {t : Text} : trim t = [] ↔ t.Blank := by
  rw [trim, trimEnd, rdropWhile_eq_nil_iff]
  constructor
  · intro h c hc
    rcases mem_append.mp ((takeWhile_append_dropWhile (p := isSpace) (l := t)).symm ▸ hc)
      with hc | hc
    · exact mem_takeWhile_imp hc
    · exact h c hc
  · exact fun h c hc => h c ((dropWhile_sublist _).subset hc)

theorem trimStart_append_of_not_blank {s t : Text} (h : ¬s.Blank) :
    trimStart (s ++ t) = trimStart s ++ t := by
  induction s with
  | nil => exact absurd (by simp [Blank]) h
  | cons c s ih =>
    by_cases hc : isSpace c = true
    · have hs : ¬Blank s := fun hs => h (by simpa [Blank, hc] using hs)
      simpa [trimStart, hc] using ih hs
    · simp [trimStart, hc]

theorem trimStart_append_of_blank {s t : Text} (h : s.Blank) : trimStart (s ++ t) = trimStart t := by
  induction s with
  | nil => rfl
  | cons c s ih =>
    have hc : isSpace c = true := h c (by simp)
    have hs : Blank s := fun d hd => h d (by simp [hd])
    simpa [trimStart, hc] using ih hs

theorem trimEnd_append_of_blank {s t : Text} (h : t.Blank) : trimEnd (s ++ t) = trimEnd s := by
  rw [trimEnd, trimEnd, List.rdropWhile, List.rdropWhile, reverse_append]
  have := trimStart_append_of_blank (s := t.reverse) (t := s.reverse) fun c hc => h c (by simpa using hc)
  rw [trimStart, trimStart] at this
  rw [this]

/-- White space around a text does not show after trimming. -/
theorem trim_append_of_blank {s t u : Text} (hs : s.Blank) (hu : u.Blank) :
    trim (s ++ t ++ u) = trim t := by
  by_cases ht : t.Blank
  · have : (s ++ t ++ u).Blank := by
      intro c hc
      simp only [append_assoc, mem_append] at hc
      rcases hc with hc | hc | hc
      · exact hs c hc
      · exact ht c hc
      · exact hu c hc
    rw [trim_eq_nil_iff.mpr this, trim_eq_nil_iff.mpr ht]
  · rw [trim, append_assoc, trimStart_append_of_blank hs, trimStart_append_of_not_blank ht,
      trimEnd_append_of_blank hu, trim]

/-- What is trimmed is `t` without white space at its ends. -/
theorem exists_trim (t : Text) : ∃ s u : Text, s.Blank ∧ u.Blank ∧ t = s ++ trim t ++ u := by
  refine ⟨t.takeWhile isSpace, (t.dropWhile isSpace).rtakeWhile isSpace,
    fun c hc => mem_takeWhile_imp hc, fun c hc => mem_rtakeWhile_imp hc, ?_⟩
  rw [trim, trimEnd, trimStart, append_assoc, rdropWhile_append_rtakeWhile,
    takeWhile_append_dropWhile]

@[simp] theorem trim_trim (t : Text) : trim (trim t) = trim t := by
  obtain ⟨s, u, hs, hu, h⟩ := exists_trim t
  calc trim (trim t) = trim (s ++ trim t ++ u) := (trim_append_of_blank hs hu).symm
    _ = trim t := by rw [← h]

/-! ## Lines -/

/-- `split('\n')`. -/
def lines (t : Text) : List Text := t.splitOn '\n'

/-- `join('\n')`. -/
def joinLines (ls : List Text) : Text := ['\n'].intercalate ls

/-- A line without the carriage return at its end. -/
def dropReturn (line : Text) : Text := if line.getLast? = some '\r' then line.dropLast else line

/-- `split(/\r?\n/)`: the carriage return at the end of the text stays. -/
def splitLines (t : Text) : List Text :=
  (lines t).dropLast.map dropReturn ++ [(lines t).getLastD []]

/-! ## Parts of a text -/

/-- `s.split(p).join('')`: without the occurrences of `p`. The number counts characters of an occurrence
that are still to be dropped. -/
def removeAll (p : Text) : ℕ → Text → Text
  | _, [] => []
  | 0, c :: t => if p.isPrefixOf (c :: t) then removeAll p (p.length - 1) t else c :: removeAll p 0 t
  | k + 1, _ :: t => removeAll p k t

/-- `s.includes(p)`. -/
def includes (p s : Text) : Bool := decide (p <:+: s)

end Text

end Ariad
