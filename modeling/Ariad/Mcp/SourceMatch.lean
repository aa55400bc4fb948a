import Mathlib.Data.List.DropRight
import Mathlib.Data.List.GetD
import Ariad.Javascript.Occurrences
import Ariad.Javascript.Text

/-!
# The place of a match

Texts of source files are lists of UTF-16 code units here, as the offsets of a match count these.

* `decodeUtf8` — the text of a file. What is no UTF-8 becomes the replacement character.
* `lineStartsFor`, `lineIndexAt` — the offsets at which lines start, and a binary search in them.
* `sourceMatch` — what is reported of a match.
* `sourceMatch_spec` — line and column are right, and the match is in the text unless this is marked as truncated.
-/

namespace Ariad.Mcp

open Find List

/-- A text of a file, in UTF-16. -/
abbrev Units := List ℕ

/-! ## Decoding -/

/-- A character of which bytes are missing: what it is so far, how many are missing, and the bounds of the next one. -/
structure PendingCharacter where
  codePoint : ℕ
  missing : ℕ
  lower : ℕ
  upper : ℕ

def replacementCharacter : ℕ := 0xFFFD

/-- A byte that starts a character. -/
def startCharacter (byte : ℕ) : Units × Option PendingCharacter :=
  if byte < 0x80 then ([byte], none)
  else if 0xC2 ≤ byte ∧ byte ≤ 0xDF then ([], some ⟨byte - 0xC0, 1, 0x80, 0xBF⟩)
  else if 0xE0 ≤ byte ∧ byte ≤ 0xEF then
    ([], some ⟨byte - 0xE0, 2, if byte = 0xE0 then 0xA0 else 0x80, if byte = 0xED then 0x9F else 0xBF⟩)
  else if 0xF0 ≤ byte ∧ byte ≤ 0xF4 then
    ([], some ⟨byte - 0xF0, 3, if byte = 0xF0 then 0x90 else 0x80, if byte = 0xF4 then 0x8F else 0xBF⟩)
  else ([replacementCharacter], none)

/-- The next byte. One that is out of bounds ends the character, and starts another one. -/
def feedByte (pending : Option PendingCharacter) (byte : ℕ) : Units × Option PendingCharacter :=
  match pending with
  | none => startCharacter byte
  | some p =>
    if p.lower ≤ byte ∧ byte ≤ p.upper then
      let codePoint := p.codePoint * 0x40 + (byte - 0x80)
      if p.missing = 1 then (utf16 (Char.ofNat codePoint), none)
      else ([], some ⟨codePoint, p.missing - 1, 0x80, 0xBF⟩)
    else (replacementCharacter :: (startCharacter byte).1, (startCharacter byte).2)

def decodeFrom : Option PendingCharacter → List UInt8 → Units
  | none, [] => []
  | some _, [] => [replacementCharacter]
  | pending, byte :: bytes => (feedByte pending byte.toNat).1 ++ decodeFrom (feedByte pending byte.toNat).2 bytes

/-- `buffer.toString('utf8')` -/
def decodeUtf8 (bytes : List UInt8) : Units := decodeFrom none bytes

example : decodeUtf8 [0x61, 0xC3, 0xA9, 0xE2, 0x82, 0xF0, 0x9F, 0x98, 0x80, 0xFF] =
    [0x61, 0xE9, 0xFFFD, 0xD83D, 0xDE00, 0xFFFD] := by decide

/-! ## Lines -/

def lineStartsFrom (index : ℕ) : Units → List ℕ
  | [] => []
  | c :: t => if c = 10 then (index + 1) :: lineStartsFrom (index + 1) t else lineStartsFrom (index + 1) t

def lineStartsFor (content : Units) : List ℕ := 0 :: lineStartsFrom 0 content

/-- The loop of the binary search. -/
def searchStarts (starts : List ℕ) (offset low high : ℕ) : ℕ :=
  if low + 1 < high then
    let middle := (low + high) / 2
    if starts.getD middle 0 ≤ offset then searchStarts starts offset middle high
    else searchStarts starts offset low middle
  else low
termination_by high - low

def lineIndexAt (starts : List ℕ) (offset : ℕ) : ℕ := searchStarts starts offset 0 starts.length

/-! ## What is reported -/

structure SourceMatch where
  path : Text
  line : ℕ
  column : ℕ
  text : Units
  textTruncated : Bool
  deriving DecidableEq

def maxTextLength : ℕ := 500

/-- `…` -/
def ellipsis : ℕ := 0x2026

/-- A part of a long line that has the column in it. -/
def excerpt (fullLine : Units) (columnOffset : ℕ) : Units :=
  let excerptStart := min (columnOffset - 120) (fullLine.length - maxTextLength)
  let excerptEnd := min fullLine.length (excerptStart + maxTextLength)
  (if 0 < excerptStart then [ellipsis] else []) ++ (fullLine.take excerptEnd).drop excerptStart ++
    if excerptEnd < fullLine.length then [ellipsis] else []

/-- The end of the line that starts at an offset, without a carriage return. -/
def lineEndFrom (content : Units) (lineStart : ℕ) : ℕ :=
  let lineEnd := (indexOf content [10] lineStart).getD content.length
  if lineStart < lineEnd ∧ content[lineEnd - 1]? = some 13 then lineEnd - 1 else lineEnd

def sourceMatch (content : Units) (starts : List ℕ) (offset : ℕ) (filePath : Text) : SourceMatch :=
  let lineIndex := lineIndexAt starts offset
  let lineStart := starts.getD lineIndex 0
  let fullLine := (content.take (lineEndFrom content lineStart)).drop lineStart
  let columnOffset := offset - lineStart
  if fullLine.length ≤ maxTextLength then ⟨filePath, lineIndex + 1, columnOffset + 1, fullLine, false⟩
  else ⟨filePath, lineIndex + 1, columnOffset + 1, excerpt fullLine columnOffset, true⟩

/-! ## The search for a line -/

theorem searchStarts_eq {above below : List ℕ} {offset low high : ℕ} (habove : ∀ s ∈ above, s ≤ offset)
    (hbelow : ∀ s ∈ below, offset < s) (hlow : low < above.length) (hhigh : above.length ≤ high)
    (hlength : high ≤ (above ++ below).length) :
    searchStarts (above ++ below) offset low high = above.length - 1 := by
  fun_induction searchStarts (above ++ below) offset low high with
  | case1 low high hlt middle hle ih =>
    refine ih (Nat.lt_of_not_le fun hge => ?_) hhigh hlength
    have hmiddle : middle < (above ++ below).length := by omega
    rw [getD_eq_getElem _ _ hmiddle, getElem_append_right hge] at hle
    exact absurd (hbelow _ (getElem_mem _)) (Nat.not_lt.mpr hle)
  | case2 low high hlt middle hgt ih =>
    refine ih hlow (Nat.le_of_not_lt fun hlt => hgt ?_) (by omega)
    rw [getD_append _ _ _ _ hlt, getD_eq_getElem _ _ hlt]
    exact habove _ (getElem_mem _)
  | case3 low high hge => omega

theorem lineStartsFrom_append (index : ℕ) (before after : Units) : lineStartsFrom index (before ++ after) =
    lineStartsFrom index before ++ lineStartsFrom (index + before.length) after := by
  induction before generalizing index with
  | nil => rfl
  | cons c before ih =>
    rw [cons_append, lineStartsFrom, lineStartsFrom, ih, length_cons, Nat.add_right_comm, Nat.add_assoc index]
    split
    · rfl
    · rfl

theorem mem_lineStartsFrom {index s : ℕ} {t : Units} (h : s ∈ lineStartsFrom index t) : index < s ∧ s ≤ index + t.length := by
  induction t generalizing index with
  | nil => cases h
  | cons c t ih =>
    rw [lineStartsFrom] at h
    rw [length_cons]
    split at h
    · rcases mem_cons.mp h with rfl | h
      · omega
      · have := ih h
        omega
    · have := ih h
      omega

theorem length_lineStartsFrom (index : ℕ) (t : Units) : (lineStartsFrom index t).length = t.count 10 := by
  induction t generalizing index with
  | nil => rfl
  | cons c t ih =>
    rw [lineStartsFrom, count_cons]
    split
    · rename_i hc
      rw [length_cons, ih, hc]
      rfl
    · rename_i hc
      rw [ih, if_neg (by simpa using hc), Nat.add_zero]

/-- The last line starts behind the last new line. -/
theorem getLast_lineStartsFor (t : Units) :
    (lineStartsFor t).getLastD 0 + (t.rtakeWhile (· ≠ 10)).length = t.length := by
  induction t using List.reverseRecOn with
  | nil => rfl
  | append_singleton t c ih =>
    have hstarts : lineStartsFor (t ++ [c]) = lineStartsFor t ++ lineStartsFrom t.length [c] := by
      rw [lineStartsFor, lineStartsFrom_append, Nat.zero_add]
      rfl
    by_cases hc : c = 10
    · have hlast : lineStartsFrom t.length [c] = [t.length + 1] := by
        rw [lineStartsFrom, if_pos hc]
        rfl
      rw [hstarts, hlast, getLastD_concat, rtakeWhile_concat_neg _ _ _ (by simpa using hc)]
      simp
    · have hlast : lineStartsFrom t.length [c] = [] := by
        rw [lineStartsFrom, if_neg hc]
        rfl
      rw [hstarts, hlast, append_nil, rtakeWhile_concat_pos _ _ _ (by simpa using hc), length_append,
        length_append, length_singleton]
      omega

/-- Where the line of an offset starts, and its number. -/
theorem lineIndexAt_eq {content : Units} {offset : ℕ} (hoffset : offset ≤ content.length) :
    lineIndexAt (lineStartsFor content) offset = (content.take offset).count 10 ∧
      (lineStartsFor content).getD (lineIndexAt (lineStartsFor content) offset) 0 +
        ((content.take offset).rtakeWhile (· ≠ 10)).length = offset := by
  have hlength : (content.take offset).length = offset := by rw [length_take, min_eq_left hoffset]
  have hstarts : lineStartsFor content = lineStartsFor (content.take offset) ++ lineStartsFrom offset (content.drop offset) := by
    have happend := lineStartsFrom_append 0 (content.take offset) (content.drop offset)
    rw [take_append_drop, hlength, Nat.zero_add] at happend
    rw [lineStartsFor, happend]
    rfl
  have habove : ∀ s ∈ lineStartsFor (content.take offset), s ≤ offset := by
    intro s hs
    rcases mem_cons.mp hs with rfl | hs
    · exact Nat.zero_le _
    · have := (mem_lineStartsFrom hs).2
      omega
  have hcount : (lineStartsFor (content.take offset)).length = (content.take offset).count 10 + 1 := by
    rw [lineStartsFor, length_cons, length_lineStartsFrom]
  have hindex : lineIndexAt (lineStartsFor content) offset = (content.take offset).count 10 := by
    rw [lineIndexAt, hstarts, searchStarts_eq habove (fun s hs => (mem_lineStartsFrom hs).1) (by omega)
      (by rw [length_append]; omega) le_rfl, hcount, Nat.add_sub_cancel]
  refine ⟨hindex, ?_⟩
  have hlast := getLast_lineStartsFor (content.take offset)
  rw [hlength, getLastD_eq_getLast?, getLast?_eq_getElem?, hcount, Nat.add_sub_cancel,
    ← getD_eq_getElem?_getD] at hlast
  rwa [hindex, hstarts, getD_append _ _ _ _ (by omega)]

/-! ## The match in its line -/

variable {content query : Units} {offset lineStart : ℕ}

theorem mem_of_occursAt {i c : ℕ} (h : OccursAt content query offset) (hle : offset ≤ i) (hlt : i < offset + query.length)
    (hc : content[i]? = some c) : c ∈ query := by
  obtain ⟨n, rfl⟩ := Nat.exists_eq_add_of_le hle
  obtain ⟨rest, hrest⟩ := h
  rw [← getElem?_drop, ← hrest, getElem?_append_left (by omega)] at hc
  exact mem_of_getElem? hc

theorem ne_of_mem_line {i : ℕ} (hoffset : offset ≤ content.length)
    (hstart : lineStart + ((content.take offset).rtakeWhile (· ≠ 10)).length = offset) (hle : lineStart ≤ i)
    (hlt : i < offset) : content[i]? ≠ some 10 := by
  intro hc
  have hlength : (content.take offset).length = offset := by rw [length_take, min_eq_left hoffset]
  have hsplit : (content.take offset).rdropWhile (· ≠ 10) ++ (content.take offset).rtakeWhile (· ≠ 10) =
      content.take offset := rdropWhile_append_rtakeWhile
  have hbefore : ((content.take offset).rdropWhile (· ≠ 10)).length = lineStart := by
    have := congrArg List.length hsplit
    rw [length_append, hlength] at this
    omega
  rw [← getElem?_take_of_lt hlt, ← hsplit, getElem?_append_right (by omega)] at hc
  simpa using mem_rtakeWhile_imp (mem_of_getElem? hc)

theorem le_lineEndFrom (h : OccursAt content query offset) (hquery : query ≠ []) (hline : 10 ∉ query) (hreturn : 13 ∉ query)
    (hstart : lineStart + ((content.take offset).rtakeWhile (· ≠ 10)).length = offset) :
    offset + query.length ≤ lineEndFrom content lineStart := by
  have hpos := length_pos_iff.mpr hquery
  have hend := h.le hquery
  have hle : offset + query.length ≤ (indexOf content [10] lineStart).getD content.length := by
    cases hindex : indexOf content [10] lineStart with
    | none => exact hend
    | some o =>
      obtain ⟨ho, hnewline, -⟩ := indexOf_eq_some_iff.mp hindex
      have hc : content[o]? = some 10 := by
        obtain ⟨rest, hrest⟩ := hnewline
        rw [← Nat.add_zero o, ← getElem?_drop, ← hrest]
        rfl
      by_contra hlt
      rw [Option.getD_some, not_le] at hlt
      rcases Nat.lt_or_ge o offset with hbefore | hbehind
      · exact ne_of_mem_line (by omega) hstart ho hbefore hc
      · exact hline (mem_of_occursAt h hbehind hlt hc)
  rw [lineEndFrom]
  split
  · rename_i hcr
    by_contra hlt
    exact hreturn (mem_of_occursAt h (by omega) (by omega) hcr.2)
  · exact hle

theorem infix_line {lineEnd : ℕ} (h : OccursAt content query offset) (hstart : lineStart ≤ offset)
    (hend : offset + query.length ≤ lineEnd) : query <:+: (content.take lineEnd).drop lineStart := by
  have hprefix : query <+: (content.take lineEnd).drop offset := by
    rw [drop_take]
    exact prefix_take_iff.mpr ⟨h, by omega⟩
  obtain ⟨n, rfl⟩ := Nat.exists_eq_add_of_le hstart
  rw [← drop_drop] at hprefix
  exact hprefix.isInfix.trans (drop_suffix ..).isInfix

/-- The line and the column of a match, counted from one, and a text that has it. -/
structure RightPlace (content query : Units) (offset : ℕ) (m : SourceMatch) : Prop where
  line : m.line = (content.take offset).count 10 + 1
  column : m.column = ((content.take offset).rtakeWhile (· ≠ 10)).length + 1
  text : query <:+: m.text ∨ m.textTruncated = true

theorem sourceMatch_spec (h : OccursAt content query offset) (hquery : query ≠ []) (hline : 10 ∉ query)
    (hreturn : 13 ∉ query) (filePath : Text) :
    RightPlace content query offset (sourceMatch content (lineStartsFor content) offset filePath) := by
  have hend := h.le hquery
  obtain ⟨hindex, hstart⟩ := lineIndexAt_eq (show offset ≤ content.length by omega)
  have hcolumn : offset - (lineStartsFor content).getD (lineIndexAt (lineStartsFor content) offset) 0 =
      ((content.take offset).rtakeWhile (· ≠ 10)).length := by omega
  rw [sourceMatch, hcolumn]
  split
  · have hcontained := infix_line h ((Nat.le_add_right ..).trans hstart.le) (le_lineEndFrom h hquery hline hreturn hstart)
    exact ⟨congrArg (· + 1) hindex, rfl, .inl hcontained⟩
  · exact ⟨congrArg (· + 1) hindex, rfl, .inr rfl⟩

theorem sourceMatch_path (content : Units) (starts : List ℕ) (offset : ℕ) (filePath : Text) :
    (sourceMatch content starts offset filePath).path = filePath := by
  rw [sourceMatch]
  split
  · rfl
  · rfl

end Ariad.Mcp
