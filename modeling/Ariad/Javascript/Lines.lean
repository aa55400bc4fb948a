import Ariad.Javascript.Text

/-!
# Lines of a text

* `lines_joinLines`, `joinLines_lines` — cutting and joining undo each other.
* `lines_append` — the lines of two texts one after the other: the last line of the first and the first
  line of the second are one.
* `unixLines` — a text with `\n` for `\r\n`.
-/

namespace Ariad.Text

open List

/-! ## Cutting and joining -/

@[simp] theorem lines_nil : lines [] = [[]] := rfl

theorem lines_ne_nil (t : Text) : lines t ≠ [] := splitOn_ne_nil '\n' t

@[simp] theorem joinLines_lines (t : Text) : joinLines (lines t) = t := intercalate_splitOn '\n'

theorem lines_joinLines {ls : List Text} (h : ∀ l ∈ ls, '\n' ∉ l) (hne : ls ≠ []) :
    lines (joinLines ls) = ls :=
  splitOn_intercalate '\n' h hne

theorem lines_eq_singleton {t : Text} (h : '\n' ∉ t) : lines t = [t] := splitOn_eq_singleton h

theorem lines_newline (a b : Text) : lines (a ++ '\n' :: b) = lines a ++ lines b :=
  splitOn_append_cons_self ..

theorem lines_cons_of_ne {c : Char} (hc : c ≠ '\n') (t : Text) :
    lines (c :: t) = (lines t).modifyHead (c :: ·) := by
  rw [lines, lines, splitOn_cons_eq_if_modifyHead, if_neg (by simpa using hc)]

theorem newline_not_mem_of_mem_lines {t l : Text} (h : l ∈ lines t) : '\n' ∉ l := by
  induction t generalizing l with
  | nil =>
    obtain rfl : l = [] := by simpa using h
    simp
  | cons c t ih =>
    by_cases hc : c = '\n'
    · subst hc
      rw [← nil_append ('\n' :: t), lines_newline, lines_nil] at h
      rcases mem_cons.mp h with rfl | h
      · simp
      · exact ih h
    · rw [lines_cons_of_ne hc] at h
      cases hls : lines t with
      | nil => exact absurd hls (lines_ne_nil t)
      | cons m ls =>
        rw [hls] at h ih
        rcases mem_cons.mp h with rfl | h
        · have := ih (mem_cons_self ..)
          simpa [Ne.symm hc] using this
        · exact ih (mem_cons_of_mem _ h)

/-- The lines of texts that are joined: those of each text. -/
theorem lines_joinLines_parts {parts : List Text} (h : parts ≠ []) :
    lines (joinLines parts) = parts.flatMap lines := by
  induction parts with
  | nil => exact absurd rfl h
  | cons a parts ih =>
    cases parts with
    | nil => simp [joinLines]
    | cons b parts =>
      have hj : joinLines (a :: b :: parts) = a ++ '\n' :: joinLines (b :: parts) := by
        simp [joinLines, intercalate_cons_cons]
      rw [hj, lines_newline, ih (by simp)]
      rfl

theorem lines_append (a b : Text) :
    lines (a ++ b) =
      (lines a).dropLast ++ ((lines a).getLastD [] ++ (lines b).headD []) :: (lines b).tail := by
  induction a with
  | nil =>
    cases hb : lines b with
    | nil => exact absurd hb (lines_ne_nil b)
    | cons l ls => simp [hb]
  | cons c a ih =>
    cases ha : lines a with
    | nil => exact absurd ha (lines_ne_nil a)
    | cons l ls =>
      by_cases hc : c = '\n'
      · subst hc
        have hcons (t : Text) : lines ('\n' :: t) = [] :: lines t := lines_newline [] t
        rw [cons_append, hcons, hcons, ih, ha]
        simp
      · rw [cons_append, lines_cons_of_ne hc, lines_cons_of_ne hc, ih, ha]
        cases ls with
        | nil => simp
        | cons m ls => simp

theorem joinLines_cons {l : Text} {ls : List Text} (h : ls ≠ []) :
    joinLines (l :: ls) = l ++ '\n' :: joinLines ls := by
  rw [joinLines, joinLines, intercalate_cons_of_ne_nil h]
  simp

/-- Lines that all end with `\n`, and what follows them. -/
theorem joinLines_append {ks ls : List Text} (h : ls ≠ []) :
    joinLines (ks ++ ls) = ks.flatMap (· ++ ['\n']) ++ joinLines ls := by
  induction ks with
  | nil => rfl
  | cons k ks ih =>
    rw [cons_append, joinLines_cons (by simp [h]), ih]
    simp

theorem mem_joinLines {ls : List Text} {l : Text} {c : Char} (hl : l ∈ ls) (hc : c ∈ l) :
    c ∈ joinLines ls := by
  induction ls with
  | nil => cases hl
  | cons k ls ih =>
    cases ls with
    | nil =>
      obtain rfl := mem_singleton.mp hl
      simpa [joinLines] using hc
    | cons m ls =>
      rw [joinLines_cons (by simp), mem_append]
      rcases mem_cons.mp hl with rfl | hl
      · exact Or.inl hc
      · exact Or.inr (mem_cons_of_mem _ (ih hl))

/-! ## Carriage returns -/

theorem exists_dropReturn (l : Text) : ∃ w : Text, w.Blank ∧ l = dropReturn l ++ w := by
  rw [dropReturn]
  split
  · rename_i h
    obtain ⟨ks, hks⟩ := getLast?_eq_some_iff.mp h
    exact ⟨['\r'], by decide, by simp [hks]⟩
  · exact ⟨[], by decide, by simp⟩

theorem dropReturn_eq_self {l : Text} (h : '\r' ∉ l) : dropReturn l = l := by
  rw [dropReturn, if_neg]
  exact fun hl => h (mem_of_getLast? hl)

theorem newline_not_mem_dropReturn {l : Text} (h : '\n' ∉ l) : '\n' ∉ dropReturn l := by
  obtain ⟨w, -, hl⟩ := exists_dropReturn l
  exact fun hc => h (hl ▸ mem_append_left w hc)

/-- Lines without the carriage return at their end, the last one as it is. -/
def dropReturns (ls : List Text) : List Text := ls.dropLast.map dropReturn ++ [ls.getLastD []]

theorem splitLines_eq (t : Text) : splitLines t = dropReturns (lines t) := rfl

theorem dropReturns_append {ks ls : List Text} (h : ls ≠ []) :
    dropReturns (ks ++ ls) = ks.map dropReturn ++ dropReturns ls := by
  obtain ⟨l, ls, rfl⟩ := exists_cons_of_ne_nil h
  simp [dropReturns, getLast?_cons]

theorem newline_not_mem_splitLines {t l : Text} (h : l ∈ splitLines t) : '\n' ∉ l := by
  rw [splitLines, mem_append, mem_map, mem_singleton] at h
  rcases h with ⟨m, hm, rfl⟩ | rfl
  · exact newline_not_mem_dropReturn (newline_not_mem_of_mem_lines ((dropLast_sublist _).subset hm))
  · rw [getLastD_eq_getLast?, getLast?_eq_some_getLast (lines_ne_nil t)]
    exact newline_not_mem_of_mem_lines (getLast_mem (lines_ne_nil t))

/-- `\n` for `\r\n`. -/
def unixLines (t : Text) : Text := joinLines (splitLines t)

theorem splitLines_of_no_return {t : Text} (h : '\r' ∉ t) : splitLines t = lines t := by
  have hdrop : (lines t).dropLast.map dropReturn = (lines t).dropLast.map id := by
    refine map_congr_left fun l hl => dropReturn_eq_self fun hr => h ?_
    rw [← joinLines_lines t]
    exact mem_joinLines ((dropLast_sublist _).subset hl) hr
  have hlast : (lines t).getLastD [] = (lines t).getLast (lines_ne_nil t) := by
    rw [getLastD_eq_getLast?, getLast?_eq_some_getLast (lines_ne_nil t), Option.getD_some]
  rw [splitLines, hdrop, map_id, hlast, dropLast_append_getLast]

theorem unixLines_of_no_return {t : Text} (h : '\r' ∉ t) : unixLines t = t := by
  rw [unixLines, splitLines_of_no_return h, joinLines_lines]

end Ariad.Text
