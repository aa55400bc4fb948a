import Ariad.Obsidian.Importer
import Ariad.Obsidian.Sections

/-!
# The heading above a link, read in two ways

* `inferEdgeTypeFromContext` — the lines of the text before the link.
* `precomputedEdgeType` — the lines of the whole note up to the line of the link, found by a binary search.
* `HeadingKept` — the rest of the link's line adds nothing to the heading: just then the two agree.
-/

namespace Ariad.Obsidian

open Human Text List

/-! ## Links with their offsets -/

/-- The links of a text, each with the offset at which it starts. The numbers are those of
`wikilinksFrom`, and the offset of the text. -/
def locateFrom (skip line start : ℕ) : Text → List (Wikilink × ℕ)
  | [] => []
  | c :: t =>
    let line' := if c = '\n' then line + 1 else line
    match skip with
    | skip + 1 => locateFrom skip line' (start + 1) t
    | 0 =>
      match matchWikilink (c :: t) with
      | some (target, linkAlias, length) =>
        (⟨trim target, linkAlias.map trim, line⟩, start) :: locateFrom (length - 1) line' (start + 1) t
      | none => locateFrom 0 line' (start + 1) t

/-- What `parseWikilinks` returns, with the field `startIndex`. -/
def locateWikilinks (markdown : Text) : List (Wikilink × ℕ) := locateFrom 0 0 0 markdown

variable {startIndex : ℕ}

theorem matchWikilink_start {t : Text} {m : Text × Option Text × ℕ} (h : matchWikilink t = some m) :
    ∃ u, t = '[' :: '[' :: u := by
  unfold matchWikilink at h
  split at h
  · exact ⟨_, rfl⟩
  · cases h

/-- Where a link stands: what is before it, and a bracket. -/
theorem exists_of_mem_locateFrom {skip line start : ℕ} {t : Text} {wl : Wikilink} {i : ℕ}
    (h : (wl, i) ∈ locateFrom skip line start t) :
    ∃ s u, t = s ++ '[' :: u ∧ i = start + s.length ∧ wl.line = line + s.count '\n' := by
  induction t generalizing skip line start with
  | nil => cases h
  | cons c t ih =>
    have later {skip : ℕ}
        (h : (wl, i) ∈ locateFrom skip (if c = '\n' then line + 1 else line) (start + 1) t) :
        ∃ s u, c :: t = s ++ '[' :: u ∧ i = start + s.length ∧ wl.line = line + s.count '\n' := by
      obtain ⟨s, u, rfl, rfl, hline⟩ := ih h
      refine ⟨c :: s, u, rfl, by simp; omega, ?_⟩
      rw [hline, count_cons]
      split
      · simp_all
        omega
      · simp_all
    cases skip with
    | succ skip => exact later h
    | zero =>
      cases hm : matchWikilink (c :: t) with
      | none =>
        simp only [locateFrom, hm] at h
        exact later h
      | some m =>
        simp only [locateFrom, hm, mem_cons] at h
        rcases h with h | h
        · obtain ⟨u, hu⟩ := matchWikilink_start hm
          cases h
          exact ⟨[], '[' :: u, hu, by simp, by simp⟩
        · exact later h

/-! ## The two ways -/

/-- The type that the last heading outside of fences implies. -/
def inferEdgeTypeFromContextWithState (host : Host) (ls : List Text) (fenceState : List Bool) :
    HumanEdgeType :=
  match lastHeading (ls.zip fenceState) with
  | some heading => headingType host heading
  | none => .MENTIONS

def inferEdgeTypeFromContext (host : Host) (markdown : Text) (startIndex : ℕ) : HumanEdgeType :=
  let ls := lines (markdown.take startIndex)
  inferEdgeTypeFromContextWithState host ls (buildFenceState none ls)

/-- The offset at which each line begins, and the one after the last line. -/
def lineStarts (start : ℕ) : List Text → List ℕ
  | [] => [start]
  | line :: rest => start :: lineStarts (start + line.length + 1) rest

/-- The binary search between `lo` and `hi`. -/
def searchLine (starts : List ℕ) (offset lo hi : ℕ) : ℕ :=
  if lo < hi then
    let mid := (lo + hi + 1) / 2
    if starts.getD mid 0 ≤ offset then searchLine starts offset mid hi
    else searchLine starts offset lo (mid - 1)
  else lo
termination_by hi - lo

def lineIndexForOffset (starts : List ℕ) (offset : ℕ) : ℕ :=
  searchLine starts offset 0 (starts.length - 1)

/-- The type that the import gives to the edge of a link. -/
def precomputedEdgeType (host : Host) (markdown : Text) (startIndex : ℕ) : HumanEdgeType :=
  let allLines := lines markdown
  let fullFenceState := buildFenceState none allLines
  let upToLine := lineIndexForOffset (lineStarts 0 allLines) startIndex
  inferEdgeTypeFromContextWithState host (allLines.take (upToLine + 1)) (fullFenceState.take (upToLine + 1))

/-! ## The search for a line -/

theorem searchLine_spec {starts : List ℕ} {offset lo hi : ℕ} (hle : lo ≤ hi)
    (hlo : starts.getD lo 0 ≤ offset) (hhi : hi + 1 < starts.length → offset < starts.getD (hi + 1) 0) :
    starts.getD (searchLine starts offset lo hi) 0 ≤ offset ∧ searchLine starts offset lo hi ≤ hi ∧
      (searchLine starts offset lo hi + 1 < starts.length →
        offset < starts.getD (searchLine starts offset lo hi + 1) 0) := by
  induction hn : hi - lo using Nat.strong_induction_on generalizing lo hi with
  | _ n ih =>
    rw [searchLine]
    split
    · rename_i hlt
      dsimp only
      split
      · rename_i hmid
        exact ih _ (by omega) (by omega) hmid hhi rfl
      · rename_i hmid
        obtain ⟨h₁, h₂, h₃⟩ := ih (((lo + hi + 1) / 2 - 1) - lo) (by omega) (by omega) hlo
          (fun _ => by rw [Nat.sub_add_cancel (by omega)]; exact Nat.lt_of_not_le hmid) rfl
        exact ⟨h₁, by omega, h₃⟩
    · obtain rfl : lo = hi := by omega
      exact ⟨hlo, le_rfl, hhi⟩

theorem length_lineStarts (start : ℕ) (ls : List Text) : (lineStarts start ls).length = ls.length + 1 := by
  induction ls generalizing start with
  | nil => rfl
  | cons l ls ih => simp [lineStarts, ih]

/-- Line `k` begins after the lines before it. -/
theorem getD_lineStarts {start k : ℕ} {ls : List Text} (h : k ≤ ls.length) :
    (lineStarts start ls).getD k 0 = start + ((ls.take k).map fun l => l.length + 1).sum := by
  induction ls generalizing start k with
  | nil =>
    obtain rfl : k = 0 := by simpa using h
    rfl
  | cons l ls ih =>
    cases k with
    | zero => rfl
    | succ k =>
      rw [lineStarts, getD_cons_succ, ih (by simpa using h)]
      simp
      omega

theorem getD_lineStarts_le (start : ℕ) {j k : ℕ} {ls : List Text} (hjk : j ≤ k) (hk : k ≤ ls.length) :
    (lineStarts start ls).getD j 0 ≤ (lineStarts start ls).getD k 0 := by
  obtain ⟨d, rfl⟩ := Nat.exists_eq_add_of_le hjk
  rw [getD_lineStarts (hjk.trans hk), getD_lineStarts hk, take_add, map_append, sum_append]
  omega

/-- The search finds the line in which an offset lies. -/
theorem lineIndexForOffset_eq {ls : List Text} {k offset : ℕ} (hk : k < ls.length)
    (hlo : (lineStarts 0 ls).getD k 0 ≤ offset) (hhi : offset < (lineStarts 0 ls).getD (k + 1) 0) :
    lineIndexForOffset (lineStarts 0 ls) offset = k := by
  have hlen := length_lineStarts 0 ls
  have hfirst : (lineStarts 0 ls).getD 0 0 ≤ offset := (getD_lineStarts_le 0 (Nat.zero_le k) hk.le).trans hlo
  have hlast : (lineStarts 0 ls).length - 1 + 1 < (lineStarts 0 ls).length →
      offset < (lineStarts 0 ls).getD ((lineStarts 0 ls).length - 1 + 1) 0 := by omega
  obtain ⟨h₁, h₂, h₃⟩ := searchLine_spec (Nat.zero_le _) hfirst hlast
  rw [lineIndexForOffset]
  generalize searchLine (lineStarts 0 ls) offset 0 ((lineStarts 0 ls).length - 1) = r at *
  by_contra hne
  rcases Nat.lt_or_gt_of_ne hne with hr | hr
  · have hbefore := getD_lineStarts_le 0 (show r + 1 ≤ k by omega) (show k ≤ ls.length by omega)
    have hnext := h₃ (by omega)
    omega
  · have hbehind := getD_lineStarts_le 0 (show k + 1 ≤ r by omega) (show r ≤ ls.length by omega)
    omega

/-! ## The line of a link -/

theorem length_lines (t : Text) : (lines t).length = t.count '\n' + 1 := by
  induction t with
  | nil => rfl
  | cons c t ih =>
    by_cases hc : c = '\n'
    · subst hc
      rw [← nil_append ('\n' :: t), lines_newline]
      simp [ih]
    · rw [lines_cons_of_ne hc, length_modifyHead, ih, count_cons_of_ne hc]

/-- The lines of the two parts of a note, where the first part ends within a line. -/
structure LinkPlace where
  /-- The lines above. -/
  above : List Text
  /-- The line of the link up to the link. -/
  before : Text
  /-- The line of the link from the link on. -/
  after : Text

def linkPlace (markdown : Text) (startIndex : ℕ) : LinkPlace where
  above := (lines (markdown.take startIndex)).dropLast
  before := (lines (markdown.take startIndex)).getLastD []
  after := (lines (markdown.drop startIndex)).headD []

theorem lines_take (markdown : Text) (startIndex : ℕ) : lines (markdown.take startIndex) =
      (linkPlace markdown startIndex).above ++ [(linkPlace markdown startIndex).before] := by
  have hne := lines_ne_nil (markdown.take startIndex)
  rw [linkPlace, getLastD_eq_getLast?, getLast?_eq_some_getLast hne, Option.getD_some,
    dropLast_append_getLast]

theorem lines_eq_linkPlace (markdown : Text) (startIndex : ℕ) :
    lines markdown = (linkPlace markdown startIndex).above ++
      ((linkPlace markdown startIndex).before ++ (linkPlace markdown startIndex).after) ::
        (lines (markdown.drop startIndex)).tail := by
  conv_lhs => rw [← take_append_drop startIndex markdown]
  exact lines_append ..

theorem length_joinLines_concat (ks : List Text) (l : Text) :
    (joinLines (ks ++ [l])).length = (ks.map fun k => k.length + 1).sum + l.length := by
  induction ks with
  | nil => simp [joinLines]
  | cons k ks ih =>
    rw [cons_append, joinLines_cons (append_ne_nil_of_right_ne_nil ks (cons_ne_nil l [])),
      length_append, length_cons, ih, map_cons, sum_cons]
    omega

/-- The binary search finds the line of the link. -/
theorem lineIndexForOffset_linkPlace {markdown : Text} (h : startIndex ≤ markdown.length) :
    lineIndexForOffset (lineStarts 0 (lines markdown)) startIndex = (linkPlace markdown startIndex).above.length := by
  have hls := lines_eq_linkPlace markdown startIndex
  have hlen := congrArg (fun ls => (joinLines ls).length) (lines_take markdown startIndex)
  simp only [joinLines_lines, length_joinLines_concat, length_take, Nat.min_eq_left h] at hlen
  generalize linkPlace markdown startIndex = place at *
  refine lineIndexForOffset_eq (by simp [hls]) ?_ ?_
  · rw [getD_lineStarts (by simp [hls]), hls, take_left]
    omega
  · rw [getD_lineStarts (by simp [hls]), hls, take_length_add_append, take_succ_cons, take_zero,
      map_append, sum_append, map_singleton, sum_singleton, length_append]
    omega

/-! ## Fences and headings of the line -/

theorem buildFenceState_append (fence : Option Char) (ks ls : List Text) :
    buildFenceState fence (ks ++ ls) = buildFenceState fence ks ++ buildFenceState (fenceAfter fence ks) ls := by
  induction ks generalizing fence with
  | nil => rfl
  | cons k ks ih => rw [cons_append, buildFenceState, ih]; rfl

theorem length_buildFenceState (fence : Option Char) (ls : List Text) :
    (buildFenceState fence ls).length = ls.length := by
  induction ls generalizing fence with
  | nil => rfl
  | cons l ls ih => simp [buildFenceState, ih]

/-- The state of a line depends on the lines above only. -/
theorem take_buildFenceState (fence : Option Char) (ls : List Text) (k : ℕ) :
    (buildFenceState fence ls).take k = buildFenceState fence (ls.take k) := by
  induction ls generalizing fence k with
  | nil => simp [buildFenceState]
  | cons l ls ih =>
    cases k with
    | zero => rfl
    | succ k => simp [buildFenceState, ih]

theorem isPrefixOf_bracket {p : Text} (hp : '[' ∉ p) (s u : Text) : p.isPrefixOf (s ++ '[' :: u) = p.isPrefixOf s := by
  induction p generalizing s with
  | nil => simp
  | cons c p ih =>
    obtain ⟨hc, hp⟩ : ¬ '[' = c ∧ '[' ∉ p := by simpa using hp
    cases s with
    | nil => simp [List.isPrefixOf, Ne.symm hc]
    | cons d s => simp [List.isPrefixOf, ih hp]

/-- A link closes and opens no fence. -/
theorem fenceOf_bracket (s u : Text) : fenceOf (s ++ '[' :: u) = fenceOf s := by
  rw [fenceOf, fenceOf, isPrefixOf_bracket (by decide), isPrefixOf_bracket (by decide)]

theorem lastHeading_append (ls : List (Text × Bool)) (l : Text) (fenced : Bool) :
    lastHeading (ls ++ [(l, fenced)]) = (if fenced then none else headingText l).or (lastHeading ls) := by
  rw [lastHeading, reverse_append, reverse_singleton, singleton_append, findSome?_cons]
  cases fenced with
  | true => rfl
  | false =>
    cases headingText l with
    | none => rfl
    | some heading => rfl

/-- The type after a line outside of fences, where the lines above imply `above`. -/
def typeAfter (host : Host) (above : HumanEdgeType) (line : Text) : HumanEdgeType :=
  match headingText line with
  | some heading => headingType host heading
  | none => above

/-- The type that the lines of a text imply. -/
def typeOf (host : Host) (ls : List Text) : HumanEdgeType :=
  inferEdgeTypeFromContextWithState host ls (buildFenceState none ls)

theorem typeOf_append (host : Host) (ls : List Text) (l : Text) : typeOf host (ls ++ [l]) =
      if fenceAfter none ls ≠ none ∨ fenceOf l ≠ none then typeOf host ls else typeAfter host (typeOf host ls) l := by
  have hzip : (ls ++ [l]).zip (buildFenceState none (ls ++ [l])) =
      ls.zip (buildFenceState none ls) ++ [(l, decide (fenceAfter none ls ≠ none ∨ fenceOf l ≠ none))] := by
    rw [buildFenceState_append, zip_append (length_buildFenceState none ls).symm]
    rfl
  rw [typeOf, inferEdgeTypeFromContextWithState, hzip, lastHeading_append]
  by_cases hf : fenceAfter none ls ≠ none ∨ fenceOf l ≠ none
  · rw [if_pos hf, if_pos (decide_eq_true hf)]
    rfl
  · rw [if_neg hf, if_neg (by simpa using hf), typeAfter]
    cases headingText l with
    | none => rfl
    | some heading => rfl

/-! ## The words of a heading -/

/-- The words that are looked for in a heading, in their order, with the type that they imply. -/
def headingWords : List (HumanEdgeType × List Text) :=
  [(.DECIDES, ["décision".toList, "decision".toList]), (.AFFECTS, ["bug".toList]),
    (.TODO_FOR, ["à faire".toList, "todo".toList, "refactor".toList]),
    (.EXPLAINS, ["explication".toList, "explique".toList, "explications".toList, "contexte".toList])]

/-- A heading has one of the words. -/
def hasWord (host : Host) (heading : Text) (words : HumanEdgeType × List Text) : Bool :=
  words.2.any fun word => Text.includes word (trim (heading.flatMap host.lower))

/-- The type of a heading is that of the first words that it has. -/
theorem headingType_eq (host : Host) (heading : Text) :
    headingType host heading = ((headingWords.find? (hasWord host heading)).map Prod.fst).getD .MENTIONS := by
  simp only [headingType, headingWords, hasWord, find?_cons, any_cons, any_nil, Bool.or_false,
    Bool.or_assoc]
  split
  · rename_i h
    simp only [h, Option.map_some, Option.getD_some]
  · rename_i ha
    split
    · rename_i h
      simp only [ha, h, Option.map_some, Option.getD_some]
    · rename_i hb
      split
      · rename_i h
        simp only [ha, hb, h, Option.map_some, Option.getD_some]
      · rename_i hc
        split
        · rename_i h
          simp only [ha, hb, hc, h, Option.map_some, Option.getD_some]
        · rename_i hd
          simp only [ha, hb, hc, hd, find?_nil, Option.map_none, Option.getD_none]

/-- Headings have the same type if they have the same words first. -/
theorem headingType_eq_iff (host : Host) (heading heading' : Text) :
    headingType host heading = headingType host heading' ↔
      headingWords.find? (hasWord host heading) = headingWords.find? (hasWord host heading') := by
  have hinj : ∀ a ∈ none :: headingWords.map some, ∀ b ∈ none :: headingWords.map some,
      (a.map Prod.fst).getD .MENTIONS = (b.map Prod.fst).getD .MENTIONS → a = b := by decide
  have hmem (heading : Text) :
      headingWords.find? (hasWord host heading) ∈ none :: headingWords.map some := by
    cases hf : headingWords.find? (hasWord host heading) with
    | none => exact mem_cons_self ..
    | some g => exact mem_cons_of_mem _ (mem_map_of_mem (mem_of_find?_eq_some hf))
  rw [headingType_eq, headingType_eq]
  exact ⟨hinj _ (hmem heading) _ (hmem heading'), fun h => by rw [h]⟩

/-! ## When the two ways agree -/

/-- The link is in a fence, or what its line implies as a heading is the same up to the link and as a
whole: no heading at all, one that implies what the lines above imply, or two headings with the same
words first. -/
def HeadingKept (host : Host) (markdown : Text) (startIndex : ℕ) : Prop :=
  let place := linkPlace markdown startIndex
  fenceAfter none place.above ≠ none ∨ fenceOf place.before ≠ none ∨
    match headingText place.before, headingText (place.before ++ place.after) with
    | none, none => True
    | some heading, none => headingType host heading = typeOf host place.above
    | none, some heading => headingType host heading = typeOf host place.above
    | some heading, some heading' =>
      headingWords.find? (hasWord host heading) = headingWords.find? (hasWord host heading')

theorem linkPlace_of_mem {markdown : Text} {wl : Wikilink} (h : (wl, startIndex) ∈ locateWikilinks markdown) :
    startIndex ≤ markdown.length ∧ wl.line = (linkPlace markdown startIndex).above.length ∧
      ∃ t, (linkPlace markdown startIndex).after = '[' :: t := by
  obtain ⟨s, u, rfl, hstart, hline⟩ := exists_of_mem_locateFrom h
  obtain rfl : startIndex = s.length := by simpa using hstart
  refine ⟨by simp, ?_, ?_⟩
  · rw [hline, linkPlace, take_left, length_dropLast, length_lines, Nat.zero_add]
    rfl
  · rw [linkPlace, drop_left, lines_cons_of_ne (by decide)]
    obtain ⟨l, ls, hls⟩ := exists_cons_of_ne_nil (lines_ne_nil u)
    exact ⟨l, by rw [hls]; rfl⟩

theorem precomputedEdgeType_eq_typeOf {markdown : Text} (host : Host) (h : startIndex ≤ markdown.length) :
    precomputedEdgeType host markdown startIndex = typeOf host ((linkPlace markdown startIndex).above ++
      [(linkPlace markdown startIndex).before ++ (linkPlace markdown startIndex).after]) := by
  have htake : (lines markdown).take ((linkPlace markdown startIndex).above.length + 1) =
      (linkPlace markdown startIndex).above ++
        [(linkPlace markdown startIndex).before ++ (linkPlace markdown startIndex).after] := by
    rw [lines_eq_linkPlace markdown startIndex, take_length_add_append]
    rfl
  rw [precomputedEdgeType, lineIndexForOffset_linkPlace h, take_buildFenceState, htake, typeOf]

/-- The type read with the precomputed state is that of the plain reading just for the links whose line
adds nothing to its heading. -/
theorem precomputedEdgeType_eq_iff (host : Host) (markdown : Text) (wl : Wikilink) (startIndex : ℕ)
    (hmem : (wl, startIndex) ∈ locateWikilinks markdown) :
    precomputedEdgeType host markdown startIndex = inferEdgeTypeFromContext host markdown startIndex ↔
      HeadingKept host markdown startIndex := by
  obtain ⟨hle, -, t, hafter⟩ := linkPlace_of_mem hmem
  have hplain : inferEdgeTypeFromContext host markdown startIndex =
      typeOf host ((linkPlace markdown startIndex).above ++ [(linkPlace markdown startIndex).before]) := by
    rw [inferEdgeTypeFromContext, lines_take, typeOf]
  rw [precomputedEdgeType_eq_typeOf host hle, hplain, HeadingKept]
  generalize linkPlace markdown startIndex = place at *
  -- The bracket of the link is no fence, so both lines are in a fence or none is.
  have hfence : fenceOf (place.before ++ place.after) = fenceOf place.before := by
    rw [hafter, fenceOf_bracket]
  rw [typeOf_append, typeOf_append, hfence]
  by_cases hf : fenceAfter none place.above ≠ none ∨ fenceOf place.before ≠ none
  · rw [if_pos hf, if_pos hf, ← or_assoc]
    exact iff_of_true rfl (.inl hf)
  · rw [if_neg hf, if_neg hf, ← or_assoc, or_iff_right hf, typeAfter, typeAfter]
    cases headingText place.before with
    | none =>
      cases headingText (place.before ++ place.after) with
      | none => exact iff_of_true rfl trivial
      | some heading' => exact Iff.rfl
    | some heading =>
      cases headingText (place.before ++ place.after) with
      | none => exact eq_comm
      | some heading' => exact eq_comm.trans (headingType_eq_iff ..)

/-- A link below a heading, for which both readings give the type of the heading. -/
theorem precomputedEdgeType_eq_iff_todo : precomputedEdgeType asciiHost "# Todo\nsee [[1]]".toList 11 =
        inferEdgeTypeFromContext asciiHost "# Todo\nsee [[1]]".toList 11 ↔
      HeadingKept asciiHost "# Todo\nsee [[1]]".toList 11 :=
  precomputedEdgeType_eq_iff asciiHost _ ⟨"1".toList, none, 1⟩ 11 (by decide)

/-- A heading with a link before the word that counts. -/
def headingWithLink : Text := "# See [[1]] bug".toList

theorem precomputedEdgeType_headingWithLink :
    ¬∀ wl : Wikilink, ∀ startIndex : ℕ, (wl, startIndex) ∈ locateWikilinks headingWithLink →
      precomputedEdgeType asciiHost headingWithLink startIndex =
        inferEdgeTypeFromContext asciiHost headingWithLink startIndex := by
  intro h
  have hmem : (⟨"1".toList, none, 0⟩, 6) ∈ locateWikilinks headingWithLink := by decide
  have hsame := h _ 6 hmem
  rw [precomputedEdgeType_eq_typeOf asciiHost (by decide)] at hsame
  exact absurd hsame (by decide)

end Ariad.Obsidian
