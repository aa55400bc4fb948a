import Ariad.Bridge.ExactPages
import Ariad.Relational.Like

/-!
# Paths of test files

Whether a file is a test is decided by its path, in TypeScript and in SQL.

* `isTestSourcePath` — the predicate in TypeScript.
* `sqlTestPath` — the condition of the statements.
* `sqlTestPath_of_isTestSourcePath` — the condition holds for every test, and for some other files too.
-/

namespace Ariad.Bridge

open List

/-- A suffix such as `.test.ts`: `/\.test\.[^/]+$/`, with the word between the dots. -/
def hasTestSuffix (word path : Text) : Bool :=
  path.tails.any fun t => word.isPrefixOf t && t.drop word.length ≠ [] && '/' ∉ t.drop word.length

/-- Only the letters of ASCII have one of the letters of these words as their lower case. -/
def isTestSourcePath (filePath : Text) : Bool :=
  let normalized := foldCase (normalizePathForSearch filePath)
  "test/".toList.isPrefixOf normalized || "tests/".toList.isPrefixOf normalized ||
    "__tests__/".toList.isPrefixOf normalized || Text.includes "/test/".toList normalized ||
      Text.includes "/tests/".toList normalized || Text.includes "/__tests__/".toList normalized ||
        hasTestSuffix ".test.".toList normalized || hasTestSuffix ".spec.".toList normalized

/-- The patterns of the condition. -/
def testPatterns : List Text :=
  ["%/test/%".toList, "%/tests/%".toList, "%/__tests__/%".toList, "test/%".toList, "tests/%".toList,
    "__tests__/%".toList, "%.test.%".toList, "%.spec.%".toList]

/-- `LOWER(REPLACE(file_path, CHAR(92), '/')) LIKE …`, for one of the patterns. -/
def sqlTestPath (filePath : Text) : Bool :=
  testPatterns.any fun pattern => Like.like none pattern (foldCase (slashes filePath))

/-! ## Slashes that are taken out -/

/-- Only letters have letters as their lower case. -/
theorem toLower_eq_iff {c d : Char} (hd : d.toNat < 65) : c.toLower = d ↔ c = d := by
  delta Char.toLower
  split
  · rename_i h
    have hlow : 65 ≤ c.toNat := h.1
    have hhigh : c.toNat ≤ 90 := h.2
    refine iff_of_false ?_ ?_
    · rintro rfl
      have hsum : (c.val + ('a'.val - 'A'.val)).toNat = (c.toNat + 32) % 2 ^ 32 := UInt32.toNat_add ..
      rw [Char.toNat, hsum] at hd
      omega
    · rintro rfl
      omega
  · rfl

variable {w t u : Text}

theorem collapseSlashes_cons {c : Char} (h : c = '/' → t.head? ≠ some '/') :
    collapseSlashes (c :: t) = c :: collapseSlashes t := by
  rw [collapseSlashes]
  rintro t' rfl rfl
  exact h rfl rfl

theorem head?_collapseSlashes (t : Text) : (collapseSlashes t).head? = t.head? := by
  fun_induction collapseSlashes t with
  | case1 t ih => exact ih
  | case2 c t _ ih => rfl
  | case3 => rfl

theorem collapseSlashes_map {f : Char → Char} (hf : ∀ c, f c = '/' ↔ c = '/') (t : Text) :
    collapseSlashes (t.map f) = (collapseSlashes t).map f := by
  have hslash : f '/' = '/' := (hf _).mpr rfl
  fun_induction collapseSlashes t with
  | case1 t ih =>
    rw [map_cons, map_cons, hslash, collapseSlashes, ← ih, map_cons, hslash]
  | case2 c t hno ih =>
    rw [map_cons, map_cons, ← ih]
    refine collapseSlashes_cons fun hc => ?_
    obtain rfl := (hf _).mp hc
    rw [head?_map, ne_eq, Option.map_eq_some_iff]
    rintro ⟨d, hd, hslash'⟩
    obtain rfl := (hf _).mp hslash'
    obtain ⟨t', rfl⟩ := head?_eq_some_iff.mp hd
    exact hno t' rfl rfl
  | case3 => rfl

theorem dropDotSlashes_map {f : Char → Char} (hf : ∀ c, f c = '/' ↔ c = '/') (hdot : ∀ c, f c = '.' ↔ c = '.') (t : Text) :
    dropDotSlashes (t.map f) = (dropDotSlashes t).map f := by
  fun_induction dropDotSlashes t with
  | case1 t ih => rw [map_cons, map_cons, (hf _).mpr rfl, (hdot _).mpr rfl, dropDotSlashes, ih]
  | case2 t hno =>
    rw [dropDotSlashes]
    intro t' ht'
    obtain ⟨c, t₁, rfl, hc, ht₁⟩ := map_eq_cons_iff.mp ht'
    obtain ⟨d, t₂, rfl, hd, -⟩ := map_eq_cons_iff.mp ht₁
    obtain rfl := (hdot _).mp hc
    obtain rfl := (hf _).mp hd
    exact hno t₂ rfl

/-- The start of a path stays when slashes are taken out behind it. -/
theorem prefix_of_collapse (h : '/' ∉ w.dropLast) (hw : w <+: collapseSlashes t) : w <+: t := by
  induction w generalizing t with
  | nil => exact nil_prefix
  | cons c w ih =>
    have hhead : t.head? = some c := by
      obtain ⟨rest, hrest⟩ := hw
      rw [← head?_collapseSlashes, ← hrest]
      rfl
    obtain ⟨t, rfl⟩ := head?_eq_some_iff.mp hhead
    rw [cons_prefix_cons, and_iff_right rfl]
    cases w with
    | nil => exact nil_prefix
    | cons d w =>
      rw [dropLast_cons_cons, mem_cons, not_or] at h
      rw [collapseSlashes_cons fun hc => absurd hc.symm h.1, cons_prefix_cons] at hw
      exact ih h.2 hw.2

theorem exists_suffix_collapse (hu : u <:+ collapseSlashes t) : ∃ t', t' <:+ t ∧ collapseSlashes t' = u := by
  fun_induction collapseSlashes t with
  | case1 t ih =>
    obtain ⟨t', hsuffix, hcollapse⟩ := ih hu
    exact ⟨t', hsuffix.trans (suffix_cons ..), hcollapse⟩
  | case2 c t hno ih =>
    rcases suffix_cons_iff.mp hu with rfl | hu
    · exact ⟨c :: t, suffix_rfl, by rw [collapseSlashes]; exact hno⟩
    · obtain ⟨t', hsuffix, hcollapse⟩ := ih hu
      exact ⟨t', hsuffix.trans (suffix_cons ..), hcollapse⟩
  | case3 => exact ⟨[], suffix_rfl, (suffix_nil.mp hu).symm⟩

theorem exists_slash_collapse (h : '/' :: u = collapseSlashes t) : ∃ t', '/' :: t' <:+ t ∧ collapseSlashes t' = u := by
  fun_induction collapseSlashes t with
  | case1 t ih =>
    obtain ⟨t', hsuffix, hcollapse⟩ := ih h
    exact ⟨t', hsuffix.trans (suffix_cons ..), hcollapse⟩
  | case2 c t hno ih =>
    obtain ⟨rfl, rfl⟩ := List.cons.inj h
    exact ⟨t, suffix_rfl, rfl⟩
  | case3 => cases h

/-- A part of a path is also there before slashes are taken out, unless it has slashes inside. -/
theorem infix_of_collapse (h : '/' ∉ w.dropLast) (hw : w <:+: collapseSlashes t) : w <:+: t := by
  obtain ⟨u, hprefix, hsuffix⟩ := infix_iff_prefix_suffix.mp hw
  obtain ⟨t', ht', rfl⟩ := exists_suffix_collapse hsuffix
  exact (prefix_of_collapse h hprefix).isInfix.trans ht'.isInfix

theorem slash_infix_of_collapse (h : '/' ∉ w.dropLast) (hw : '/' :: w <:+: collapseSlashes t) : '/' :: w <:+: t := by
  obtain ⟨u, ⟨rest, rfl⟩, hsuffix⟩ := infix_iff_prefix_suffix.mp hw
  obtain ⟨t', ht', hcollapse⟩ := exists_suffix_collapse hsuffix
  obtain ⟨t'', ht'', hrest⟩ := exists_slash_collapse hcollapse.symm
  have hprefix : w <+: t'' := prefix_of_collapse h (hrest ▸ prefix_append w rest)
  exact ((cons_prefix_cons.mpr ⟨rfl, hprefix⟩).isInfix.trans ht''.isInfix).trans ht'.isInfix

theorem dropDotSlashes_suffix (t : Text) : dropDotSlashes t = t ∨ '/' :: dropDotSlashes t <:+ t := by
  fun_induction dropDotSlashes t with
  | case1 t ih =>
    right
    rcases ih with heq | hsuffix
    · rw [heq]
      exact suffix_cons ..
    · exact (hsuffix.trans (suffix_cons ..)).trans (suffix_cons ..)
  | case2 => exact .inl rfl

/-! ## The predicate and the condition -/

/-- What the predicate takes for a test, the statement takes for one. -/
theorem sqlTestPath_of_isTestSourcePath {filePath : Text} (h : isTestSourcePath filePath = true) :
    sqlTestPath filePath = true := by
  have hnormalized : foldCase (normalizePathForSearch filePath) =
      dropDotSlashes (collapseSlashes (foldCase (slashes filePath))) := by
    have hslash (c : Char) : c.toLower = '/' ↔ c = '/' := toLower_eq_iff (by decide)
    have hdot (c : Char) : c.toLower = '.' ↔ c = '.' := toLower_eq_iff (by decide)
    rw [foldCase, foldCase, normalizePathForSearch, collapseSlashes_map hslash, dropDotSlashes_map hslash hdot]
  rw [isTestSourcePath, hnormalized] at h
  rw [sqlTestPath]
  generalize foldCase (slashes filePath) = s at h ⊢
  have hsuffix : dropDotSlashes (collapseSlashes s) <:+ collapseSlashes s := by
    rcases dropDotSlashes_suffix (collapseSlashes s) with heq | hsuffix
    · rw [heq]
    · exact (suffix_cons ..).trans hsuffix
  have hcontained {w : Text} (hpattern : '%' :: (w ++ ['%']) ∈ testPatterns) (hliteral : '%' ∉ w) (hw : w <:+: s) :
      (testPatterns.any fun pattern => Like.like none pattern s) = true :=
    any_eq_true.mpr ⟨_, hpattern, Like.like_of_infix hliteral hw⟩
  -- A directory, at the start or later.
  have hlater {w : Text} (hpattern : '%' :: ('/' :: w ++ ['%']) ∈ testPatterns) (hliteral : '%' ∉ '/' :: w)
      (hw : '/' ∉ w.dropLast) (h : Text.includes ('/' :: w) (dropDotSlashes (collapseSlashes s)) = true) :
      (testPatterns.any fun pattern => Like.like none pattern s) = true :=
    hcontained hpattern hliteral (slash_infix_of_collapse hw ((of_decide_eq_true h).trans hsuffix.isInfix))
  have hstart {w : Text} (hpatterns : w ++ ['%'] ∈ testPatterns ∧ '%' :: ('/' :: w ++ ['%']) ∈ testPatterns)
      (hliteral : '%' ∉ '/' :: w) (hw : '/' ∉ w.dropLast)
      (h : w.isPrefixOf (dropDotSlashes (collapseSlashes s)) = true) :
      (testPatterns.any fun pattern => Like.like none pattern s) = true := by
    rw [List.isPrefixOf_iff_prefix] at h
    rcases dropDotSlashes_suffix (collapseSlashes s) with heq | hsuffix
    · have hprefix := Like.like_of_prefix (mt (mem_cons_of_mem _) hliteral) (prefix_of_collapse hw (heq ▸ h))
      exact any_eq_true.mpr ⟨_, hpatterns.1, hprefix⟩
    · have hslash := (cons_prefix_cons.mpr ⟨rfl, h⟩).isInfix.trans hsuffix.isInfix
      exact hcontained hpatterns.2 hliteral (slash_infix_of_collapse hw hslash)
  have hword {word : Text} (hpattern : '%' :: (word ++ ['%']) ∈ testPatterns) (hliteral : '%' ∉ word)
      (hw : '/' ∉ word.dropLast) (h : hasTestSuffix word (dropDotSlashes (collapseSlashes s)) = true) :
      (testPatterns.any fun pattern => Like.like none pattern s) = true := by
    obtain ⟨t, ht, hboth⟩ := any_eq_true.mp h
    simp only [Bool.and_eq_true, List.isPrefixOf_iff_prefix] at hboth
    have hinside := (hboth.1.1.isInfix.trans ((mem_tails ..).mp ht).isInfix).trans hsuffix.isInfix
    exact hcontained hpattern hliteral (infix_of_collapse hw hinside)
  simp only [Bool.or_eq_true] at h
  rcases h with ((((((h | h) | h) | h) | h) | h) | h) | h
  iterate 3
    · exact hstart (by decide) (by decide) (by decide) h
  iterate 3
    · exact hlater (by decide) (by decide) (by decide) h
  iterate 2
    · exact hword (by decide) (by decide) (by decide) h

end Ariad.Bridge
