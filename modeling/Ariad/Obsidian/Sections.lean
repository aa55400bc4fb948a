import Mathlib.Data.List.Forall2
import Ariad.Javascript.Lines
import Ariad.Obsidian.Frontmatter

/-!
# Sections that are found again

* `Closed` — lines without a marker that leave no fence open.
* `splitSections_joinLines` — between and around two markers, closed lines give back the sections.
* `closed_preSectionContent` — what stands before the sections of a body is closed.
* `Closed.trim` — trimming keeps that, unless it moves a fence to the start of its line.
* `lines_mergeSections` — the lines of a merged body.
-/

namespace Ariad.Obsidian

open Text List Option

/-! ## Padded lines -/

/-- The same line, up to white space at its end. -/
def Padded (l l' : Text) : Prop := ∃ w : Text, w.Blank ∧ l = l' ++ w

variable {fence : Option Char} {ls : List Text} {marker : Text}

variable {l l' : Text}

theorem Padded.refl (l : Text) : Padded l l := ⟨[], by decide, by simp⟩

theorem padded_dropReturn (l : Text) : Padded l (dropReturn l) := exists_dropReturn l

theorem Padded.trim_eq (h : Padded l l') : trim l = trim l' := by
  obtain ⟨w, hw, rfl⟩ := h
  simpa using trim_append_of_blank (s := []) (t := l') (by decide) hw

/-- White space at the end does not make a line start with three characters that are none. -/
theorem Padded.isPrefixOf_eq (h : Padded l l') {c : Char} (hc : isSpace c = false) :
    [c, c, c].isPrefixOf l = [c, c, c].isPrefixOf l' := by
  obtain ⟨w, hw, rfl⟩ := h
  have hne (d : Char) (hd : d ∈ w) : (c == d) = false := by
    have hs := hw d hd
    simp only [beq_eq_false_iff_ne]
    rintro rfl
    rw [hc] at hs
    cases hs
  -- The three characters reach into `w` if `l'` is shorter.
  match l', w with
  | _ :: _ :: _ :: _, _ => simp [List.isPrefixOf]
  | [], [] | [_], [] | [_, _], [] => simp [List.isPrefixOf]
  | [], d :: _ | [_], d :: _ | [_, _], d :: _ => simp [List.isPrefixOf, hne d]

theorem Padded.fenceOf_eq (h : Padded l l') : fenceOf l = fenceOf l' := by
  rw [fenceOf, fenceOf]
  have ht := h.isPrefixOf_eq (c := '`') (by decide)
  have hw := h.isPrefixOf_eq (c := '~') (by decide)
  rw [show "```".toList = ['`', '`', '`'] from rfl, show "~~~".toList = ['~', '~', '~'] from rfl, ht, hw]

/-! ## Fences -/

/-- The open fence is no white space. -/
def Visible (fence : Option Char) : Prop := ∀ c, fence = some c → isSpace c = false

theorem visible_none : Visible none := by simp [Visible]

theorem Visible.fenceStep (h : Visible fence) (l : Text) : Visible (fenceStep fence l) := by
  intro c hc
  cases fence with
  | none =>
    simp only [Obsidian.fenceStep, fenceOf] at hc
    split at hc
    · obtain rfl := Option.some.inj hc
      decide
    · split at hc
      · obtain rfl := Option.some.inj hc
        decide
      · cases hc
  | some d =>
    simp only [Obsidian.fenceStep] at hc
    split at hc
    · cases hc
    · exact h c hc

theorem Padded.fenceStep_eq (h : Padded l l') (hf : Visible fence) : fenceStep fence l = fenceStep fence l' := by
  cases fence with
  | none => exact h.fenceOf_eq
  | some c => simp only [fenceStep, h.isPrefixOf_eq (hf c rfl)]

/-- The fence that is open after some lines. -/
def fenceAfter (fence : Option Char) (ls : List Text) : Option Char := ls.foldl fenceStep fence

@[simp] theorem fenceAfter_nil (fence : Option Char) : fenceAfter fence [] = fence := rfl

@[simp] theorem fenceAfter_cons (fence : Option Char) (l : Text) (ls : List Text) :
    fenceAfter fence (l :: ls) = fenceAfter (fenceStep fence l) ls := rfl

theorem fenceAfter_append (fence : Option Char) (ks ls : List Text) :
    fenceAfter fence (ks ++ ls) = fenceAfter (fenceAfter fence ks) ls := foldl_append

/-! ## Markers -/

theorem markerIdx_cons (marker : Text) (fence : Option Char) (l : Text) (ls : List Text) :
    markerIdx marker fence (l :: ls) = if fence = none ∧ fenceOf l = none ∧ trim l = marker then some 0
      else (markerIdx marker (fenceStep fence l) ls).map (· + 1) := rfl

theorem markerIdx_append (marker : Text) (fence : Option Char) (ks ls : List Text) : markerIdx marker fence (ks ++ ls) =
      (markerIdx marker fence ks).or ((markerIdx marker (fenceAfter fence ks) ls).map (· + ks.length)) := by
  induction ks generalizing fence with
  | nil => simp [markerIdx]
  | cons k ks ih =>
    rw [cons_append, markerIdx_cons, markerIdx_cons, ih, fenceAfter_cons]
    split
    · rfl
    · cases markerIdx marker (fenceStep fence k) ks with
      | some i => rfl
      | none =>
        cases markerIdx marker (fenceAfter (fenceStep fence k) ks) ls with
        | none => rfl
        | some j => simp [Nat.add_assoc]

/-- The lines outside of fences that are the marker. -/
def markerCount (marker : Text) (fence : Option Char) : List Text → ℕ
  | [] => 0
  | line :: rest =>
    (if fence = none ∧ fenceOf line = none ∧ trim line = marker then 1 else 0) +
      markerCount marker (fenceStep fence line) rest

theorem markerCount_append (marker : Text) (fence : Option Char) (ks ls : List Text) :
    markerCount marker fence (ks ++ ls) =
      markerCount marker fence ks + markerCount marker (fenceAfter fence ks) ls := by
  induction ks generalizing fence with
  | nil => simp [markerCount]
  | cons k ks ih => simp only [cons_append, markerCount, ih, fenceAfter_cons, Nat.add_assoc]

theorem markerCount_eq_zero (h : markerIdx marker fence ls = none) : markerCount marker fence ls = 0 := by
  induction ls generalizing fence with
  | nil => rfl
  | cons l ls ih =>
    rw [markerIdx_cons] at h
    split at h
    · cases h
    · rename_i hl
      rw [markerCount, if_neg hl, ih (map_eq_none_iff.mp h)]

/-- Padding hides no marker and no fence. -/
theorem markerIdx_padded (marker : Text) (hf : Visible fence) {ls ls' : List Text} (h : List.Forall₂ Padded ls ls') :
    markerIdx marker fence ls = markerIdx marker fence ls' ∧
      markerCount marker fence ls = markerCount marker fence ls' ∧ fenceAfter fence ls = fenceAfter fence ls' := by
  induction h generalizing fence with
  | nil => exact ⟨rfl, rfl, rfl⟩
  | cons hl _ ih =>
    obtain ⟨h₁, h₂, h₃⟩ := ih (hf.fenceStep _)
    rw [hl.fenceStep_eq hf] at h₁ h₂ h₃
    simp only [markerIdx_cons, markerCount, fenceAfter_cons, hl.fenceStep_eq hf, hl.fenceOf_eq, hl.trim_eq,
      h₁, h₂, h₃, and_self]

/-- The lines before a marker, the marker, and the lines after it. -/
theorem exists_of_markerIdx {i : ℕ} (h : markerIdx marker fence ls = some i) :
    ∃ ks l rest, ls = ks ++ l :: rest ∧ ks.length = i ∧ markerIdx marker fence ks = none ∧
      fenceAfter fence ks = none := by
  induction ls generalizing fence i with
  | nil => cases h
  | cons l ls ih =>
    rw [markerIdx_cons] at h
    split at h
    · rename_i hl
      obtain rfl := Option.some.inj h
      exact ⟨[], l, ls, rfl, rfl, rfl, hl.1⟩
    · rename_i hl
      obtain ⟨j, hj, rfl⟩ := map_eq_some_iff.mp h
      obtain ⟨ks, m, rest, rfl, hlen, hnone, hfence⟩ := ih hj
      exact ⟨l :: ks, m, rest, rfl, by simp [hlen], by rw [markerIdx_cons, if_neg hl, hnone]; rfl, hfence⟩

theorem markerIdx_none_of_le {ks ls : List Text}
    (h : ∀ i, markerIdx marker none (ks ++ ls) = some i → ks.length ≤ i) : markerIdx marker none ks = none := by
  cases hm : markerIdx marker none ks with
  | none => rfl
  | some i =>
    obtain ⟨a, l, b, rfl, rfl, -⟩ := exists_of_markerIdx hm
    have := h a.length (by rw [markerIdx_append, hm]; rfl)
    simp at this

/-! ## Closed lines -/

/-- Lines without a marker that leave no fence open. -/
structure Closed (ls : List Text) : Prop where
  auto : markerIdx autoMarker none ls = none
  human : markerIdx humanMarker none ls = none
  fence : fenceAfter none ls = none

theorem closed_nil : Closed [] := ⟨rfl, rfl, rfl⟩

theorem closed_append_iff {ks ls : List Text} (h : Closed ks) : Closed (ks ++ ls) ↔ Closed ls := by
  have hidx (marker : Text) (hk : markerIdx marker none ks = none) :
      markerIdx marker none (ks ++ ls) = none ↔ markerIdx marker none ls = none := by
    rw [markerIdx_append, hk, h.fence, none_or, map_eq_none_iff]
  have hfence : fenceAfter none (ks ++ ls) = fenceAfter none ls := by rw [fenceAfter_append, h.fence]
  constructor
  · intro hc
    exact ⟨(hidx _ h.auto).mp hc.auto, (hidx _ h.human).mp hc.human, hfence ▸ hc.fence⟩
  · intro hc
    exact ⟨(hidx _ h.auto).mpr hc.auto, (hidx _ h.human).mpr hc.human, hfence.trans hc.fence⟩

theorem closed_padded {ls ls' : List Text} (h : List.Forall₂ Padded ls ls') : Closed ls ↔ Closed ls' := by
  have hidx (marker : Text) := markerIdx_padded marker visible_none h
  constructor
  · intro hc
    exact ⟨(hidx _).1 ▸ hc.auto, (hidx _).1 ▸ hc.human, (hidx []).2.2 ▸ hc.fence⟩
  · intro hc
    exact ⟨(hidx _).1.trans hc.auto, (hidx _).1.trans hc.human, (hidx []).2.2.trans hc.fence⟩

/-- A line that is no marker and starts no fence. -/
structure Harmless (l : Text) : Prop where
  fence : fenceOf l = none
  auto : trim l ≠ autoMarker
  human : trim l ≠ humanMarker

theorem closed_cons_iff {l : Text} (h : Harmless l) : Closed (l :: ls) ↔ Closed ls := by
  have hl : Closed [l] := by
    refine ⟨?_, ?_, h.fence⟩
    · rw [markerIdx_cons, if_neg (fun hm => h.auto hm.2.2)]
      rfl
    · rw [markerIdx_cons, if_neg (fun hm => h.human hm.2.2)]
      rfl
  exact closed_append_iff hl

theorem closed_of_harmless (h : ∀ l ∈ ls, Harmless l) : Closed ls := by
  induction ls with
  | nil => exact closed_nil
  | cons l ls ih =>
    obtain ⟨hl, hls⟩ := forall_mem_cons.mp h
    exact (closed_cons_iff hl).mpr (ih hls)

/-- A line that starts with a character that no fence and no marker starts with. -/
theorem harmless_of_head {c : Char} (h : isSpace c = false ∧ c ≠ '`' ∧ c ≠ '~' ∧ c ≠ '#') (l : Text) :
    Harmless (c :: l) := by
  obtain ⟨hs, ht, hw, hh⟩ := h
  -- What is trimmed starts with `c` as well.
  have htrim (marker : Text) (hm : marker.head? = some '#') : trim (c :: l) ≠ marker := by
    intro he
    have hb : ¬Blank [c] := fun hb => by simp [hb c (by simp)] at hs
    obtain ⟨s, u, hsb, -, hsu⟩ := exists_trim (c :: l)
    cases s with
    | cons d s =>
      obtain ⟨rfl, -⟩ := List.cons.inj hsu
      exact hb fun e he => by
        obtain rfl := mem_singleton.mp he
        exact hsb e (by simp)
    | nil =>
      rw [he] at hsu
      cases marker with
      | nil => cases hm
      | cons d marker =>
        obtain ⟨rfl, -⟩ := List.cons.inj hsu
        exact hh (Option.some.inj hm)
  refine ⟨?_, htrim _ rfl, htrim _ rfl⟩
  simp [fenceOf, List.isPrefixOf, ht.symm, hw.symm]

theorem harmless_of_blank {l : Text} (h : l.Blank) : Harmless l := by
  have hp : Padded l [] := ⟨l, h, rfl⟩
  refine ⟨hp.fenceOf_eq, ?_, ?_⟩
  · rw [hp.trim_eq]
    decide
  · rw [hp.trim_eq]
    decide

theorem closed_nil_line : Closed [[]] := (closed_cons_iff (harmless_of_blank (by decide))).mpr closed_nil

theorem visible_fenceAfter (hf : Visible fence) (ls : List Text) : Visible (fenceAfter fence ls) := by
  induction ls generalizing fence with
  | nil => exact hf
  | cons l ls ih => exact ih (hf.fenceStep l)

theorem fenceAfter_of_blank (hf : Visible fence) (h : ∀ l ∈ ls, l.Blank) : fenceAfter fence ls = fence := by
  induction ls with
  | nil => rfl
  | cons l ls ih =>
    obtain ⟨hl, hls⟩ := forall_mem_cons.mp h
    have hp : Padded l [] := ⟨l, hl, rfl⟩
    have hstep : fenceStep fence [] = fence := by
      cases fence with
      | none => rfl
      | some c => rfl
    rw [fenceAfter_cons, hp.fenceStep_eq hf, hstep, ih hls]

theorem markerIdx_of_blank (hm : marker ≠ []) (fence : Option Char)
    (h : ∀ l ∈ ls, l.Blank) : markerIdx marker fence ls = none := by
  induction ls generalizing fence with
  | nil => rfl
  | cons l ls ih =>
    obtain ⟨hl, hls⟩ := forall_mem_cons.mp h
    rw [markerIdx_cons, if_neg (fun hc => hm (hc.2.2.symm.trans (trim_eq_nil_iff.mpr hl))), ih _ hls]
    rfl

theorem autoMarker_ne_nil : autoMarker ≠ [] := by decide

theorem humanMarker_ne_nil : humanMarker ≠ [] := by decide

/-- Blank lines at the end. -/
theorem closed_append_blank_iff {ks ls : List Text} (h : ∀ l ∈ ls, l.Blank) : Closed (ks ++ ls) ↔ Closed ks := by
  have hidx (marker : Text) (hm : marker ≠ []) :
      markerIdx marker none (ks ++ ls) = markerIdx marker none ks := by
    rw [markerIdx_append, markerIdx_of_blank hm _ h, map_none, or_none]
  have hfence : fenceAfter none (ks ++ ls) = fenceAfter none ks := by
    rw [fenceAfter_append, fenceAfter_of_blank (visible_fenceAfter visible_none ks) h]
  constructor
  · intro hc
    exact ⟨hidx _ autoMarker_ne_nil ▸ hc.auto, hidx _ humanMarker_ne_nil ▸ hc.human, hfence ▸ hc.fence⟩
  · intro hc
    exact ⟨(hidx _ autoMarker_ne_nil).trans hc.auto, (hidx _ humanMarker_ne_nil).trans hc.human,
      hfence.trans hc.fence⟩

/-! ## The sections between markers -/

theorem textBetween_append (ks ls : List Text) : textBetween (ks ++ ls) 0 ks.length = ks.flatMap (· ++ ['\n']) := by
  simp [textBetween]

theorem textFrom_append (ks ls : List Text) : textFrom (ks ++ ls) ks.length = joinLines ls := by
  simp [textFrom]

theorem markerIdx_marker (h : fenceOf marker = none ∧ trim marker = marker)
    (ls : List Text) : markerIdx marker none (marker :: ls) = some 0 := by
  rw [markerIdx_cons, if_pos ⟨rfl, h⟩]

/-- Closed lines around the first marker, and what comes after the second. -/
theorem splitSections_joinLines {as bs : List Text} (ns : List Text) (ha : Closed as) (hb : Closed bs) (hn : ns ≠ [])
    (hline : ∀ l ∈ as ++ autoMarker :: bs ++ humanMarker :: ns, '\n' ∉ l) :
    (splitSections (joinLines (as ++ autoMarker :: bs ++ humanMarker :: ns))).humanNotes = trim (joinLines ns) ∧
      (splitSections (joinLines (as ++ autoMarker :: bs ++ humanMarker :: ns))).preSectionContent =
        as.flatMap (· ++ ['\n']) ∧ markerCount humanMarker none (as ++ autoMarker :: bs ++ humanMarker :: ns) =
        1 + markerCount humanMarker none ns := by
  have hauto : markerIdx autoMarker none (as ++ autoMarker :: bs ++ humanMarker :: ns) = some as.length := by
    rw [append_assoc, markerIdx_append, ha.auto, ha.fence, cons_append,
      markerIdx_marker (by decide)]
    simp
  -- The first marker is no marker of the notes, so the lines up to the second are closed for it.
  have hpre : markerIdx humanMarker none (as ++ autoMarker :: bs) = none ∧
      fenceAfter none (as ++ autoMarker :: bs) = none := by
    rw [markerIdx_append, fenceAfter_append, ha.human, ha.fence, markerIdx_cons,
      if_neg (by decide), fenceAfter_cons, show fenceStep none autoMarker = none by decide, hb.human, hb.fence]
    exact ⟨rfl, rfl⟩
  have hhuman : markerIdx humanMarker none (as ++ autoMarker :: bs ++ humanMarker :: ns) =
      some (as ++ autoMarker :: bs).length := by
    rw [markerIdx_append, hpre.1, hpre.2, markerIdx_marker (by decide)]
    simp
  have hle : ¬(as ++ autoMarker :: bs).length < as.length := by simp
  simp only [splitSections, lines_joinLines hline (by simp), hauto, hhuman, if_neg hle]
  refine ⟨?_, ?_, ?_⟩
  · rw [textFrom_append, joinLines_cons hn, stripMarker, if_pos (by simp), drop_left]
    rfl
  · rw [append_assoc, textBetween_append]
  · rw [markerCount_append, hpre.2, markerCount_eq_zero hpre.1, markerCount, if_pos (by decide),
      show fenceStep none humanMarker = none by decide]
    omega

/-! ## What stands before the sections -/

theorem lines_flatMap_newline {ks : List Text} (h : ∀ l ∈ ks, '\n' ∉ l) :
    lines (ks.flatMap (· ++ ['\n'])) = ks ++ [[]] := by
  have hj : ks.flatMap (· ++ ['\n']) = joinLines (ks ++ [[]]) := by
    rw [joinLines_append (by simp)]
    simp [joinLines]
  rw [hj, lines_joinLines _ (by simp)]
  intro l hl
  rcases mem_append.mp hl with hl | hl
  · exact h l hl
  · obtain rfl := mem_singleton.mp hl
    simp

/-- Before the first marker no marker stands and no fence is open. -/
theorem closed_preSectionContent (body : Text) : Closed (lines (splitSections body).preSectionContent) := by
  have key (marker other : Text) (hm : marker = autoMarker ∧ other = humanMarker ∨
      marker = humanMarker ∧ other = autoMarker) {i : ℕ} (hi : markerIdx marker none (lines body) = some i)
      (hother : ∀ j, markerIdx other none (lines body) = some j → i ≤ j) :
      Closed (lines (textBetween (lines body) 0 i)) := by
    obtain ⟨ks, l, rest, hls, rfl, hnone, hfence⟩ := exists_of_markerIdx hi
    have hnewline : ∀ k ∈ ks, '\n' ∉ k := fun k hk =>
      newline_not_mem_of_mem_lines (hls ▸ mem_append_left _ hk)
    have hnone' : markerIdx other none ks = none := markerIdx_none_of_le (hls ▸ hother)
    have hks : Closed ks := by
      rcases hm with ⟨rfl, rfl⟩ | ⟨rfl, rfl⟩
      · exact ⟨hnone, hnone', hfence⟩
      · exact ⟨hnone', hnone, hfence⟩
    rw [hls, textBetween_append, lines_flatMap_newline hnewline]
    exact (closed_append_iff hks).mpr closed_nil_line
  rw [splitSections.eq_def]
  simp only
  cases ha : markerIdx autoMarker none (lines body) with
  | none =>
    cases hh : markerIdx humanMarker none (lines body) with
    | none => exact closed_nil_line
    | some j => exact key _ _ (Or.inr ⟨rfl, rfl⟩) hh (by simp [ha])
  | some i =>
    cases hh : markerIdx humanMarker none (lines body) with
    | none => exact key _ _ (Or.inl ⟨rfl, rfl⟩) ha (by simp [hh])
    | some j =>
      simp only
      split
      · rename_i hlt
        exact key _ _ (Or.inr ⟨rfl, rfl⟩) hh (by simp [ha]; omega)
      · rename_i hle
        exact key _ _ (Or.inl ⟨rfl, rfl⟩) ha (by simp [hh]; omega)

/-- The first line with a text starts a fence, but only after white space: a fence for the eye, which
trimming moves to the start of its line. -/
def IndentedFence (t : Text) : Prop :=
  (lines (t.takeWhile isSpace)).getLastD [] ≠ [] ∧ fenceOf ((lines (trim t)).headD []) ≠ none

instance (t : Text) : Decidable (IndentedFence t) := by
  unfold IndentedFence
  infer_instance

theorem blank_of_mem_lines {t l : Text} (h : t.Blank) (hl : l ∈ lines t) : l.Blank := by
  intro c hc
  apply h
  rw [← joinLines_lines t]
  exact mem_joinLines hl hc

theorem forall₂_padded_refl (ls : List Text) : List.Forall₂ Padded ls ls :=
  forall₂_same.mpr fun l _ => Padded.refl l

theorem dropLast_append_getLastD (h : ls ≠ []) : ls.dropLast ++ [ls.getLastD []] = ls := by
  rw [getLastD_eq_getLast?, getLast?_eq_some_getLast h, getD_some,
    dropLast_append_getLast]

/-- White space at the end of a text. -/
theorem closed_lines_append_blank {t w : Text} (hw : w.Blank) : Closed (lines (t ++ w)) ↔ Closed (lines t) := by
  have hhead : Padded ((lines t).getLastD [] ++ (lines w).headD []) ((lines t).getLastD []) := by
    refine ⟨_, ?_, rfl⟩
    cases hls : lines w with
    | nil => exact absurd hls (lines_ne_nil w)
    | cons l ls => exact blank_of_mem_lines hw (by simp [hls])
  have htail : ∀ l ∈ (lines w).tail, l.Blank := fun l hl =>
    blank_of_mem_lines hw (mem_of_mem_tail hl)
  calc Closed (lines (t ++ w))
      ↔ Closed (((lines t).dropLast ++ [(lines t).getLastD [] ++ (lines w).headD []]) ++ (lines w).tail) := by
        rw [lines_append, append_assoc, singleton_append]
    _ ↔ Closed ((lines t).dropLast ++ [(lines t).getLastD [] ++ (lines w).headD []]) :=
        closed_append_blank_iff htail
    _ ↔ Closed ((lines t).dropLast ++ [(lines t).getLastD []]) :=
        closed_padded (rel_append (forall₂_padded_refl _) (.cons hhead .nil))
    _ ↔ Closed (lines t) := by rw [dropLast_append_getLastD (lines_ne_nil t)]

/-- White space before a text, where no fence is moved. -/
theorem closed_of_blank_append {s t : Text} (hs : s.Blank)
    (ht : (lines s).getLastD [] = [] ∨ fenceOf ((lines t).headD []) = none) (h : Closed (lines (s ++ t))) :
    Closed (lines t) := by
  obtain ⟨l, ls, hls⟩ := exists_cons_of_ne_nil (lines_ne_nil t)
  have hblank : ∀ k ∈ (lines s).dropLast, Harmless k := fun k hk =>
    harmless_of_blank (blank_of_mem_lines hs ((dropLast_sublist _).subset hk))
  rw [lines_append, hls, closed_append_iff (closed_of_harmless hblank)] at h
  rw [hls] at ht ⊢
  simp only [headD_cons, tail_cons] at h ht
  generalize hw : (lines s).getLastD [] = w at h ht
  cases w with
  | nil => exact h
  | cons c w =>
    have hl : fenceOf l = none := ht.resolve_left (by simp)
    have hwb : Blank (c :: w) := by
      have hmem : (lines s).getLastD [] ∈ lines s := by
        rw [getLastD_eq_getLast?, getLast?_eq_some_getLast (lines_ne_nil s), getD_some]
        exact getLast_mem _
      exact hw ▸ blank_of_mem_lines hs hmem
    have hc : isSpace c = true := hwb c (by simp)
    -- The line starts with white space, so both lines start no fence and are the same marker or none.
    have hfence : fenceOf (c :: w ++ l) = none := by
      have hct : c ≠ '`' := by rintro rfl; cases hc
      have hcw : c ≠ '~' := by rintro rfl; cases hc
      simp [fenceOf, List.isPrefixOf, hct.symm, hcw.symm]
    have htrim : trim (c :: w ++ l) = trim l := by
      simpa using trim_append_of_blank (t := l) (u := []) hwb (by decide)
    have hidx (marker : Text) : markerIdx marker none ((c :: w ++ l) :: ls) = markerIdx marker none (l :: ls) := by
      simp only [markerIdx_cons, fenceStep, hfence, htrim, hl]
    have hafter : fenceAfter none ((c :: w ++ l) :: ls) = fenceAfter none (l :: ls) := by
      simp only [fenceAfter_cons, fenceStep, hfence, hl]
    exact ⟨hidx _ ▸ h.auto, hidx _ ▸ h.human, hafter ▸ h.fence⟩

/-- Trimming keeps closed lines closed, unless it moves a fence. -/
theorem closed_lines_trim {t : Text} (hfence : ¬IndentedFence t) (h : Closed (lines t)) : Closed (lines (trim t)) := by
  have hdecomp : ∃ u : Text, u.Blank ∧ t = t.takeWhile isSpace ++ (trim t ++ u) := by
    refine ⟨(t.dropWhile isSpace).rtakeWhile isSpace, fun c hc => mem_rtakeWhile_imp hc, ?_⟩
    rw [trim, trimEnd, trimStart, rdropWhile_append_rtakeWhile, takeWhile_append_dropWhile]
  obtain ⟨u, hu, ht⟩ := hdecomp
  rw [ht, ← append_assoc, closed_lines_append_blank hu] at h
  refine closed_of_blank_append (fun c hc => mem_takeWhile_imp hc) ?_ h
  rw [IndentedFence, not_and_or, not_not, not_not] at hfence
  exact hfence

/-! ## A merged body -/

/-- A part of a body and the empty line after it; nothing for a blank part. -/
def partLines (t : Text) : List Text := if trim t = [] then [] else lines (trim t) ++ [[]]

/-- The lines of the notes of a merged body. -/
def noteLines (humanNotes : Text) : List Text :=
  if trim humanNotes = [] then [placeholder, []] else lines (trim humanNotes)

theorem noteLines_ne_nil (humanNotes : Text) : noteLines humanNotes ≠ [] := by
  rw [noteLines]
  split
  · simp
  · exact lines_ne_nil _

theorem closed_partLines {t : Text} (hfence : ¬IndentedFence t) (h : Closed (lines t)) : Closed (partLines t) := by
  rw [partLines]
  split
  · exact closed_nil
  · exact (closed_append_iff (closed_lines_trim hfence h)).mpr closed_nil_line

theorem lines_mergeSections (pre auto human : Text) : lines (mergeSections pre auto human) =
      partLines pre ++ autoMarker :: ([] :: partLines auto ++ [delimiter, []]) ++
        humanMarker :: ([] :: noteLines human) := by
  have hpart (t : Text) :
      (if trim t = [] then ([] : List Text) else [trim t, []]).flatMap lines = partLines t := by
    rw [partLines]
    split
    · rfl
    · simp
  have hnotes : (if trim human = [] then [placeholder, []] else [trim human]).flatMap lines =
      noteLines human := by
    rw [noteLines]
    split
    · rfl
    · simp
  have hfixed : ([autoMarker, []] : List Text).flatMap lines = [autoMarker, []] ∧
      [delimiter, [], humanMarker, []].flatMap lines = [delimiter, [], humanMarker, []] := by
    decide
  rw [mergeSections, lines_joinLines_parts (by simp)]
  simp only [flatMap_append, hpart, hnotes, hfixed]
  simp

/-- The body of a note that is read: its lines, without carriage returns. -/
theorem splitLines_mergeSections (pre auto human : Text) : splitLines (mergeSections pre auto human) =
      (partLines pre).map dropReturn ++ autoMarker :: ([] :: (partLines auto).map dropReturn ++ [delimiter, []]) ++
        humanMarker :: ([] :: dropReturns (noteLines human)) := by
  have hsplit : partLines pre ++ autoMarker :: ([] :: partLines auto ++ [delimiter, []]) ++
      humanMarker :: ([] :: noteLines human) =
      (partLines pre ++ autoMarker :: ([] :: partLines auto ++ [delimiter, [], humanMarker, []])) ++
        noteLines human := by
    simp
  have hfixed : dropReturn autoMarker = autoMarker ∧ dropReturn humanMarker = humanMarker ∧
      dropReturn delimiter = delimiter ∧ dropReturn [] = [] := by
    decide
  rw [splitLines_eq, lines_mergeSections, hsplit, dropReturns_append (noteLines_ne_nil human)]
  simp [hfixed]

theorem padded_map_dropReturn (ls : List Text) : List.Forall₂ Padded ls (ls.map dropReturn) := by
  rw [forall₂_map_right_iff]
  exact forall₂_same.mpr fun l _ => padded_dropReturn l

theorem closed_map_dropReturn (h : Closed ls) : Closed (ls.map dropReturn) :=
  (closed_padded (padded_map_dropReturn ls)).mp h

theorem padded_dropReturns (h : ls ≠ []) : List.Forall₂ Padded ls (dropReturns ls) := by
  have hp : List.Forall₂ Padded (ls.dropLast ++ [ls.getLastD []])
      (ls.dropLast.map dropReturn ++ [ls.getLastD []]) :=
    rel_append (padded_map_dropReturn _) (forall₂_padded_refl _)
  rwa [dropLast_append_getLastD h] at hp

theorem harmless_delimiter : Harmless delimiter := ⟨by decide, by decide, by decide⟩

/-- The notes and what stands before the sections, read back from a merged body. -/
theorem splitSections_mergeSections {pre auto : Text} (hpre : Closed (partLines pre))
    (hauto : Closed (partLines auto)) (human : Text) :
    let body := joinLines ([] :: splitLines (mergeSections pre auto human))
    (splitSections body).humanNotes = trim (joinLines (dropReturns (noteLines human))) ∧
      (splitSections body).preSectionContent =
        ([] :: (partLines pre).map dropReturn).flatMap (· ++ ['\n']) ∧
      markerCount humanMarker none (lines body) = 1 + markerCount humanMarker none (noteLines human) := by
  intro body
  have hbs : Closed ([] :: (partLines auto).map dropReturn ++ [delimiter, []]) := by
    rw [cons_append, closed_cons_iff (harmless_of_blank (by decide)),
      closed_append_iff (closed_map_dropReturn hauto), closed_cons_iff harmless_delimiter]
    exact closed_nil_line
  have has : Closed ([] :: (partLines pre).map dropReturn) :=
    (closed_cons_iff (harmless_of_blank (by decide))).mpr (closed_map_dropReturn hpre)
  have hbody : [] :: splitLines (mergeSections pre auto human) =
      ([] :: (partLines pre).map dropReturn) ++
        autoMarker :: ([] :: (partLines auto).map dropReturn ++ [delimiter, []]) ++
        humanMarker :: ([] :: dropReturns (noteLines human)) := by
    rw [splitLines_mergeSections]
    simp
  have hline : ∀ l ∈ [] :: splitLines (mergeSections pre auto human), '\n' ∉ l := by
    intro l hl
    rcases mem_cons.mp hl with rfl | hl
    · simp
    · exact newline_not_mem_splitLines hl
  have hlines : lines body = [] :: splitLines (mergeSections pre auto human) :=
    lines_joinLines hline (by simp)
  obtain ⟨h₁, h₂, h₃⟩ := splitSections_joinLines ([] :: dropReturns (noteLines human)) has hbs
    (by simp) (hbody ▸ hline)
  refine ⟨?_, ?_, ?_⟩
  · rw [show body = _ from congrArg joinLines hbody, h₁]
    have hne : dropReturns (noteLines human) ≠ [] := by simp [dropReturns]
    rw [joinLines_cons hne]
    simpa using trim_append_of_blank (s := ['\n']) (u := []) (t := joinLines (dropReturns (noteLines human)))
      (by decide) (by decide)
  · rw [show body = _ from congrArg joinLines hbody, h₂]
  · have hcount := (markerIdx_padded humanMarker visible_none
      (padded_dropReturns (noteLines_ne_nil human))).2.1
    rw [hlines, hbody, h₃, hcount, markerCount, if_neg (by decide)]
    simp [fenceStep, show fenceOf [] = none from rfl]

end Ariad.Obsidian
