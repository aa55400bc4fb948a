import Mathlib.Algebra.BigOperators.Group.Finset.Basic
import Mathlib.Algebra.Order.BigOperators.Group.Finset
import Ariad.Ui.OverviewSelection

/-!
# The shares of the labels are fair

A round gives every label that has more nodes the same share; only the last round can stop on its way.

* `Levelled` — every label has its nodes up to one level.
* `FairQuotas` — no label has more than its nodes, the quotas are as many as there are places or nodes, and a label
  that has two fewer than another one has all of its nodes.
* `allocateBalancedLabelQuotas_fair` — the quotas of any histogram.
-/

namespace Ariad.Ui

open Bridge List OrderedMap

variable {counts quotas : OrderedMap Text ℕ} {labels entries : List (Text × ℕ)} {share level maxNodes : ℕ} {s : Sharing}

/-! ## Sums -/

def sumOf (counts : OrderedMap Text ℕ) : ℕ := (counts.entries.map Prod.snd).sum

theorem countOf_of_mem {e : Text × ℕ} (h : e ∈ counts.entries) : countOf counts e.1 = e.2 := by
  rw [countOf, OrderedMap.get_eq_some_iff.mpr h, Option.getD_some]

theorem countOf_of_notMem {label : Text} (h : label ∉ counts.keys) : countOf counts label = 0 := by
  rw [countOf, OrderedMap.get_eq_none_iff.mpr h, Option.getD_none]

/-- The sum as one over the keys. -/
theorem sumOf_eq (counts : OrderedMap Text ℕ) : sumOf counts = ∑ label ∈ counts.keys.toFinset, countOf counts label := by
  rw [sumOf, OrderedMap.keys, sum_toFinset _ counts.nodup, map_map]
  congr 1
  exact map_congr_left fun e he => (countOf_of_mem he).symm

theorem sumOf_le_sumOf (h : ∀ label, countOf quotas label ≤ countOf counts label) : sumOf quotas ≤ sumOf counts := by
  rw [sumOf_eq, sumOf_eq]
  calc ∑ label ∈ quotas.keys.toFinset, countOf quotas label
      ≤ ∑ label ∈ quotas.keys.toFinset ∪ counts.keys.toFinset, countOf quotas label :=
        Finset.sum_le_sum_of_subset Finset.subset_union_left
    _ ≤ ∑ label ∈ quotas.keys.toFinset ∪ counts.keys.toFinset, countOf counts label :=
        Finset.sum_le_sum fun label _ => h label
    _ = ∑ label ∈ counts.keys.toFinset, countOf counts label := by
        refine (Finset.sum_subset Finset.subset_union_right fun label _ hno => countOf_of_notMem ?_).symm
        simpa using hno

/-- A quota that grows. -/
theorem sumOf_set (label : Text) (take : ℕ) :
    sumOf (quotas.set label (countOf quotas label + take)) = sumOf quotas + take := by
  rw [countOf]
  cases hget : quotas.get label with
  | none =>
    rw [set_of_get_none hget, sumOf, entries_push_of_get_none hget]
    simp [sumOf]
  | some current =>
    obtain ⟨older, newer, he, -, hreplace⟩ := exists_split hget
    rw [OrderedMap.set, if_pos (has_iff.mpr ⟨current, hget⟩), sumOf, sumOf, hreplace, he]
    simp only [map_append, map_cons, sum_append, sum_cons, Option.getD_some]
    omega

/-! ## One round -/

/-- What a candidate gets. -/
theorem giveShare_spec (share : ℕ) (s : Sharing) (e : Text × ℕ) :
    ∃ take, take = min (min (e.2 - countOf s.quotas e.1) share) s.remaining ∧
      (giveShare share s e).remaining = s.remaining - take ∧
      sumOf (giveShare share s e).quotas = sumOf s.quotas + take ∧
      ∀ label, countOf (giveShare share s e).quotas label = countOf s.quotas label + if label = e.1 then take else 0 := by
  refine ⟨_, rfl, ?_⟩
  rw [giveShare]
  dsimp only
  split
  · rename_i hzero
    simp [hzero]
  · split
    · rename_i htake
      simp [htake]
    · refine ⟨rfl, sumOf_set _ _, fun label => ?_⟩
      rw [countOf_set]
      split
      · rename_i hlabel
        rw [hlabel]
      · rfl

theorem foldl_giveShare_sumOf (share : ℕ) (entries : List (Text × ℕ)) (s : Sharing) :
    sumOf (entries.foldl (giveShare share) s).quotas + (entries.foldl (giveShare share) s).remaining =
      sumOf s.quotas + s.remaining := by
  induction entries generalizing s with
  | nil => rfl
  | cons e entries ih =>
    obtain ⟨take, htake, hremaining, hsum, -⟩ := giveShare_spec share s e
    rw [foldl_cons, ih, hremaining, hsum]
    omega

theorem foldl_giveShare_remaining_le (share : ℕ) (entries : List (Text × ℕ)) (s : Sharing) :
    (entries.foldl (giveShare share) s).remaining ≤ s.remaining := by
  induction entries generalizing s with
  | nil => exact le_refl _
  | cons e entries ih =>
    obtain ⟨take, -, hremaining, -, -⟩ := giveShare_spec share s e
    have hrest := ih (giveShare share s e)
    rw [foldl_cons]
    omega

/-- A round gives something. -/
theorem sharingRound_added {labels : List (Text × ℕ)} {remaining : ℕ} (hremaining : remaining ≠ 0)
    (hsome : unexhausted labels quotas ≠ []) : (sharingRound labels quotas remaining).added ≠ 0 := by
  have hsum := sharingRound_sum labels quotas remaining
  suffices hless : (sharingRound labels quotas remaining).remaining < remaining by omega
  rw [sharingRound]
  generalize hshare : max 1 (remaining / (unexhausted labels quotas).length) = share
  cases hcandidates : unexhausted labels quotas with
  | nil => exact absurd hcandidates hsome
  | cons e candidates =>
    have hmem : e ∈ unexhausted labels quotas := hcandidates ▸ mem_cons_self
    have hlt : countOf quotas e.1 < e.2 := by simpa using (mem_filter.mp hmem).2
    obtain ⟨take, htake, hleft, -, -⟩ := giveShare_spec share ⟨quotas, remaining, 0⟩ e
    have hrest := foldl_giveShare_remaining_le share candidates (giveShare share ⟨quotas, remaining, 0⟩ e)
    rw [foldl_cons]
    dsimp only at htake hleft
    omega

theorem countOf_foldl_giveShare_of_notMem {label : Text} (h : label ∉ entries.map Prod.fst) :
    countOf (entries.foldl (giveShare share) s).quotas label = countOf s.quotas label := by
  induction entries generalizing s with
  | nil => rfl
  | cons e entries ih =>
    rw [map_cons, mem_cons, not_or] at h
    obtain ⟨take, -, -, -, hcount⟩ := giveShare_spec share s e
    rw [foldl_cons, ih h.2, hcount, if_neg h.1, Nat.add_zero]

/-- A round in which there is enough for everyone. -/
theorem countOf_foldl_giveShare (hnodup : (entries.map Prod.fst).Nodup) (henough : share * entries.length ≤ s.remaining)
    {e : Text × ℕ} (he : e ∈ entries) : countOf (entries.foldl (giveShare share) s).quotas e.1 =
      countOf s.quotas e.1 + min (e.2 - countOf s.quotas e.1) share := by
  induction entries generalizing s with
  | nil => cases he
  | cons e' entries ih =>
    rw [map_cons, nodup_cons] at hnodup
    rw [length_cons, Nat.mul_succ] at henough
    obtain ⟨take, htake, hremaining, -, hcount⟩ := giveShare_spec share s e'
    have hfull : take = min (e'.2 - countOf s.quotas e'.1) share := by omega
    rw [foldl_cons]
    rcases mem_cons.mp he with rfl | he
    · rw [countOf_foldl_giveShare_of_notMem hnodup.1, hcount, if_pos rfl, hfull]
    · have hne : e.1 ≠ e'.1 := fun heq => hnodup.1 (heq ▸ mem_map_of_mem he)
      have hrest := ih hnodup.2 (by rw [hremaining]; omega) he
      rwa [hcount, if_neg hne, Nat.add_zero] at hrest

/-- A round in which there is one for some: each of them gets at most one. -/
theorem foldl_giveShare_one (hnodup : (entries.map Prod.fst).Nodup)
    (hmore : ∀ e ∈ entries, countOf s.quotas e.1 < e.2) (hfew : s.remaining ≤ entries.length) :
    (entries.foldl (giveShare 1) s).remaining = 0 ∧ ∀ e ∈ entries,
      countOf (entries.foldl (giveShare 1) s).quotas e.1 = countOf s.quotas e.1 ∨
        countOf (entries.foldl (giveShare 1) s).quotas e.1 = countOf s.quotas e.1 + 1 := by
  induction entries generalizing s with
  | nil => exact ⟨Nat.eq_zero_of_le_zero hfew, nofun⟩
  | cons e' entries ih =>
    rw [map_cons, nodup_cons] at hnodup
    obtain ⟨take, htake, hremaining, -, hcount⟩ := giveShare_spec 1 s e'
    have hfirst := hmore e' mem_cons_self
    have hne {e : Text × ℕ} (he : e ∈ entries) : e.1 ≠ e'.1 := fun heq => hnodup.1 (heq ▸ mem_map_of_mem he)
    have hsame {e : Text × ℕ} (he : e ∈ entries) : countOf (giveShare 1 s e').quotas e.1 = countOf s.quotas e.1 := by
      rw [hcount, if_neg (hne he), Nat.add_zero]
    rw [length_cons] at hfew
    obtain ⟨hzero, hrest⟩ := ih (s := giveShare 1 s e') hnodup.2
      (fun e he => by rw [hsame he]; exact hmore e (mem_cons_of_mem _ he)) (by rw [hremaining]; omega)
    rw [foldl_cons]
    refine ⟨hzero, fun e he => ?_⟩
    rcases mem_cons.mp he with rfl | he
    · rw [countOf_foldl_giveShare_of_notMem hnodup.1, hcount, if_pos rfl]
      omega
    · rw [← hsame he]
      exact hrest e he

/-! ## Levels -/

/-- Every label has its nodes up to a level. -/
def Levelled (counts quotas : OrderedMap Text ℕ) (level : ℕ) : Prop :=
  ∀ label, countOf quotas label = min (countOf counts label) level

/-- Every label has its nodes up to a level, or one more. -/
def NearlyLevelled (counts quotas : OrderedMap Text ℕ) (level : ℕ) : Prop :=
  ∀ label, countOf quotas label = min (countOf counts label) level ∨
    countOf quotas label = min (countOf counts label) (level + 1)

theorem Levelled.nearly (h : Levelled counts quotas level) : NearlyLevelled counts quotas level :=
  fun label => .inl (h label)

/-- The labels of a histogram, in any order. -/
structure LabelsOf (counts : OrderedMap Text ℕ) (labels : List (Text × ℕ)) : Prop where
  nodup : (labels.map Prod.fst).Nodup
  mem_iff (e : Text × ℕ) : e ∈ labels ↔ countOf counts e.1 = e.2 ∧ 0 < e.2

theorem labelsOf_rankedLabels (counts : OrderedMap Text ℕ) : LabelsOf counts (rankedLabels counts) := by
  have hperm := sortBy_perm (fun a b : Text × ℕ => (compare b.2 a.2).then (stableStringCompare a.1 b.1))
    (counts.entries.filter fun e => 0 < e.2)
  refine ⟨?_, fun e => ?_⟩
  · rw [rankedLabels, (hperm.map Prod.fst).nodup_iff]
    exact counts.nodup.sublist (filter_sublist.map _)
  · rw [rankedLabels, mem_sortBy, mem_filter, decide_eq_true_eq]
    constructor
    · exact fun h => ⟨countOf_of_mem h.1, h.2⟩
    · rintro ⟨hcount, hpos⟩
      refine ⟨OrderedMap.get_eq_some_iff.mp ?_, hpos⟩
      rw [countOf] at hcount
      cases hget : counts.get e.1 with
      | none => simp [hget] at hcount; omega
      | some n => rw [← hcount, hget, Option.getD_some]

section

variable (h : LabelsOf counts labels)
include h

theorem LabelsOf.mem_unexhausted {e : Text × ℕ} :
    e ∈ unexhausted labels quotas ↔ countOf counts e.1 = e.2 ∧ countOf quotas e.1 < e.2 := by
  rw [unexhausted, mem_filter, h.mem_iff, decide_eq_true_eq]
  constructor
  · exact fun h => ⟨h.1.1, h.2⟩
  · exact fun h => ⟨⟨h.1, by omega⟩, h.2⟩

theorem LabelsOf.nodup_unexhausted (quotas : OrderedMap Text ℕ) : ((unexhausted labels quotas).map Prod.fst).Nodup :=
  h.nodup.sublist (filter_sublist.map _)

/-- A label outside the candidates has all of its nodes. -/
theorem LabelsOf.exhausted (hle : ∀ label, countOf quotas label ≤ countOf counts label)
    {label : Text} (hno : label ∉ (unexhausted labels quotas).map Prod.fst) :
    countOf quotas label = countOf counts label := by
  by_contra hne
  refine hno (mem_map.mpr ⟨(label, countOf counts label), h.mem_unexhausted.mpr ⟨rfl, ?_⟩, rfl⟩)
  exact lt_of_le_of_ne (hle label) hne

/-- A round that is not the last one raises the level; the last one can leave some labels one below. -/
theorem LabelsOf.sharingRound (hlevel : Levelled counts quotas level) (remaining : ℕ) :
    (∃ level', Levelled counts (sharingRound labels quotas remaining).quotas level') ∨
      NearlyLevelled counts (Ui.sharingRound labels quotas remaining).quotas level ∧
        (Ui.sharingRound labels quotas remaining).remaining = 0 := by
  have hle (label : Text) : countOf quotas label ≤ countOf counts label := by
    have := hlevel label
    omega
  have hnodup := h.nodup_unexhausted quotas
  have hother {share : ℕ} {label : Text} (hno : label ∉ (unexhausted labels quotas).map Prod.fst) :
      countOf ((unexhausted labels quotas).foldl (giveShare share) ⟨quotas, remaining, 0⟩).quotas label =
        countOf counts label := by
    rw [countOf_foldl_giveShare_of_notMem hno]
    exact h.exhausted hle hno
  rw [Ui.sharingRound]
  by_cases hmany : (unexhausted labels quotas).length ≤ remaining
  · left
    refine ⟨level + max 1 (remaining / (unexhausted labels quotas).length), fun label => ?_⟩
    have hat := hlevel label
    by_cases hmem : label ∈ (unexhausted labels quotas).map Prod.fst
    · obtain ⟨e, he, rfl⟩ := mem_map.mp hmem
      obtain ⟨hcount, hlt⟩ := h.mem_unexhausted.mp he
      have hpos := length_pos_of_mem he
      have hshare : max 1 (remaining / (unexhausted labels quotas).length) =
          remaining / (unexhausted labels quotas).length := max_eq_right ((Nat.one_le_div_iff hpos).mpr hmany)
      rw [countOf_foldl_giveShare hnodup (by rw [hshare]; exact Nat.div_mul_le_self ..) he]
      dsimp only
      omega
    · rw [hother hmem]
      have := h.exhausted hle hmem
      omega
  · right
    have hshare : max 1 (remaining / (unexhausted labels quotas).length) = 1 := by
      rw [Nat.div_eq_of_lt (Nat.lt_of_not_le hmany)]
      rfl
    rw [hshare]
    obtain ⟨hzero, hone⟩ := foldl_giveShare_one (s := ⟨quotas, remaining, 0⟩) hnodup
      (fun e he => (h.mem_unexhausted.mp he).2) (Nat.le_of_not_le hmany)
    refine ⟨fun label => ?_, hzero⟩
    have hat := hlevel label
    by_cases hmem : label ∈ (unexhausted labels quotas).map Prod.fst
    · obtain ⟨e, he, rfl⟩ := mem_map.mp hmem
      obtain ⟨hcount, hlt⟩ := h.mem_unexhausted.mp he
      rcases hone e he with heq | heq
      · exact .inl (heq.trans hat)
      · right
        rw [heq]
        dsimp only
        omega
    · left
      rw [hother hmem]
      have := h.exhausted hle hmem
      omega

end

/-! ## The quotas -/

/-- Places are given to labels up to their nodes, as many as there are, and as evenly as possible. -/
structure FairQuotas (counts quotas : OrderedMap Text ℕ) (maxNodes : ℕ) : Prop where
  le (label : Text) : countOf quotas label ≤ countOf counts label
  sum : sumOf quotas = min maxNodes (sumOf counts)
  fair (a b : Text) : countOf quotas a + 1 < countOf quotas b → countOf quotas a = countOf counts a

/-- A level, and either all places or all nodes. -/
theorem NearlyLevelled.fair (h : NearlyLevelled counts quotas level)
    (hsum : sumOf quotas = maxNodes ∨ sumOf quotas ≤ maxNodes ∧ ∀ label, countOf counts label ≤ countOf quotas label) :
    FairQuotas counts quotas maxNodes := by
  have hle (label : Text) : countOf quotas label ≤ countOf counts label := by
    have := h label
    omega
  refine ⟨hle, ?_, fun a b hab => ?_⟩
  · have hsums := sumOf_le_sumOf hle
    rcases hsum with hsum | ⟨hmax, hall⟩
    · omega
    · have := sumOf_le_sumOf hall
      omega
  · have ha := h a
    have hb := h b
    omega

theorem LabelsOf.redistribute (h : LabelsOf counts labels) (remaining : ℕ) (hlevel : Levelled counts quotas level)
    (hsum : sumOf quotas + remaining = maxNodes) :
    FairQuotas counts (redistribute labels quotas remaining) maxNodes := by
  fun_induction Ui.redistribute labels quotas remaining generalizing level with
  | case1 quotas => exact hlevel.nearly.fair (.inl hsum)
  | case2 quotas remaining _ hnil =>
    refine hlevel.nearly.fair (.inr ⟨by omega, fun label => ?_⟩)
    refine le_of_eq (h.exhausted (fun label => ?_) ?_).symm
    · have := hlevel label
      omega
    · rw [hnil]
      exact not_mem_nil
  | case3 quotas remaining hne hsome hnone => exact absurd hnone (sharingRound_added hne hsome)
  | case4 quotas remaining _ _ hadded ih =>
    have hsums : sumOf (Ui.sharingRound labels quotas remaining).quotas +
        (Ui.sharingRound labels quotas remaining).remaining = maxNodes :=
      (foldl_giveShare_sumOf ..).trans hsum
    rcases h.sharingRound hlevel remaining with ⟨level', hnext⟩ | ⟨hlast, hzero⟩
    · exact ih hnext hsums
    · rw [hzero, Ui.redistribute, if_pos rfl]
      exact hlast.fair (.inl (by omega))

/-- The quotas of the first round. -/
theorem LabelsOf.levelled_equalShares (h : LabelsOf counts labels) (equalShare : ℕ) :
    Levelled counts (equalShares labels equalShare) equalShare ∧
      sumOf (equalShares labels equalShare) = (labels.map fun e => min e.2 equalShare).sum := by
  have hentries : (equalShares labels equalShare).entries = labels.map fun e => (e.1, min e.2 equalShare) := by
    rw [equalShares, entries_foldl_set (m := .empty) Prod.fst _ h.nodup]
    rfl
  refine ⟨fun label => ?_, ?_⟩
  · by_cases hpos : 0 < countOf counts label
    · have hmem : (label, countOf counts label) ∈ labels := (h.mem_iff _).mpr ⟨rfl, hpos⟩
      exact countOf_of_mem (e := (label, _)) (hentries ▸ mem_map.mpr ⟨_, hmem, rfl⟩)
    · rw [countOf_of_notMem]
      · omega
      · rw [OrderedMap.keys, hentries, map_map, mem_map]
        rintro ⟨e, he, rfl⟩
        obtain ⟨hcount, hlt⟩ := (h.mem_iff e).mp he
        exact hpos (hcount ▸ hlt)
  · rw [sumOf, hentries, map_map]
    rfl

/-- More labels than places: the first ones have one each. -/
theorem LabelsOf.one_each (h : LabelsOf counts labels) (hmany : maxNodes ≤ labels.length) :
    FairQuotas counts ((labels.take maxNodes).foldl (fun quotas e => quotas.set e.1 1) .empty) maxNodes := by
  have hnodup : ((labels.take maxNodes).map Prod.fst).Nodup := h.nodup.sublist ((take_sublist _ _).map _)
  have hentries := entries_foldl_set (m := .empty) Prod.fst (fun _ : Text × ℕ => 1) hnodup
  generalize (labels.take maxNodes).foldl (fun quotas e => quotas.set e.1 1) OrderedMap.empty = quotas at *
  rw [entries_empty, nil_append] at hentries
  have hone (label : Text) : countOf quotas label ≤ min (countOf counts label) 1 := by
    by_cases hmem : label ∈ quotas.keys
    · rw [OrderedMap.keys, hentries, map_map, mem_map] at hmem
      obtain ⟨e, he, rfl⟩ := hmem
      obtain ⟨hcount, hpos⟩ := (h.mem_iff e).mp (mem_of_mem_take he)
      have hquota : countOf quotas e.1 = 1 := countOf_of_mem (e := (e.1, 1)) (hentries ▸ mem_map.mpr ⟨e, he, rfl⟩)
      dsimp only [Function.comp]
      omega
    · rw [countOf_of_notMem hmem]
      exact Nat.zero_le _
  have hsum : sumOf quotas = maxNodes := by
    rw [sumOf, hentries, map_map]
    simp [Function.comp_def, hmany]
  have hle (label : Text) : countOf quotas label ≤ countOf counts label := (hone label).trans (min_le_left ..)
  refine ⟨hle, ?_, fun a b hab => ?_⟩
  · have := sumOf_le_sumOf hle
    omega
  · have := hone b
    omega

/-- **The quotas are fair**, whatever the histogram. -/
theorem allocateBalancedLabelQuotas_fair (counts : OrderedMap Text ℕ) (maxNodes : ℕ) :
    FairQuotas counts (allocateBalancedLabelQuotas counts maxNodes) maxNodes := by
  have h := labelsOf_rankedLabels counts
  rw [allocateBalancedLabelQuotas]
  dsimp only
  split
  · rename_i hempty
    refine ⟨fun label => Nat.zero_le _, ?_, fun a b hab => absurd hab (Nat.not_lt_zero _)⟩
    change 0 = _
    rcases hempty with hnil | hzero
    · have hcounts (label : Text) : countOf counts label ≤ countOf OrderedMap.empty label := by
        refine Nat.le_of_not_lt fun hpos => ?_
        have hmem := (h.mem_iff (label, countOf counts label)).mpr ⟨rfl, Nat.zero_lt_of_lt hpos⟩
        rw [hnil] at hmem
        cases hmem
      have hsum := sumOf_le_sumOf hcounts
      change _ ≤ 0 at hsum
      omega
    · omega
  · rename_i hempty
    obtain ⟨hne, hzero⟩ := not_or.mp hempty
    split
    · rename_i hmany
      exact h.one_each hmany
    · rename_i hmany
      have hpos := length_pos_of_ne_nil hne
      have hshare : max 1 (maxNodes / (rankedLabels counts).length) = maxNodes / (rankedLabels counts).length :=
        max_eq_right ((Nat.one_le_div_iff hpos).mpr (by omega))
      obtain ⟨hlevel, hsum⟩ := h.levelled_equalShares (max 1 (maxNodes / (rankedLabels counts).length))
      refine h.redistribute _ hlevel ?_
      have hall : ((rankedLabels counts).map fun e => min e.2 (max 1 (maxNodes / (rankedLabels counts).length))).sum ≤
          ((rankedLabels counts).map fun _ => maxNodes / (rankedLabels counts).length).sum := by
        refine sum_le_sum fun e _ => ?_
        rw [hshare]
        exact min_le_right ..
      rw [map_const', sum_replicate, Nat.nsmul_eq_mul] at hall
      have hdiv := Nat.mul_div_le maxNodes (rankedLabels counts).length
      omega

end Ariad.Ui
