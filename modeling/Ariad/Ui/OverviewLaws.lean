import Ariad.Ui.QuotaLaws

/-!
# The selection keeps the shares

The buckets have the nodes of the shares, and a candidate for dead code replaces a node of its own label. Candidates of
one label all get the place of the last node of it.

* `filter_balancedNodes` — the nodes of a label: the ranked ones, the candidates put last one after the other.
* `SelectionExact` — the number of nodes, that of each label, and the candidates that are kept.
* `selectionExact_iff` — it holds if and only if at most one candidate of a label is behind its ranked nodes.
-/

namespace Ariad.Ui

open Bridge Keyset Replacement List

/-! ## Buckets -/

section Buckets

variable {buckets : List (List CodeNode)} {maxNodes index : ℕ} {nodes bucket : List CodeNode}

variable {label : Text}

theorem bucketRow_length (buckets : List (List CodeNode)) (index : ℕ) :
    (buckets.map fun b => min b.length index).sum + (bucketRow buckets index).length =
      (buckets.map fun b => min b.length (index + 1)).sum := by
  induction buckets with
  | nil => rfl
  | cons b buckets ih =>
    rw [bucketRow] at ih
    rw [bucketRow, filterMap_cons]
    cases hat : b[index]? with
    | none =>
      have hshort := List.getElem?_eq_none_iff.mp hat
      simp only [map_cons, sum_cons]
      omega
    | some n =>
      obtain ⟨hlong, -⟩ := List.getElem?_eq_some_iff.mp hat
      simp only [map_cons, sum_cons, length_cons]
      omega

theorem sum_min_le (buckets : List (List CodeNode)) (index : ℕ) :
    (buckets.map fun b => min b.length index).sum ≤ (buckets.map List.length).sum :=
  sum_le_sum fun _ _ => min_le_left ..

variable {p : CodeNode → Bool}

theorem filter_eq_of_bucketRow_nil (hrow : ∀ i, (bucketRow buckets i).filter p = bucket[i]?.toList)
    (hnodes : nodes.filter p = bucket.take index) (hnil : bucketRow buckets index = []) : nodes.filter p = bucket := by
  have hat := hrow index
  rw [hnil, filter_nil, eq_comm, Option.toList_eq_nil_iff, List.getElem?_eq_none_iff] at hat
  rw [hnodes, take_of_length_le hat]

/-- There is room for all nodes: the ones for which a condition holds are those of one bucket. -/
theorem filter_interleave (hrow : ∀ i, (bucketRow buckets i).filter p = bucket[i]?.toList)
    (hroom : (buckets.map List.length).sum ≤ maxNodes)
    (hlength : nodes.length = (buckets.map fun b => min b.length index).sum) (hnodes : nodes.filter p = bucket.take index) :
    (interleave buckets maxNodes index nodes).filter p = bucket := by
  fun_induction interleave buckets maxNodes index nodes with
  | case1 index nodes _ hnil => exact filter_eq_of_bucketRow_nil hrow hnodes hnil
  | case2 index nodes hlt hne ih =>
    have hsum := bucketRow_length buckets index
    have hle := sum_min_le buckets (index + 1)
    have htake : (bucketRow buckets index).take (maxNodes - nodes.length) = bucketRow buckets index :=
      take_of_length_le (by omega)
    rw [htake] at ih ⊢
    refine ih ?_ ?_
    · rw [length_append, hlength, hsum]
    · rw [filter_append, hnodes, hrow, take_add_one]
  | case3 index nodes hge =>
    have hsum := bucketRow_length buckets index
    have hle := sum_min_le buckets (index + 1)
    refine filter_eq_of_bucketRow_nil hrow hnodes (eq_nil_of_length_eq_zero ?_)
    omega

/-- The nodes of a label in a row of buckets, one of each label. -/
theorem filter_bucketRow {entries : List (Text × ℕ)} {f : Text × ℕ → List CodeNode}
    (hf : ∀ e ∈ entries, ∀ n ∈ f e, n.label = e.1) (hnodup : (entries.map Prod.fst).Nodup) (label : Text) (index : ℕ) :
    (bucketRow ((entries.map f).filter (· ≠ [])) index).filter (fun n => n.label = label) =
      ((Rows.get Prod.fst label entries).toList.flatMap f)[index]?.toList := by
  have hrow : bucketRow ((entries.map f).filter (· ≠ [])) index = entries.filterMap fun e => (f e)[index]? := by
    rw [bucketRow, filterMap_filter, filterMap_map]
    refine filterMap_congr fun e _ => ?_
    dsimp only [Function.comp]
    cases hfe : f e with
    | nil => rfl
    | cons n b => rfl
  have hfilter : (entries.filterMap fun e => (f e)[index]?).filter (fun n => n.label = label) =
      (entries.filter fun e => e.1 = label).filterMap fun e => (f e)[index]? := by
    rw [filter_filterMap, filterMap_filter]
    refine filterMap_congr fun e he => ?_
    cases hat : (f e)[index]? with
    | none => simp
    | some n => simp [Option.filter, hf e he n (mem_of_getElem? hat)]
  rw [hrow, hfilter, Rows.filter_key_eq hnodup]
  cases Rows.get Prod.fst label entries with
  | none => rfl
  | some e =>
    dsimp only [Option.toList]
    rw [flatMap_singleton, filterMap_cons]
    cases (f e)[index]? with
    | none => rfl
    | some n => rfl

end Buckets

variable {source : OverviewSource} {maxNodes : ℕ}

/-! ## The nodes of a label -/

section Ranked

variable (source)

theorem exists_degreeOf {n : CodeNode} (h : n ∈ source.graph.projectNodes source.project) :
    ∃ degree, degreeOf source n = some degree := by
  rw [degreeOf]
  cases hget : Rows.get NodeDegree.nodeId n.id (nodeDegrees source.graph source.project) with
  | none => exact absurd rfl (Rows.get_eq_none_iff.mp hget _ (mem_map.mpr ⟨n, h, rfl⟩))
  | some d => exact ⟨d.degree, rfl⟩

/-- Every node of the label has its place in the ranking. -/
theorem listNodesByLabelRanked_eq (label : Text) : ∃ ranked : List CodeNode,
    ranked.Perm ((source.graph.projectNodes source.project).filter fun n => n.label = label) ∧
      ∀ limit, listNodesByLabelRanked source label limit = ranked.take (min 10000 limit) := by
  refine ⟨_, ?_, fun limit => rfl⟩
  refine ((orderBy_perm _ _).map Prod.snd).trans (Perm.of_eq ?_)
  have hall : ∀ n ∈ (source.graph.projectNodes source.project).filter fun n => n.label = label,
      n ∈ source.graph.projectNodes source.project := fun n hn => (mem_filter.mp hn).1
  generalize ((source.graph.projectNodes source.project).filter fun n => n.label = label) = rows at *
  induction rows with
  | nil => rfl
  | cons n rows ih =>
    obtain ⟨degree, hdegree⟩ := exists_degreeOf source (hall n mem_cons_self)
    rw [filterMap_cons, hdegree, Option.map_some, map_cons, ih fun m hm => hall m (mem_cons_of_mem _ hm)]

theorem mem_listNodesByLabelRanked {limit : ℕ} {n : CodeNode} (h : n ∈ listNodesByLabelRanked source label limit) :
    n ∈ source.graph.projectNodes source.project ∧ n.label = label := by
  obtain ⟨ranked, hperm, htake⟩ := listNodesByLabelRanked_eq source label
  rw [htake] at h
  have hmem := mem_filter.mp (hperm.mem_iff.mp (mem_of_mem_take h))
  exact ⟨hmem.1, of_decide_eq_true hmem.2⟩

theorem nodup_listNodesByLabelRanked (label : Text) (limit : ℕ) :
    ((listNodesByLabelRanked source label limit).map CodeNode.id).Nodup := by
  obtain ⟨ranked, hperm, htake⟩ := listNodesByLabelRanked_eq source label
  have hnodup : (ranked.map CodeNode.id).Nodup := (hperm.map _).nodup_iff.mpr
    ((source.graph.nodup_projectNodes source.project).sublist (filter_sublist.map _))
  rw [htake]
  exact hnodup.sublist ((take_sublist _ _).map _)

theorem countOf_countNodesByLabel_le (label : Text) : countOf (countNodesByLabel source) label ≤
    (source.graph.projectNodes source.project).countP fun n => n.label = label := by
  rw [countOf]
  cases hget : (countNodesByLabel source).get label with
  | some n => rw [Option.getD_some, ((OrderedMap.get_tally _ _).mp (OrderedMap.get_filter hget)).2]
  | none => exact Nat.zero_le _

theorem length_listNodesByLabelRanked {limit : ℕ} (hlimit : limit ≤ 10000)
    (h : limit ≤ countOf (countNodesByLabel source) label) : (listNodesByLabelRanked source label limit).length = limit := by
  obtain ⟨ranked, hperm, htake⟩ := listNodesByLabelRanked_eq source label
  have hcount := h.trans (countOf_countNodesByLabel_le source label)
  rw [countP_eq_length_filter, ← hperm.length_eq] at hcount
  rw [htake, length_take]
  omega

/-- Without the last place. -/
theorem dropLast_listNodesByLabelRanked {limit : ℕ} (hlimit : limit ≤ 10000)
    (h : limit ≤ countOf (countNodesByLabel source) label) :
    (listNodesByLabelRanked source label limit).dropLast = listNodesByLabelRanked source label (limit - 1) := by
  have hlength := length_listNodesByLabelRanked source hlimit h
  obtain ⟨ranked, hperm, htake⟩ := listNodesByLabelRanked_eq source label
  rw [dropLast_eq_take, hlength, htake, htake, take_take]
  congr 1
  omega

end Ranked

/-! ## Candidates take places -/

/-- The nodes with a label. -/
def nodesOf (label : Text) (nodes : List CodeNode) : List CodeNode := nodes.filter fun n => n.label = label

theorem mem_nodesOf {nodes : List CodeNode} {n : CodeNode} : n ∈ nodesOf label nodes ↔ n ∈ nodes ∧ n.label = label := by
  rw [nodesOf, mem_filter, decide_eq_true_eq]

/-- The ids that are kept beside the nodes are theirs, and the nodes are of the project, none of them twice. -/
structure Placed (source : OverviewSource) (s : List CodeNode × Finset ℕ) : Prop where
  ids : s.2 = (s.1.map CodeNode.id).toFinset
  nodup : (s.1.map CodeNode.id).Nodup
  mem : ∀ n ∈ s.1, n ∈ source.graph.projectNodes source.project

variable {s : List CodeNode × Finset ℕ} {candidate : CodeNode}

theorem Placed.mem_iff (h : Placed source s) (hc : candidate ∈ source.graph.projectNodes source.project) :
    candidate.id ∈ s.2 ↔ candidate ∈ s.1 := by
  rw [h.ids, mem_toFinset, mem_map]
  constructor
  · rintro ⟨n, hn, hid⟩
    exact inj_on_of_nodup_map (source.graph.nodup_projectNodes source.project) (h.mem n hn) hc hid ▸ hn
  · exact fun hmem => ⟨candidate, hmem, rfl⟩

/-- Among the nodes of its label a candidate takes the last place; the other labels keep their nodes. -/
theorem Placed.place (h : Placed source s) (hc : candidate ∈ source.graph.projectNodes source.project) :
    Placed source (placeCandidate s candidate) ∧ (placeCandidate s candidate).1.length = s.1.length ∧
      ∀ label, nodesOf label (placeCandidate s candidate).1 =
        if candidate.label = label then putLast (nodesOf label s.1) candidate else nodesOf label s.1 := by
  have hmem := h.mem_iff hc
  have hsame (label : Text) (hput : candidate ∈ s.1 ∨ nodesOf candidate.label s.1 = []) :
      nodesOf label s.1 = if candidate.label = label then putLast (nodesOf label s.1) candidate else nodesOf label s.1 := by
    split
    · rename_i hlabel
      subst hlabel
      rw [putLast, if_pos]
      exact hput.imp_left fun hin => mem_nodesOf.mpr ⟨hin, rfl⟩
    · rfl
  rw [placeCandidate]
  split
  · rename_i hin
    exact ⟨h, rfl, fun label => hsame label (.inl (hmem.mp hin))⟩
  · rename_i hin
    rw [hmem] at hin
    cases hlast : lastIndex (fun n => decide (n.label = candidate.label)) s.1 with
    | none =>
      refine ⟨h, rfl, fun label => hsame label (.inr (filter_eq_nil_iff.mpr fun n hn => ?_))⟩
      simpa using lastIndex_eq_none.mp hlast n hn
    | some index =>
      obtain ⟨pre, replaced, post, hsplit, rfl, hlabel, hpost⟩ := exists_split_of_lastIndex hlast
      rw [decide_eq_true_eq] at hlabel
      have hat : s.1[pre.length]? = some replaced := by simp [hsplit]
      dsimp only
      rw [hat]
      dsimp only
      rw [hsplit, set_split]
      have hnodup := h.nodup
      rw [hsplit] at hnodup
      have hfresh : candidate.id ∉ (pre ++ replaced :: post).map CodeNode.id := by
        rw [← hsplit, ← mem_toFinset, ← h.ids, hmem]
        exact hin
      refine ⟨⟨?_, nodup_replace hnodup hfresh, fun n hn => ?_⟩, by simp, fun label => ?_⟩
      · -- The id that goes is nowhere else.
        have hrest : replaced.id ∉ (pre ++ post).map CodeNode.id := by
          rw [map_append, map_cons, nodup_middle, nodup_cons, ← map_append] at hnodup
          exact hnodup.1
        rw [h.ids, hsplit]
        ext id
        simp only [map_append, map_cons, Finset.mem_insert, Finset.mem_erase, mem_toFinset,
          mem_append, mem_cons] at hrest ⊢
        constructor
        · rintro (rfl | ⟨hne, hid⟩)
          · exact .inr (.inl rfl)
          · tauto
        · rintro (hid | rfl | hid)
          · exact .inr ⟨fun heq => hrest (.inl (heq ▸ hid)), .inl hid⟩
          · exact .inl rfl
          · exact .inr ⟨fun heq => hrest (.inr (heq ▸ hid)), .inr (.inr hid)⟩
      · have hold := h.mem n
        rw [hsplit] at hold
        simp only [mem_append, mem_cons] at hn hold
        rcases hn with hn | rfl | hn
        · exact hold (.inl hn)
        · exact hc
        · exact hold (.inr (.inr hn))
      · rw [nodesOf, nodesOf, filter_append, filter_append]
        split
        · rename_i heq
          subst heq
          have hnone : post.filter (fun n => decide (n.label = candidate.label)) = [] :=
            filter_eq_nil_iff.mpr fun n hn => by simp [hpost n hn]
          rw [filter_cons_of_pos (by simp), filter_cons_of_pos (by simpa using hlabel), hnone, putLast_concat]
          split
          · rename_i hpre
            refine absurd ?_ hin
            rw [hsplit]
            exact mem_append_left _ (mem_filter.mp hpre).1
          · rfl
        · rename_i hne
          rw [filter_cons_of_neg (by simpa using hne), filter_cons_of_neg (by simpa [hlabel] using hne)]

/-- What one candidate after the other makes of the nodes of a label. -/
theorem Placed.run (h : Placed source s) {candidates : List CodeNode}
    (hc : ∀ c ∈ candidates, c ∈ source.graph.projectNodes source.project) :
    Placed source (candidates.foldl placeCandidate s) ∧ (candidates.foldl placeCandidate s).1.length = s.1.length ∧
      ∀ label, nodesOf label (candidates.foldl placeCandidate s).1 =
        (nodesOf label candidates).foldl putLast (nodesOf label s.1) := by
  induction candidates generalizing s with
  | nil => exact ⟨h, rfl, fun _ => rfl⟩
  | cons c candidates ih =>
    obtain ⟨hplaced, hlength, hnodes⟩ := h.place (hc c mem_cons_self)
    obtain ⟨hend, hlengths, hrest⟩ := ih hplaced fun c hc' => hc c (mem_cons_of_mem _ hc')
    refine ⟨hend, hlengths.trans hlength, fun label => ?_⟩
    rw [foldl_cons, hrest, hnodes]
    by_cases hlabel : c.label = label
    · have hcons : nodesOf label (c :: candidates) = c :: nodesOf label candidates :=
        filter_cons_of_pos (decide_eq_true hlabel)
      rw [if_pos hlabel, hcons, foldl_cons]
    · have hcons : nodesOf label (c :: candidates) = nodesOf label candidates :=
        filter_cons_of_neg (by simpa using hlabel)
      rw [if_neg hlabel, hcons]

/-! ## The selection -/

section Selection

variable (source)

/-- The place of each label in the selection. -/
def quotasOf (maxNodes : ℕ) : OrderedMap Text ℕ := allocateBalancedLabelQuotas (countNodesByLabel source) maxNodes

/-- The number of nodes is the sum of the shares, if every label has its share. -/
theorem length_eq_sumOf {quotas : OrderedMap Text ℕ} {nodes : List CodeNode}
    (h : ∀ label, (nodesOf label nodes).length = countOf quotas label) : nodes.length = sumOf quotas := by
  have hsum : (quotas.keys.map fun label => nodes.countP fun n => n.label = label).sum = nodes.countP fun _ => true :=
      Rows.sum_countP quotas.nodup fun n hn => by
    refine iff_of_true rfl (not_not.mp fun hno => ?_)
    have hlabel := h n.label
    rw [countOf_of_notMem hno] at hlabel
    have hmem : n ∈ nodesOf n.label nodes := mem_nodesOf.mpr ⟨hn, rfl⟩
    rw [eq_nil_of_length_eq_zero hlabel] at hmem
    cases hmem
  rw [countP_true] at hsum
  rw [← hsum, sumOf, OrderedMap.keys, map_map]
  congr 1
  refine map_congr_left fun e he => ?_
  rw [Function.comp, countP_eq_length_filter, ← countOf_of_mem he]
  exact h e.1

theorem deadCandidates_sublist : (deadCandidates source maxNodes).Sublist
    (listNodesWithoutIncoming source callableLabels (min 50 (max 1 (maxNodes / 20)) * 4)) :=
  (take_sublist _ _).trans filter_sublist

theorem mem_deadCandidates {c : CodeNode} (h : c ∈ deadCandidates source maxNodes) :
    c ∈ source.graph.projectNodes source.project := by
  have hmem := (deadCandidates_sublist source).subset h
  rw [listNodesWithoutIncoming] at hmem
  exact (mem_filter.mp (mem_orderBy.mp (mem_of_mem_take hmem))).1

theorem nodup_deadCandidates : (deadCandidates source maxNodes).Nodup := by
  refine List.Nodup.sublist (deadCandidates_sublist source) ?_
  rw [listNodesWithoutIncoming]
  refine List.Nodup.sublist (take_sublist _ _) ((orderBy_perm _ _).nodup_iff.mpr ?_)
  exact ((source.graph.nodup_projectNodes source.project).of_map).filter _

variable (hmax : maxNodes ≤ 10000)

include hmax

theorem quota_le (label : Text) : countOf (quotasOf source maxNodes) label ≤ 10000 ∧
    countOf (quotasOf source maxNodes) label ≤ countOf (countNodesByLabel source) label := by
  have hfair := allocateBalancedLabelQuotas_fair (countNodesByLabel source) maxNodes
  refine ⟨?_, hfair.le label⟩
  have hsum : sumOf (quotasOf source maxNodes) ≤ maxNodes := hfair.sum.trans_le (min_le_left ..)
  by_cases hkey : label ∈ (quotasOf source maxNodes).keys
  · have hone := Finset.single_le_sum (f := countOf (quotasOf source maxNodes)) (fun _ _ => Nat.zero_le _)
      (mem_toFinset.mpr hkey)
    rw [← sumOf_eq] at hone
    omega
  · rw [countOf_of_notMem hkey]
    exact Nat.zero_le _

/-- The nodes before the candidates for dead code. -/
theorem nodesOf_interleave (label : Text) : nodesOf label (interleave (buckets source maxNodes) maxNodes 0 []) =
      listNodesByLabelRanked source label (countOf (quotasOf source maxNodes) label) := by
  have hbucket : ((Rows.get Prod.fst label (quotasOf source maxNodes).entries).toList.flatMap fun e =>
      listNodesByLabelRanked source e.1 e.2) =
        listNodesByLabelRanked source label (countOf (quotasOf source maxNodes) label) := by
    rw [countOf, OrderedMap.get]
    cases hget : Rows.get Prod.fst label (quotasOf source maxNodes).entries with
    | none =>
      obtain ⟨ranked, -, htake⟩ := listNodesByLabelRanked_eq source label
      rw [htake]
      rfl
    | some e =>
      obtain rfl := Rows.key_of_get hget
      exact flatMap_singleton ..
  have hroom : ((buckets source maxNodes).map List.length).sum ≤ maxNodes := by
    have hsum : sumOf (quotasOf source maxNodes) ≤ maxNodes :=
      (allocateBalancedLabelQuotas_fair (countNodesByLabel source) maxNodes).sum.trans_le (min_le_left ..)
    refine le_trans ?_ hsum
    calc ((buckets source maxNodes).map List.length).sum
        ≤ (((quotasOf source maxNodes).entries.map fun e => listNodesByLabelRanked source e.1 e.2).map List.length).sum :=
          (filter_sublist.map _).sum_le_sum fun _ _ => Nat.zero_le _
      _ = sumOf (quotasOf source maxNodes) := by
          rw [sumOf, map_map]
          congr 1
          refine map_congr_left fun e he => ?_
          obtain ⟨hle, hcount⟩ := quota_le source hmax e.1
          rw [countOf_of_mem he] at hle hcount
          exact length_listNodesByLabelRanked source hle hcount
  rw [← hbucket]
  refine filter_interleave (filter_bucketRow (fun e he n hn => ?_) (quotasOf source maxNodes).nodup label) hroom ?_ rfl
  · exact (mem_listNodesByLabelRanked source hn).2
  · simp

theorem placed_interleave : Placed source (interleave (buckets source maxNodes) maxNodes 0 [],
    ((interleave (buckets source maxNodes) maxNodes 0 []).map CodeNode.id).toFinset) := by
  have hnodes := nodesOf_interleave source hmax
  generalize interleave (buckets source maxNodes) maxNodes 0 [] = nodes at *
  have hmem : ∀ n ∈ nodes, n ∈ source.graph.projectNodes source.project := fun n hn => by
    have hlabel : n ∈ nodesOf n.label nodes := mem_nodesOf.mpr ⟨hn, rfl⟩
    rw [hnodes] at hlabel
    exact (mem_listNodesByLabelRanked source hlabel).1
  have hnodup : nodes.Nodup := nodup_iff_count_le_one.mpr fun n => by
    have hlabel : (nodesOf n.label nodes).Nodup := hnodes n.label ▸ (nodup_listNodesByLabelRanked source _ _).of_map
    rw [← count_filter (p := fun m : CodeNode => m.label = n.label) (by simp)]
    exact nodup_iff_count_le_one.mp hlabel n
  refine ⟨rfl, hnodup.map_on fun a ha b hb hid => ?_, hmem⟩
  exact inj_on_of_nodup_map (source.graph.nodup_projectNodes source.project) (hmem a ha) (hmem b hb) hid

theorem placed_balancedNodes : Placed source (balancedNodes source maxNodes, ((balancedNodes source maxNodes).map
    CodeNode.id).toFinset) ∧ ∀ label, nodesOf label (balancedNodes source maxNodes) =
      (nodesOf label (deadCandidates source maxNodes)).foldl putLast
        (listNodesByLabelRanked source label (countOf (quotasOf source maxNodes) label)) := by
  obtain ⟨hplaced, -, hnodes⟩ := (placed_interleave source hmax).run fun c hc => (mem_deadCandidates source hc)
  refine ⟨⟨rfl, hplaced.nodup, hplaced.mem⟩, fun label => ?_⟩
  rw [← nodesOf_interleave source hmax]
  exact hnodes label

end Selection

/-- What the selection promises: the places are filled with different nodes of the project, every label has its share,
and candidates are kept if there are no more of their label than places. -/
structure SelectionExact (source : OverviewSource) (maxNodes : ℕ) (nodes : List CodeNode) : Prop where
  length : nodes.length = min maxNodes (sumOf (countNodesByLabel source))
  nodup : (nodes.map CodeNode.id).Nodup
  mem : ∀ n ∈ nodes, n ∈ source.graph.projectNodes source.project
  labels (label : Text) : (nodesOf label nodes).length = countOf (quotasOf source maxNodes) label
  reserved : ∀ c ∈ deadCandidates source maxNodes,
    (nodesOf c.label (deadCandidates source maxNodes)).length ≤ countOf (quotasOf source maxNodes) c.label → c ∈ nodes

/-- Of the candidates of a label, if it has a place for each of them, at most one is not among the nodes of the highest
degree that have the places but the last. -/
def OneBehind (source : OverviewSource) (maxNodes : ℕ) : Prop :=
  ∀ label, (nodesOf label (deadCandidates source maxNodes)).length ≤ countOf (quotasOf source maxNodes) label →
    ((nodesOf label (deadCandidates source maxNodes)).filter fun c =>
      c ∉ listNodesByLabelRanked source label (countOf (quotasOf source maxNodes) label - 1)).length ≤ 1

/-- **The selection.** It keeps what it promises if and only if at most one candidate has to be put in its place. -/
theorem selectionExact_iff (hmax : maxNodes ≤ 10000) :
    SelectionExact source maxNodes (balancedNodes source maxNodes) ↔ OneBehind source maxNodes := by
  obtain ⟨hplaced, hnodes⟩ := placed_balancedNodes source hmax
  have hranked (label : Text) := length_listNodesByLabelRanked source (quota_le source hmax label).1
    (quota_le source hmax label).2
  have hlabels (label : Text) :
      (nodesOf label (balancedNodes source maxNodes)).length = countOf (quotasOf source maxNodes) label := by
    rw [hnodes, length_foldl_putLast, hranked]
  have hkept (label : Text)
      (h : (nodesOf label (deadCandidates source maxNodes)).length ≤ countOf (quotasOf source maxNodes) label) :
      (∀ c ∈ nodesOf label (deadCandidates source maxNodes), c ∈ balancedNodes source maxNodes) ↔
        ((nodesOf label (deadCandidates source maxNodes)).filter fun c =>
          c ∉ listNodesByLabelRanked source label (countOf (quotasOf source maxNodes) label - 1)).length ≤ 1 := by
    have hdrop := dropLast_listNodesByLabelRanked source (quota_le source hmax label).1 (quota_le source hmax label).2
    have hiff : ∀ c ∈ nodesOf label (deadCandidates source maxNodes), c ∈ balancedNodes source maxNodes ↔
        c ∈ (nodesOf label (deadCandidates source maxNodes)).foldl putLast
          (listNodesByLabelRanked source label (countOf (quotasOf source maxNodes) label)) := fun c hc => by
      rw [← hnodes, mem_nodesOf, and_iff_left (mem_nodesOf.mp hc).2]
    rw [← hdrop, forall₂_congr hiff]
    rcases eq_nil_or_concat (listNodesByLabelRanked source label (countOf (quotasOf source maxNodes) label)) with
      hnil | ⟨init, last, hconcat⟩
    · have hzero := hranked label
      rw [hnil, length_nil] at hzero
      rw [← hzero, Nat.le_zero, length_eq_zero_iff] at h
      simp [h]
    · rw [concat_eq_append] at hconcat
      rw [hconcat, dropLast_concat]
      exact forall_mem_foldl_putLast ((nodup_deadCandidates source).filter _)
  constructor
  · intro h label hle
    refine (hkept label hle).mp fun c hc => ?_
    obtain ⟨hmem, rfl⟩ := mem_nodesOf.mp hc
    exact h.reserved c hmem hle
  · intro h
    refine ⟨?_, hplaced.nodup, hplaced.mem, hlabels, fun c hc hle => ?_⟩
    · rw [length_eq_sumOf hlabels]
      exact (allocateBalancedLabelQuotas_fair _ _).sum
    · exact (hkept c.label hle).mpr (h c.label hle) c (mem_nodesOf.mpr ⟨hc, rfl⟩)

/-- **Balanced overview.** The quotas are fair for every histogram, and the selection is exact if and only if at most
one candidate of a label has to be put in its place. -/
theorem balancedNodes_exact_iff (counts : OrderedMap Text ℕ) (maxNodes : ℕ) (source : OverviewSource) (raw : ℤ) :
    FairQuotas counts (allocateBalancedLabelQuotas counts maxNodes) maxNodes ∧
    (SelectionExact source (clampMaxNodes raw) (balancedNodes source (clampMaxNodes raw)) ↔
      OneBehind source (clampMaxNodes raw)) := by
  refine ⟨allocateBalancedLabelQuotas_fair counts maxNodes, selectionExact_iff ?_⟩
  rw [clampMaxNodes]
  omega

def recursiveFunction (n : ℕ) : CodeNode := ⟨n, "p".toList, "Function".toList, [], [], "a.ts".toList⟩

/-- Functions of which all but the first two call themselves. -/
def recursiveFunctions : OverviewSource where
  graph := {
    nodes := (List.range 41).map recursiveFunction
    edges := (List.range 39).map fun n => ⟨n, "p".toList, n + 2, n + 2, "CALLS".toList⟩
    nodup_nodes := by decide +kernel
    nodup_edges := by decide +kernel }
  project := "p".toList
  properties := fun _ => ⟨false, false, false⟩

/-- The second function takes the place of the first one, which had the last of forty. -/
theorem balancedNodes_reserved_lost :
    ¬SelectionExact recursiveFunctions (clampMaxNodes 40) (balancedNodes recursiveFunctions (clampMaxNodes 40)) := by
  intro h
  have hquota : countOf (quotasOf recursiveFunctions (clampMaxNodes 40)) "Function".toList = 40 := by
    have hall : nodesOf "Function".toList (balancedNodes recursiveFunctions (clampMaxNodes 40)) =
        balancedNodes recursiveFunctions (clampMaxNodes 40) := filter_eq_self.mpr fun n hn => by
      obtain ⟨i, -, rfl⟩ := mem_map.mp (mem_filter.mp (h.mem n hn)).1
      rfl
    rw [← h.labels, hall, h.length]
    decide +kernel
  have hone := (selectionExact_iff (by decide)).mp h "Function".toList
  rw [hquota] at hone
  exact absurd (hone (by decide +kernel)) (by decide +kernel)

end Ariad.Ui
