import Ariad.Bridge.ExactPages

/-!
# The pages of a search and of a neighborhood

* `searchTrail` — from the start, the pages of a search are the matches in order of rank and id.
* `neighborhoodTrail` — the pages of a neighborhood are the edges of the node with a node at the other end, by id.
-/

namespace Ariad.Bridge

open Keyset List Bool

variable {g : CodeGraph} {project query : Text} {limit nodeId : ℕ}

variable {pre suf : List (CodeEdge × CodeNode)}

theorem max_min_limit (hlimit : 1 ≤ limit ∧ limit ≤ 250) : max 1 (min 250 limit) = limit := by omega

/-! ## Search -/

/-- The matches of a search, in order. -/
def searchMatches (g : CodeGraph) (project query : Text) : List CodeNode :=
  orderBy (rankKey query) ((g.projectNodes project).filter (matchesQuery query))

/-- What a page of the search says: its nodes, and the number of all matches. -/
def ExactNodeSearchPage.items (p : ExactNodeSearchPage) : List CodeNode × ℕ := (p.nodes, p.totalMatches)

/-- A page and the next position. -/
def searchAt (g : CodeGraph) (project query : Text) (limit : ℕ) (position : ℤ × ℕ) :
    (List CodeNode × ℕ) × Option (ℤ × ℕ) :=
  let page := searchNodesExactPage g project query position.1 position.2 limit
  (page.items, page.nextAfterRank.bind fun rank => page.nextAfterNodeId.map fun id => ((rank : ℤ), id))

/-- The position behind a node. -/
def searchPosition (query : Text) (n : CodeNode) : ℤ × ℕ := ((matchRank query n : ℤ), n.id)

/-- The position behind the nodes that were there. -/
def searchPlace (query : Text) (pre : List CodeNode) : ℤ × ℕ := (pre.getLast?.map (searchPosition query)).getD (-1, 0)

theorem matchRank_le (query : Text) (n : CodeNode) : matchRank query n ≤ 5 := by
  simp only [matchRank]
  iterate 4
    split
    · omega
  split <;> omega

theorem nodup_rankKey (g : CodeGraph) (project query : Text) :
    (((g.projectNodes project).filter (matchesQuery query)).map (rankKey query)).Nodup := by
  have hids : (((g.projectNodes project).filter (matchesQuery query)).map CodeNode.id).Nodup :=
    (g.nodup_projectNodes project).sublist (filter_sublist.map _)
  refine Nodup.of_map (fun key : ℕ ×ₗ ℕ => (ofLex key).2) ?_
  rw [map_map]
  exact hids

theorem getLast?_take {α : Type} {rows : List α} (hlimit : 1 ≤ limit) (hmore : limit < rows.length) :
    ∃ a, (rows.take limit).getLast? = some a := by
  rw [← Option.isSome_iff_exists, getLast?_isSome, Ne, take_eq_nil_iff]
  rintro (h0 | rfl)
  · omega
  · simp at hmore

/-- The condition of the statement on a later page is that of the key. -/
theorem lt_rankKey_iff {a n : CodeNode} : rankKey query a < rankKey query n ↔
      matchRank query a < matchRank query n ∨ (matchRank query n = matchRank query a ∧ a.id < n.id) := by
  rw [rankKey, rankKey, Prod.Lex.toLex_lt_toLex]
  constructor
  iterate 2
    · rintro (h | ⟨h, h'⟩)
      · exact .inl h
      · exact .inr ⟨h.symm, h'⟩

/-- The rows behind the nodes that were there. -/
theorem searchBehind {pre suf : List CodeNode} (h : pre ++ suf = searchMatches g project query) :
    orderBy (rankKey query) (((g.projectNodes project).filter (matchesQuery query)).filter fun n =>
      decide (max (-1) (min 5 (searchPlace query pre).1) < (matchRank query n : ℤ)) ||
        (decide ((matchRank query n : ℤ) = max (-1) (min 5 (searchPlace query pre).1)) &&
          decide ((searchPlace query pre).2 < n.id))) = suf := by
  rw [orderBy_filter (nodup_rankKey g project query)]
  rcases eq_nil_or_concat' pre with rfl | ⟨pre, a, rfl⟩
  · have hall : ∀ n ∈ orderBy (rankKey query) ((g.projectNodes project).filter (matchesQuery query)),
        (decide (max (-1) (min 5 (searchPlace query []).1) < (matchRank query n : ℤ)) ||
          (decide ((matchRank query n : ℤ) = max (-1) (min 5 (searchPlace query []).1)) &&
            decide ((searchPlace query []).2 < n.id))) = true := by
      intro n _
      have hstart : (searchPlace query []).1 = -1 := rfl
      rw [hstart, or_eq_true]
      exact .inl (decide_eq_true (by omega))
    rw [filter_eq_self.mpr hall]
    exact h.symm
  · have hplace : searchPlace query (pre ++ [a]) = ((matchRank query a : ℤ), a.id) := by
      simp [searchPlace, searchPosition]
    have hrank := matchRank_le query a
    have hmax : max (-1) (min 5 (matchRank query a : ℤ)) = matchRank query a := by omega
    have hsorted := pairwise_lt_orderBy (nodup_rankKey g project query)
    have hmatches : orderBy (rankKey query) ((g.projectNodes project).filter (matchesQuery query)) =
        pre ++ [a] ++ suf := h.symm
    rw [hmatches] at hsorted ⊢
    have hbehind := filter_append_of_pairwise hsorted
    refine Eq.trans (filter_congr fun n _ => ?_) hbehind
    rw [hplace, hmax, Bool.eq_iff_iff]
    simp [lt_rankKey_iff]

theorem searchAt_place (hquery : Text.trim query = query ∧ query ≠ []) (hlimit : 1 ≤ limit ∧ limit ≤ 250)
    {pre suf : List CodeNode} (h : pre ++ suf = searchMatches g project query) :
    searchAt g project query limit (searchPlace query pre) = ((suf.take limit, (searchMatches g project query).length),
        if limit < suf.length then some (searchPlace query (pre ++ suf.take limit)) else none) := by
  have hbehind := searchBehind h
  have htotal : ((g.projectNodes project).filter (matchesQuery query)).length =
      (searchMatches g project query).length := length_orderBy.symm
  simp only [searchAt, searchNodesExactPage, hquery.1, if_neg hquery.2, max_min_limit hlimit, ExactNodeSearchPage.items,
    hbehind, take_of_take_succ, lt_length_take_succ, htotal]
  by_cases hmore : limit < suf.length
  · obtain ⟨a, ha⟩ := getLast?_take hlimit.1 hmore
    obtain ⟨rows, hrows⟩ := getLast?_eq_some_iff.mp ha
    have hplace : searchPlace query (pre ++ suf.take limit) = ((matchRank query a : ℤ), a.id) := by
      rw [hrows, ← append_assoc]
      simp [searchPlace, searchPosition]
    simp only [if_pos hmore, ha, Option.map_some, Option.bind_some, hplace]
  · simp [if_neg hmore]

/-- The pages of a search, and the positions between them. -/
theorem searchTrail (hquery : Text.trim query = query ∧ query ≠ []) (hlimit : 1 ≤ limit ∧ limit ≤ 250) :
    Trail (searchAt g project query limit) (some (-1, 0))
      (pagesFrom (fun _ nodes => (nodes, (searchMatches g project query).length)) limit []
        (searchMatches g project query))
      ((-1, 0) :: (pageEnds limit (searchMatches g project query)).map (searchPosition query)) := by
  have hplace : ∀ pre a, searchPlace query (pre ++ [a]) = searchPosition query a := by
    intro pre a
    simp [searchPlace]
  have hpos : 0 < limit := hlimit.1
  have htrail := trail_pagesFrom (searchAt g project query limit)
    (fun _ nodes => (nodes, (searchMatches g project query).length)) hpos hplace
    (fun _ _ h => searchAt_place hquery hlimit h) .done [] (searchMatches g project query) rfl
  rw [append_nil, append_nil] at htrail
  exact htrail

/-! ## Neighborhoods -/

/-- The ids that SQLite gives to rows, and that JavaScript has exactly. -/
structure RowIds (maxId : ℕ) (g : CodeGraph) : Prop where
  nodes : ∀ n ∈ g.nodes, 1 ≤ n.id ∧ n.id ≤ maxId
  edges : ∀ e ∈ g.edges, 1 ≤ e.id ∧ e.id ≤ maxId

/-- The edges of a node. -/
def incident (nodeId : ℕ) (e : CodeEdge) : Bool := e.sourceId = nodeId || e.targetId = nodeId

/-- An edge of the node with the node at its other end, if there is one. -/
def neighborOf (g : CodeGraph) (project : Text) (nodeId : ℕ) (e : CodeEdge) : Option (CodeEdge × CodeNode) :=
  (Rows.get CodeNode.id (otherEnd nodeId e) (g.projectNodes project)).map fun n => (e, n)

/-- The edges of a node that have a node at the other end, in order. -/
def neighborRows (g : CodeGraph) (project : Text) (nodeId : ℕ) : List (CodeEdge × CodeNode) :=
  orderBy (fun r => r.1.id) (((g.projectEdges project).filter (incident nodeId)).filterMap (neighborOf g project nodeId))

/-- Number of the edges of a node. -/
def incidentCount (g : CodeGraph) (project : Text) (nodeId : ℕ) : ℕ :=
  ((g.projectEdges project).filter (incident nodeId)).length

def ExactNeighborhoodPage.items (p : ExactNeighborhoodPage) : List (CodeEdge × CodeNode) × ℕ :=
  (p.neighbors, p.totalUniqueEdges)

def neighborhoodAt (g : CodeGraph) (project : Text) (nodeId limit afterEdgeId : ℕ) :
    (List (CodeEdge × CodeNode) × ℕ) × Option ℕ :=
  match getExactNeighborhoodPage g project nodeId afterEdgeId limit with
  | some page => (page.items, page.nextAfterEdgeId)
  | none => (([], 0), none)

def neighborPosition (r : CodeEdge × CodeNode) : ℕ := r.1.id

def neighborPlace (pre : List (CodeEdge × CodeNode)) : ℕ := (pre.getLast?.map neighborPosition).getD 0

theorem fst_of_neighborOf {e : CodeEdge} {r : CodeEdge × CodeNode} (h : neighborOf g project nodeId e = some r) :
    r.1 = e := by
  obtain ⟨n, _, rfl⟩ := Option.map_eq_some_iff.mp h
  rfl

theorem nodup_neighborIds (g : CodeGraph) (project : Text) (nodeId : ℕ) {l : List CodeEdge}
    (h : (l.map CodeEdge.id).Nodup) : ((l.filterMap (neighborOf g project nodeId)).map fun r => r.1.id).Nodup := by
  refine h.sublist ?_
  induction l with
  | nil => exact .slnil
  | cons e l ih =>
    have hl := ih (nodup_cons.mp h).2
    rw [filterMap_cons]
    split
    · exact hl.cons _
    · rename_i r hr
      rw [map_cons, map_cons, fst_of_neighborOf hr]
      exact hl.cons_cons _

theorem filterMap_neighborOf_filter (g : CodeGraph) (project : Text) (nodeId : ℕ) (p : ℕ → Bool) (l : List CodeEdge) :
    (l.filter fun e => p e.id).filterMap (neighborOf g project nodeId) =
      (l.filterMap (neighborOf g project nodeId)).filter fun r => p r.1.id := by
  induction l with
  | nil => rfl
  | cons e l ih =>
    rw [filter_cons, filterMap_cons]
    cases hr : neighborOf g project nodeId e with
    | none =>
      split
      · rw [filterMap_cons, hr, ih]
      · exact ih
    | some r =>
      rw [filter_cons, fst_of_neighborOf hr]
      split
      · rw [filterMap_cons, hr, ih]
      · exact ih

/-- The two branches of the statement have every edge of the node once. -/
theorem incident_branches_perm (nodeId after : ℕ) (edges : List CodeEdge) :
    ((edges.filter fun e => decide (e.sourceId = nodeId) && decide (after < e.id)) ++
      edges.filter fun e => decide (e.targetId = nodeId) && decide (e.sourceId ≠ nodeId) && decide (after < e.id)).Perm
    ((edges.filter (incident nodeId)).filter fun e => decide (after < e.id)) := by
  have hsplit := filter_append_perm (fun e : CodeEdge => decide (e.sourceId = nodeId))
    ((edges.filter (incident nodeId)).filter fun e => decide (after < e.id))
  have hsource : ((edges.filter (incident nodeId)).filter fun e => decide (after < e.id)).filter
      (fun e => decide (e.sourceId = nodeId)) =
      edges.filter fun e => decide (e.sourceId = nodeId) && decide (after < e.id) := by
    rw [filter_filter, filter_filter]
    refine filter_congr fun e _ => ?_
    rw [Bool.eq_iff_iff]
    simp only [incident, and_eq_true, or_eq_true, decide_eq_true_eq]
    constructor
    · exact fun h => h.1
    · exact fun h => ⟨h, .inl h.1⟩
  have htarget : ((edges.filter (incident nodeId)).filter fun e => decide (after < e.id)).filter
      (fun e => !decide (e.sourceId = nodeId)) =
      edges.filter fun e => decide (e.targetId = nodeId) && decide (e.sourceId ≠ nodeId) && decide (after < e.id) := by
    rw [filter_filter, filter_filter]
    refine filter_congr fun e _ => ?_
    rw [Bool.eq_iff_iff]
    simp only [incident, and_eq_true, or_eq_true, not_eq_true', decide_eq_true_eq,
      decide_eq_false_iff_not]
    constructor
    · rintro ⟨⟨hne, hlt⟩, hinc⟩
      exact ⟨⟨hinc.resolve_left hne, hne⟩, hlt⟩
    · rintro ⟨⟨ht, hne⟩, hlt⟩
      exact ⟨⟨hne, hlt⟩, .inr ht⟩
  rw [hsource, htarget] at hsplit
  exact hsplit

/-- Inbound and outbound edges, with the loops counted once. -/
theorem incident_count (nodeId : ℕ) (edges : List CodeEdge) :
    (edges.filter fun e => decide (e.targetId = nodeId)).length +
        (edges.filter fun e => decide (e.sourceId = nodeId)).length -
        (edges.filter fun e => decide (e.sourceId = nodeId) && decide (e.targetId = nodeId)).length =
      (edges.filter (incident nodeId)).length := by
  have hsum : (edges.filter fun e => decide (e.targetId = nodeId)).length +
      (edges.filter fun e => decide (e.sourceId = nodeId)).length =
      (edges.filter (incident nodeId)).length +
        (edges.filter fun e => decide (e.sourceId = nodeId) && decide (e.targetId = nodeId)).length := by
    induction edges with
    | nil => rfl
    | cons e edges ih =>
      simp only [filter_cons, incident] at ih ⊢
      by_cases hs : e.sourceId = nodeId
      · by_cases ht : e.targetId = nodeId
        · simp only [hs, ht, decide_true, Bool.or_true, Bool.and_true, if_true, length_cons]
          omega
        · simp only [hs, ht, decide_true, decide_false, Bool.or_false, Bool.and_false, false_eq_true, if_true,
            if_false, length_cons]
          omega
      · by_cases ht : e.targetId = nodeId
        · simp only [hs, ht, decide_true, decide_false, Bool.or_true, Bool.and_true, false_eq_true, if_true,
            if_false, length_cons]
          omega
        · simp only [hs, ht, decide_false, Bool.or_false, Bool.and_false, false_eq_true, if_false]
          omega
  omega

/-- The rows of the statement behind the edges that were there. -/
theorem neighborBehind {maxId : ℕ} (hids : RowIds maxId g) (h : pre ++ suf = neighborRows g project nodeId) :
    orderBy (fun r : CodeEdge × CodeNode => r.1.id) ((((g.projectEdges project).filter fun e =>
          decide (e.sourceId = nodeId) && decide (neighborPlace pre < e.id)) ++ (g.projectEdges project).filter fun e =>
          decide (e.targetId = nodeId) && decide (e.sourceId ≠ nodeId) && decide (neighborPlace pre < e.id)).filterMap
        (neighborOf g project nodeId)) = suf := by
  have hedges : ((g.projectEdges project).map CodeEdge.id).Nodup := g.nodup_edges.sublist (filter_sublist.map _)
  have hinc : (((g.projectEdges project).filter (incident nodeId)).map CodeEdge.id).Nodup :=
    hedges.sublist (filter_sublist.map _)
  have hkeys := nodup_neighborIds g project nodeId hinc
  have hperm := (incident_branches_perm nodeId (neighborPlace pre) (g.projectEdges project)).filterMap
    (neighborOf g project nodeId)
  have hfilter := filterMap_neighborOf_filter g project nodeId
    (fun id => decide (neighborPlace pre < id)) ((g.projectEdges project).filter (incident nodeId))
  rw [hfilter] at hperm
  have hbehind : ((((g.projectEdges project).filter (incident nodeId)).filterMap (neighborOf g project nodeId)).filter
      fun r => decide (neighborPlace pre < r.1.id)).map (fun r => r.1.id) |>.Nodup :=
    hkeys.sublist (filter_sublist.map _)
  rw [orderBy_congr ((hperm.map _).nodup_iff.mpr hbehind) hperm, orderBy_filter hkeys]
  have hrows : orderBy (fun r : CodeEdge × CodeNode => r.1.id)
      (((g.projectEdges project).filter (incident nodeId)).filterMap (neighborOf g project nodeId)) = pre ++ suf := h.symm
  have hsorted := pairwise_lt_orderBy hkeys
  rw [hrows] at hsorted ⊢
  rcases eq_nil_or_concat' pre with rfl | ⟨pre, a, rfl⟩
  · rw [nil_append, filter_eq_self]
    intro r hr
    have hmem : r ∈ ((g.projectEdges project).filter (incident nodeId)).filterMap (neighborOf g project nodeId) := by
      apply (orderBy_perm (fun r : CodeEdge × CodeNode => r.1.id) _).mem_iff.mp
      rw [hrows]
      exact hr
    obtain ⟨e, he, hr⟩ := mem_filterMap.mp hmem
    have hpos := (hids.edges e (mem_filter.mp (mem_filter.mp he).1).1).1
    rw [← fst_of_neighborOf hr] at hpos
    exact decide_eq_true hpos
  · have hplace : neighborPlace (pre ++ [a]) = a.1.id := by simp [neighborPlace, neighborPosition]
    rw [hplace]
    exact filter_append_of_pairwise hsorted

theorem neighborhoodAt_place {maxId : ℕ} (hids : RowIds maxId g) (hlimit : 1 ≤ limit ∧ limit ≤ 250)
    {anchor : CodeNode} (hanchor : Rows.get CodeNode.id nodeId (g.projectNodes project) = some anchor) (h : pre ++ suf = neighborRows g project nodeId) :
    neighborhoodAt g project nodeId limit (neighborPlace pre) = ((suf.take limit, incidentCount g project nodeId),
        if limit < suf.length then some (neighborPlace (pre ++ suf.take limit)) else none) := by
  have hbehind := neighborBehind hids h
  have hcount := incident_count nodeId (g.projectEdges project)
  have hjoin : neighborOf g project nodeId =
      fun e => (Rows.get CodeNode.id (otherEnd nodeId e) (g.projectNodes project)).map fun n => (e, n) := rfl
  rw [hjoin] at hbehind
  simp only [neighborhoodAt, getExactNeighborhoodPage, hanchor, Option.map_some, max_min_limit hlimit, hbehind,
    ExactNeighborhoodPage.items, take_of_take_succ, lt_length_take_succ, hcount, incidentCount]
  by_cases hmore : limit < suf.length
  · obtain ⟨a, ha⟩ := getLast?_take hlimit.1 hmore
    obtain ⟨rows, hrows⟩ := getLast?_eq_some_iff.mp ha
    have hplace : neighborPlace (pre ++ suf.take limit) = a.1.id := by
      rw [hrows, ← append_assoc]
      simp [neighborPlace, neighborPosition]
    have hne : (suf.take limit).isEmpty = false := by simp [hrows]
    rw [hplace]
    simp [hmore, ha, hne]
  · simp [hmore]

/-- The pages of a neighborhood. -/
theorem neighborhoodTrail {maxId : ℕ} (hids : RowIds maxId g) (hlimit : 1 ≤ limit ∧ limit ≤ 250) {anchor : CodeNode}
    (hanchor : Rows.get CodeNode.id nodeId (g.projectNodes project) = some anchor) :
    Trail (neighborhoodAt g project nodeId limit) (some 0)
      (pagesFrom (fun _ rows => (rows, incidentCount g project nodeId)) limit [] (neighborRows g project nodeId))
      (0 :: (pageEnds limit (neighborRows g project nodeId)).map neighborPosition) := by
  have hplace : ∀ pre a, neighborPlace (pre ++ [a]) = neighborPosition a := by
    intro pre a
    simp [neighborPlace]
  have hpos : 0 < limit := hlimit.1
  have htrail := trail_pagesFrom (neighborhoodAt g project nodeId limit)
    (fun _ rows => (rows, incidentCount g project nodeId)) hpos hplace
    (fun _ _ h => neighborhoodAt_place hids hlimit hanchor h) .done [] (neighborRows g project nodeId) rfl
  rw [append_nil, append_nil] at htrail
  exact htrail

/-- Every edge of the node is in a page if and only if each has a node at its other end. -/
theorem length_neighborRows (g : CodeGraph) (project : Text) (nodeId : ℕ) :
    (neighborRows g project nodeId).length = incidentCount g project nodeId ↔
      ∀ e ∈ g.projectEdges project, incident nodeId e = true →
        ∃ n ∈ g.projectNodes project, n.id = otherEnd nodeId e := by
  have hsome : ∀ e, (neighborOf g project nodeId e).isSome = true ↔
      ∃ n ∈ g.projectNodes project, n.id = otherEnd nodeId e := by
    intro e
    rw [neighborOf, Option.isSome_map, ← not_eq_false, not_eq_false, Option.isSome_iff_ne_none, Ne,
      Rows.get_eq_none_iff]
    push Not
    rfl
  rw [neighborRows, length_orderBy, incidentCount, length_filterMap_eq_countP, countP_eq_length]
  simp only [mem_filter, and_imp]
  constructor
  · exact fun h e he hi => (hsome e).mp (h e he hi)
  · exact fun h e he hi => (hsome e).mpr (h e he hi)

end Ariad.Bridge
