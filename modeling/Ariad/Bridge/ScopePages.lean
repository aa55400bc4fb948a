import Ariad.Bridge.SearchPages

/-!
# The pages of a scope

The nodes of a scope come in batches by id. A batch has the edges whose later endpoint is in it: its first page has
its nodes and the first of these edges, and further pages have the other edges.

* `firstBehind_eq` — the binary search.
* `scopePages`, `scopePositions` — the pages, and the positions between them.
* `scopeTrail` — the reader goes through these pages.
* `flatMap_nodes_scopePages`, `flatMap_edges_scopePages`, `edgesFollow_scopePages` — what is in them.
-/

namespace Ariad.Bridge

open Keyset List

variable {g : CodeGraph} {project key : Text} {kind : ExactScopeKind} {limit maxId : ℕ}

/-! ## The nodes of a scope -/

/-- The rows behind a membership. -/
def memberNodes (g : CodeGraph) (project : Text) (kind : ExactScopeKind) (key : Text) : List CodeNode :=
  let rows := match kind with
    | .directory => (g.projectNodes project).filter fun n => storedUnder (normalizeGraphPath key) n.filePath
    | .domain | .community => g.projectNodes project
  (orderBy CodeNode.id rows).filter (inScope kind key)

variable {pre suf : List CodeNode}

/-! ## The first rows of a list -/

section First

variable {α : Type} {l : List α}

theorem take_ne_nil (hlimit : 0 < limit) (hne : l ≠ []) : l.take limit ≠ [] := by
  simp [take_eq_nil_iff, hlimit.ne', hne]

theorem exists_take_eq (hlimit : 0 < limit) (hne : l ≠ []) : ∃ rows last, l.take limit = rows ++ [last] :=
  (eq_nil_or_concat' _).resolve_left (take_ne_nil hlimit hne)

theorem drop_ne_nil (h : limit < l.length) : l.drop limit ≠ [] := by
  rwa [Ne, drop_eq_nil_iff, not_le]

theorem append_take_drop (pre l : List α) (limit : ℕ) : pre ++ l.take limit ++ l.drop limit = pre ++ l := by
  rw [append_assoc, take_append_drop]

end First

theorem membership_eq : getExactScopeMembership g project kind key = (memberNodes g project kind key).map CodeNode.id := rfl

theorem memberNodes_subset {n : CodeNode} (h : n ∈ memberNodes g project kind key) : n ∈ g.projectNodes project := by
  have hmem := (mem_filter.mp h).1
  cases kind with
  | domain => exact mem_orderBy.mp hmem
  | community => exact mem_orderBy.mp hmem
  | directory => exact (mem_filter.mp (mem_orderBy.mp hmem)).1

theorem pairwise_memberNodes (g : CodeGraph) (project : Text) (kind : ExactScopeKind) (key : Text) :
    (memberNodes g project kind key).Pairwise fun a b => a.id < b.id := by
  have hnodup := g.nodup_projectNodes project
  cases kind with
  | domain => exact (pairwise_lt_orderBy hnodup).filter _
  | community => exact (pairwise_lt_orderBy hnodup).filter _
  | directory => exact (pairwise_lt_orderBy (hnodup.sublist (filter_sublist.map _))).filter _

/-- The id of the last node. -/
def lastId (nodes : List CodeNode) : ℕ := (nodes.getLast?.map CodeNode.id).getD 0

@[simp] theorem lastId_nil : lastId [] = 0 := rfl

@[simp] theorem lastId_append_singleton (nodes : List CodeNode) (n : CodeNode) : lastId (nodes ++ [n]) = n.id := by
  simp [lastId]

theorem lastId_append {pre batch : List CodeNode} (h : batch ≠ []) : lastId (pre ++ batch) = lastId batch := by
  obtain rfl | ⟨rows, last, rfl⟩ := eq_nil_or_concat' batch
  · exact absurd rfl h
  · rw [← append_assoc, lastId_append_singleton, lastId_append_singleton]

theorem id_le_lastId {nodes : List CodeNode} (h : nodes.Pairwise fun a b => a.id < b.id) {n : CodeNode}
    (hn : n ∈ nodes) : n.id ≤ lastId nodes := by
  obtain rfl | ⟨pre, a, rfl⟩ := eq_nil_or_concat' nodes
  · cases hn
  · rw [lastId_append_singleton]
    rcases mem_append.mp hn with hn | hn
    · exact le_of_lt ((pairwise_append.mp h).2.2 n hn a mem_cons_self)
    · rw [mem_singleton.mp hn]

/-- The nodes behind others have greater ids. -/
theorem lastId_lt (h : (pre ++ suf).Pairwise fun a b => a.id < b.id) {n : CodeNode}
    (hn : n ∈ suf) (hpos : 1 ≤ n.id) : lastId pre < n.id := by
  obtain rfl | ⟨pre, a, rfl⟩ := eq_nil_or_concat' pre
  · exact hpos
  · rw [lastId_append_singleton]
    exact (pairwise_append.mp h).2.2 a (by simp) n hn

/-! ## The binary search -/

theorem firstBehind_eq {ids : List ℕ} {after k : ℕ} (hk : ∀ i, i < ids.length → (ids.getD i 0 ≤ after ↔ i < k))
    (low high : ℕ) (hlow : low ≤ k) (hhigh : k ≤ high) (hlength : high ≤ ids.length) :
    firstBehind ids after low high = k := by
  fun_induction firstBehind ids after low high with
  | case1 low high hlt middle hle ih =>
    have hmiddle : middle < k := (hk middle (by omega)).mp hle
    exact ih (by omega) hhigh hlength
  | case2 low high hlt middle hle ih =>
    have hmiddle : ¬ middle < k := fun h => hle ((hk middle (by omega)).mpr h)
    exact ih hlow (by omega) (by omega)
  | case3 low high hge => omega

/-- The search finds the nodes behind those that were there. -/
theorem firstBehind_lastId (h : (pre ++ suf).Pairwise fun a b => a.id < b.id) (hpos : ∀ n ∈ suf, 1 ≤ n.id) :
    firstBehind ((pre ++ suf).map CodeNode.id) (lastId pre) 0 ((pre ++ suf).map CodeNode.id).length = pre.length := by
  apply firstBehind_eq
  · intro i hi
    rw [length_map] at hi
    rw [getD_eq_getElem?_getD, getElem?_map, getElem?_eq_getElem hi, Option.map_some, Option.getD_some]
    by_cases hlt : i < pre.length
    · have hmem : (pre ++ suf)[i] ∈ pre := by
        rw [getElem_append_left hlt]
        exact getElem_mem hlt
      exact iff_of_true (id_le_lastId (pairwise_append.mp h).1 hmem) hlt
    · have hmem : (pre ++ suf)[i] ∈ suf := by
        rw [getElem_append_right (by omega)]
        exact getElem_mem _
      exact iff_of_false (not_le.mpr (lastId_lt h hmem (hpos _ hmem))) hlt
  · exact Nat.zero_le _
  · rw [length_map, length_append]
    omega
  · exact le_rfl

/-! ## Pages and positions -/

/-- What a page of a scope says. -/
structure ScopeItems where
  nodes : List CodeNode
  edges : List CodeEdge
  totalNodes : ℕ
  totalInternalEdges : ℕ

def ExactScopePage.items (p : ExactScopePage) : ScopeItems := ⟨p.nodes, p.edges, p.totalNodes, p.totalInternalEdges⟩

def scopeAt (g : CodeGraph) (project : Text) (kind : ExactScopeKind) (key : Text) (limit : ℕ)
    (position : ExactScopeCursorState) : ScopeItems × Option ExactScopeCursorState :=
  let page := getExactScopePage g project kind key position limit limit
  (page.items, page.nextCursor)

/-- The later endpoint of an edge. -/
def lastEnd (e : CodeEdge) : ℕ := max e.sourceId e.targetId

/-- The edges of the batch behind `a` that ends with `b`, in order. -/
def batchEdges (inner : List CodeEdge) (a b : ℕ) : List CodeEdge :=
  orderBy CodeEdge.id (inner.filter fun e => decide (a < lastEnd e) && decide (lastEnd e ≤ b))

/-- The pages of a batch. -/
def batchPages (total : ℕ) (inner : List CodeEdge) (limit : ℕ) (pre batch : List CodeNode) : List ScopeItems :=
  pagesFrom (fun shown edges => ⟨if shown = [] then batch else [], edges, total, inner.length⟩) limit []
    (batchEdges inner (lastId pre) (lastId batch))

/-- The pages of the nodes `l` behind `pre`. -/
def scopePages (total : ℕ) (inner : List CodeEdge) (limit : ℕ) (pre l : List CodeNode) : List ScopeItems :=
  if 0 < limit ∧ limit < l.length then
    batchPages total inner limit pre (l.take limit) ++
      scopePages total inner limit (pre ++ l.take limit) (l.drop limit)
  else batchPages total inner limit pre (l.take limit)
termination_by l.length

/-- The positions within the batch behind `pre`. -/
def batchPositions (inner : List CodeEdge) (limit : ℕ) (pre batch : List CodeNode) : List ExactScopeCursorState :=
  (pageEnds limit (batchEdges inner (lastId pre) (lastId batch))).map fun e => ⟨lastId pre, lastId batch, e.id⟩

/-- The positions that end a page before the last. -/
def scopePositions (inner : List CodeEdge) (limit : ℕ) (pre l : List CodeNode) : List ExactScopeCursorState :=
  if 0 < limit ∧ limit < l.length then
    batchPositions inner limit pre (l.take limit) ++
      ⟨lastId (l.take limit), 0, 0⟩ :: scopePositions inner limit (pre ++ l.take limit) (l.drop limit)
  else batchPositions inner limit pre (l.take limit)
termination_by l.length

/-- The position that has shown these edges of a batch. -/
def batchPlace (a b : ℕ) (shown : List CodeEdge) : ExactScopeCursorState :=
  match shown.getLast? with
  | none => ⟨a, 0, 0⟩
  | some e => ⟨a, b, e.id⟩

theorem batchPlace_append (a b : ℕ) (shown : List CodeEdge) (e : CodeEdge) :
    batchPlace a b (shown ++ [e]) = ⟨a, b, e.id⟩ := by
  simp [batchPlace]

/-! ## One page -/

theorem nodup_internalEdges (g : CodeGraph) (project : Text) (ids : List ℕ) :
    ((internalEdges g project ids).map CodeEdge.id).Nodup :=
  (g.nodup_edges.sublist (filter_sublist.map _)).sublist (filter_sublist.map _)

/-- The edges of a batch behind those that were shown. -/
theorem batchEdges_behind (hids : RowIds maxId g) {ids : List ℕ} {a b : ℕ} {shown edges : List CodeEdge}
    (h : shown ++ edges = batchEdges (internalEdges g project ids) a b) :
    orderBy CodeEdge.id ((internalEdges g project ids).filter fun e =>
      decide (a < max e.sourceId e.targetId) && decide (max e.sourceId e.targetId ≤ b) &&
        decide ((batchPlace a b shown).afterEdgeId < e.id)) = edges := by
  have hkeys : (((internalEdges g project ids).filter fun e =>
      decide (a < lastEnd e) && decide (lastEnd e ≤ b)).map CodeEdge.id).Nodup :=
    (nodup_internalEdges g project ids).sublist (filter_sublist.map _)
  have hfilter : ((internalEdges g project ids).filter fun e =>
      decide (a < max e.sourceId e.targetId) && decide (max e.sourceId e.targetId ≤ b) &&
        decide ((batchPlace a b shown).afterEdgeId < e.id)) =
      ((internalEdges g project ids).filter fun e => decide (a < lastEnd e) && decide (lastEnd e ≤ b)).filter
        fun e => decide ((batchPlace a b shown).afterEdgeId < e.id) := by
    rw [filter_filter]
    exact filter_congr fun e _ => Bool.and_comm _ _
  have hrows : orderBy CodeEdge.id ((internalEdges g project ids).filter fun e =>
      decide (a < lastEnd e) && decide (lastEnd e ≤ b)) = shown ++ edges := h.symm
  have hsorted := pairwise_lt_orderBy hkeys
  rw [hfilter, orderBy_filter hkeys]
  rw [hrows] at hsorted ⊢
  rcases eq_nil_or_concat' shown with rfl | ⟨shown, last, rfl⟩
  · rw [nil_append, filter_eq_self]
    intro e he
    have hmem : e ∈ internalEdges g project ids := by
      have hin : e ∈ batchEdges (internalEdges g project ids) a b := by
        rw [← h]
        exact he
      exact (mem_filter.mp (mem_orderBy.mp hin)).1
    have hpos := (hids.edges e (mem_filter.mp (mem_filter.mp hmem).1).1).1
    exact decide_eq_true hpos
  · rw [batchPlace_append]
    exact filter_append_of_pairwise hsorted

/-- The rows of the ids of a batch. -/
theorem nodes_of_batch (batch : List CodeNode) (hsub : ∀ n ∈ batch, n ∈ g.projectNodes project)
    (hsorted : batch.Pairwise fun a b => a.id < b.id) :
    orderBy CodeNode.id ((g.projectNodes project).filter fun n => n.id ∈ batch.map CodeNode.id) = batch := by
  have hnodup := g.nodup_projectNodes project
  have hrows : (((g.projectNodes project).filter fun n => n.id ∈ batch.map CodeNode.id).map CodeNode.id).Nodup :=
    hnodup.sublist (filter_sublist.map _)
  apply eq_of_perm_of_pairwise_lt (pairwise_lt_orderBy hrows) hsorted
  refine (orderBy_perm _ _).trans ?_
  rw [perm_ext_iff_of_nodup (Nodup.of_map _ hrows)
    (hsorted.imp fun hlt heq => absurd (heq ▸ hlt) (lt_irrefl _))]
  intro n
  simp only [mem_filter, decide_eq_true_eq, mem_map]
  constructor
  · rintro ⟨hn, m, hm, hid⟩
    rw [inj_on_of_nodup_map hnodup (hsub m hm) hn hid] at hm
    exact hm
  · exact fun hn => ⟨hsub n hn, n, hn, rfl⟩

theorem lastId_eq_getLast (nodes : List CodeNode) : (nodes.map CodeNode.id).getLast?.getD 0 = lastId nodes := by
  rw [lastId, getLast?_map]

/-- The cursor behind a page that is not the last of its batch. -/
theorem next_of_edges (hlimit : 1 ≤ limit) (a b : ℕ) (shown edges : List CodeEdge)
    (other : Option ExactScopeCursorState) :
    (if (decide (limit < edges.length) && !(edges.take limit).isEmpty) = true then
        some (ExactScopeCursorState.mk a b (((edges.take limit).getLast?.map CodeEdge.id).getD 0)) else other) =
      if limit < edges.length then some (batchPlace a b (shown ++ edges.take limit)) else other := by
  by_cases hmore : limit < edges.length
  · obtain ⟨rows, e, hrows⟩ := exists_take_eq hlimit (ne_nil_of_length_pos (Nat.zero_lt_of_lt hmore))
    rw [hrows, ← append_assoc, batchPlace_append]
    simp [hmore]
  · simp [hmore]

/-- A batch is not the last one if there are more nodes. -/
theorem lastId_take_lt_iff (h : (pre ++ suf).Pairwise fun a b => a.id < b.id)
    (hpos : ∀ n ∈ suf, 1 ≤ n.id) (hne : suf ≠ []) :
    lastId (suf.take limit) < lastId (pre ++ suf) ↔ limit < suf.length := by
  obtain rfl | ⟨rows, last, rfl⟩ := eq_nil_or_concat' suf
  · exact absurd rfl hne
  rw [← append_assoc, lastId_append_singleton]
  have hsuf := (pairwise_append.mp h).2.1
  constructor
  · intro hlt
    rw [← not_le]
    intro hle
    rw [take_of_length_le hle, lastId_append_singleton] at hlt
    exact lt_irrefl _ hlt
  · intro hlt
    rw [length_append, length_singleton] at hlt
    rw [take_append_of_le_length (by omega)]
    have hsplit : rows ++ [last] = rows.take limit ++ (rows.drop limit ++ [last]) := by
      rw [← append_assoc, take_append_drop]
    have hlast : last ∈ rows.drop limit ++ [last] := by simp
    exact lastId_lt (hsplit ▸ hsuf) hlast (hpos last (by simp))

/-- A page of a batch of a scope. -/
theorem scopeAt_batch (hids : RowIds maxId g) (hlimit : 1 ≤ limit ∧ limit ≤ 250)
    (hnodes : pre ++ suf = memberNodes g project kind key) (hne : suf ≠ []) {inner : List CodeEdge}
    (hinner : inner = internalEdges g project ((memberNodes g project kind key).map CodeNode.id))
    {shown edges : List CodeEdge} (hedges : shown ++ edges = batchEdges inner (lastId pre) (lastId (suf.take limit))) :
    scopeAt g project kind key limit (batchPlace (lastId pre) (lastId (suf.take limit)) shown) =
      (⟨if shown = [] then suf.take limit else [], edges.take limit, (memberNodes g project kind key).length,
          inner.length⟩, if limit < edges.length then
          some (batchPlace (lastId pre) (lastId (suf.take limit)) (shown ++ edges.take limit))
        else if limit < suf.length then some ⟨lastId (suf.take limit), 0, 0⟩ else none) := by
  have hsorted := pairwise_memberNodes g project kind key
  rw [← hnodes] at hsorted
  have hproject : ∀ n ∈ pre ++ suf, n ∈ g.projectNodes project := fun n hn => memberNodes_subset (hnodes ▸ hn)
  have hpos : ∀ n ∈ suf, 1 ≤ n.id := fun n hn =>
    (hids.nodes n (mem_filter.mp (hproject n (mem_append_right _ hn))).1).1
  obtain ⟨rows, last, hbatch⟩ := exists_take_eq hlimit.1 hne
  have hlast : lastId (suf.take limit) = last.id := by rw [hbatch, lastId_append_singleton]
  have hlastMem : last ∈ suf := take_subset limit suf (hbatch ▸ by simp)
  have hlastPos : last.id ≠ 0 := by
    have := hpos last hlastMem
    omega
  have hbehind := batchEdges_behind hids (hinner ▸ hedges)
  rw [← hinner] at hbehind
  have htotal : ((memberNodes g project kind key).map CodeNode.id).length = (memberNodes g project kind key).length :=
    length_map _
  rcases eq_nil_or_concat' shown with rfl | ⟨shown, e, rfl⟩
  · -- The first page of the batch, with its nodes.
    have hlow : firstBehind ((memberNodes g project kind key).map CodeNode.id) (lastId pre) 0
        ((memberNodes g project kind key).map CodeNode.id).length = pre.length := by
      rw [← hnodes]
      exact firstBehind_lastId hsorted hpos
    have hpage : (((memberNodes g project kind key).map CodeNode.id).drop pre.length).take limit =
        (suf.take limit).map CodeNode.id := by
      rw [← hnodes, map_append, drop_left' (length_map _), map_take]
    have hmore : pre.length + ((suf.take limit).map CodeNode.id).length <
        ((memberNodes g project kind key).map CodeNode.id).length ↔ limit < suf.length := by
      rw [← hnodes, length_map, length_map, length_append, length_take]
      omega
    have hrows := nodes_of_batch (suf.take limit)
      (fun n hn => hproject n (mem_append_right _ (take_subset _ _ hn)))
      ((pairwise_append.mp hsorted).2.1.sublist (take_sublist _ _))
    have hend : ((suf.take limit).map CodeNode.id).getLast?.getD 0 = last.id := by
      rw [lastId_eq_getLast, hlast]
    have hplace : batchPlace (lastId pre) last.id [] = ⟨lastId pre, 0, 0⟩ := rfl
    rw [hlast] at hbehind ⊢
    simp only [hplace] at hbehind ⊢
    simp only [scopeAt, getExactScopePage, membership_eq, max_min_limit hlimit, hlow, hpage, if_true,
      hrows, hend, hlastPos, if_false, ← hinner, hbehind, hmore, ExactScopePage.items]
    have hself : (suf.take limit).take limit = suf.take limit := by rw [take_take, Nat.min_self]
    simp only [lt_length_take_succ, take_of_take_succ, hself, htotal, decide_eq_true_eq]
    rw [next_of_edges hlimit.1]
  · -- A further page of the batch.
    have hmore : last.id < ((memberNodes g project kind key).map CodeNode.id).getLast?.getD 0 ↔ limit < suf.length := by
      rw [lastId_eq_getLast, ← hnodes, ← hlast]
      exact lastId_take_lt_iff hsorted hpos hne
    have hshown : shown ++ [e] ≠ [] := by simp
    rw [hlast] at hbehind ⊢
    simp only [batchPlace_append] at hbehind ⊢
    simp only [scopeAt, getExactScopePage, membership_eq, max_min_limit hlimit, hlastPos, if_false,
      ← hinner, hbehind, hmore, ExactScopePage.items]
    simp only [lt_length_take_succ, take_of_take_succ, htotal, hshown, decide_eq_true_eq, if_false]
    rw [next_of_edges hlimit.1]

/-! ## All pages -/

/-- The pages of one batch, then those of what follows it. -/
theorem batchTrail (hids : RowIds maxId g) (hlimit : 1 ≤ limit ∧ limit ≤ 250)
    (hnodes : pre ++ suf = memberNodes g project kind key) (hne : suf ≠ []) {inner : List CodeEdge}
    (hinner : inner = internalEdges g project ((memberNodes g project kind key).map CodeNode.id))
    {ps : List ScopeItems} {cs : List ExactScopeCursorState} (hnext : Trail (scopeAt g project kind key limit)
      (if limit < suf.length then some ⟨lastId (suf.take limit), 0, 0⟩ else none) ps cs) :
    Trail (scopeAt g project kind key limit) (some ⟨lastId pre, 0, 0⟩)
      (batchPages (memberNodes g project kind key).length inner limit pre (suf.take limit) ++ ps)
      (⟨lastId pre, 0, 0⟩ :: (batchPositions inner limit pre (suf.take limit) ++ cs)) := by
  have hpos : 0 < limit := hlimit.1
  exact trail_pagesFrom (scopeAt g project kind key limit)
    (fun shown edges => ⟨if shown = [] then suf.take limit else [], edges, (memberNodes g project kind key).length,
      inner.length⟩)
    hpos (batchPlace_append (lastId pre) (lastId (suf.take limit)))
    (fun _ _ h => scopeAt_batch hids hlimit hnodes hne hinner h) hnext [] _ rfl

/-- The reader goes through the pages of a scope that has nodes. -/
theorem scopeTrail (hids : RowIds maxId g) (hlimit : 1 ≤ limit ∧ limit ≤ 250) {inner : List CodeEdge}
    (hinner : inner = internalEdges g project ((memberNodes g project kind key).map CodeNode.id))
    (pre suf : List CodeNode) (hnodes : pre ++ suf = memberNodes g project kind key) (hne : suf ≠ []) :
    Trail (scopeAt g project kind key limit) (some ⟨lastId pre, 0, 0⟩)
      (scopePages (memberNodes g project kind key).length inner limit pre suf)
      (⟨lastId pre, 0, 0⟩ :: scopePositions inner limit pre suf) := by
  induction hn : suf.length using Nat.strong_induction_on generalizing pre suf with
  | _ n ih =>
    rw [scopePages, scopePositions]
    by_cases hlt : limit < suf.length
    · have hdrop : (suf.drop limit).length < n := by
        rw [length_drop]
        omega
      have hrest := ih _ hdrop (pre ++ suf.take limit) (suf.drop limit)
        ((append_take_drop pre suf limit).trans hnodes) (drop_ne_nil hlt) rfl
      rw [lastId_append (take_ne_nil hlimit.1 hne)] at hrest
      have hcond : 0 < limit ∧ limit < suf.length := ⟨hlimit.1, hlt⟩
      rw [if_pos hcond, if_pos hcond]
      apply batchTrail hids hlimit hnodes hne hinner
      rw [if_pos hlt]
      exact hrest
    · have hcond : ¬ (0 < limit ∧ limit < suf.length) := fun h => hlt h.2
      rw [if_neg hcond, if_neg hcond]
      have hlast : Trail (scopeAt g project kind key limit)
          (if limit < suf.length then some ⟨lastId (suf.take limit), 0, 0⟩ else none) [] [] := by
        rw [if_neg hlt]
        exact .done
      have htrail := batchTrail hids hlimit hnodes hne hinner hlast
      rw [append_nil, append_nil] at htrail
      exact htrail

/-! ## What is in the pages -/

section Contents

variable {total : ℕ} {inner : List CodeEdge}

/-- Every edge comes with both of its endpoints, or after them. -/
def EdgesFollow (seen : List CodeNode) : List ScopeItems → Prop
  | [] => True
  | p :: ps =>
    (∀ e ∈ p.edges, e.sourceId ∈ (seen ++ p.nodes).map CodeNode.id ∧ e.targetId ∈ (seen ++ p.nodes).map CodeNode.id) ∧
      EdgesFollow (seen ++ p.nodes) ps

theorem EdgesFollow.append {seen : List CodeNode} {ps qs : List ScopeItems} (h : EdgesFollow seen ps)
    (h' : EdgesFollow (seen ++ ps.flatMap ScopeItems.nodes) qs) : EdgesFollow seen (ps ++ qs) := by
  induction ps generalizing seen with
  | nil => simpa using h'
  | cons p ps ih =>
    refine ⟨h.1, ih h.2 ?_⟩
    rw [flatMap_cons, ← append_assoc] at h'
    exact h'

/-- The first page of a batch has its nodes, the others have none. -/
theorem exists_batchPages (total : ℕ) (inner : List CodeEdge) (limit : ℕ) (pre batch : List CodeNode) :
    ∃ first more, batchPages total inner limit pre batch = first :: more ∧ first.nodes = batch ∧
      ∀ p ∈ more, p.nodes = [] := by
  obtain ⟨more, heq, hmore⟩ := exists_pagesFrom
    (fun shown edges => (⟨if shown = [] then batch else [], edges, total, inner.length⟩ : ScopeItems)) limit []
    (batchEdges inner (lastId pre) (lastId batch))
  refine ⟨_, more, heq, by simp, ?_⟩
  intro p hp
  obtain ⟨shown, edges, hshown, rfl⟩ := hmore p hp
  simp [hshown]

theorem flatMap_nodes_batchPages (pre batch : List CodeNode) :
    (batchPages total inner limit pre batch).flatMap ScopeItems.nodes = batch := by
  obtain ⟨first, more, heq, hfirst, hmore⟩ := exists_batchPages total inner limit pre batch
  have hnone : more.flatMap ScopeItems.nodes = [] := by
    rw [flatMap_eq_nil_iff]
    exact hmore
  rw [heq, flatMap_cons, hfirst, hnone, append_nil]

theorem flatMap_edges_batchPages (hlimit : 0 < limit) (pre batch : List CodeNode) :
    (batchPages total inner limit pre batch).flatMap ScopeItems.edges = batchEdges inner (lastId pre) (lastId batch) :=
  flatMap_pagesFrom _ _ hlimit (fun _ _ => rfl) _ _

theorem totals_batchPages (pre batch : List CodeNode) :
    ∀ p ∈ batchPages total inner limit pre batch, p.totalNodes = total ∧ p.totalInternalEdges = inner.length := by
  obtain ⟨more, heq, hmore⟩ := exists_pagesFrom
    (fun shown edges => (⟨if shown = [] then batch else [], edges, total, inner.length⟩ : ScopeItems)) limit []
    (batchEdges inner (lastId pre) (lastId batch))
  intro p hp
  rw [batchPages, heq] at hp
  rcases mem_cons.mp hp with rfl | hp
  · exact ⟨rfl, rfl⟩
  · obtain ⟨_, _, _, rfl⟩ := hmore p hp
    exact ⟨rfl, rfl⟩

theorem flatMap_nodes_scopePages (hlimit : 0 < limit) (pre l : List CodeNode) :
    (scopePages total inner limit pre l).flatMap ScopeItems.nodes = l := by
  fun_induction scopePages total inner limit pre l with
  | case1 pre l h ih => rw [flatMap_append, flatMap_nodes_batchPages, ih, take_append_drop]
  | case2 pre l h =>
    rw [flatMap_nodes_batchPages, take_of_length_le (by omega)]

theorem totals_scopePages (pre l : List CodeNode) :
    ∀ p ∈ scopePages total inner limit pre l, p.totalNodes = total ∧ p.totalInternalEdges = inner.length := by
  fun_induction scopePages total inner limit pre l with
  | case1 pre l h ih =>
    intro p hp
    rcases mem_append.mp hp with hp | hp
    · exact totals_batchPages _ _ p hp
    · exact ih p hp
  | case2 pre l h => exact totals_batchPages _ _

/-- The edges of one batch and those behind it. -/
theorem batchEdges_perm {a b : ℕ} (hab : a ≤ b) :
    (batchEdges inner a b ++ inner.filter fun e => decide (b < lastEnd e)).Perm
      (inner.filter fun e => decide (a < lastEnd e)) := by
  have hsplit := filter_append_perm (fun e : CodeEdge => decide (lastEnd e ≤ b))
    (inner.filter fun e => decide (a < lastEnd e))
  have hupto : (inner.filter fun e => decide (a < lastEnd e)).filter (fun e => decide (lastEnd e ≤ b)) =
      inner.filter fun e => decide (a < lastEnd e) && decide (lastEnd e ≤ b) := by
    rw [filter_filter]
    exact filter_congr fun e _ => Bool.and_comm _ _
  have hbehind : (inner.filter fun e => decide (a < lastEnd e)).filter (fun e => !decide (lastEnd e ≤ b)) =
      inner.filter fun e => decide (b < lastEnd e) := by
    rw [filter_filter]
    refine filter_congr fun e _ => ?_
    rw [Bool.eq_iff_iff]
    simp only [Bool.and_eq_true, Bool.not_eq_true', decide_eq_false_iff_not, decide_eq_true_eq]
    omega
  rw [hupto, hbehind] at hsplit
  exact ((orderBy_perm CodeEdge.id _).append_right _).trans hsplit

theorem flatMap_edges_scopePages (hlimit : 0 < limit) (pre l : List CodeNode) (hne : l ≠ [])
    (hsorted : (pre ++ l).Pairwise fun a b => a.id < b.id) (hpos : ∀ n ∈ l, 1 ≤ n.id)
    (hinner : ∀ e ∈ inner, lastEnd e ≤ lastId (pre ++ l)) :
    ((scopePages total inner limit pre l).flatMap ScopeItems.edges).Perm
      (inner.filter fun e => decide (lastId pre < lastEnd e)) := by
  fun_induction scopePages total inner limit pre l with
  | case1 pre l h ih =>
    have hsplit := append_take_drop pre l limit
    have hrest := ih (drop_ne_nil h.2) (hsplit ▸ hsorted) (fun n hn => hpos n (drop_subset _ _ hn)) (hsplit ▸ hinner)
    rw [lastId_append (take_ne_nil hlimit hne)] at hrest
    have hle : lastId pre ≤ lastId (l.take limit) := by
      obtain ⟨rows, last, hrows⟩ := exists_take_eq hlimit hne
      have hlast : last ∈ l := take_subset limit l (hrows ▸ by simp)
      rw [hrows, lastId_append_singleton]
      exact le_of_lt (lastId_lt hsorted hlast (hpos last hlast))
    rw [flatMap_append, flatMap_edges_batchPages hlimit]
    exact (hrest.append_left _).trans (batchEdges_perm hle)
  | case2 pre l h =>
    have htake : l.take limit = l := take_of_length_le (by omega)
    rw [flatMap_edges_batchPages hlimit, htake]
    refine (orderBy_perm CodeEdge.id _).trans ?_
    rw [lastId_append hne] at hinner
    have hall : (inner.filter fun e => decide (lastId pre < lastEnd e) && decide (lastEnd e ≤ lastId l)) =
        inner.filter fun e => decide (lastId pre < lastEnd e) := by
      refine filter_congr fun e he => ?_
      rw [decide_eq_true (hinner e he), Bool.and_true]
    rw [hall]

/-- Pages whose edges are between nodes that were there. -/
theorem edgesFollow_of_mem {seen : List CodeNode} {ps : List ScopeItems}
    (h : ∀ p ∈ ps, ∀ e ∈ p.edges, e.sourceId ∈ seen.map CodeNode.id ∧ e.targetId ∈ seen.map CodeNode.id) :
    EdgesFollow seen ps := by
  induction ps generalizing seen with
  | nil => trivial
  | cons p ps ih =>
    have hsub : ∀ id ∈ seen.map CodeNode.id, id ∈ (seen ++ p.nodes).map CodeNode.id := by
      intro id hid
      rw [map_append]
      exact mem_append_left _ hid
    constructor
    · intro e he
      obtain ⟨hs, ht⟩ := h p mem_cons_self e he
      exact ⟨hsub _ hs, hsub _ ht⟩
    · apply ih
      intro q hq e he
      obtain ⟨hs, ht⟩ := h q (mem_cons_of_mem _ hq) e he
      exact ⟨hsub _ hs, hsub _ ht⟩

theorem edgesFollow_batchPages {pre batch : List CodeNode}
    (h : ∀ p ∈ batchPages total inner limit pre batch, ∀ e ∈ p.edges,
      e.sourceId ∈ (pre ++ batch).map CodeNode.id ∧ e.targetId ∈ (pre ++ batch).map CodeNode.id) :
    EdgesFollow pre (batchPages total inner limit pre batch) := by
  obtain ⟨first, more, heq, hfirst, _⟩ := exists_batchPages total inner limit pre batch
  rw [heq] at h ⊢
  constructor
  · rw [hfirst]
    exact h first mem_cons_self
  · rw [hfirst]
    exact edgesFollow_of_mem fun p hp => h p (mem_cons_of_mem _ hp)

/-- A node up to the end of a batch is in it or before it. -/
theorem mem_upto_batch {pre batch rest : List CodeNode} (hne : batch ≠ [])
    (hsorted : (pre ++ batch ++ rest).Pairwise fun a b => a.id < b.id) (hpos : ∀ n ∈ rest, 1 ≤ n.id) {id : ℕ}
    (hid : id ∈ (pre ++ batch ++ rest).map CodeNode.id) (hle : id ≤ lastId batch) :
    id ∈ (pre ++ batch).map CodeNode.id := by
  obtain ⟨n, hn, rfl⟩ := mem_map.mp hid
  rcases mem_append.mp hn with hn | hn
  · exact mem_map_of_mem hn
  · have hlt := lastId_lt hsorted hn (hpos n hn)
    rw [lastId_append hne] at hlt
    omega

theorem edgesFollow_scopePages (hlimit : 0 < limit) (pre l : List CodeNode) (hne : l ≠ [])
    (hsorted : (pre ++ l).Pairwise fun a b => a.id < b.id) (hpos : ∀ n ∈ l, 1 ≤ n.id)
    (hinner : ∀ e ∈ inner, e.sourceId ∈ (pre ++ l).map CodeNode.id ∧ e.targetId ∈ (pre ++ l).map CodeNode.id) :
    EdgesFollow pre (scopePages total inner limit pre l) := by
  -- The edges of a batch end in it.
  have hbatch : ∀ pre l : List CodeNode, l ≠ [] → ((pre ++ l).Pairwise fun a b => a.id < b.id) →
      (∀ n ∈ l, 1 ≤ n.id) →
      (∀ e ∈ inner, e.sourceId ∈ (pre ++ l).map CodeNode.id ∧ e.targetId ∈ (pre ++ l).map CodeNode.id) →
      EdgesFollow pre (batchPages total inner limit pre (l.take limit)) := by
    intro pre l hl hsorted hpos hinner
    have hsplit := append_take_drop pre l limit
    apply edgesFollow_batchPages
    intro p hp e he
    have hmem : e ∈ batchEdges inner (lastId pre) (lastId (l.take limit)) := by
      rw [← flatMap_edges_batchPages hlimit]
      exact mem_flatMap.mpr ⟨p, hp, he⟩
    obtain ⟨hin, hcond⟩ := mem_filter.mp (mem_orderBy.mp hmem)
    simp only [Bool.and_eq_true, decide_eq_true_eq] at hcond
    rw [lastEnd] at hcond
    obtain ⟨hs, ht⟩ := hinner e hin
    have hrest : ∀ n ∈ l.drop limit, 1 ≤ n.id := fun n hn => hpos n (drop_subset _ _ hn)
    exact ⟨mem_upto_batch (take_ne_nil hlimit hl) (hsplit ▸ hsorted) hrest (hsplit ▸ hs) (by omega),
      mem_upto_batch (take_ne_nil hlimit hl) (hsplit ▸ hsorted) hrest (hsplit ▸ ht) (by omega)⟩
  fun_induction scopePages total inner limit pre l with
  | case1 pre l h ih =>
    have hsplit := append_take_drop pre l limit
    apply EdgesFollow.append (hbatch pre l hne hsorted hpos hinner)
    rw [flatMap_nodes_batchPages]
    exact ih (drop_ne_nil h.2) (hsplit ▸ hsorted) (fun n hn => hpos n (drop_subset _ _ hn)) (hsplit ▸ hinner)
  | case2 pre l h => exact hbatch pre l hne hsorted hpos hinner

end Contents

/-! ## The whole scope -/

section Whole

variable {inner : List CodeEdge}

/-- A scope without nodes has one page, and none behind it. -/
theorem scopePages_nil (total limit : ℕ) :
    scopePages total [] limit [] [] = [⟨[], [], total, 0⟩] ∧ scopePositions [] limit [] [] = [] := by
  have hnone : batchEdges [] (lastId []) (lastId ([].take limit)) = [] := rfl
  have hnodes : ¬ (0 < limit ∧ limit < ([] : List CodeNode).length) := fun h => Nat.not_lt_zero _ h.2
  have hedges : ¬ (0 < limit ∧ limit < ([] : List CodeEdge).length) := fun h => Nat.not_lt_zero _ h.2
  rw [scopePages, if_neg hnodes, scopePositions, if_neg hnodes, batchPages, batchPositions, hnone, pagesFrom,
    if_neg hedges, pageEnds, if_neg hedges, take_nil, take_nil]
  exact ⟨rfl, rfl⟩

theorem inner_eq_nil (hinner : inner = internalEdges g project ((memberNodes g project kind key).map CodeNode.id))
    (hempty : memberNodes g project kind key = []) : inner = [] := by
  rw [hinner, hempty]
  simp [internalEdges]

theorem scopeTrail_all (hids : RowIds maxId g) (hlimit : 1 ≤ limit ∧ limit ≤ 250)
    (hinner : inner = internalEdges g project ((memberNodes g project kind key).map CodeNode.id)) :
    Trail (scopeAt g project kind key limit) (some ⟨0, 0, 0⟩)
      (scopePages (memberNodes g project kind key).length inner limit [] (memberNodes g project kind key))
      (⟨0, 0, 0⟩ :: scopePositions inner limit [] (memberNodes g project kind key)) := by
  by_cases hempty : memberNodes g project kind key = []
  · have hnone := inner_eq_nil hinner hempty
    have hpage : scopeAt g project kind key limit ⟨0, 0, 0⟩ = (⟨[], [], 0, 0⟩, none) := by
      have hnil : internalEdges g project [] = [] := by simp [internalEdges]
      simp [scopeAt, getExactScopePage, membership_eq, hempty, hnil, ExactScopePage.items, orderBy, sortBy]
    have htrail : Trail (scopeAt g project kind key limit) (scopeAt g project kind key limit ⟨0, 0, 0⟩).2 [] [] := by
      rw [hpage]
      exact .done
    have hfirst : (scopeAt g project kind key limit ⟨0, 0, 0⟩).1 = ⟨[], [], 0, 0⟩ := by rw [hpage]
    obtain ⟨hpages, hpositions⟩ := scopePages_nil 0 limit
    rw [hempty, hnone, length_nil, hpages, hpositions, ← hfirst]
    exact .next htrail
  · exact scopeTrail hids hlimit hinner [] _ rfl hempty

theorem mem_memberIds (hids : RowIds maxId g) {id : ℕ} (h : id ∈ (memberNodes g project kind key).map CodeNode.id) :
    1 ≤ id ∧ id ≤ maxId ∧ id ≤ lastId (memberNodes g project kind key) := by
  obtain ⟨n, hn, rfl⟩ := mem_map.mp h
  obtain ⟨hpos, hle⟩ := hids.nodes n (mem_filter.mp (memberNodes_subset hn)).1
  exact ⟨hpos, hle, id_le_lastId (pairwise_memberNodes g project kind key) hn⟩

theorem ends_of_internal {ids : List ℕ} {e : CodeEdge} (h : e ∈ internalEdges g project ids) :
    e.sourceId ∈ ids ∧ e.targetId ∈ ids := by
  simpa using (mem_filter.mp h).2

theorem one_le_memberNodes (hids : RowIds maxId g) : ∀ n ∈ memberNodes g project kind key, 1 ≤ n.id :=
  fun n hn => (hids.nodes n (mem_filter.mp (memberNodes_subset hn)).1).1

theorem edges_of_scopePages (hids : RowIds maxId g) (hlimit : 1 ≤ limit)
    (hinner : inner = internalEdges g project ((memberNodes g project kind key).map CodeNode.id)) :
    ((scopePages (memberNodes g project kind key).length inner limit [] (memberNodes g project kind key)).flatMap
      ScopeItems.edges).Perm inner := by
  by_cases hempty : memberNodes g project kind key = []
  · have hnone := inner_eq_nil hinner hempty
    rw [hempty, hnone, (scopePages_nil _ limit).1]
    exact .refl _
  · have hends : ∀ e ∈ inner, 1 ≤ lastEnd e ∧ lastEnd e ≤ lastId ([] ++ memberNodes g project kind key) := by
      intro e he
      rw [hinner] at he
      obtain ⟨hs, ht⟩ := ends_of_internal he
      obtain ⟨hs1, _, hs2⟩ := mem_memberIds hids hs
      obtain ⟨_, _, ht2⟩ := mem_memberIds hids ht
      rw [lastEnd, nil_append]
      omega
    have hperm : ((scopePages (memberNodes g project kind key).length inner limit []
        (memberNodes g project kind key)).flatMap ScopeItems.edges).Perm _ :=
      flatMap_edges_scopePages hlimit [] (memberNodes g project kind key) hempty
        (pairwise_memberNodes g project kind key) (one_le_memberNodes hids) fun e he => (hends e he).2
    have hall : (inner.filter fun e => decide (lastId [] < lastEnd e)) = inner := by
      rw [filter_eq_self]
      exact fun e he => decide_eq_true (hends e he).1
    rw [hall] at hperm
    exact hperm

theorem edgesFollow_of_scopePages (hids : RowIds maxId g) (hlimit : 1 ≤ limit)
    (hinner : inner = internalEdges g project ((memberNodes g project kind key).map CodeNode.id)) : EdgesFollow []
      (scopePages (memberNodes g project kind key).length inner limit [] (memberNodes g project kind key)) := by
  by_cases hempty : memberNodes g project kind key = []
  · have hnone := inner_eq_nil hinner hempty
    rw [hempty, hnone, (scopePages_nil _ limit).1]
    exact ⟨nofun, trivial⟩
  · apply edgesFollow_scopePages hlimit [] _ hempty (pairwise_memberNodes g project kind key) (one_le_memberNodes hids)
    intro e he
    rw [hinner] at he
    exact ends_of_internal he

/-- The positions of a scope: behind a batch, or behind an edge of one. -/
theorem mem_scopePositions (hlimit : 0 < limit) (pre l : List CodeNode) (hne : l ≠ [])
    (hsorted : (pre ++ l).Pairwise fun a b => a.id < b.id) (hpos : ∀ n ∈ l, 1 ≤ n.id) :
    ∀ position ∈ scopePositions inner limit pre l,
      position.afterNodeId ≤ lastId (pre ++ l) ∧ position.batchEndNodeId ≤ lastId (pre ++ l) ∧
        ((position.batchEndNodeId = 0 ∧ position.afterEdgeId = 0 ∧ 0 < position.afterNodeId) ∨
          (position.afterNodeId < position.batchEndNodeId ∧ ∃ e ∈ inner, e.id = position.afterEdgeId)) := by
  -- The positions of a first batch.
  have hbatch : ∀ pre l : List CodeNode, l ≠ [] → ((pre ++ l).Pairwise fun a b => a.id < b.id) →
      (∀ n ∈ l, 1 ≤ n.id) → lastId pre < lastId (l.take limit) ∧ lastId (l.take limit) ≤ lastId (pre ++ l) ∧
        0 < lastId (l.take limit) ∧
        ∀ position ∈ batchPositions inner limit pre (l.take limit), position.afterNodeId = lastId pre ∧
          position.batchEndNodeId = lastId (l.take limit) ∧ ∃ e ∈ inner, e.id = position.afterEdgeId := by
    intro pre l hl hsorted hpos
    obtain ⟨rows, last, hrows⟩ := exists_take_eq hlimit hl
    have hlast : last ∈ l := take_subset limit l (hrows ▸ by simp)
    have hid : lastId (l.take limit) = last.id := by rw [hrows, lastId_append_singleton]
    rw [hid]
    refine ⟨lastId_lt hsorted hlast (hpos last hlast), id_le_lastId hsorted (mem_append_right _ hlast),
      hpos last hlast, ?_⟩
    intro position hposition
    obtain ⟨e, he, rfl⟩ := mem_map.mp hposition
    have hin := (mem_filter.mp (mem_orderBy.mp (pageEnds_subset _ _ he))).1
    exact ⟨rfl, hid, e, hin, rfl⟩
  fun_induction scopePositions inner limit pre l with
  | case1 pre l h ih =>
    obtain ⟨hlt, hle, hend, hpositions⟩ := hbatch pre l hne hsorted hpos
    have hsplit := append_take_drop pre l limit
    have hrest := ih (drop_ne_nil h.2) (hsplit ▸ hsorted) fun n hn => hpos n (drop_subset _ _ hn)
    rw [hsplit] at hrest
    intro position hposition
    rcases mem_append.mp hposition with hposition | hposition
    · obtain ⟨hafter, hbatchEnd, hedge⟩ := hpositions position hposition
      rw [hafter, hbatchEnd]
      exact ⟨hlt.le.trans hle, hle, .inr ⟨hlt, hedge⟩⟩
    · rcases mem_cons.mp hposition with rfl | hposition
      · exact ⟨hle, Nat.zero_le _, .inl ⟨rfl, rfl, hend⟩⟩
      · exact hrest position hposition
  | case2 pre l h =>
    obtain ⟨hlt, hle, _, hpositions⟩ := hbatch pre l hne hsorted hpos
    intro position hposition
    obtain ⟨hafter, hbatchEnd, hedge⟩ := hpositions position hposition
    rw [hafter, hbatchEnd]
    exact ⟨hlt.le.trans hle, hle, .inr ⟨hlt, hedge⟩⟩

end Whole

end Ariad.Bridge
