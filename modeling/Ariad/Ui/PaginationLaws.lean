import Ariad.Bridge.ScopePages
import Ariad.Ui.CursorLaws

/-!
# Paginated answers are complete while their cursors fit

* `SearchExact`, `ScopeExact`, `NeighborhoodExact` — a client that starts without a cursor and follows
  `page.next_cursor` gets everything exactly once.
* `searchExact_iff`, `scopeExact_iff`, `neighborhoodExact_iff` — when it does.
* `exactPages_iff` — all three.
-/

namespace Ariad.Ui

open Bridge Keyset List

variable {r : CodeReader} {project q key : Text} {kind : ExactScopeKind} {limit nodeId : ℕ}

/-! ## Clients -/

/-- What a client of `/api/node-search` gets for a cursor. -/
def searchClient (r : CodeReader) (project q : Text) (limit : ℕ) (cursor : Option Text) :
    Option ((List CodeNode × ℕ) × Option Text) :=
  match routeNodeSearch r project q limit cursor with
  | .ok a => some (a.page.items, a.nextCursor)
  | .error _ => none

def scopeClient (r : CodeReader) (project : Text) (kind : ExactScopeKind) (key : Text) (limit : ℕ)
    (cursor : Option Text) : Option (ScopeItems × Option Text) :=
  match routeScope r project kind key limit cursor with
  | .ok a => some (a.page.items, a.nextCursor)
  | .error _ => none

def neighborhoodClient (r : CodeReader) (project : Text) (nodeId limit : ℕ) (cursor : Option Text) :
    Option ((List (CodeEdge × CodeNode) × ℕ) × Option Text) :=
  match routeNeighborhood r project nodeId limit cursor with
  | .ok a => some (a.page.items, a.nextCursor)
  | .error _ => none

/-- Every match once, and as many as every page says. -/
def SearchExact (r : CodeReader) (project q : Text) (limit : ℕ) : Prop :=
  ∃ pages, Walk (searchClient r project q limit) none pages ∧
    (pages.flatMap Prod.fst).Perm ((r.graph.projectNodes project).filter (matchesQuery (Text.trim q))) ∧
    ∀ p ∈ pages, p.2 = (pages.flatMap Prod.fst).length

/-- The nodes of a scope. -/
def scopeNodes (g : CodeGraph) (project : Text) (kind : ExactScopeKind) (key : Text) : List CodeNode :=
  (g.projectNodes project).filter (inScope kind key)

/-- The edges between nodes of a scope. -/
def scopeEdges (g : CodeGraph) (project : Text) (kind : ExactScopeKind) (key : Text) : List CodeEdge :=
  internalEdges g project ((scopeNodes g project kind key).map CodeNode.id)

/-- Every node and every inner edge of the scope once, no edge before its endpoints. -/
def ScopeExact (r : CodeReader) (project : Text) (kind : ExactScopeKind) (key : Text) (limit : ℕ) : Prop :=
  ∃ pages, Walk (scopeClient r project kind key limit) none pages ∧
    (pages.flatMap ScopeItems.nodes).Perm (scopeNodes r.graph project kind key) ∧
    (pages.flatMap ScopeItems.edges).Perm (scopeEdges r.graph project kind key) ∧
    EdgesFollow [] pages ∧
    ∀ p ∈ pages, p.totalNodes = (pages.flatMap ScopeItems.nodes).length ∧
      p.totalInternalEdges = (pages.flatMap ScopeItems.edges).length

/-- Every edge of the node with a node at its other end once, and as many as every page says. -/
def NeighborhoodExact (r : CodeReader) (project : Text) (nodeId limit : ℕ) : Prop :=
  ∃ pages, Walk (neighborhoodClient r project nodeId limit) none pages ∧
    (pages.flatMap Prod.fst).Perm
      (((r.graph.projectEdges project).filter (incident nodeId)).filterMap (neighborOf r.graph project nodeId)) ∧
    ∀ p ∈ pages, p.2 = (pages.flatMap Prod.fst).length

variable {encoded : Text} {g : CodeGraph} {anchor : CodeNode}

/-- The second parts of pages that all say the same. -/
theorem snd_pagesFrom {α : Type} {total limit : ℕ} (pre l : List α) :
    ∀ p ∈ pagesFrom (fun _ rows => (rows, total)) limit pre l, p.2 = total := by
  obtain ⟨more, heq, hmore⟩ := exists_pagesFrom (fun (_ : List α) (rows : List α) => (rows, total)) limit pre l
  rw [heq]
  intro p hp
  rcases mem_cons.mp hp with rfl | hp
  · rfl
  · obtain ⟨_, _, _, rfl⟩ := hmore p hp
    rfl

/-! ## Search -/

/-- The cursor of a position. -/
def searchCursor (r : CodeReader) (project query : Text) (position : ℤ × ℕ) : Text :=
  encodeSearchCursor ⟨project, query, position.1.toNat, position.2, r.revision.text⟩

theorem nextCursor_search (query : Text) (page : ExactNodeSearchPage) :
    nextSearchCursor project query r.revision.text page =
    (page.nextAfterRank.bind fun rank => page.nextAfterNodeId.map fun id => ((rank : ℤ), id)).map
      (searchCursor r project query) := by
  rw [nextSearchCursor]
  cases page.nextAfterRank with
  | none => rfl
  | some rank =>
    cases page.nextAfterNodeId with
    | none => rfl
    | some id => rfl

theorem searchClient_none (hq : acceptsQuery q = true) (hlimit : acceptsLimit limit = true) :
    searchClient r project q limit none = some ((searchAt r.graph project (Text.trim q) limit (-1, 0)).1,
        (searchAt r.graph project (Text.trim q) limit (-1, 0)).2.map (searchCursor r project (Text.trim q))) := by
  simp only [searchClient, routeNodeSearch, hq, hlimit, CodeReader.withGraphSnapshot, Bool.not_true,
    Bool.false_eq_true, if_false, nextCursor_search]
  rfl

theorem searchClient_some (hq : acceptsQuery q = true) (hlimit : acceptsLimit limit = true) {position : ℤ × ℕ}
    {rank : ℕ} (hrank : position.1 = rank)
    (h : decodeSearchCursor encoded project (Text.trim q) = some (rank, position.2, r.revision.text)) :
    searchClient r project q limit (some encoded) = some ((searchAt r.graph project (Text.trim q) limit position).1,
        (searchAt r.graph project (Text.trim q) limit position).2.map (searchCursor r project (Text.trim q))) := by
  simp only [searchClient, routeNodeSearch, hq, hlimit, CodeReader.withGraphSnapshot, Bool.not_true,
    Bool.false_eq_true, if_false, if_true, nextCursor_search, h, Option.map_some]
  rw [← hrank]
  rfl

theorem searchClient_of_decode_none (hq : acceptsQuery q = true) (hlimit : acceptsLimit limit = true)
    (h : decodeSearchCursor encoded project (Text.trim q) = none) :
    searchClient r project q limit (some encoded) = none := by
  simp only [searchClient, routeNodeSearch, hq, hlimit, Bool.not_true, Bool.false_eq_true, if_false, h,
    Option.map_none]

theorem limit_of_accepts (h : acceptsLimit limit = true) : 1 ≤ limit ∧ limit ≤ 250 := by
  simpa [acceptsLimit] using h

theorem searchExact_iff (hids : RowIds maxSafeInteger r.graph) (hq : acceptsQuery q = true)
    (hlimit : acceptsLimit limit = true) : SearchExact r project q limit ↔
      ∀ n ∈ pageEnds limit (searchMatches r.graph project (Text.trim q)), SearchFits project (Text.trim q) n.id := by
  have hrange := limit_of_accepts hlimit
  have hquery : Text.trim (Text.trim q) = Text.trim q ∧ Text.trim q ≠ [] := by
    refine ⟨Text.trim_trim q, ?_⟩
    simp only [acceptsQuery, Bool.and_eq_true, decide_eq_true_eq] at hq
    exact hq.1.1
  have htrail : Trail (searchAt r.graph project (Text.trim q) limit) (some (-1, 0)) _ _ := searchTrail hquery hrange
  have hends : ∀ position ∈ (pageEnds limit (searchMatches r.graph project (Text.trim q))).map
      (searchPosition (Text.trim q)), ∃ n ∈ r.graph.nodes, position = searchPosition (Text.trim q) n := by
    intro position hposition
    obtain ⟨n, hn, rfl⟩ := mem_map.mp hposition
    have hmatch := mem_orderBy.mp (pageEnds_subset _ _ hn)
    exact ⟨n, (mem_filter.mp (mem_filter.mp hmatch).1).1, rfl⟩
  have hdecode : ∀ n ∈ r.graph.nodes, _ := fun n hn =>
    decodeSearchCursor_encode project (Text.trim q) r.revision (matchRank_le (Text.trim q) n) (hids.nodes n hn).1
      (hids.nodes n hn).2
  have hwalk := walk_iff (searchCursor r project (Text.trim q))
    (fun position : ℤ × ℕ => SearchFits project (Text.trim q) position.2) htrail (by
      intro position hposition hfits
      obtain ⟨n, hn, rfl⟩ := hends position hposition
      exact searchClient_some hq hlimit rfl ((hdecode n hn).1 hfits)) (by
      intro position hposition hfits
      obtain ⟨n, hn, rfl⟩ := hends position hposition
      exact searchClient_of_decode_none hq hlimit ((hdecode n hn).2 hfits)) (searchClient_none hq hlimit)
  have hrows := flatMap_pagesFrom (fun _ nodes => (nodes, (searchMatches r.graph project (Text.trim q)).length))
    Prod.fst hrange.1 (fun _ _ => rfl) [] (searchMatches r.graph project (Text.trim q))
  constructor
  · rintro ⟨pages, hpages, -⟩ n hn
    exact ((hwalk pages).mp hpages).2 _ (mem_map_of_mem hn)
  · intro hall
    refine ⟨_, (hwalk _).mpr ⟨rfl, ?_⟩, ?_, ?_⟩
    · intro position hposition
      obtain ⟨n, hn, rfl⟩ := mem_map.mp hposition
      exact hall n hn
    · rw [hrows]
      exact orderBy_perm _ _
    · rw [hrows]
      exact snd_pagesFrom _ _

/-! ## Scopes -/

/-- Every node of a directory is stored under the key in one of the two forms that the statement asks for. -/
def StoredPlainly (g : CodeGraph) (project : Text) (kind : ExactScopeKind) (key : Text) : Prop :=
  kind = .directory → ∀ n ∈ scopeNodes g project kind key, storedUnder (normalizeGraphPath key) n.filePath = true

theorem memberNodes_eq (h : StoredPlainly g project kind key) :
    memberNodes g project kind key = orderBy CodeNode.id (scopeNodes g project kind key) := by
  have hnodup := g.nodup_projectNodes project
  cases kind with
  | domain => exact (orderBy_filter hnodup _).symm
  | community => exact (orderBy_filter hnodup _).symm
  | directory =>
    have hstored : (((g.projectNodes project).filter fun n =>
        storedUnder (normalizeGraphPath key) n.filePath).map CodeNode.id).Nodup :=
      hnodup.sublist (filter_sublist.map _)
    have hrows : ((g.projectNodes project).filter fun n => storedUnder (normalizeGraphPath key) n.filePath).filter
        (inScope .directory key) = scopeNodes g project .directory key := by
      rw [filter_filter]
      refine filter_congr fun n hn => ?_
      by_cases hin : inScope .directory key n = true
      · rw [hin, h rfl n (mem_filter.mpr ⟨hn, hin⟩)]
        rfl
      · rw [Bool.not_eq_true] at hin
        rw [hin]
        rfl
    rw [memberNodes, ← orderBy_filter hstored, hrows]

theorem mem_internalEdges {ids ids' : List ℕ} (h : ∀ id, id ∈ ids ↔ id ∈ ids') :
    internalEdges g project ids = internalEdges g project ids' := by
  refine filter_congr fun e _ => ?_
  simp only [h]

theorem scopeEdges_eq (h : StoredPlainly g project kind key) :
    internalEdges g project ((memberNodes g project kind key).map CodeNode.id) = scopeEdges g project kind key := by
  apply mem_internalEdges
  intro id
  rw [memberNodes_eq h]
  exact ((orderBy_perm _ _).map _).mem_iff

/-- The positions of a scope whose nodes and edges are these. -/
def positionsOf (g : CodeGraph) (project : Text) (kind : ExactScopeKind) (key : Text) (limit : ℕ) :
    List ExactScopeCursorState :=
  scopePositions (scopeEdges g project kind key) limit [] (orderBy CodeNode.id (scopeNodes g project kind key))

def scopeCursor (r : CodeReader) (project : Text) (kind : ExactScopeKind) (key : Text)
    (position : ExactScopeCursorState) : Text :=
  encodeScopeCursor ⟨project, kind, key, position, r.revision.text⟩

theorem scopeClient_none (hkey : acceptsKey key = true) (hlimit : acceptsLimit limit = true) :
    scopeClient r project kind key limit none = some ((scopeAt r.graph project kind key limit ⟨0, 0, 0⟩).1,
        (scopeAt r.graph project kind key limit ⟨0, 0, 0⟩).2.map (scopeCursor r project kind key)) := by
  simp only [scopeClient, routeScope, hkey, hlimit, CodeReader.withGraphSnapshot, Bool.not_true, Bool.false_eq_true,
    if_false]
  rfl

theorem scopeClient_some (hkey : acceptsKey key = true) (hlimit : acceptsLimit limit = true)
    {position : ExactScopeCursorState}
    (h : decodeScopeCursor encoded project kind key = some (position, r.revision.text)) :
    scopeClient r project kind key limit (some encoded) = some ((scopeAt r.graph project kind key limit position).1,
        (scopeAt r.graph project kind key limit position).2.map (scopeCursor r project kind key)) := by
  simp only [scopeClient, routeScope, hkey, hlimit, CodeReader.withGraphSnapshot, Bool.not_true, Bool.false_eq_true,
    if_false, if_true, h, Option.map_some]
  rfl

theorem scopeClient_of_decode_none (hkey : acceptsKey key = true) (hlimit : acceptsLimit limit = true) (h : decodeScopeCursor encoded project kind key = none) :
    scopeClient r project kind key limit (some encoded) = none := by
  simp only [scopeClient, routeScope, hkey, hlimit, Bool.not_true, Bool.false_eq_true, if_false, h, Option.map_none]

theorem scopePosition_of_mem (hids : RowIds maxSafeInteger r.graph) (hlimit : 1 ≤ limit) {inner : List CodeEdge}
    (hinner : inner = internalEdges r.graph project ((memberNodes r.graph project kind key).map CodeNode.id)) :
    ∀ position ∈ scopePositions inner limit [] (memberNodes r.graph project kind key), ScopePosition position := by
  intro position hposition
  by_cases hempty : memberNodes r.graph project kind key = []
  · have hnone : inner = [] := by
      rw [hinner, hempty]
      simp [internalEdges]
    rw [hempty, hnone, (scopePages_nil 0 limit).2] at hposition
    cases hposition
  · obtain ⟨hafter, hbatch, hcontinues⟩ := mem_scopePositions hlimit [] _ hempty
      (pairwise_memberNodes r.graph project kind key) (one_le_memberNodes hids) position hposition
    have hlast : lastId ([] ++ memberNodes r.graph project kind key) ≤ maxSafeInteger := by
      obtain hnil | ⟨rows, last, hrows⟩ := eq_nil_or_concat' (memberNodes r.graph project kind key)
      · exact absurd hnil hempty
      · have hmem : last ∈ memberNodes r.graph project kind key := hrows ▸ by simp
        rw [nil_append, hrows, lastId_append_singleton]
        exact (hids.nodes last (mem_filter.mp (memberNodes_subset hmem)).1).2
    rcases hcontinues with ⟨hend, hedge, hpos⟩ | ⟨hlt, e, he, hedge⟩
    · refine ⟨⟨hafter.trans hlast, hbatch.trans hlast, ?_⟩, .inl ⟨hend, hedge, hpos⟩⟩
      rw [hedge]
      exact Nat.zero_le _
    · have hbounds := hids.edges e (mem_filter.mp (mem_filter.mp (hinner ▸ he)).1).1
      rw [hedge] at hbounds
      exact ⟨⟨hafter.trans hlast, hbatch.trans hlast, hbounds.2⟩, .inr ⟨hlt, hbounds.1⟩⟩

theorem scopeExact_iff (hids : RowIds maxSafeInteger r.graph) (hkey : acceptsKey key = true)
    (hlimit : acceptsLimit limit = true) : ScopeExact r project kind key limit ↔
      StoredPlainly r.graph project kind key ∧
        ∀ position ∈ positionsOf r.graph project kind key limit, ScopeFits project kind key position := by
  have hrange := limit_of_accepts hlimit
  obtain ⟨inner, hinner⟩ : ∃ inner,
      inner = internalEdges r.graph project ((memberNodes r.graph project kind key).map CodeNode.id) := ⟨_, rfl⟩
  have htrail : Trail (scopeAt r.graph project kind key limit) (some ⟨0, 0, 0⟩) _ _ :=
    scopeTrail_all hids hrange hinner
  have hpositions := scopePosition_of_mem hids hrange.1 hinner
  have hwalk := walk_iff (scopeCursor r project kind key) (ScopeFits project kind key) htrail (by
      intro position hposition hfits
      exact scopeClient_some hkey hlimit
        ((decodeScopeCursor_encode project key kind r.revision (hpositions position hposition)).1 hfits)) (by
      intro position hposition hfits
      exact scopeClient_of_decode_none hkey hlimit
        ((decodeScopeCursor_encode project key kind r.revision (hpositions position hposition)).2 hfits))
    (scopeClient_none hkey hlimit)
  have hnodes : (scopePages (memberNodes r.graph project kind key).length inner limit []
      (memberNodes r.graph project kind key)).flatMap ScopeItems.nodes = memberNodes r.graph project kind key :=
    flatMap_nodes_scopePages hrange.1 _ _
  have hsame : StoredPlainly r.graph project kind key →
      scopePositions inner limit [] (memberNodes r.graph project kind key) =
        positionsOf r.graph project kind key limit := by
    intro hplain
    rw [hinner, scopeEdges_eq hplain, memberNodes_eq hplain]
    rfl
  constructor
  · rintro ⟨pages, hpages, hperm, -⟩
    obtain ⟨rfl, hall⟩ := (hwalk pages).mp hpages
    have hplain : StoredPlainly r.graph project kind key := by
      rintro rfl n hn
      rw [hnodes] at hperm
      have hmem := (mem_filter.mp (hperm.mem_iff.mpr hn)).1
      exact (mem_filter.mp (mem_orderBy.mp hmem)).2
    refine ⟨hplain, ?_⟩
    rw [hsame hplain] at hall
    exact hall
  · rintro ⟨hplain, hall⟩
    rw [← hsame hplain] at hall
    have hedges := edges_of_scopePages hids hrange.1 hinner
    refine ⟨_, (hwalk _).mpr ⟨rfl, hall⟩, ?_, ?_, edgesFollow_of_scopePages hids hrange.1 hinner, ?_⟩
    · rw [hnodes, memberNodes_eq hplain]
      exact orderBy_perm _ _
    · rw [← scopeEdges_eq hplain, ← hinner]
      exact hedges
    · intro p hp
      rw [hnodes, hedges.length_eq]
      exact totals_scopePages _ _ p hp

/-! ## Neighborhoods -/

def neighborhoodCursor (r : CodeReader) (project : Text) (nodeId afterEdgeId : ℕ) : Text :=
  encodeNeighborhoodCursor ⟨project, nodeId, afterEdgeId, r.revision.text⟩

/-- The answer of the route, at any position, for a node that is there. -/
theorem neighborhoodPage
    (hanchor : Rows.get CodeNode.id nodeId (g.projectNodes project) = some anchor) (limit after : ℕ) :
    ∃ page, getExactNeighborhoodPage g project nodeId after limit = some page ∧
      neighborhoodAt g project nodeId limit after = (page.items, page.nextAfterEdgeId) := by
  obtain ⟨page, hpage⟩ : ∃ page, getExactNeighborhoodPage g project nodeId after limit = some page := by
    rw [getExactNeighborhoodPage, hanchor, Option.map_some]
    exact ⟨_, rfl⟩
  refine ⟨page, hpage, ?_⟩
  rw [neighborhoodAt, hpage]

theorem neighborhoodClient_none (hlimit : acceptsLimit limit = true)
    (hanchor : Rows.get CodeNode.id nodeId (r.graph.projectNodes project) = some anchor) :
    neighborhoodClient r project nodeId limit none = some ((neighborhoodAt r.graph project nodeId limit 0).1,
        (neighborhoodAt r.graph project nodeId limit 0).2.map (neighborhoodCursor r project nodeId)) := by
  obtain ⟨page, hpage, hat⟩ := neighborhoodPage hanchor limit 0
  rw [hat]
  simp only [neighborhoodClient, routeNeighborhood, hlimit, CodeReader.withGraphSnapshot, Bool.not_true,
    Bool.false_eq_true, if_false, hpage, Option.map_some]
  rfl

theorem neighborhoodClient_some (hlimit : acceptsLimit limit = true)
    (hanchor : Rows.get CodeNode.id nodeId (r.graph.projectNodes project) = some anchor) {after : ℕ}
    (h : decodeNeighborhoodCursor encoded project nodeId = some (after, r.revision.text)) :
    neighborhoodClient r project nodeId limit (some encoded) =
      some ((neighborhoodAt r.graph project nodeId limit after).1,
        (neighborhoodAt r.graph project nodeId limit after).2.map (neighborhoodCursor r project nodeId)) := by
  obtain ⟨page, hpage, hat⟩ := neighborhoodPage hanchor limit after
  rw [hat]
  simp only [neighborhoodClient, routeNeighborhood, hlimit, CodeReader.withGraphSnapshot, Bool.not_true,
    Bool.false_eq_true, if_false, if_true, h, hpage, Option.map_some]
  rfl

theorem neighborhoodExact_iff (hids : RowIds maxSafeInteger r.graph) (hproject : isValidProjectName project = true)
    (hlimit : acceptsLimit limit = true) (hnode : ∃ n ∈ r.graph.projectNodes project, n.id = nodeId) :
    NeighborhoodExact r project nodeId limit ↔ ∀ e ∈ r.graph.projectEdges project, incident nodeId e = true →
        ∃ n ∈ r.graph.projectNodes project, n.id = otherEnd nodeId e := by
  have hrange := limit_of_accepts hlimit
  obtain ⟨anchor, hanchor, rfl⟩ := hnode
  have hget := CodeGraph.get_projectNodes hanchor
  have htrail : Trail (neighborhoodAt r.graph project anchor.id limit) (some 0) _ _ :=
    neighborhoodTrail hids hrange hget
  have hsafe : ∀ position ∈ (pageEnds limit (neighborRows r.graph project anchor.id)).map neighborPosition,
      position ≤ maxSafeInteger := by
    intro position hposition
    obtain ⟨row, hrow, rfl⟩ := mem_map.mp hposition
    obtain ⟨e, he, hof⟩ := mem_filterMap.mp (mem_orderBy.mp (pageEnds_subset _ _ hrow))
    rw [neighborPosition, fst_of_neighborOf hof]
    exact (hids.edges e (mem_filter.mp (mem_filter.mp he).1).1).2
  have hwalk := walk_iff (neighborhoodCursor r project anchor.id) (fun _ => True) htrail (by
      intro position hposition _
      exact neighborhoodClient_some hlimit hget (decodeNeighborhoodCursor_encode r.revision hproject
        (hids.nodes anchor (mem_filter.mp hanchor).1).2 (hsafe position hposition))) (by
      intro position _ hno
      exact absurd trivial hno) (neighborhoodClient_none hlimit hget)
  have hrows := flatMap_pagesFrom (fun _ rows => (rows, incidentCount r.graph project anchor.id)) Prod.fst hrange.1
    (fun _ _ => rfl) [] (neighborRows r.graph project anchor.id)
  rw [← length_neighborRows]
  constructor
  · rintro ⟨pages, hpages, -, htotal⟩
    obtain ⟨rfl, -⟩ := (hwalk pages).mp hpages
    -- There is a first page, and it says the number of all edges.
    obtain ⟨more, heq, -⟩ := exists_pagesFrom
      (fun (_ : List (CodeEdge × CodeNode)) (rows : List (CodeEdge × CodeNode)) =>
        (rows, incidentCount r.graph project anchor.id)) limit [] (neighborRows r.graph project anchor.id)
    rw [hrows] at htotal
    have hfirst := htotal (_, incidentCount r.graph project anchor.id) (heq ▸ mem_cons_self)
    exact hfirst.symm
  · intro hall
    refine ⟨_, (hwalk _).mpr ⟨rfl, fun _ _ => trivial⟩, ?_, ?_⟩
    · rw [hrows]
      exact orderBy_perm _ _
    · rw [hrows, hall]
      exact snd_pagesFrom _ _

/-! ## The routes together -/

/-- **Paginated answers.** A search is exact if and only if its cursors fit, a scope if and only if its cursors fit
and its nodes are stored plainly, a neighborhood if and only if none of its edges dangles. -/
theorem exactPages_iff (hids : RowIds maxSafeInteger r.graph) (hproject : isValidProjectName project = true)
    (hlimit : acceptsLimit limit = true) : (∀ q, acceptsQuery q = true → (SearchExact r project q limit ↔
      ∀ n ∈ pageEnds limit (searchMatches r.graph project (Text.trim q)), SearchFits project (Text.trim q) n.id)) ∧
    (∀ kind key, acceptsKey key = true → (ScopeExact r project kind key limit ↔ StoredPlainly r.graph project kind key ∧
        ∀ position ∈ positionsOf r.graph project kind key limit, ScopeFits project kind key position)) ∧
    ∀ nodeId, (∃ n ∈ r.graph.projectNodes project, n.id = nodeId) → (NeighborhoodExact r project nodeId limit ↔
      ∀ e ∈ r.graph.projectEdges project, incident nodeId e = true →
        ∃ n ∈ r.graph.projectNodes project, n.id = otherEnd nodeId e) :=
  ⟨fun _ hq => searchExact_iff hids hq hlimit, fun _ _ hkey => scopeExact_iff hids hkey hlimit,
    fun _ hnode => neighborhoodExact_iff hids hproject hlimit hnode⟩

/-- Two functions with these names, the first of which calls the second. -/
def namedReader (first second : Text) : CodeReader where
  graph :=
    { nodes := [⟨1, "p".toList, "Function".toList, first, first, "src/a.ts".toList⟩,
        ⟨2, "p".toList, "Function".toList, second, second, "src/a.ts".toList⟩]
      edges := [⟨1, "p".toList, 1, 2, "CALLS".toList⟩]
      nodup_nodes := by simp
      nodup_edges := by simp }
  revision := ⟨"graph-reader-v1:AAAAAAAAAAAAAAAAAAAAAA".toList, by decide⟩

theorem rowIds_namedReader (first second : Text) : RowIds maxSafeInteger (namedReader first second).graph := by
  constructor
  · intro n hn
    simp only [namedReader, mem_cons, not_mem_nil, or_false] at hn
    rcases hn with rfl | rfl
    · exact (by decide : 1 ≤ 1 ∧ 1 ≤ maxSafeInteger)
    · exact (by decide : 1 ≤ 2 ∧ 2 ≤ maxSafeInteger)
  · intro e he
    simp only [namedReader, mem_singleton] at he
    subst he
    exact (by decide : 1 ≤ 1 ∧ 1 ≤ maxSafeInteger)

theorem projectNodes_namedReader (first second : Text) :
    (namedReader first second).graph.projectNodes "p".toList = (namedReader first second).graph.nodes := rfl

theorem exactPages_named : SearchExact (namedReader "a".toList "ab".toList) "p".toList "a".toList 1 ∧
      NeighborhoodExact (namedReader "a".toList "ab".toList) "p".toList 1 1 := by
  obtain ⟨hsearch, -, hnear⟩ := exactPages_iff (rowIds_namedReader "a".toList "ab".toList)
    (show isValidProjectName "p".toList = true by decide +kernel) (show acceptsLimit 1 = true by decide)
  refine ⟨(hsearch "a".toList (by decide)).mpr ?_, (hnear 1 ⟨_, mem_cons_self, rfl⟩).mpr ?_⟩
  · intro n hn
    have hmem := (mem_filter.mp (mem_orderBy.mp (pageEnds_subset _ _ hn))).1
    rw [projectNodes_namedReader] at hmem
    simp only [namedReader, mem_cons, not_mem_nil, or_false] at hmem
    have htrim : Text.trim "a".toList = "a".toList := by decide
    rw [SearchFits, htrim]
    rcases hmem with rfl | rfl <;> decide +kernel
  · intro e he _
    have hedge : e ∈ (namedReader "a".toList "ab".toList).graph.edges := (mem_filter.mp he).1
    simp only [namedReader, mem_singleton] at hedge
    subst hedge
    exact ⟨_, mem_cons_of_mem _ mem_cons_self, rfl⟩

/-- A query of 256 characters of three bytes. -/
def wideQuery : Text := List.replicate 256 'あ'

/-- The search route gives a cursor for it that it does not take back. -/
theorem exactPages_wide :
    acceptsQuery wideQuery = true ∧ ¬ SearchExact (namedReader wideQuery wideQuery) "p".toList wideQuery 1 := by
  have haccepts : acceptsQuery wideQuery = true := by decide +kernel
  have htrim : Text.trim wideQuery = wideQuery := by decide +kernel
  refine ⟨haccepts, fun hexact => ?_⟩
  have hfits := (searchExact_iff (rowIds_namedReader wideQuery wideQuery) haccepts (by decide)).mp hexact
  rw [htrim] at hfits
  have hbytes : Json.jsonBytes wideQuery = 768 := by decide +kernel
  have hcontains : likeContains wideQuery wideQuery = true := by
    simp [likeContains, Text.includes]
  have hmatch : ∀ n ∈ (namedReader wideQuery wideQuery).graph.projectNodes "p".toList,
      matchesQuery wideQuery n = true := by
    intro n hn
    rw [projectNodes_namedReader] at hn
    simp only [namedReader, mem_cons, not_mem_nil, or_false] at hn
    rw [matchesQuery]
    rcases hn with rfl | rfl <;>
      · simp only [hcontains, Bool.true_or]
  have hlength : (searchMatches (namedReader wideQuery wideQuery).graph "p".toList wideQuery).length = 2 := by
    rw [searchMatches, length_orderBy, filter_eq_self.mpr hmatch]
    rfl
  -- The first match ends a page, and its cursor does not fit.
  obtain ⟨a, b, hab⟩ := length_eq_two.mp hlength
  have hend : a ∈ pageEnds 1 (searchMatches (namedReader wideQuery wideQuery).graph "p".toList wideQuery) := by
    rw [hab, pageEnds, if_pos (by simp)]
    simp
  have hbound := hfits a hend
  rw [SearchFits, hbytes] at hbound
  omega

end Ariad.Ui
