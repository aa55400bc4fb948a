import Ariad.Bridge.ExactPath
import Ariad.Graphs.Levels

/-!
# The path is a shortest one

Levels of the search are the spheres around the source, as long as no bound is hit.

* `CouplingPath` — a path of edges that are followed in either direction.
* `Traced` — the parents lead from a node back to the source.
* `AtLevel` — what holds when a level begins; `Exploring`: while its rows are read.
* `ExactPath` — what a result says; `findExactPath_exact`: every search says so.
-/

namespace Ariad.Bridge

open Keyset Levels List OrderedMap

variable {g : CodeGraph} {project : Text}

/-! ## Paths -/

/-- An edge of the project between two of its nodes, in one direction or the other. -/
def Joins (g : CodeGraph) (project : Text) (e : CodeEdge) (a b : ℕ) : Prop :=
  e ∈ g.projectEdges project ∧ (isNode g project e.sourceId = true ∧ isNode g project e.targetId = true) ∧
    (e.sourceId = a ∧ e.targetId = b ∨ e.sourceId = b ∧ e.targetId = a)

/-- A path from `a` to `b`, with its nodes and the edges between them. -/
inductive CouplingPath (g : CodeGraph) (project : Text) : ℕ → List CodeNode → List CodeEdge → ℕ → Prop where
  | single {n : CodeNode} : n ∈ g.projectNodes project → CouplingPath g project n.id [n] [] n.id
  | cons {n : CodeNode} {nodes : List CodeNode} {e : CodeEdge} {edges : List CodeEdge} {b c : ℕ} :
    n ∈ g.projectNodes project → Joins g project e n.id b → CouplingPath g project b nodes edges c →
      CouplingPath g project n.id (n :: nodes) (e :: edges) c

/-- A step along an edge. -/
def Coupled (g : CodeGraph) (project : Text) (a b : ℕ) : Prop := ∃ e, Joins g project e a b

variable {edges : List CodeEdge}

theorem Joins.isNode_left {e : CodeEdge} {a b : ℕ} (h : Joins g project e a b) : isNode g project a = true := by
  obtain ⟨-, hnodes, ⟨rfl, rfl⟩ | ⟨rfl, rfl⟩⟩ := h
  · exact hnodes.1
  · exact hnodes.2

theorem isNode_iff {id : ℕ} : isNode g project id = true ↔ ∃ n ∈ g.projectNodes project, n.id = id := by
  simp [isNode]

theorem CouplingPath.walk {a b : ℕ} {nodes : List CodeNode}
    (h : CouplingPath g project a nodes edges b) : Walk (Coupled g project) a edges.length b := by
  induction h with
  | single => exact .nil
  | cons _ hjoins _ ih => exact Walk.cons ⟨_, hjoins⟩ ih

/-- The same with the ids of the nodes only. -/
inductive IdPath (g : CodeGraph) (project : Text) : ℕ → List ℕ → List CodeEdge → ℕ → Prop where
  | single {a : ℕ} : isNode g project a = true → IdPath g project a [a] [] a
  | cons {a b c : ℕ} {ids : List ℕ} {e : CodeEdge} {edges : List CodeEdge} :
    Joins g project e a b → IdPath g project b ids edges c → IdPath g project a (a :: ids) (e :: edges) c

/-- The nodes of a path are all found. -/
theorem IdPath.nodes {a b : ℕ} {ids : List ℕ} (h : IdPath g project a ids edges b) :
    ∃ nodes, ids.mapM (fun id => Rows.get CodeNode.id id (g.projectNodes project)) = some nodes ∧
      CouplingPath g project a nodes edges b := by
  induction h with
  | single hnode =>
    obtain ⟨n, hn, rfl⟩ := isNode_iff.mp hnode
    exact ⟨[n], by simp [CodeGraph.get_projectNodes hn], .single hn⟩
  | cons hjoins _ ih =>
    obtain ⟨nodes, hnodes, hpath⟩ := ih
    obtain ⟨n, hn, rfl⟩ := isNode_iff.mp hjoins.isNode_left
    exact ⟨n :: nodes, by simp [CodeGraph.get_projectNodes hn, hnodes], .cons hn hjoins hpath⟩

/-! ## Parents -/

/-- The parents lead from a node to the source, in a number of edges. -/
inductive Traced (g : CodeGraph) (project : Text) (sourceId : ℕ) (s : PathSearch) : ℕ → ℕ → Prop where
  | source : Traced g project sourceId s 0 sourceId
  | step {n v : ℕ} {parent : PathParent} : v ≠ sourceId → s.parents.get v = some parent →
      Joins g project parent.edge parent.nodeId v → Traced g project sourceId s n parent.nodeId →
        Traced g project sourceId s (n + 1) v

variable {sourceId targetId : ℕ} {s : PathSearch} {n : ℕ}

/-- The loop goes all the way back. -/
theorem walkBack_of_traced {v left b : ℕ} {ids : List ℕ} (h : Traced g project sourceId s n v)
    (hleft : n ≤ left) (hpath : IdPath g project v ids edges b) :
    ∃ ids' edges', walkBack s sourceId left v ids edges = some (ids', edges') ∧
      edges'.length = edges.length + n ∧ IdPath g project sourceId ids' edges' b := by
  induction h generalizing left ids edges with
  | source =>
    refine ⟨ids, edges, ?_, rfl, hpath⟩
    cases left with
    | zero => rw [walkBack, if_pos rfl]
    | succ left => rw [walkBack, if_pos rfl]
  | step hne hget hjoins _ ih =>
    obtain ⟨left, rfl⟩ := Nat.exists_eq_add_of_lt hleft
    obtain ⟨ids', edges', hback, hlength, hpath'⟩ := ih (Nat.le_add_right _ left) (.cons hjoins hpath)
    refine ⟨ids', edges', ?_, by rw [hlength, length_cons]; omega, hpath'⟩
    rw [walkBack, if_neg hne, hget]
    exact hback

theorem found_of_traced {hop : ℕ} (h : Traced g project sourceId s n targetId) (hn : n ≤ hop)
    (htarget : isNode g project targetId = true) : ∃ nodes edges, found g project s sourceId targetId hop =
        .ok ⟨.found, nodes, edges, some edges.length, s.visited.card, s.visitedEdges⟩ ∧
      edges.length = n ∧ CouplingPath g project sourceId nodes edges targetId := by
  obtain ⟨ids, edges, hback, hlength, hpath⟩ := walkBack_of_traced h hn (.single htarget)
  obtain ⟨nodes, hnodes, hcoupling⟩ := hpath.nodes
  refine ⟨nodes, edges, ?_, by simpa using hlength, hcoupling⟩
  rw [found, hback]
  dsimp only
  rw [hnodes]

/-- A node that is entered has no child yet. -/
theorem Traced.enter {v neighbor near : ℕ} {e : CodeEdge} (hkeys : ∀ v p, s.parents.get v = some p → v ∈ s.visited)
    (hnew : neighbor ∉ s.visited) (h : Traced g project sourceId s n v) :
    Traced g project sourceId (s.enter neighbor near e) n v := by
  induction h with
  | source => exact .source
  | step hne hget hjoins _ ih =>
    refine .step hne ?_ hjoins ih
    change (s.parents.set neighbor ⟨near, e⟩).get _ = _
    rw [OrderedMap.get_set_of_ne, hget]
    rintro rfl
    exact hnew (hkeys _ _ hget)

theorem Traced.congr {s' : PathSearch} {v : ℕ} (hparents : s'.parents = s.parents)
    (h : Traced g project sourceId s n v) : Traced g project sourceId s' n v := by
  induction h with
  | source => exact .source
  | step hne hget hjoins _ ih => exact .step hne (hparents ▸ hget) hjoins ih

/-! ## A level -/

/-- What holds while the rows of level `n + 1` are read, of which those in `done` are read. -/
structure Exploring (g : CodeGraph) (project : Text) (sourceId targetId maxVisitedNodes n : ℕ) (frontier : List ℕ)
    (s : PathSearch) (next : List ℕ) (done : List CodeEdge) : Prop where
  keys : ∀ v p, s.parents.get v = some p → v ∈ s.visited
  source_mem : sourceId ∈ s.visited
  card_le : s.visited.card ≤ maxVisitedNodes
  mem_visited (v : ℕ) : v ∈ s.visited ↔ v ∈ ball (Coupled g project) sourceId n ∨ v ∈ next
  next_traced : ∀ v ∈ next, Traced g project sourceId s (n + 1) v
  next_coupled : ∀ v ∈ next, v ∉ ball (Coupled g project) sourceId n ∧ ∃ b ∈ frontier, Coupled g project b v
  frontier_traced : ∀ v ∈ frontier, Traced g project sourceId s n v
  target : targetId ∉ s.visited
  covered : ∀ e ∈ done, farEnd frontier e ∈ s.visited

/-- An edge of a level: one of its ends is at the frontier. -/
def Incident (g : CodeGraph) (project : Text) (frontier : List ℕ) (e : CodeEdge) : Prop :=
  (e ∈ g.projectEdges project ∧ isNode g project e.sourceId = true ∧ isNode g project e.targetId = true) ∧
    (e.sourceId ∈ frontier ∨ e.targetId ∈ frontier)

variable {frontier next : List ℕ} {done rows : List CodeEdge} {maxVisitedNodes : ℕ} {e : CodeEdge}

theorem Incident.joins (h : Incident g project frontier e) :
    nearEnd frontier e ∈ frontier ∧ Joins g project e (nearEnd frontier e) (farEnd frontier e) := by
  obtain ⟨⟨hmem, hsource, htarget⟩, hnear⟩ := h
  rw [nearEnd, farEnd]
  by_cases hs : e.sourceId ∈ frontier
  · rw [if_pos hs, if_pos hs]
    exact ⟨hs, hmem, ⟨hsource, htarget⟩, .inl ⟨rfl, rfl⟩⟩
  · rw [if_neg hs, if_neg hs]
    exact ⟨hnear.resolve_left hs, hmem, ⟨hsource, htarget⟩, .inr ⟨rfl, rfl⟩⟩

section

variable (h : Exploring g project sourceId targetId maxVisitedNodes n frontier s next done)
include h

theorem Exploring.skip (hold : farEnd frontier e ∈ s.visited) :
    Exploring g project sourceId targetId maxVisitedNodes n frontier s next (done ++ [e]) where
  __ := h
  covered e' he' := by
    rcases mem_append.mp he' with he' | he'
    · exact h.covered e' he'
    · exact mem_singleton.mp he' ▸ hold

/-- A node is entered from the frontier. -/
theorem Exploring.traced_enter (he : Incident g project frontier e) (hnew : farEnd frontier e ∉ s.visited) :
    Traced g project sourceId (s.enter (farEnd frontier e) (nearEnd frontier e) e) (n + 1) (farEnd frontier e) := by
  obtain ⟨hnear, hjoins⟩ := he.joins
  refine .step (fun heq => hnew (heq ▸ h.source_mem)) get_set_self hjoins ?_
  exact (h.frontier_traced _ hnear).enter h.keys hnew

theorem Exploring.enter (he : Incident g project frontier e) (hnew : farEnd frontier e ∉ s.visited)
    (hroom : s.visited.card < maxVisitedNodes) (htarget : farEnd frontier e ≠ targetId) :
    Exploring g project sourceId targetId maxVisitedNodes n frontier
      (s.enter (farEnd frontier e) (nearEnd frontier e) e) (next ++ [farEnd frontier e]) (done ++ [e]) := by
  have htraced := h.traced_enter he hnew
  obtain ⟨hnear, hjoins⟩ := he.joins
  have hvisited : (s.enter (farEnd frontier e) (nearEnd frontier e) e).visited =
      insert (farEnd frontier e) s.visited := rfl
  constructor
  · intro v p hget
    rw [hvisited, Finset.mem_insert]
    change (s.parents.set _ _).get v = some p at hget
    rw [get_set] at hget
    split at hget
    · rename_i heq
      exact .inl heq
    · exact .inr (h.keys v p hget)
  · exact Finset.mem_insert_of_mem h.source_mem
  · rw [hvisited, Finset.card_insert_of_notMem hnew]
    exact hroom
  · intro v
    rw [hvisited, Finset.mem_insert, h.mem_visited, mem_append, mem_singleton]
    tauto
  · intro v hv
    rcases mem_append.mp hv with hv | hv
    · exact (h.next_traced v hv).enter h.keys hnew
    · exact mem_singleton.mp hv ▸ htraced
  · intro v hv
    rcases mem_append.mp hv with hv | hv
    · exact h.next_coupled v hv
    · obtain rfl := mem_singleton.mp hv
      exact ⟨fun hball => hnew ((h.mem_visited _).mpr (.inl hball)), _, hnear, _, hjoins⟩
  · exact fun v hv => (h.frontier_traced v hv).enter h.keys hnew
  · rw [hvisited, Finset.mem_insert, not_or]
    exact ⟨htarget.symm, h.target⟩
  · intro e' he'
    rw [hvisited, Finset.mem_insert]
    rcases mem_append.mp he' with he' | he'
    · exact .inr (h.covered e' he')
    · exact .inl (mem_singleton.mp he' ▸ rfl)

/-- How the rows of a level end. -/
theorem visitEdges_spec (hrows : ∀ e ∈ rows, Incident g project frontier e) :
    (∃ s', visitEdges targetId maxVisitedNodes frontier rows s next = .found s' ∧
      Traced g project sourceId s' (n + 1) targetId ∧ isNode g project targetId = true ∧
        s'.visited.card ≤ maxVisitedNodes ∧ s'.visitedEdges = s.visitedEdges) ∨
    (∃ s', visitEdges targetId maxVisitedNodes frontier rows s next = .full s' ∧
      s'.visited.card = maxVisitedNodes ∧ s'.visitedEdges = s.visitedEdges) ∨
    ∃ s' next', visitEdges targetId maxVisitedNodes frontier rows s next = .through s' next' ∧
      Exploring g project sourceId targetId maxVisitedNodes n frontier s' next' (done ++ rows) ∧
        s'.visitedEdges = s.visitedEdges := by
  induction rows generalizing s next done with
  | nil => exact .inr (.inr ⟨s, next, rfl, (append_nil done).symm ▸ h, rfl⟩)
  | cons e rows ih =>
    have he := hrows e mem_cons_self
    have hrest : ∀ e ∈ rows, Incident g project frontier e := fun e he => hrows e (mem_cons_of_mem _ he)
    rw [visitEdges, append_cons done e rows]
    dsimp only
    split
    · rename_i hold
      exact ih (h.skip hold) hrest
    · rename_i hnew
      split
      · rename_i hfull
        exact .inr (.inl ⟨s, rfl, le_antisymm h.card_le hfull, rfl⟩)
      · rename_i hroom
        rw [not_le] at hroom
        split
        · rename_i htarget
          refine .inl ⟨_, rfl, htarget ▸ h.traced_enter he hnew, ?_, ?_, rfl⟩
          · obtain ⟨-, -, hnodes, hends⟩ := he.joins
            rw [← htarget]
            rcases hends with ⟨-, hend⟩ | ⟨hend, -⟩
            · exact hend ▸ hnodes.2
            · exact hend ▸ hnodes.1
          · change (insert _ s.visited).card ≤ _
            rw [Finset.card_insert_of_notMem hnew]
            exact hroom
        · rename_i htarget
          exact ih (h.enter he hnew hroom htarget) hrest

end

/-! ## The levels -/

/-- What holds when `n` levels are behind. -/
structure AtLevel (g : CodeGraph) (project : Text) (sourceId targetId maxVisitedNodes maxVisitedEdges n : ℕ)
    (frontier : List ℕ) (s : PathSearch) : Prop where
  keys : ∀ v p, s.parents.get v = some p → v ∈ s.visited
  card_le : s.visited.card ≤ maxVisitedNodes
  edges_le : s.visitedEdges ≤ maxVisitedEdges
  mem_visited (v : ℕ) : v ∈ s.visited ↔ v ∈ ball (Coupled g project) sourceId n
  mem_frontier (v : ℕ) : v ∈ frontier ↔ v ∈ sphere (Coupled g project) sourceId n
  frontier_traced : ∀ v ∈ frontier, Traced g project sourceId s n v
  target : targetId ∉ s.visited

variable {maxVisitedEdges : ℕ}

theorem AtLevel.exploring (h : AtLevel g project sourceId targetId maxVisitedNodes maxVisitedEdges n frontier s)
    (visitedEdges : ℕ) :
    Exploring g project sourceId targetId maxVisitedNodes n frontier { s with visitedEdges } [] [] where
  keys := h.keys
  source_mem := (h.mem_visited sourceId).mpr ⟨0, Nat.zero_le n, .nil⟩
  card_le := h.card_le
  mem_visited v := by simpa using h.mem_visited v
  next_traced := nofun
  next_coupled := nofun
  frontier_traced v hv := Traced.congr (s := s) rfl (h.frontier_traced v hv)
  target := h.target
  covered := nofun

section

variable (h : Exploring g project sourceId targetId maxVisitedNodes n frontier s next done)
include h

/-- All edges of a level have been read: the new nodes are the next level. -/
theorem Exploring.mem_next (hfrontier : ∀ v, v ∈ frontier ↔ v ∈ sphere (Coupled g project) sourceId n)
    (hdone : ∀ e, Incident g project frontier e → e ∈ done) (v : ℕ) :
    v ∈ next ↔ v ∈ sphere (Coupled g project) sourceId (n + 1) := by
  rw [sphere_succ]
  constructor
  · intro hv
    obtain ⟨hnew, b, hb, hstep⟩ := h.next_coupled v hv
    exact ⟨hnew, b, (hfrontier b).mp hb, hstep⟩
  · rintro ⟨hnew, b, hb, e, hmem, hnodes, hends⟩
    have hbf := (hfrontier b).mpr hb
    have hvf : v ∉ frontier := fun hv => hnew (sphere_subset_ball n ((hfrontier v).mp hv))
    have hneighbor : farEnd frontier e = v := by
      rw [farEnd]
      rcases hends with ⟨rfl, rfl⟩ | ⟨rfl, rfl⟩
      · exact if_pos hbf
      · exact if_neg hvf
    have hincident : Incident g project frontier e := by
      refine ⟨⟨hmem, hnodes⟩, ?_⟩
      rcases hends with ⟨rfl, -⟩ | ⟨-, rfl⟩
      · exact .inl hbf
      · exact .inr hbf
    have hvisited := h.covered e (hdone e hincident)
    rw [hneighbor, h.mem_visited] at hvisited
    exact hvisited.resolve_left hnew

theorem Exploring.atLevel (hedges : s.visitedEdges ≤ maxVisitedEdges)
    (hnext : ∀ v, v ∈ next ↔ v ∈ sphere (Coupled g project) sourceId (n + 1))
    (hfrontier : ∀ v, v ∈ frontier ↔ v ∈ sphere (Coupled g project) sourceId n) :
    AtLevel g project sourceId targetId maxVisitedNodes maxVisitedEdges (n + 1) next s where
  keys := h.keys
  card_le := h.card_le
  edges_le := hedges
  mem_visited v := by
    rw [h.mem_visited, ball_succ]
    constructor
    · rintro (hv | hv)
      · exact .inl hv
      · obtain ⟨-, b, hb, hstep⟩ := h.next_coupled v hv
        exact .inr ⟨b, (hfrontier b).mp hb, hstep⟩
    · rintro (hv | hv)
      · exact .inl hv
      · by_cases hin : v ∈ ball (Coupled g project) sourceId n
        · exact .inl hin
        · exact .inr ((hnext v).mpr (sphere_succ.mpr ⟨hin, hv⟩))
  mem_frontier := hnext
  frontier_traced := h.next_traced
  target := h.target

end

theorem mem_incidentEdges {limit : ℕ} (h : e ∈ incidentEdges g project frontier limit) : Incident g project frontier e := by
  have hmem := mem_orderBy.mp (mem_of_mem_take h)
  simp only [mem_filter, Bool.and_eq_true, Bool.or_eq_true, decide_eq_true_eq] at hmem
  exact ⟨⟨hmem.1, hmem.2.2⟩, hmem.2.1.imp_right And.left⟩

/-- The rows of a query with no more rows than its limit are all edges of the level. -/
theorem mem_incidentEdges_of_length {limit : ℕ} (h : (incidentEdges g project frontier (limit + 1)).length ≤ limit)
    (he : Incident g project frontier e) : e ∈ incidentEdges g project frontier (limit + 1) := by
  rw [incidentEdges] at h ⊢
  rw [length_take] at h
  rw [take_of_length_le (by omega), mem_orderBy, mem_filter]
  refine ⟨he.1.1, ?_⟩
  by_cases hs : e.sourceId ∈ frontier
  · simp [hs, he.1.2]
  · simp [hs, he.1.2, he.2.resolve_left hs]

/-! ## The result -/

/-- What the search says, with the bounds that it keeps. -/
structure ExactPath (g : CodeGraph) (project : Text) (sourceId targetId maxHops maxVisitedNodes maxVisitedEdges : ℕ)
    (r : ExactPathResult) : Prop where
  /-- The path is a shortest one. -/
  found : r.status = .found → CouplingPath g project sourceId r.nodes r.edges targetId ∧ r.hops = some r.edges.length ∧
    ∀ nodes edges, CouplingPath g project sourceId nodes edges targetId → r.edges.length ≤ edges.length
  notFound : r.status = .notFound → ∀ nodes edges, ¬CouplingPath g project sourceId nodes edges targetId
  maxHops : r.status = .maxHops →
    ∀ nodes edges, CouplingPath g project sourceId nodes edges targetId → maxHops < edges.length
  limitReached : r.status = .limitReached → r.visitedNodes = maxVisitedNodes ∨ r.visitedEdges = maxVisitedEdges
  nodes_le : r.visitedNodes ≤ maxVisitedNodes
  edges_le : r.visitedEdges ≤ maxVisitedEdges

/-- A search that stops at a bound. -/
theorem exactPath_limit {maxHops : ℕ} (hnodes : s.visited.card ≤ maxVisitedNodes) (hedges : s.visitedEdges ≤ maxVisitedEdges)
    (h : s.visited.card = maxVisitedNodes ∨ s.visitedEdges = maxVisitedEdges) :
    ExactPath g project sourceId targetId maxHops maxVisitedNodes maxVisitedEdges (stopped s .limitReached) where
  found := nofun
  notFound := nofun
  maxHops := nofun
  limitReached _ := h
  nodes_le := hnodes
  edges_le := hedges

/-- A target outside the ball is farther away. -/
theorem lt_length_of_notMem_ball {nodes : List CodeNode}
    (h : targetId ∉ ball (Coupled g project) sourceId n) (hpath : CouplingPath g project sourceId nodes edges targetId) :
    n < edges.length :=
  Nat.lt_of_not_le fun hle => h ⟨_, hle, hpath.walk⟩

/-- The rows of a level that are read. -/
theorem page_spec {remaining : ℕ} {rows page : List CodeEdge}
    (h : (if remaining < rows.length then rows.take remaining else rows) = page) :
    page.length ≤ remaining ∧ (remaining < rows.length → page.length = remaining) ∧ ∀ e ∈ page, e ∈ rows := by
  subst h
  split
  · rw [length_take]
    exact ⟨min_le_left .., fun hlt => min_eq_left (le_of_lt hlt), fun e he => mem_of_mem_take he⟩
  · rename_i hall
    exact ⟨Nat.le_of_not_lt hall, fun hlt => absurd hlt hall, fun e he => he⟩

theorem searchLevels_exact (h : AtLevel g project sourceId targetId maxVisitedNodes maxVisitedEdges n frontier s)
    (left : ℕ) :
    ∃ r, searchLevels g project sourceId targetId maxVisitedNodes maxVisitedEdges left (n + 1) s frontier = .ok r ∧
      ExactPath g project sourceId targetId (n + left) maxVisitedNodes maxVisitedEdges r := by
  induction left generalizing n s frontier with
  | zero =>
    have htarget : targetId ∉ ball (Coupled g project) sourceId n := (h.mem_visited _).not.mp h.target
    exact ⟨_, rfl, nofun, nofun, fun _ _ _ hpath => lt_length_of_notMem_ball htarget hpath, nofun, h.card_le, h.edges_le⟩
  | succ left ih =>
    rw [searchLevels]
    dsimp only
    split
    · rename_i hzero
      have := h.edges_le
      exact ⟨_, rfl, exactPath_limit h.card_le h.edges_le (.inr (by omega))⟩
    · rename_i hremaining
      generalize hrows : incidentEdges g project frontier (maxVisitedEdges - s.visitedEdges + 1) = rows
      generalize hpage : (if maxVisitedEdges - s.visitedEdges < rows.length then
        rows.take (maxVisitedEdges - s.visitedEdges) else rows) = pageRows
      obtain ⟨hle, hfull, hsubset⟩ := page_spec hpage
      have hincident : ∀ e ∈ pageRows, Incident g project frontier e := by
        intro e he
        have hmem := hsubset e he
        rw [← hrows] at hmem
        exact mem_incidentEdges hmem
      have hbound : s.visitedEdges + pageRows.length ≤ maxVisitedEdges := by omega
      have houtside : targetId ∉ ball (Coupled g project) sourceId n := (h.mem_visited _).not.mp h.target
      rcases visitEdges_spec (h.exploring (s.visitedEdges + pageRows.length)) hincident with
        ⟨s', hend, htraced, htarget, hcard, hedges⟩ | ⟨s', hend, hcard, hedges⟩ | ⟨s', next, hend, hexploring, hedges⟩
      · obtain ⟨nodes, edges, hfound, hlength, hpath⟩ := found_of_traced htraced (le_refl _) htarget
        rw [hend]
        refine ⟨_, hfound, fun _ => ⟨hpath, rfl, fun nodes' edges' hother => ?_⟩, nofun, nofun, nofun, hcard, ?_⟩
        · rw [hlength]
          exact lt_length_of_notMem_ball houtside hother
        · exact hedges.trans_le hbound
      · rw [hend]
        exact ⟨_, rfl, exactPath_limit (le_of_eq hcard) (hedges.trans_le hbound) (.inl hcard)⟩
      · rw [hend]
        dsimp only
        split
        · rename_i hlimit
          have hlast : s.visitedEdges + pageRows.length = maxVisitedEdges := by
            have := hfull hlimit
            omega
          exact ⟨_, rfl, exactPath_limit hexploring.card_le (hedges.trans_le hbound) (.inr (hedges.trans hlast))⟩
        · rename_i hlimit
          have hdone : ∀ e, Incident g project frontier e → e ∈ [] ++ pageRows := by
            intro e he
            rw [if_neg hlimit] at hpage
            rw [nil_append, ← hpage, ← hrows]
            refine mem_incidentEdges_of_length ?_ he
            rw [hrows]
            exact Nat.le_of_not_lt hlimit
          have hnext := hexploring.mem_next h.mem_frontier hdone
          split
          · rename_i hnil
            have hempty : ∀ v, v ∉ sphere (Coupled g project) sourceId (n + 1) := by
              intro v hv
              rw [← hnext, hnil] at hv
              cases hv
            refine ⟨_, rfl, nofun, fun _ nodes edges hpath => ?_, nofun, nofun, hexploring.card_le, hedges.trans_le hbound⟩
            exact houtside (mem_ball_of_sphere_eq_empty hempty hpath.walk)
          · rw [Nat.add_comm left 1, ← Nat.add_assoc]
            exact ih (hexploring.atLevel (hedges.trans_le hbound) hnext h.mem_frontier)

theorem atLevel_zero {maxVisitedNodes maxVisitedEdges : ℕ} (hnodes : 1 ≤ maxVisitedNodes) (hne : sourceId ≠ targetId) :
    AtLevel g project sourceId targetId maxVisitedNodes maxVisitedEdges 0 [sourceId] ⟨{sourceId}, .empty, 0⟩ where
  keys v p h := by
    rw [get_empty] at h
    cases h
  card_le := hnodes
  edges_le := Nat.zero_le _
  mem_visited v := by rw [Finset.mem_singleton, mem_ball_zero]
  mem_frontier v := by rw [mem_singleton, mem_sphere_zero]
  frontier_traced v hv := mem_singleton.mp hv ▸ .source
  target := by
    rw [Finset.mem_singleton]
    exact hne.symm

/-- **Every search is exact.** It has a result if both nodes are in the project. What the result says holds for the
bounds of the search, which are at least one level, two nodes and one edge. -/
theorem findExactPath_exact (g : CodeGraph) (project : Text) (sourceId targetId : ℕ) (options : ExactPathSearchOptions) :
    (findExactPath g project sourceId targetId options = .ok none ∧
      ¬(isNode g project sourceId = true ∧ isNode g project targetId = true)) ∨
    ∃ r, findExactPath g project sourceId targetId options = .ok (some r) ∧
      ExactPath g project sourceId targetId options.hops options.nodes options.edges r := by
  have hmissing {id : ℕ} (h : Rows.get CodeNode.id id (g.projectNodes project) = none) : ¬isNode g project id = true := by
    rw [isNode_iff]
    rintro ⟨n, hn, hid⟩
    exact Rows.get_eq_none_iff.mp h n hn hid
  have hnodes : 1 ≤ options.nodes := by
    rw [ExactPathSearchOptions.nodes]
    omega
  rw [findExactPath]
  cases hs : Rows.get CodeNode.id sourceId (g.projectNodes project) with
  | none => exact .inl ⟨rfl, fun h => hmissing hs h.1⟩
  | some source =>
    cases ht : Rows.get CodeNode.id targetId (g.projectNodes project) with
    | none => exact .inl ⟨rfl, fun h => hmissing ht h.2⟩
    | some target =>
      right
      dsimp only
      split
      · rename_i heq
        obtain ⟨hmem, rfl⟩ := (Rows.get_eq_some_iff (g.nodup_projectNodes project)).mp hs
        exact ⟨_, rfl, fun _ => ⟨heq ▸ .single hmem, rfl, fun _ _ _ => Nat.zero_le _⟩, nofun, nofun, nofun, hnodes,
          Nat.zero_le _⟩
      · rename_i hne
        have hzero : AtLevel g project sourceId targetId options.nodes options.edges 0 [sourceId] ⟨{sourceId}, .empty, 0⟩ :=
          atLevel_zero hnodes hne
        obtain ⟨r, hr, hexact⟩ := searchLevels_exact hzero options.hops
        refine ⟨r, ?_, ?_⟩
        · rw [hr]
          rfl
        · rwa [Nat.zero_add] at hexact

/-- Two functions, one of which calls the other. -/
def twoFunctions : CodeGraph where
  nodes := [⟨1, "p".toList, "Function".toList, "a".toList, "a".toList, "a.ts".toList⟩,
    ⟨2, "p".toList, "Function".toList, "b".toList, "b".toList, "a.ts".toList⟩]
  edges := [⟨3, "p".toList, 1, 2, "CALLS".toList⟩]
  nodup_nodes := by decide
  nodup_edges := by decide

/-- A bound of one node is taken as one of two. -/
theorem findExactPath_one_node : ¬∀ (g : CodeGraph) (project : Text) (sourceId targetId : ℕ)
    (options : ExactPathSearchOptions) (r : ExactPathResult),
      findExactPath g project sourceId targetId options = .ok (some r) → (r.visitedNodes : ℚ) ≤ options.maxVisitedNodes := by
  intro h
  have htwo := h twoFunctions "p".toList 1 2 ⟨1, 1, 1⟩ ⟨.found, twoFunctions.nodes, twoFunctions.edges, some 1, 2, 1⟩
    (by decide)
  exact absurd htwo (by decide)

end Ariad.Bridge
