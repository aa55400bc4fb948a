import Mathlib.Data.Finset.Card
import Mathlib.Data.Rat.Init
import Ariad.Bridge.CodeGraph
import Ariad.Relational.Keyset

/-!
# A shortest path between two nodes

The edges of a project are followed in both directions, level by level, with bounds on the levels, the nodes and the
edges that are visited.

* `incidentEdges` — the query for the edges of a level.
* `visitEdges` — the loop over its rows; `searchLevels` — the loop over the levels.
* `walkBack`, `found` — the path, from the target back to the source.
* `findExactPath` — the search between its checks.
-/

namespace Ariad.Bridge

open Keyset

structure ExactPathSearchOptions where
  maxHops : ℚ
  maxVisitedNodes : ℚ
  maxVisitedEdges : ℚ

namespace ExactPathSearchOptions

variable (options : ExactPathSearchOptions)

/-- The bounds of the search. -/
def hops : ℕ := (max 1 options.maxHops.floor).toNat

def nodes : ℕ := (max 2 options.maxVisitedNodes.floor).toNat

def edges : ℕ := (max 1 options.maxVisitedEdges.floor).toNat

end ExactPathSearchOptions

inductive ExactPathStatus where
  | found
  | notFound
  | maxHops
  | limitReached
  deriving DecidableEq

structure ExactPathResult where
  status : ExactPathStatus
  nodes : List CodeNode
  edges : List CodeEdge
  hops : Option ℕ
  visitedNodes : ℕ
  visitedEdges : ℕ
  deriving DecidableEq

/-- What the function throws. -/
inductive ExactPathError where
  | chainIncomplete
  | outsideSnapshot
  deriving DecidableEq

structure PathParent where
  nodeId : ℕ
  edge : CodeEdge
  deriving DecidableEq

structure PathSearch where
  visited : Finset ℕ
  parents : OrderedMap ℕ PathParent
  visitedEdges : ℕ

variable (g : CodeGraph) (project : Text)

/-- The node is one of the project. -/
def isNode (id : ℕ) : Bool := (g.projectNodes project).any fun n => n.id = id

/-- The edges of the project at the frontier, both of whose nodes are there. -/
def incidentEdges (frontier : List ℕ) (limit : ℕ) : List CodeEdge :=
  let incident := (g.projectEdges project).filter fun e =>
    (e.sourceId ∈ frontier || (e.targetId ∈ frontier && e.sourceId ∉ frontier)) &&
      (isNode g project e.sourceId && isNode g project e.targetId)
  (orderBy CodeEdge.id incident).take limit

/-- The end of an edge that is not, or need not be, at the frontier. -/
def farEnd (frontier : List ℕ) (e : CodeEdge) : ℕ := if e.sourceId ∈ frontier then e.targetId else e.sourceId

/-- The end of an edge from which it is followed. -/
def nearEnd (frontier : List ℕ) (e : CodeEdge) : ℕ := if e.sourceId ∈ frontier then e.sourceId else e.targetId

/-- How the rows of a level end. -/
inductive LevelEnd where
  | found (s : PathSearch)
  | full (s : PathSearch)
  | through (s : PathSearch) (next : List ℕ)

def PathSearch.enter (s : PathSearch) (neighbor near : ℕ) (e : CodeEdge) : PathSearch :=
  { s with visited := insert neighbor s.visited, parents := s.parents.set neighbor ⟨near, e⟩ }

def visitEdges (targetId maxVisitedNodes : ℕ) (frontier : List ℕ) : List CodeEdge → PathSearch → List ℕ → LevelEnd
  | [], s, next => .through s next
  | e :: rows, s, next =>
    let neighborId := farEnd frontier e
    if neighborId ∈ s.visited then visitEdges targetId maxVisitedNodes frontier rows s next
    else if maxVisitedNodes ≤ s.visited.card then .full s
    else
      let s := s.enter neighborId (nearEnd frontier e) e
      if neighborId = targetId then .found s
      else visitEdges targetId maxVisitedNodes frontier rows s (next ++ [neighborId])

def stopped (s : PathSearch) (status : ExactPathStatus) : ExactPathResult :=
  ⟨status, [], [], none, s.visited.card, s.visitedEdges⟩

/-- The loop from the target to the source, for at most `left` edges. -/
def walkBack (s : PathSearch) (sourceId : ℕ) : ℕ → ℕ → List ℕ → List CodeEdge → Option (List ℕ × List CodeEdge)
  | 0, cursor, nodeIds, edges => if cursor = sourceId then some (nodeIds, edges) else none
  | left + 1, cursor, nodeIds, edges =>
    if cursor = sourceId then some (nodeIds, edges)
    else
      match s.parents.get cursor with
      | none => none
      | some parent => walkBack s sourceId left parent.nodeId (parent.nodeId :: nodeIds) (parent.edge :: edges)

/-- The path that ends the search; it has no more edges than levels were visited. -/
def found (s : PathSearch) (sourceId targetId hop : ℕ) : Except ExactPathError ExactPathResult :=
  match walkBack s sourceId hop targetId [targetId] [] with
  | none => .error .chainIncomplete
  | some (nodeIds, edges) =>
    match nodeIds.mapM fun id => Rows.get CodeNode.id id (g.projectNodes project) with
    | none => .error .outsideSnapshot
    | some nodes => .ok ⟨.found, nodes, edges, some edges.length, s.visited.card, s.visitedEdges⟩

variable (sourceId targetId : ℕ)

/-- `left` levels, of which `hop - 1` are behind. -/
def searchLevels (maxVisitedNodes maxVisitedEdges : ℕ) :
    ℕ → ℕ → PathSearch → List ℕ → Except ExactPathError ExactPathResult
  | 0, _, s, _ => .ok (stopped s .maxHops)
  | left + 1, hop, s, frontier =>
    let remainingEdges := maxVisitedEdges - s.visitedEdges
    if remainingEdges = 0 then .ok (stopped s .limitReached)
    else
      let rows := incidentEdges g project frontier (remainingEdges + 1)
      let edgeLimitReached := remainingEdges < rows.length
      let pageRows := if edgeLimitReached then rows.take remainingEdges else rows
      let s := { s with visitedEdges := s.visitedEdges + pageRows.length }
      match visitEdges targetId maxVisitedNodes frontier pageRows s [] with
      | .found s => found g project s sourceId targetId hop
      | .full s => .ok (stopped s .limitReached)
      | .through s next =>
        if edgeLimitReached then .ok (stopped s .limitReached)
        else if next = [] then .ok (stopped s .notFound)
        else searchLevels maxVisitedNodes maxVisitedEdges left (hop + 1) s next

def findExactPath (options : ExactPathSearchOptions) : Except ExactPathError (Option ExactPathResult) :=
  match Rows.get CodeNode.id sourceId (g.projectNodes project), Rows.get CodeNode.id targetId (g.projectNodes project) with
  | some source, some _ =>
    if sourceId = targetId then .ok (some ⟨.found, [source], [], some 0, 1, 0⟩)
    else
      (searchLevels g project sourceId targetId options.nodes options.edges options.hops 1 ⟨{sourceId}, .empty, 0⟩
        [sourceId]).map some
  | _, _ => .ok none

end Ariad.Bridge
