import Mathlib.Data.Finset.Insert
import Ariad.Bridge.BulkQueries
import Ariad.Graphs.UnionFind
import Ariad.Javascript.PlainObject

/-!
# A bounded sample of the edges between nodes

The edges between the visible nodes, with at most so many out of a node and into it. Edges that connect come first.

* `visibleRows` — the edges between the nodes, in chunks, each once.
* `forestPass`, `fillPass` — the two loops that admit edges.
* `getBulkEdgesWithStats` — the sample and its numbers.
-/

namespace Ariad.Bridge

open Keyset PlainObject UnionFind

structure EdgeTriple where
  sourceId : ℕ
  targetId : ℕ
  type : Text
  deriving DecidableEq

/-- `${row.source_id}-${row.target_id}-${row.type}` -/
def edgeKey (row : EdgeTriple) : Text :=
  Nat.toDigits 10 row.sourceId ++ '-' :: (Nat.toDigits 10 row.targetId ++ '-' :: row.type)

structure BulkEdgesResult where
  edges : List EdgeTriple
  totalInducedEdges : ℕ
  returnedEdges : ℕ
  edgesTruncated : Bool
  limitPerDirection : ℤ
  availableByType : OrderedMap Text Counter
  returnedByType : OrderedMap Text Counter
  deriving DecidableEq

variable (g : CodeGraph) (nodeIds : List ℕ)

/-- The query of a chunk. -/
def outRows (chunk : List ℕ) : List EdgeTriple :=
  (orderBy CodeEdge.id (g.edges.filter fun e => e.sourceId ∈ chunk && e.targetId ∈ nodeIds)).map fun e =>
    ⟨e.sourceId, e.targetId, e.type⟩

/-- A row whose key was seen before is left out. -/
def seeRow (s : Finset Text × List EdgeTriple) (row : EdgeTriple) : Finset Text × List EdgeTriple :=
  if edgeKey row ∈ s.1 then s else (insert (edgeKey row) s.1, s.2 ++ [row])

def visibleRows : List EdgeTriple :=
  ((chunksOf BULK_CHUNK_SIZE nodeIds).foldl (fun s chunk => (outRows g nodeIds chunk).foldl seeRow s) (∅, [])).2

/-- The order of the types, by their upper case. -/
def edgePriority (toUpperCase : Text → Text) (type : Text) : ℕ :=
  if toUpperCase type ∈ ["CONTAINS".toList, "DECLARES".toList, "DEFINES".toList, "HAS_METHOD".toList] then 0
  else if toUpperCase type ∈ ["EXTENDS".toList, "IMPLEMENTS".toList, "IMPORTS".toList] then 1
  else if toUpperCase type = "CALLS".toList then 2
  else 3

def orderedRows (toUpperCase : Text → Text) (rows : List EdgeTriple) : List EdgeTriple :=
  let indexed := rows.mapIdx fun index row => (row, index)
  (sortBy (fun a b => (compare (edgePriority toUpperCase a.1.type) (edgePriority toUpperCase b.1.type)).then
    (compare a.2 b.2)) indexed).map Prod.fst

/-! ## Admission -/

structure Admission where
  perNodeOutCount : OrderedMap ℕ ℕ
  perNodeInCount : OrderedMap ℕ ℕ
  edges : List EdgeTriple
  returnedByType : OrderedMap Text Counter
  selectedKeys : Finset Text

variable (limitPerNode : ℤ)

def canAdmit (s : Admission) (row : EdgeTriple) : Bool :=
  ((s.perNodeOutCount.get row.sourceId).getD 0 : ℕ) < limitPerNode &&
    ((s.perNodeInCount.get row.targetId).getD 0 : ℕ) < limitPerNode

def admitEdge (s : Admission) (row : EdgeTriple) : Admission where
  perNodeOutCount := s.perNodeOutCount.set row.sourceId ((s.perNodeOutCount.get row.sourceId).getD 0 + 1)
  perNodeInCount := s.perNodeInCount.set row.targetId ((s.perNodeInCount.get row.targetId).getD 0 + 1)
  edges := s.edges ++ [row]
  returnedByType := addCount EdgeTriple.type (fun _ => 1) s.returnedByType row
  selectedKeys := insert (edgeKey row) s.selectedKeys

/-- A row of the first loop: it is admitted if it connects and there is room. The loops of `findRoot` may not end. -/
def forestRow (s : Admission × OrderedMap ℕ ℕ) (row : EdgeTriple) : Option (Admission × OrderedMap ℕ ℕ) :=
  if row.sourceId = row.targetId then some s
  else
    match findRoot s.2 row.sourceId with
    | none => none
    | some (sourceRoot, parent) =>
      match findRoot parent row.targetId with
      | none => none
      | some (targetRoot, parent) =>
        if sourceRoot = targetRoot then some (s.1, parent)
        else if canAdmit limitPerNode s.1 row then
          (union parent row.sourceId row.targetId).map fun parent => (admitEdge s.1 row, parent)
        else some (s.1, parent)

def forestPass : List EdgeTriple → Admission × OrderedMap ℕ ℕ → Option (Admission × OrderedMap ℕ ℕ)
  | [], s => some s
  | row :: rows, s => (forestRow limitPerNode s row).bind (forestPass rows)

/-- A row of the second loop: it is admitted if there is room. -/
def fillRow (s : Admission) (row : EdgeTriple) : Admission :=
  if edgeKey row ∈ s.selectedKeys || !canAdmit limitPerNode s row then s else admitEdge s row

def fillPass (rows : List EdgeTriple) (s : Admission) : Admission := rows.foldl (fillRow limitPerNode) s

/-- `new Map(nodeIds.map((id) => [id, id]))` -/
def ownParents : OrderedMap ℕ ℕ := nodeIds.foldl (fun m id => m.set id id) .empty

/-- The edges that the first loop admits. -/
def spanningForest (rows : List EdgeTriple) : Option Admission :=
  (forestPass limitPerNode rows (⟨.empty, .empty, [], .empty, ∅⟩, ownParents nodeIds)).map Prod.fst

def getBulkEdgesWithStats (toUpperCase : Text → Text) : Option BulkEdgesResult :=
  if nodeIds = [] then some ⟨[], 0, 0, false, max 0 limitPerNode, .empty, .empty⟩
  else
    let rows := visibleRows g nodeIds
    let availableByType := PlainObject.countRows EdgeTriple.type (fun _ => 1) rows
    if limitPerNode ≤ 0 then some ⟨rows, rows.length, rows.length, false, 0, availableByType, availableByType⟩
    else
      (spanningForest nodeIds limitPerNode (orderedRows toUpperCase rows)).map fun s =>
        let s := fillPass limitPerNode (orderedRows toUpperCase rows) s
        ⟨s.edges, rows.length, s.edges.length, decide (s.edges.length < rows.length), max 0 limitPerNode,
          availableByType, s.returnedByType⟩

end Ariad.Bridge
