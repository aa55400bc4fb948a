import Ariad.Bridge.DerivedTables
import Ariad.Bridge.TestPaths
import Ariad.Ui.DomainCoverage

/-!
# The nodes of the overview

A bounded number of nodes stands for the graph: of each label a share, the nodes of the highest degree first, some
of them replaced by candidates for dead code.

* `allocateBalancedLabelQuotas` — the shares.
* `classifyNodeStatus`, `listNodesWithoutIncoming` — the candidates for dead code.
* `balancedNodes` — the nodes before the domains are covered; `selectBalancedOverviewNodes`: afterwards.
-/

namespace Ariad.Ui

open Bridge Keyset Replacement

/-! ## The shares of the labels -/

/-- The labels that occur, the most frequent first. -/
def rankedLabels (counts : OrderedMap Text ℕ) : List (Text × ℕ) :=
  sortBy (fun a b => (compare b.2 a.2).then (stableStringCompare a.1 b.1)) (counts.entries.filter fun e => 0 < e.2)

structure Sharing where
  quotas : OrderedMap Text ℕ
  remaining : ℕ
  added : ℕ

/-- A candidate takes its part of a round. -/
def giveShare (share : ℕ) (s : Sharing) (entry : Text × ℕ) : Sharing :=
  let (label, count) := entry
  if s.remaining = 0 then s
  else
    let current := countOf s.quotas label
    let take := min (min (count - current) share) s.remaining
    if take = 0 then s
    else ⟨s.quotas.set label (current + take), s.remaining - take, s.added + take⟩

theorem giveShare_sum (share : ℕ) (s : Sharing) (entry : Text × ℕ) :
    (giveShare share s entry).remaining + (giveShare share s entry).added = s.remaining + s.added := by
  rw [giveShare]
  dsimp only
  split
  · rfl
  · split
    · rfl
    · dsimp only
      omega

theorem foldl_giveShare_sum (share : ℕ) (entries : List (Text × ℕ)) (s : Sharing) :
    (entries.foldl (giveShare share) s).remaining + (entries.foldl (giveShare share) s).added =
      s.remaining + s.added := by
  induction entries generalizing s with
  | nil => rfl
  | cons entry entries ih => rw [List.foldl_cons, ih, giveShare_sum]

/-- The labels that have more nodes than their quota. -/
def unexhausted (labels : List (Text × ℕ)) (quotas : OrderedMap Text ℕ) : List (Text × ℕ) :=
  labels.filter fun e => countOf quotas e.1 < e.2

/-- A round over the labels that have more nodes. -/
def sharingRound (labels : List (Text × ℕ)) (quotas : OrderedMap Text ℕ) (remaining : ℕ) : Sharing :=
  let candidates := unexhausted labels quotas
  candidates.foldl (giveShare (max 1 (remaining / candidates.length))) ⟨quotas, remaining, 0⟩

theorem sharingRound_sum (labels : List (Text × ℕ)) (quotas : OrderedMap Text ℕ) (remaining : ℕ) :
    (sharingRound labels quotas remaining).remaining + (sharingRound labels quotas remaining).added = remaining :=
  foldl_giveShare_sum ..

/-- Rounds until nothing remains or no label has more nodes. -/
def redistribute (labels : List (Text × ℕ)) (quotas : OrderedMap Text ℕ) (remaining : ℕ) : OrderedMap Text ℕ :=
  if remaining = 0 then quotas
  else if unexhausted labels quotas = [] then quotas
  else if (sharingRound labels quotas remaining).added = 0 then (sharingRound labels quotas remaining).quotas
  else
    redistribute labels (sharingRound labels quotas remaining).quotas (sharingRound labels quotas remaining).remaining
termination_by remaining
decreasing_by
  have hsum := sharingRound_sum labels quotas remaining
  omega

/-- The quotas of the first round. -/
def equalShares (labels : List (Text × ℕ)) (equalShare : ℕ) : OrderedMap Text ℕ :=
  labels.foldl (fun quotas e => quotas.set e.1 (min e.2 equalShare)) .empty

def allocateBalancedLabelQuotas (counts : OrderedMap Text ℕ) (maxNodes : ℕ) : OrderedMap Text ℕ :=
  let labels := rankedLabels counts
  if labels = [] ∨ maxNodes = 0 then .empty
  else if maxNodes ≤ labels.length then
    (labels.take maxNodes).foldl (fun quotas e => quotas.set e.1 1) .empty
  else
    let equalShare := max 1 (maxNodes / labels.length)
    let allocated := (labels.map fun e => min e.2 equalShare).sum
    redistribute labels (equalShares labels equalShare) (maxNodes - allocated)

/-! ## Candidates for dead code -/

def structuralLabels : List Text :=
  ["File".toList, "Module".toList, "Package".toList, "Namespace".toList, "Class".toList, "Interface".toList,
    "Trait".toList, "Enum".toList]

def callableLabels : List Text := ["Function".toList, "Method".toList, "Constructor".toList]

/-- What is read from `properties_json` of a node. -/
structure NodeProperties where
  /-- `is_entry_point` or `is_entry` -/
  entry : Bool
  /-- `is_exported` or `exported` -/
  exported : Bool
  /-- The same for the statement, which takes `1` and `'true'`. -/
  sqlExported : Bool

inductive NodeStatus where
  | dead
  | single
  | entry
  | test
  | exported
  | normal
  | structural
  deriving DecidableEq

/-- The directories of tests. -/
def testDirectories : List Text :=
  ["__tests__".toList, "test".toList, "tests".toList, "spec".toList, "specs".toList, "fixtures".toList]

def classifyNodeStatus (label filePath : Text) (properties : NodeProperties) (incomingCalls : ℕ) : NodeStatus :=
  let normalizedPath := foldCase (slashes filePath)
  if (normalizedPath.splitOn '/').any (· ∈ testDirectories) || hasTestSuffix ".test.".toList normalizedPath ||
      hasTestSuffix ".spec.".toList normalizedPath then .test
  else if label ∈ structuralLabels then .structural
  else if label = "Route".toList || properties.entry then .entry
  else if properties.exported then .exported
  else if label ∈ callableLabels && incomingCalls = 0 then .dead
  else if label ∈ callableLabels && incomingCalls = 1 then .single
  else .normal

/-- The nodes of a project and what is in their properties. -/
structure OverviewSource where
  graph : CodeGraph
  project : Text
  properties : CodeNode → NodeProperties

variable (source : OverviewSource)

/-- The callable nodes that nothing calls: tests last, then exported ones, then by id. -/
def listNodesWithoutIncoming (labels : List Text) (limit : ℕ) : List CodeNode :=
  let uncalled := (source.graph.projectNodes source.project).filter fun n =>
    n.label ∈ labels && !source.graph.edges.any fun e => e.targetId = n.id && e.type = "CALLS".toList
  let rank := fun n : CodeNode => toLex ((if sqlTestPath n.filePath then 1 else 0 : ℕ),
    toLex ((if (source.properties n).sqlExported then 1 else 0 : ℕ), n.id))
  (orderBy rank uncalled).take (min 10000 limit)

/-- The candidates that get a place in the overview. -/
def deadCandidates (maxNodes : ℕ) : List CodeNode :=
  let deadReserve := min 50 (max 1 (maxNodes / 20))
  ((listNodesWithoutIncoming source callableLabels (deadReserve * 4)).filter fun n =>
    classifyNodeStatus n.label n.filePath (source.properties n) 0 = .dead).take deadReserve

/-! ## The selection -/

/-- `JOIN temp.node_degree` -/
def degreeOf (n : CodeNode) : Option ℕ :=
  (Rows.get NodeDegree.nodeId n.id (nodeDegrees source.graph source.project)).map NodeDegree.degree

/-- The nodes with a label, those with the most edges first. -/
def listNodesByLabelRanked (label : Text) (limit : ℕ) : List CodeNode :=
  let joined := ((source.graph.projectNodes source.project).filter fun n => n.label = label).filterMap fun n =>
    (degreeOf source n).map fun degree => (degree, n)
  ((orderBy (fun r => toLex (OrderDual.toDual r.1, r.2.id)) joined).map Prod.snd).take (min 10000 limit)

/-- The histogram, in a plain object: a number is not stored under `__proto__`. -/
def countNodesByLabel : OrderedMap Text ℕ :=
  (OrderedMap.tally CodeNode.label (source.graph.projectNodes source.project)).filter fun label _ =>
    label ≠ "__proto__".toList

/-- The nodes at a position of the buckets. -/
def bucketRow (buckets : List (List CodeNode)) (index : ℕ) : List CodeNode := buckets.filterMap (·[index]?)

/-- One node of each bucket after the other, until there are `maxNodes`. -/
def interleave (buckets : List (List CodeNode)) (maxNodes index : ℕ) (nodes : List CodeNode) : List CodeNode :=
  if nodes.length < maxNodes then
    if bucketRow buckets index = [] then nodes
    else interleave buckets maxNodes (index + 1) (nodes ++ (bucketRow buckets index).take (maxNodes - nodes.length))
  else nodes
termination_by maxNodes - nodes.length
decreasing_by
  have hne : bucketRow buckets index ≠ [] := by assumption
  have hpos := List.length_pos_of_ne_nil hne
  rw [List.length_append, List.length_take]
  omega

/-- A candidate takes the place of the last node with its label. -/
def placeCandidate (s : List CodeNode × Finset ℕ) (candidate : CodeNode) : List CodeNode × Finset ℕ :=
  if candidate.id ∈ s.2 then s
  else
    match lastIndex (fun n => n.label = candidate.label) s.1 with
    | none => s
    | some index =>
      match s.1[index]? with
      | some replaced => (s.1.set index candidate, insert candidate.id (s.2.erase replaced.id))
      | none => s

def buckets (maxNodes : ℕ) : List (List CodeNode) :=
  ((allocateBalancedLabelQuotas (countNodesByLabel source) maxNodes).entries.map fun e =>
    listNodesByLabelRanked source e.1 e.2).filter (· ≠ [])

/-- The overview before the domains are covered. -/
def balancedNodes (maxNodes : ℕ) : List CodeNode :=
  let nodes := interleave (buckets source maxNodes) maxNodes 0 []
  ((deadCandidates source maxNodes).foldl placeCandidate (nodes, (nodes.map CodeNode.id).toFinset)).1

def selectBalancedOverviewNodes (maxNodes : ℕ) (coverageCandidates : List CodeNode) : List CodeNode :=
  let nodes := balancedNodes source maxNodes
  let totalAvailable := ((countNodesByLabel source).entries.map Prod.snd).sum
  if totalAvailable ≤ maxNodes ∨ coverageCandidates = [] then nodes
  else ensureArchitectureDomainCoverage nodes coverageCandidates maxNodes

/-- `max_nodes` of a request, within its bounds. -/
def clampMaxNodes (raw : ℤ) : ℕ := (max 1 (min 10000 raw)).toNat

end Ariad.Ui
