import Mathlib.Data.Rat.Cast.Order
import Ariad.Bridge.CodeGraph

/-!
# The layout around a selected node

Without a selection every node is placed in the sector of its directory. With one, the nodes that lead to it stand
in layers on one side, those that it leads to on the other, by their distance. Coordinates are left out.

* `computeConstellation` — the placement without a selection.
* `breadthFirstDepths` — the distances from a node, up to four.
* `computeStellarFlowLayout` — the roles and the depths.
* `stellarFlowEdgeDepth`, `summarizeStellarFlowLanes` — what is drawn from them.
-/

namespace Ariad.StellarFlow

open Bridge (slashes)

structure GraphNode where
  id : ℤ
  label : Text
  file_path : Option Text
  cluster_id : Option ℤ
  in_degree : Option ℤ
  out_degree : Option ℤ
  size : ℚ

structure GraphEdge where
  source : ℤ
  target : ℤ

inductive StellarFlowRole where
  | focus | incoming | outgoing | bidirectional | hub | context
  deriving DecidableEq

structure StellarFlowTarget where
  role : StellarFlowRole
  depth : Option ℕ
  laneKey : Option Text
  /-- The key of the sector. -/
  sector : Option Text

/-- What the engine computes: the collation, and the results of floating-point arithmetic. -/
structure Engine where
  localeCompare : Text → Text → Ordering
  /-- `Math.round(Math.max(0, size - 3) ** 2)` -/
  degreeOfSize : ℚ → ℤ
  /-- `Math.max(18, maxDegree * 0.18)` -/
  hubThreshold : ℤ → ℚ
  /-- `Math.max(4, Math.ceil(length * 0.015))` -/
  minimumFamilySize : ℕ → ℕ

variable (engine : Engine)

def stellarNodeDegree (node : GraphNode) : ℤ :=
  match node.in_degree, node.out_degree with
  | none, none => engine.degreeOfSize node.size
  | incoming, outgoing => max 0 (incoming.getD 0 + outgoing.getD 0)

/-- The names of a path. -/
def pathNames (path : Text) : List Text := ((slashes path).splitOn '/').filter (· ≠ [])

def rawConstellationKey (node : GraphNode) : Text :=
  (node.file_path.bind fun path => (pathNames path).head?).getD "unmapped".toList

def constellationGroupKey (node : GraphNode) : Text :=
  match node.cluster_id with
  | some cluster => "cluster:".toList ++ (toString cluster).toList
  | none => "type:".toList ++ node.label

def flowLaneKey (node : GraphNode) : Text :=
  let parts := (node.file_path.map pathNames).getD []
  if parts.length ≤ 1 then parts.head?.getD node.label
  else ['/'].intercalate (parts.take (min 3 (parts.length - 1)))

def byImportance (left right : GraphNode) : Ordering :=
  (compare (stellarNodeDegree engine right) (stellarNodeDegree engine left)).then (compare left.id right.id)

/-! ## Without a selection -/

def familyKey (nodes : List GraphNode) (node : GraphNode) : Text :=
  let rawFamilyCounts := OrderedMap.tally rawConstellationKey nodes
  let rawFamily := rawConstellationKey node
  if 1 < rawFamilyCounts.size ∧ (rawFamilyCounts.get rawFamily).getD 0 < engine.minimumFamilySize nodes.length then
    "other".toList
  else rawFamily

/-- The families in the order of their sectors, each with its members in order. -/
def families (nodes : List GraphNode) : List (Text × List GraphNode) :=
  let isOther (family : Text × List GraphNode) : ℕ := if family.1 = "other".toList then 1 else 0
  let members := sortBy fun left right =>
    (engine.localeCompare (constellationGroupKey left) (constellationGroupKey right)).then
      (byImportance engine left right)
  sortBy (fun left right =>
      ((compare (isOther left) (isOther right)).then (compare right.2.length left.2.length)).then
        (engine.localeCompare left.1 right.1))
    ((OrderedMap.collect (familyKey engine nodes) id nodes).entries.map fun family => (family.1, members family.2))

def computeConstellation (nodes : List GraphNode) : OrderedMap ℤ StellarFlowTarget :=
  let maxDegree := nodes.foldl (fun maximum node => max maximum (stellarNodeDegree engine node)) 1
  (families engine nodes).foldl (fun targets family =>
    family.2.foldl (fun targets node =>
      targets.set node.id
        { role := if (stellarNodeDegree engine node : ℚ) ≥ engine.hubThreshold maxDegree then .hub else .context
          depth := none
          laneKey := none
          sector := some family.1 }) targets) .empty

/-! ## Distances -/

def MAX_FLOW_DEPTH : ℕ := 4

/-- One neighbor of a node of the frontier. -/
def visit (depth : ℕ) (s : OrderedMap ℤ ℕ × List ℤ) (neighbor : ℤ) : OrderedMap ℤ ℕ × List ℤ :=
  if s.1.has neighbor then s else (s.1.set neighbor depth, s.2 ++ [neighbor])

/-- The loop over the frontier. -/
def visitFrontier (adjacency : OrderedMap ℤ (List ℤ)) (depth : ℕ) (depths : OrderedMap ℤ ℕ) (frontier : List ℤ) :
    OrderedMap ℤ ℕ × List ℤ :=
  frontier.foldl (fun s current => ((adjacency.get current).getD []).foldl (visit depth) s) (depths, [])

/-- The loop over the depths. -/
def searchDepths (adjacency : OrderedMap ℤ (List ℤ)) : ℕ → ℕ → OrderedMap ℤ ℕ → List ℤ → OrderedMap ℤ ℕ
  | 0, _, depths, _ => depths
  | left + 1, depth, depths, frontier =>
    if frontier = [] then depths
    else
      let (depths, next) := visitFrontier adjacency depth depths frontier
      searchDepths adjacency left (depth + 1) depths next

def breadthFirstDepths (startId : ℤ) (adjacency : OrderedMap ℤ (List ℤ)) : OrderedMap ℤ ℕ :=
  searchDepths adjacency MAX_FLOW_DEPTH 1 (OrderedMap.empty.set startId 0) [startId]

/-! ## With a selection -/

/-- The edges between two different nodes that are there. -/
def flowEdges (nodes : List GraphNode) (edges : List GraphEdge) : List GraphEdge :=
  edges.filter fun edge =>
    edge.source ∈ nodes.map (·.id) ∧ edge.target ∈ nodes.map (·.id) ∧ edge.source ≠ edge.target

def flowRole (incomingDepth outgoingDepth : Option ℕ) : Option (StellarFlowRole × ℕ) :=
  match incomingDepth, outgoingDepth with
  | some incoming, some outgoing =>
    if incoming = outgoing then some (.bidirectional, incoming)
    else if incoming < outgoing then some (.incoming, incoming)
    else some (.outgoing, outgoing)
  | some incoming, none => some (.incoming, incoming)
  | none, some outgoing => some (.outgoing, outgoing)
  | none, none => none

/-- The role and the depth that a node gets, unless it is the selected one or neither leads there nor back. -/
def placement (incomingDepths outgoingDepths : OrderedMap ℤ ℕ) (selected : ℤ) (node : GraphNode) :
    Option (StellarFlowRole × ℕ) :=
  if node.id = selected then none
  else (flowRole (incomingDepths.get node.id) (outgoingDepths.get node.id)).filter fun placed => placed.2 ≠ 0

/-- A node of a layer is placed. -/
def placeNode (constellation : OrderedMap ℤ StellarFlowTarget) (entry : (StellarFlowRole × ℕ) × GraphNode) :
    OrderedMap ℤ StellarFlowTarget :=
  constellation.set entry.2.id
    { role := entry.1.1
      depth := some entry.1.2
      laneKey := some (flowLaneKey entry.2)
      sector := (constellation.get entry.2.id).bind (·.sector) }

/-- The loop over the layers. -/
def placeLayers (layers : OrderedMap (StellarFlowRole × ℕ) (List GraphNode))
    (constellation : OrderedMap ℤ StellarFlowTarget) : OrderedMap ℤ StellarFlowTarget :=
  layers.entries.foldl (fun constellation layer =>
    let members := sortBy (fun left right =>
      (engine.localeCompare (flowLaneKey left) (flowLaneKey right)).then (byImportance engine left right)) layer.2
    members.foldl (fun constellation node => placeNode constellation (layer.1, node)) constellation) constellation

/-- A node that has no layer moves outwards. -/
def placeContext (constellation : OrderedMap ℤ StellarFlowTarget) (node : GraphNode) :
    OrderedMap ℤ StellarFlowTarget :=
  constellation.set node.id
    { role := .context, depth := none, laneKey := none, sector := (constellation.get node.id).bind (·.sector) }

def computeStellarFlowLayout (nodes : List GraphNode) (edges : List GraphEdge) (selectedNodeId : Option ℤ) :
    OrderedMap ℤ StellarFlowTarget :=
  let constellation := computeConstellation engine nodes
  match selectedNodeId with
  | none => constellation
  | some selected =>
    if constellation.has selected = false then constellation
    else
      let outgoing := OrderedMap.collect GraphEdge.source GraphEdge.target (flowEdges nodes edges)
      let incoming := OrderedMap.collect GraphEdge.target GraphEdge.source (flowEdges nodes edges)
      let place := placement (breadthFirstDepths selected incoming) (breadthFirstDepths selected outgoing) selected
      let placed := nodes.filterMap fun node => (place node).map fun key => (key, node)
      let layers := OrderedMap.collect Prod.fst Prod.snd placed
      let constellation := placeLayers engine layers constellation
      let rest := nodes.filter fun node => node.id ≠ selected ∧ ¬(place node).isSome
      let constellation := rest.foldl placeContext constellation
      constellation.set selected
        { role := .focus, depth := some 0, laneKey := none, sector := (constellation.get selected).bind (·.sector) }

/-! ## What is drawn -/

def stellarFlowEdgeDepth (sourceId targetId : ℤ) (targets : OrderedMap ℤ StellarFlowTarget) : Option ℕ :=
  match targets.get sourceId, targets.get targetId with
  | some source, some target =>
    if source.role = .focus then
      if target.depth = some 1 ∧ (target.role = .outgoing ∨ target.role = .bidirectional) then some 1 else none
    else if target.role = .focus then
      if source.depth = some 1 ∧ (source.role = .incoming ∨ source.role = .bidirectional) then some 1 else none
    else
      match source.depth, target.depth with
      | some sourceDepth, some targetDepth =>
        if (source.role = .outgoing ∨ source.role = .bidirectional) ∧
            (target.role = .outgoing ∨ target.role = .bidirectional) ∧ targetDepth = sourceDepth + 1 then
          some targetDepth
        else if (source.role = .incoming ∨ source.role = .bidirectional) ∧
            (target.role = .incoming ∨ target.role = .bidirectional) ∧ sourceDepth = targetDepth + 1 then
          some sourceDepth
        else none
      | _, _ => none
  | _, _ => none

structure StellarFlowLaneSummary where
  role : StellarFlowRole
  depth : ℕ
  count : ℕ

structure StellarFlowModuleSummary extends StellarFlowLaneSummary where
  laneKey : Text

/-- `["incoming", "outgoing", "bidirectional"].includes(role)` -/
def StellarFlowRole.isDirected : StellarFlowRole → Bool
  | .incoming | .outgoing | .bidirectional => true
  | .focus | .hub | .context => false

def StellarFlowRole.name : StellarFlowRole → Text
  | .focus => "focus".toList
  | .incoming => "incoming".toList
  | .outgoing => "outgoing".toList
  | .bidirectional => "bidirectional".toList
  | .hub => "hub".toList
  | .context => "context".toList

/-- The order of the directed roles on the screen. -/
def roleOrder : StellarFlowRole → ℕ
  | .incoming => 0
  | .bidirectional => 1
  | _ => 2

def addLaneTarget {κ : Type} [DecidableEq κ] (summaries : OrderedMap κ StellarFlowLaneSummary) (key : κ)
    (target : StellarFlowTarget) : OrderedMap κ StellarFlowLaneSummary :=
  match summaries.get key with
  | some current => summaries.set key { current with count := current.count + 1 }
  | none => summaries.set key ⟨target.role, target.depth.getD 0, 1⟩

def byLane (left right : StellarFlowLaneSummary) : Ordering :=
  (compare left.depth right.depth).then (compare (roleOrder left.role) (roleOrder right.role))

/-- The targets that stand in a layer. -/
def laneTargets (targets : OrderedMap ℤ StellarFlowTarget) : List StellarFlowTarget :=
  (targets.entries.map Prod.snd).filter fun target => target.depth.isSome ∧ target.role.isDirected

/-- The key of a layer. -/
def layerKey (target : StellarFlowTarget) : StellarFlowRole × ℕ := (target.role, target.depth.getD 0)

/-- The text of the key of a module. -/
def moduleKeyText (key : (StellarFlowRole × ℕ) × Text) : Text :=
  key.1.1.name ++ ':' :: (toString key.1.2).toList ++ ':' :: key.2

structure StellarFlowSummary where
  layers : List StellarFlowLaneSummary
  modules : List StellarFlowModuleSummary

def summarizeStellarFlowLanes (targets : OrderedMap ℤ StellarFlowTarget) : StellarFlowSummary :=
  let layerMap := (laneTargets targets).foldl (fun m target => addLaneTarget m (layerKey target) target) .empty
  let moduleMap := (laneTargets targets).foldl (fun m target =>
    match target.laneKey with
    | some laneKey => if laneKey = [] then m else addLaneTarget m (layerKey target, laneKey) target
    | none => m) .empty
  { layers := sortBy byLane (layerMap.entries.map Prod.snd)
    modules :=
      (sortBy (fun left right => (byLane left.2 right.2).then
          (engine.localeCompare (moduleKeyText left.1) (moduleKeyText right.1))) moduleMap.entries).map
        fun entry => { entry.2 with laneKey := entry.1.2 } }

end Ariad.StellarFlow
