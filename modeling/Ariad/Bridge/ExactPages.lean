import Mathlib.Data.Int.Order.Basic
import Ariad.Bridge.CodeGraph
import Ariad.Relational.Keyset

/-!
# Exact pages of the code graph

Three queries of the reader answer in pages: the search of nodes, the nodes and inner edges of an architecture scope,
and the edges of one node.

* `searchNodesExactPage` — ranked matches, by rank and id.
* `getExactScopeMembership`, `getExactScopePage` — the nodes of a scope in batches by id, and with each batch the
  edges whose later endpoint is in it.
* `getExactNeighborhoodPage` — the edges of a node, by id.
-/

namespace Ariad.Bridge

open Keyset

/-! ## Texts in SQL -/

/-- Upper and lower case of ASCII letters are the same to `LIKE` and `COLLATE NOCASE`. -/
def foldCase (t : Text) : Text := t.map Char.toLower

/-- `hay LIKE '%needle%'` -/
def likeContains (needle hay : Text) : Bool := Text.includes (foldCase needle) (foldCase hay)

/-- `hay LIKE 'needle%'` -/
def likeStarts (needle hay : Text) : Bool := (foldCase needle).isPrefixOf (foldCase hay)

/-- `a = b COLLATE NOCASE` -/
def sameNocase (a b : Text) : Bool := foldCase a = foldCase b

/-! ## Search -/

/-- `replace(/\/{2,}/g, '/')` -/
def collapseSlashes : Text → Text
  | '/' :: '/' :: t => collapseSlashes ('/' :: t)
  | c :: t => c :: collapseSlashes t
  | [] => []

/-- `replace(/^(?:\.\/)+/, '')` -/
def dropDotSlashes : Text → Text
  | '.' :: '/' :: t => dropDotSlashes t
  | t => t

def normalizePathForSearch (value : Text) : Text := dropDotSlashes (collapseSlashes (slashes value))

/-- `matchSql` -/
def matchesQuery (query : Text) (n : CodeNode) : Bool :=
  likeContains query n.name || likeContains (normalizePathForSearch query) (slashes n.qualifiedName) ||
    likeContains (normalizePathForSearch query) (slashes n.filePath)

/-- `rankSql` -/
def matchRank (query : Text) (n : CodeNode) : ℕ :=
  let portable := normalizePathForSearch query
  if sameNocase n.name query then 0
  else if sameNocase (slashes n.qualifiedName) portable || sameNocase (slashes n.filePath) portable then 1
  else if likeStarts query n.name then 2
  else if likeContains query n.name then 3
  else if likeContains portable (slashes n.qualifiedName) then 4
  else 5

/-- `ORDER BY match_rank ASC, id ASC` -/
def rankKey (query : Text) (n : CodeNode) : ℕ ×ₗ ℕ := toLex (matchRank query n, n.id)

structure ExactNodeSearchPage where
  nodes : List CodeNode
  totalMatches : ℕ
  nextAfterRank : Option ℕ
  nextAfterNodeId : Option ℕ

def searchNodesExactPage (g : CodeGraph) (project query : Text) (afterRank : ℤ) (afterNodeId limit : ℕ) :
    ExactNodeSearchPage :=
  let safeQuery := Text.trim query
  let safeAfterRank := max (-1) (min 5 afterRank)
  let safeLimit := max 1 (min 250 limit)
  if safeQuery = [] then ⟨[], 0, none, none⟩
  else
    let matching := (g.projectNodes project).filter (matchesQuery safeQuery)
    let behind := matching.filter fun n =>
      safeAfterRank < matchRank safeQuery n || (matchRank safeQuery n = safeAfterRank && afterNodeId < n.id)
    let rows := (orderBy (rankKey safeQuery) behind).take (safeLimit + 1)
    let hasMore := safeLimit < rows.length
    let pageRows := if hasMore then rows.take safeLimit else rows
    { nodes := pageRows
      totalMatches := matching.length
      nextAfterRank := if hasMore then pageRows.getLast?.map (matchRank safeQuery) else none
      nextAfterNodeId := if hasMore then pageRows.getLast?.map CodeNode.id else none }

/-! ## Scopes -/

inductive ExactScopeKind where
  | domain
  | community
  | directory
  deriving DecidableEq

def ExactScopeKind.text : ExactScopeKind → Text
  | domain => "domain".toList
  | community => "community".toList
  | directory => "directory".toList

/-- Whether a node belongs to the directory. -/
def graphNodeBelongsToDirectory (filePath label directoryKey : Text) : Bool :=
  let normalizedKey := normalizeGraphPath directoryKey
  let nodeDirectory := joinSlash (directoriesOf label (segments (normalizeGraphPath filePath)))
  if normalizedKey = rootKey then nodeDirectory = []
  else normalizedKey ≠ [] && (nodeDirectory = normalizedKey || (normalizedKey ++ ['/']).isPrefixOf nodeDirectory)

/-- The nodes that make up a scope. -/
def inScope (kind : ExactScopeKind) (key : Text) (n : CodeNode) : Bool :=
  match kind with
  | .domain => graphDomainKey n.filePath n.label = key
  | .community => graphCommunityKey n.filePath n.label = key
  | .directory => graphNodeBelongsToDirectory n.filePath n.label (normalizeGraphPath key)

/-- `replace(/\//gu, '\\')` -/
def backslashes (path : Text) : Text := path.map fun c => if c = '/' then '\\' else c

/-- The rows that the statement for a directory reads before they are asked whether they belong to it. -/
def storedUnder (normalizedKey filePath : Text) : Bool :=
  normalizedKey = rootKey || filePath = normalizedKey || likeStarts (normalizedKey ++ ['/']) filePath ||
    filePath = backslashes normalizedKey || likeStarts (backslashes normalizedKey ++ ['\\']) filePath

/-- The ids of the nodes of a scope, in order. -/
def getExactScopeMembership (g : CodeGraph) (project : Text) (kind : ExactScopeKind) (key : Text) : List ℕ :=
  let rows := match kind with
    | .directory => (g.projectNodes project).filter fun n => storedUnder (normalizeGraphPath key) n.filePath
    | .domain | .community => g.projectNodes project
  ((orderBy CodeNode.id rows).filter (inScope kind key)).map CodeNode.id

structure ExactScopeCursorState where
  afterNodeId : ℕ
  batchEndNodeId : ℕ
  afterEdgeId : ℕ
  deriving DecidableEq

structure ExactScopePage where
  nodes : List CodeNode
  edges : List CodeEdge
  totalNodes : ℕ
  totalInternalEdges : ℕ
  nextCursor : Option ExactScopeCursorState

/-- The binary search for the first id behind `afterNodeId`. -/
def firstBehind (ids : List ℕ) (afterNodeId low high : ℕ) : ℕ :=
  if low < high then
    let middle := (low + high) / 2
    if ids.getD middle 0 ≤ afterNodeId then firstBehind ids afterNodeId (middle + 1) high
    else firstBehind ids afterNodeId low middle
  else low
termination_by high - low

/-- The edges of the project between nodes of the scope. -/
def internalEdges (g : CodeGraph) (project : Text) (ids : List ℕ) : List CodeEdge :=
  (g.projectEdges project).filter fun e => decide (e.sourceId ∈ ids) && decide (e.targetId ∈ ids)

def getExactScopePage (g : CodeGraph) (project : Text) (kind : ExactScopeKind) (key : Text)
    (cursor : ExactScopeCursorState) (nodeLimit edgeLimit : ℕ) : ExactScopePage :=
  let safeNodeLimit := max 1 (min 250 nodeLimit)
  let safeEdgeLimit := max 1 (min 250 edgeLimit)
  let ids := getExactScopeMembership g project kind key
  let low := firstBehind ids cursor.afterNodeId 0 ids.length
  let pageIds := (ids.drop low).take safeNodeLimit
  let isBatch := cursor.batchEndNodeId = 0
  let hasMoreNodes :=
    if isBatch then decide (low + pageIds.length < ids.length)
    else decide (cursor.batchEndNodeId < ids.getLast?.getD 0)
  let nodes :=
    if isBatch then
      (orderBy CodeNode.id ((g.projectNodes project).filter fun n => n.id ∈ pageIds)).take safeNodeLimit
    else []
  let batchEndNodeId := if isBatch then pageIds.getLast?.getD 0 else cursor.batchEndNodeId
  let inner := internalEdges g project ids
  if batchEndNodeId = 0 then ⟨nodes, [], ids.length, inner.length, none⟩
  else
    let inBatch := inner.filter fun e =>
      cursor.afterNodeId < max e.sourceId e.targetId && max e.sourceId e.targetId ≤ batchEndNodeId &&
        cursor.afterEdgeId < e.id
    let edgeRows := (orderBy CodeEdge.id inBatch).take (safeEdgeLimit + 1)
    let hasMoreEdges := safeEdgeLimit < edgeRows.length
    let edges := if hasMoreEdges then edgeRows.take safeEdgeLimit else edgeRows
    { nodes
      edges
      totalNodes := ids.length
      totalInternalEdges := inner.length
      nextCursor :=
        if hasMoreEdges && !edges.isEmpty then
          some ⟨cursor.afterNodeId, batchEndNodeId, (edges.getLast?.map CodeEdge.id).getD 0⟩
        else if hasMoreNodes then some ⟨batchEndNodeId, 0, 0⟩
        else none }

/-! ## Neighborhoods -/

structure ExactNeighborhoodPage where
  anchor : CodeNode
  neighbors : List (CodeEdge × CodeNode)
  totalInbound : ℕ
  totalOutbound : ℕ
  totalUniqueEdges : ℕ
  nextAfterEdgeId : Option ℕ

/-- The end of an edge that is not `nodeId`; of a loop, `nodeId` itself. -/
def otherEnd (nodeId : ℕ) (e : CodeEdge) : ℕ := if e.sourceId = nodeId then e.targetId else e.sourceId

def getExactNeighborhoodPage (g : CodeGraph) (project : Text) (nodeId afterEdgeId limit : ℕ) :
    Option ExactNeighborhoodPage :=
  (Rows.get CodeNode.id nodeId (g.projectNodes project)).map fun anchor =>
    let edges := g.projectEdges project
    let inbound := (edges.filter fun e => e.targetId = nodeId).length
    let outbound := (edges.filter fun e => e.sourceId = nodeId).length
    let selfLoops := (edges.filter fun e => e.sourceId = nodeId && e.targetId = nodeId).length
    let safeLimit := max 1 (min 250 limit)
    let incidentEdges :=
      (edges.filter fun e => e.sourceId = nodeId && afterEdgeId < e.id) ++
        edges.filter fun e => e.targetId = nodeId && e.sourceId ≠ nodeId && afterEdgeId < e.id
    let joined := incidentEdges.filterMap fun e =>
      (Rows.get CodeNode.id (otherEnd nodeId e) (g.projectNodes project)).map fun n => (e, n)
    let rows := (orderBy (fun r => r.1.id) joined).take (safeLimit + 1)
    let hasMore := safeLimit < rows.length
    let neighbors := if hasMore then rows.take safeLimit else rows
    { anchor
      neighbors
      totalInbound := inbound
      totalOutbound := outbound
      totalUniqueEdges := inbound + outbound - selfLoops
      nextAfterEdgeId := if hasMore && !neighbors.isEmpty then neighbors.getLast?.map fun r => r.1.id else none }

end Ariad.Bridge
