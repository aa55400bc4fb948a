import Ariad.Bridge.ExactPages
import Ariad.Javascript.Json

/-!
# The paginated routes of the graph

`/api/node-search`, `/api/scope` and `/api/neighborhood` answer with a page and a cursor for the next one. A cursor
is the JSON of the position in base64url; it is bound to the request and to the revision of the graph.

* `isValidProjectName` — the names that a request is routed for.
* `encodeSearchCursor`, `decodeSearchCursor`, … — the cursors.
* `routeNodeSearch`, `routeScope`, `routeNeighborhood` — the routes, with `limit` and `node_id` as numbers.
-/

namespace Ariad.Ui

open Bridge

/-! ## Names of projects -/

/-- `length` of a string -/
def units (t : Text) : ℕ := (t.flatMap utf16).length

/-- `/[\u0000-\u001f\u007f]/u` -/
def isControl (c : Char) : Bool := c.toNat < 32 || c.toNat = 127

/-- `INVALID_FILENAME_CHARS` -/
def invalidFilenameChar (c : Char) : Bool := isControl c || "<>:\"/\\|?*".toList.contains c

/-- `WINDOWS_RESERVED_NAME` -/
def windowsReservedName (project : Text) : Bool :=
  let stem := (project.takeWhile (· ≠ '.')).map Char.toLower
  let numbered := "123456789".toList.flatMap fun d => ["com".toList ++ [d], "lpt".toList ++ [d]]
  (["con".toList, "prn".toList, "aux".toList, "nul".toList] ++ numbered).contains stem

/-- `validateProjectStorageName` does not throw. -/
def isValidProjectName (project : Text) : Bool :=
  decide (1 ≤ units project) && decide (units project ≤ 128) && decide (Text.trim project = project) &&
    decide (project.head? ≠ some '-') && decide (foldCase project ≠ "_config".toList) &&
    decide (project ≠ ".".toList) && decide (project ≠ "..".toList) && !project.any invalidFilenameChar &&
    decide (project.getLast? ≠ some '.') && decide (project.getLast? ≠ some ' ') && !windowsReservedName project &&
    !".human".toList.isSuffixOf (foldCase project) && decide ((utf8 (project ++ ".human.db".toList)).length ≤ 255)

/-! ## Cursors -/

/-- `isGraphRevision` -/
def isGraphRevision (t : Text) : Bool :=
  "graph-reader-v1:".toList.isPrefixOf t && decide (t.length = 38) &&
    (t.drop 16).all fun c => c.isAlphanum || c = '_' || c = '-'

/-- What `getGraphRevision` returns. -/
structure GraphRevision where
  text : Text
  valid : isGraphRevision text = true

structure SearchCursor where
  project : Text
  query : Text
  afterRank : ℕ
  afterNodeId : ℕ
  graphRevision : Text

structure ScopeCursor where
  project : Text
  kind : ExactScopeKind
  key : Text
  position : ExactScopeCursorState
  graphRevision : Text

structure NeighborhoodCursor where
  project : Text
  nodeId : ℕ
  afterEdgeId : ℕ
  graphRevision : Text

def matchVersion : Text := "literal-relevance-v1".toList

def SearchCursor.fields (c : SearchCursor) : Json.Fields :=
  [("v".toList, .num 1), ("project".toList, .str c.project), ("query".toList, .str c.query),
    ("match_version".toList, .str matchVersion), ("after_rank".toList, .num c.afterRank),
    ("after_node_id".toList, .num c.afterNodeId), ("graph_revision".toList, .str c.graphRevision)]

def ScopeCursor.fields (c : ScopeCursor) : Json.Fields :=
  [("v".toList, .num 1), ("project".toList, .str c.project), ("kind".toList, .str c.kind.text),
    ("key".toList, .str c.key), ("after_node_id".toList, .num c.position.afterNodeId),
    ("batch_end_node_id".toList, .num c.position.batchEndNodeId),
    ("after_edge_id".toList, .num c.position.afterEdgeId), ("graph_revision".toList, .str c.graphRevision)]

def NeighborhoodCursor.fields (c : NeighborhoodCursor) : Json.Fields :=
  [("v".toList, .num 1), ("project".toList, .str c.project), ("node_id".toList, .num c.nodeId),
    ("after_edge_id".toList, .num c.afterEdgeId), ("graph_revision".toList, .str c.graphRevision)]

/-- `Buffer.from(JSON.stringify(cursor), 'utf8').toString('base64url')` -/
def encodeCursor (o : Json.Fields) : Text := base64url (utf8 (Json.stringify o))

def encodeSearchCursor (c : SearchCursor) : Text := encodeCursor c.fields

def encodeScopeCursor (c : ScopeCursor) : Text := encodeCursor c.fields

def encodeNeighborhoodCursor (c : NeighborhoodCursor) : Text := encodeCursor c.fields

/-- `JSON.parse(Buffer.from(encoded, 'base64url').toString('utf8'))`, of a text that is not too long. -/
def readCursor (maxLength : ℕ) (encoded : Text) : Option Json.Fields :=
  if encoded = [] ∨ maxLength < units encoded then none else (ofUtf8 (ofBase64url encoded)).bind Json.parse

/-- A member of a parsed object: of members with one name, the last. -/
def field (o : Json.Fields) (name : String) : Option Json.Value :=
  (Rows.get Prod.fst name.toList o.reverse).map Prod.snd

def maxSafeInteger : ℕ := 2 ^ 53 - 1

/-- A member that is a safe integer. -/
def safeField (o : Json.Fields) (name : String) : Option ℕ :=
  match field o name with
  | some (.num n) => if n ≤ maxSafeInteger then some n else none
  | _ => none

/-- A member that is a safe integer, or `-1` where there is none. -/
def safeFieldOrMissing (o : Json.Fields) (name : String) : Option ℤ :=
  match field o name with
  | none => some (-1)
  | some _ => (safeField o name).map Nat.cast

/-- The revision of a cursor. -/
def revisionField (o : Json.Fields) : Option Text :=
  match field o "graph_revision" with
  | some (.str t) => if isGraphRevision t then some t else none
  | _ => none

def decodeSearchCursor (encoded project query : Text) : Option (ℕ × ℕ × Text) :=
  (readCursor 1024 encoded).bind fun o =>
    if field o "v" = some (.num 1) ∧ field o "project" = some (.str project) ∧ field o "query" = some (.str query) ∧
        field o "match_version" = some (.str matchVersion) then
      match safeField o "after_rank", safeField o "after_node_id", revisionField o with
      | some afterRank, some afterNodeId, some graphRevision =>
        if afterRank ≤ 5 ∧ 0 < afterNodeId then some (afterRank, afterNodeId, graphRevision) else none
      | _, _, _ => none
    else none

def decodeScopeCursor (encoded project : Text) (kind : ExactScopeKind) (key : Text) :
    Option (ExactScopeCursorState × Text) :=
  (readCursor 1536 encoded).bind fun o =>
    if field o "v" = some (.num 1) ∧ field o "project" = some (.str project) ∧
        field o "kind" = some (.str kind.text) ∧ field o "key" = some (.str key) then
      match safeFieldOrMissing o "after_node_id", safeFieldOrMissing o "batch_end_node_id",
          safeFieldOrMissing o "after_edge_id", revisionField o with
      | some afterNodeId, some batchEndNodeId, some afterEdgeId, some graphRevision =>
        let isNodeContinuation := batchEndNodeId = 0 ∧ afterEdgeId = 0 ∧ 0 < afterNodeId
        let isEdgeContinuation := afterNodeId < batchEndNodeId ∧ 0 < afterEdgeId
        -- A missing position passes as `-1`; the reader takes it for `0`.
        if isNodeContinuation ∨ isEdgeContinuation then
          some (⟨afterNodeId.toNat, batchEndNodeId.toNat, afterEdgeId.toNat⟩, graphRevision)
        else none
      | _, _, _, _ => none
    else none

def decodeNeighborhoodCursor (encoded project : Text) (nodeId : ℕ) : Option (ℕ × Text) :=
  (readCursor 512 encoded).bind fun o =>
    if field o "v" = some (.num 1) ∧ field o "project" = some (.str project) ∧
        field o "node_id" = some (.num nodeId) then
      match safeField o "after_edge_id", revisionField o with
      | some afterEdgeId, some graphRevision => some (afterEdgeId, graphRevision)
      | _, _ => none
    else none

/-! ## Routes -/

/-- The answers that have no page. -/
inductive RouteError where
  | query
  | key
  | limit
  | cursor (bound : String)
  | graphRevisionMismatch (expected : Text)
  | nodeNotFound
  deriving DecidableEq

def RouteError.status : RouteError → ℕ
  | query | key | limit | cursor _ => 400
  | graphRevisionMismatch _ => 409
  | nodeNotFound => 404

def RouteError.error : RouteError → String
  | query => "q must contain 1 to 256 printable characters"
  | key => "key must contain 1 to 512 printable characters"
  | limit => "limit must be an integer between 1 and 250"
  | cursor bound => "cursor is invalid for this " ++ bound ++ " or project"
  | graphRevisionMismatch _ => "graph_revision_mismatch"
  | nodeNotFound => "Node not found in this project"

/-- `ctx.codeReader`, at one revision of its graph. -/
structure CodeReader where
  graph : CodeGraph
  revision : GraphRevision

/-- The read at the expected revision. -/
def CodeReader.withGraphSnapshot {α : Type} (r : CodeReader) (expected : Option Text) (read : Text → α) :
    Except RouteError α :=
  match expected with
  | some expected =>
    if expected = r.revision.text then .ok (read r.revision.text) else .error (.graphRevisionMismatch expected)
  | none => .ok (read r.revision.text)

/-- A page, and `page.next_cursor`. -/
structure Answer (π : Type) where
  page : π
  nextCursor : Option Text

/-- The queries that the search route accepts. -/
def acceptsQuery (q : Text) : Bool :=
  decide (Text.trim q ≠ []) && decide (units (Text.trim q) ≤ 256) && !q.any isControl

def acceptsKey (key : Text) : Bool :=
  decide (Text.trim key ≠ []) && decide (units key ≤ 512) && !key.any isControl

def acceptsLimit (limit : ℕ) : Bool := decide (1 ≤ limit) && decide (limit ≤ 250)

/-- The cursor behind a page of the search, if there are more matches. -/
def nextSearchCursor (project query graphRevision : Text) (page : ExactNodeSearchPage) : Option Text :=
  match page.nextAfterRank, page.nextAfterNodeId with
  | some afterRank, some afterNodeId =>
    some (encodeSearchCursor ⟨project, query, afterRank, afterNodeId, graphRevision⟩)
  | _, _ => none

def routeNodeSearch (r : CodeReader) (project q : Text) (limit : ℕ) (cursor : Option Text) :
    Except RouteError (Answer ExactNodeSearchPage) :=
  let query := Text.trim q
  if !acceptsQuery q then .error .query
  else if !acceptsLimit limit then .error .limit
  else
    let decoded : Option (ℤ × ℕ × Option Text) := match cursor with
      | none => some (-1, 0, none)
      | some encoded => (decodeSearchCursor encoded project query).map fun c => ((c.1 : ℤ), c.2.1, some c.2.2)
    match decoded with
    | none => .error (.cursor "query")
    | some (afterRank, afterNodeId, expected) =>
      r.withGraphSnapshot expected fun graphRevision =>
        let page := searchNodesExactPage r.graph project query afterRank afterNodeId limit
        ⟨page, nextSearchCursor project query graphRevision page⟩

def routeScope (r : CodeReader) (project : Text) (kind : ExactScopeKind) (key : Text) (limit : ℕ)
    (cursor : Option Text) : Except RouteError (Answer ExactScopePage) :=
  if !acceptsKey key then .error .key
  else if !acceptsLimit limit then .error .limit
  else
    let decoded : Option (ExactScopeCursorState × Option Text) := match cursor with
      | none => some (⟨0, 0, 0⟩, none)
      | some encoded => (decodeScopeCursor encoded project kind key).map fun c => (c.1, some c.2)
    match decoded with
    | none => .error (.cursor "scope")
    | some (position, expected) =>
      r.withGraphSnapshot expected fun graphRevision =>
        let page := getExactScopePage r.graph project kind key position limit limit
        ⟨page, page.nextCursor.map fun position =>
          encodeScopeCursor ⟨project, kind, key, position, graphRevision⟩⟩

def routeNeighborhood (r : CodeReader) (project : Text) (nodeId limit : ℕ) (cursor : Option Text) :
    Except RouteError (Answer ExactNeighborhoodPage) :=
  if !acceptsLimit limit then .error .limit
  else
    let decoded : Option (ℕ × Option Text) := match cursor with
      | none => some (0, none)
      | some encoded => (decodeNeighborhoodCursor encoded project nodeId).map fun c => (c.1, some c.2)
    match decoded with
    | none => .error (.cursor "node")
    | some (afterEdgeId, expected) => do
      let answer ← r.withGraphSnapshot expected fun graphRevision =>
        (getExactNeighborhoodPage r.graph project nodeId afterEdgeId limit).map fun page =>
          Answer.mk page (page.nextAfterEdgeId.map fun afterEdgeId =>
            encodeNeighborhoodCursor ⟨project, nodeId, afterEdgeId, graphRevision⟩)
      match answer with
      | some answer => .ok answer
      | none => .error .nodeNotFound

end Ariad.Ui
