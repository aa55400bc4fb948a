import Ariad.Human.Schema
import Ariad.Relational.Rows

/-!
# The human memory store

The operations of `HumanMemoryStore` on a human database. Every one of them writes inside one
transaction, so an operation that fails leaves the database as it was: it returns an error and no
database.

* `createNode`, `updateNode`, `deleteNode`, `markSynced` — nodes.
* `createEdge`, `deleteStaleEdgesFromNode` — edges.
* `getNodeById`, `getNodeBySlug`, `getNodeByObsidianPath`, `listNodes`, `listAllEdges` — queries.
-/

namespace Ariad.Human

/-- What the operations throw. -/
inductive StoreError where
  | emptyTitle
  | titleNewline
  | invalidObsidianPath (path : Text)
  | noFreeSlug (slug project : Text)
  | targetRequired
  | sourceNotFound (id : ℕ)
  | targetNotFound (id : ℕ)
  | crossProject (nodeProject project : Text)
  /-- A constraint of the schema. -/
  | constraint
  /-- The database stayed locked for longer than the timeout. -/
  | busy
  deriving DecidableEq

structure CreateHumanNodeInput where
  project : Text
  label : HumanNodeLabel
  title : Text
  bodyMarkdown : Option Text := none
  frontmatter : Option JsFields := none
  status : Option HumanNodeStatus := none
  source : Option HumanNodeSource := none
  cbmNodeIds : Option (List Num) := none
  tags : Option (List Text) := none
  obsidianPath : Option Text := none
  author : Option Text := none
  sourceFile : Option Text := none
  confidence : Option Num := none

/-- The fields to change. Of a field that may be null, `some none` sets null. -/
structure UpdateHumanNodeInput where
  title : Option Text := none
  bodyMarkdown : Option Text := none
  frontmatter : Option JsFields := none
  status : Option HumanNodeStatus := none
  source : Option HumanNodeSource := none
  cbmNodeIds : Option (List Num) := none
  tags : Option (List Text) := none
  obsidianPath : Option (Option Text) := none
  author : Option (Option Text) := none
  confidence : Option Num := none
  deriving DecidableEq

inductive TargetKind where
  | code
  | human
  deriving DecidableEq

structure CreateHumanEdgeInput where
  project : Text
  source : ℕ
  targetKind : TargetKind
  targetCbmNodeId : Option Num := none
  targetHumanNodeId : Option ℕ := none
  type : HumanEdgeType
  properties : Option JsFields := none
  confidence : Option Num := none
  sourceFile : Option Text := none

namespace Db

/-! ## Queries -/

def getNodeById (id : ℕ) (db : Db) : Option HumanNode := Rows.get HumanNode.id id db.nodes

def getNodeBySlug (project slug : Text) (db : Db) : Option HumanNode :=
  Rows.get (fun n => (n.project, n.slug)) (project, slug) db.nodes

def getNodeByObsidianPath (project path : Text) (db : Db) : Option HumanNode :=
  Rows.get (fun n => (n.project, n.obsidianPath)) (project, some path) db.nodes

/-- The nodes of a project, the one updated last first. -/
def listNodes (project : Text) (limit : ℕ) (db : Db) : List HumanNode :=
  ((db.nodes.filter fun n => n.project = project).mergeSort
    fun a b => decide (b.updatedAt ≤ a.updatedAt)).take limit

def listAllEdges (project : Text) (limit : ℕ) (db : Db) : List HumanEdge :=
  (db.edges.filter fun e => e.project = project).take limit

/-! ## The links table -/

/-- `INSERT OR IGNORE INTO human_node_cbm_links`. -/
def insertLink (links : List (ℕ × Num)) (link : ℕ × Num) : List (ℕ × Num) :=
  if link ∈ links then links else links ++ [link]

/-- The rows of the node are replaced by the valid ids among `ids`. -/
def syncCbmLinks (id : ℕ) (ids : List Num) (db : Db) : Db :=
  { db with
    links := ((ids.filter validCbmId).eraseDups.map fun x => (id, x)).foldl insertLink
      (db.links.filter fun l => l.1 ≠ id) }

end Db

/-! ## Nodes -/

/-- A path that is not rejected: it has neither `..` nor a backslash. -/
def validObsidianPath (path : Text) : Bool :=
  !decide ("..".toList <:+: path) && !path.contains '\\'

def validTitle (title : Text) : Except StoreError Unit :=
  if Text.Blank title then .error .emptyTitle
  else if title.any fun c => c == '\n' || c == '\r' then .error .titleNewline
  else .ok ()

/-- The slug before collisions are looked at: of the title, or of the time if nothing of the title is
left, cut to 200 characters. -/
def titleSlug (host : Host) (title : Text) (now : ℕ) : Text :=
  let slug := slugify host title
  (if slug = [] then "note-".toList ++ host.base36 now else slug).take 200

/-- The slug of an attempt: the slug itself, then `-2`, `-3`, … -/
def slugCandidate (slug : Text) (attempt : ℕ) : Text :=
  if attempt = 0 then slug else slug ++ '-' :: Nat.toDigits 10 (attempt + 1)

/-- The first of the 100 attempts whose slug is free. -/
def Db.freeSlug (project slug : Text) (db : Db) : Option ℕ :=
  (List.range 100).find? fun k => (db.getNodeBySlug project (slugCandidate slug k)).isNone

/-- `CHECK(confidence >= 0.0 AND confidence <= 1.0)`, and not null. -/
def validConfidence : Num → Bool
  | .finite q => decide (0 ≤ q ∧ q ≤ 1)
  | _ => false

/-- The row that `createNode` inserts. -/
def CreateHumanNodeInput.row (input : CreateHumanNodeInput) (id : ℕ) (slug path : Text) (now : ℕ) :
    HumanNode where
  id := id
  project := input.project
  label := input.label
  title := input.title
  slug := slug
  bodyMarkdown := input.bodyMarkdown.getD []
  frontmatter := (input.frontmatter.getD .nil).stored
  status := input.status.getD .active
  source := input.source.getD .human
  obsidianPath := some path
  cbmJson := (input.cbmNodeIds.getD []).map jsonNum
  tags := input.tags.getD []
  confidence := input.confidence.getD (.finite 1)
  sourceFile := input.sourceFile
  author := input.author
  createdAt := now
  updatedAt := now
  lastSyncedAt := none

/-- The path of the row: the given one, or the one derived of the final slug. Of a path given as the
empty text, a collision makes a derived one. -/
def CreateHumanNodeInput.path (input : CreateHumanNodeInput) (slug : Text) (attempt : ℕ) : Text :=
  match input.obsidianPath with
  | none => obsidianPathFor input.label (slugCandidate slug attempt)
  | some [] => if attempt = 0 then [] else obsidianPathFor input.label (slugCandidate slug attempt)
  | some path => path

def createNode (host : Host) (input : CreateHumanNodeInput) (now : ℕ) (db : Db) :
    Except StoreError (HumanNode × Db) := do
  validTitle input.title
  let slug := titleSlug host input.title now
  let given := input.obsidianPath.getD (obsidianPathFor input.label slug)
  if !validObsidianPath given then throw (.invalidObsidianPath given)
  match db.freeSlug input.project slug with
  | none => throw (.noFreeSlug slug input.project)
  | some attempt =>
    if !validConfidence (input.confidence.getD (.finite 1)) then throw .constraint
    let row := input.row db.nextNode (slugCandidate slug attempt) (input.path slug attempt) now
    let db := { db with nodes := db.nodes ++ [row], nextNode := db.nextNode + 1 }
    return (row, db.syncCbmLinks row.id (input.cbmNodeIds.getD []))

namespace UpdateHumanNodeInput

/-- What is checked before the database is touched. -/
def check (input : UpdateHumanNodeInput) : Except StoreError Unit := do
  match input.title with
  | some title => validTitle title
  | none => pure ()
  match input.obsidianPath with
  | some (some path) => if !validObsidianPath path then throw (.invalidObsidianPath path)
  | _ => pure ()

/-- No field is given. -/
def IsEmpty (input : UpdateHumanNodeInput) : Prop := input = {}

instance (input : UpdateHumanNodeInput) : Decidable input.IsEmpty :=
  inferInstanceAs (Decidable (input = {}))

/-- The `SET` clause. -/
def apply (input : UpdateHumanNodeInput) (now : ℕ) (n : HumanNode) : HumanNode :=
  { n with
    title := input.title.getD n.title
    bodyMarkdown := input.bodyMarkdown.getD n.bodyMarkdown
    frontmatter := (input.frontmatter.map JsFields.stored).getD n.frontmatter
    status := input.status.getD n.status
    source := input.source.getD n.source
    cbmJson := (input.cbmNodeIds.map (List.map jsonNum)).getD n.cbmJson
    tags := input.tags.getD n.tags
    obsidianPath := input.obsidianPath.getD n.obsidianPath
    author := input.author.getD n.author
    confidence := input.confidence.getD n.confidence
    updatedAt := now }

end UpdateHumanNodeInput

/-- Change the given fields of a node. The slug stays: links by slug would break. -/
def updateNode (id : ℕ) (input : UpdateHumanNodeInput) (now : ℕ) (db : Db) :
    Except StoreError (Option HumanNode × Db) := do
  match db.getNodeById id with
  | none => return (none, db)
  | some existing =>
    input.check
    if input.IsEmpty then return (some existing, db)
    if !(input.confidence.map validConfidence).getD true then throw .constraint
    let updated := { db with nodes := Rows.modify HumanNode.id id (input.apply now) db.nodes }
    let updated := match input.cbmNodeIds with
      | some ids => updated.syncCbmLinks id ids
      | none => updated
    return (updated.getNodeById id, updated)

/-- Delete a node; the foreign keys delete its links and the edges at either end of which it stands. -/
def deleteNode (id : ℕ) (db : Db) : Bool × Db :=
  ((db.getNodeById id).isSome,
    { db with
      nodes := db.nodes.filter fun n => n.id ≠ id
      edges := db.edges.filter fun e => e.source ≠ id ∧ e.target ≠ .human id
      links := db.links.filter fun l => l.1 ≠ id })

/-- The time of the last sync. -/
def markSynced (id : ℕ) (now : ℕ) (db : Db) : Db :=
  { db with nodes := Rows.modify HumanNode.id id (fun n => { n with lastSyncedAt := some now }) db.nodes }

/-! ## Edges -/

/-- The target of the input, with the column of its kind given. -/
def CreateHumanEdgeInput.target (input : CreateHumanEdgeInput) : Except StoreError EdgeTarget :=
  match input.targetKind, input.targetCbmNodeId, input.targetHumanNodeId with
  | .code, some x, _ => .ok (.code x)
  | .human, _, some id => .ok (.human id)
  | _, _, _ => .error .targetRequired

/-- What two edges have in common when they are the same edge. -/
structure EdgeKey where
  project : Text
  source : ℕ
  target : EdgeTarget
  type : HumanEdgeType
  deriving DecidableEq

def HumanEdge.key (e : HumanEdge) : EdgeKey := ⟨e.project, e.source, e.target, e.type⟩

/-- The node is there and of the project. -/
def Db.checkNode (missing : ℕ → StoreError) (project : Text) (id : ℕ) (db : Db) :
    Except StoreError Unit :=
  match db.getNodeById id with
  | none => .error (missing id)
  | some n => if n.project = project then .ok () else .error (.crossProject n.project project)

/-- The key that the search for an identical edge compares. `NaN` is bound as null, and a null target
counts as `-1`. -/
def EdgeKey.sought (k : EdgeKey) : EdgeKey :=
  if k.target = .code .nan then { k with target := .code (.finite (-1)) } else k

def Db.findEdge (k : EdgeKey) (db : Db) : Option HumanEdge := Rows.get HumanEdge.key k.sought db.edges

/-- The row that `createEdge` inserts. -/
def CreateHumanEdgeInput.row (input : CreateHumanEdgeInput) (target : EdgeTarget) (id now : ℕ) :
    HumanEdge where
  id := id
  project := input.project
  source := input.source
  target := target
  type := input.type
  properties := (input.properties.getD .nil).stored
  confidence := input.confidence.getD (.finite 1)
  sourceFile := input.sourceFile
  createdAt := now

/-- The links table and the column of the source node after an edge to a code node. -/
def Db.linkCode (source : ℕ) (x : Num) (db : Db) : Db :=
  match db.getNodeById source with
  | none => db
  | some n =>
    { db with
      links := insertLink db.links (source, x)
      nodes :=
        if x ∈ n.cbmNodeIds then db.nodes
        else Rows.modify HumanNode.id source
          (fun m => { m with cbmJson := (n.cbmNodeIds ++ [x]).map jsonNum }) db.nodes }

/-- The transaction of `createEdge`: the row, and for a code node the link. -/
def Db.insertEdge (input : CreateHumanEdgeInput) (target : EdgeTarget) (now : ℕ) (db : Db) :
    Except StoreError (HumanEdge × Db) :=
  if target = .code .nan ∨ input.confidence = some .nan then .error .constraint
  else
    let row := input.row target db.nextEdge now
    let db := { db with edges := db.edges ++ [row], nextEdge := db.nextEdge + 1 }
    .ok (row, match target with
      | .code x => db.linkCode input.source x
      | .human _ => db)

def createEdge (input : CreateHumanEdgeInput) (now : ℕ) (db : Db) :
    Except StoreError (HumanEdge × Db) := do
  let target ← input.target
  db.checkNode .sourceNotFound input.project input.source
  match target with
  | .human id => db.checkNode .targetNotFound input.project id
  | .code _ => pure ()
  match db.findEdge ⟨input.project, input.source, target, input.type⟩ with
  | some e => return (e, db)
  | none => db.insertEdge input target now

/-- Delete the edges of the node that came from the file, but for the ones to keep. -/
def deleteStaleEdgesFromNode (source : ℕ) (sourceFile : Option Text) (keepIds : List ℕ) (db : Db) :
    Db :=
  { db with
    edges := db.edges.filter fun e =>
      !(e.source = source && e.sourceFile = sourceFile && !keepIds.contains e.id) }

end Ariad.Human
