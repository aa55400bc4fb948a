import Ariad.Human.StoreLaws

/-!
# The backup

* `exportBackup` — the notes and edges of a project, as `backup export` writes them.
* `importBackup` — `backup import`: notes first, each through `createNode`, then the edges, with their
  ends renamed by slug.
* `RoundTrip` — what is in the imported database is what was exported, with ids replaced consistently.
* `Restorable` — the notes and edges for which it is.
-/

namespace Ariad.Human

/-! ## The file -/

structure BackupNote where
  id : ℕ
  label : HumanNodeLabel
  title : Text
  slug : Text
  bodyMarkdown : Text
  frontmatter : JsFields
  status : HumanNodeStatus
  source : HumanNodeSource
  obsidianPath : Option Text
  cbmNodeIds : List Num
  tags : List Text
  confidence : Num
  sourceFile : Option Text
  author : Option Text

structure BackupEdge where
  id : ℕ
  source : ℕ
  targetKind : TargetKind
  targetCbmNodeId : Option Num
  targetHumanNodeId : Option ℕ
  type : HumanEdgeType
  properties : JsFields
  confidence : Num
  sourceFile : Option Text

structure Backup where
  notes : List BackupNote
  edges : List BackupEdge

def HumanNode.backup (n : HumanNode) : BackupNote where
  id := n.id
  label := n.label
  title := n.title
  slug := n.slug
  bodyMarkdown := n.bodyMarkdown
  frontmatter := n.frontmatter
  status := n.status
  source := n.source
  obsidianPath := n.obsidianPath
  cbmNodeIds := n.cbmNodeIds
  tags := n.tags
  confidence := n.confidence
  sourceFile := n.sourceFile
  author := n.author

/-- A number that is not finite is written as `null`. -/
def HumanEdge.backup (e : HumanEdge) : BackupEdge where
  id := e.id
  source := e.source
  targetKind := match e.target with
    | .code _ => .code
    | .human _ => .human
  targetCbmNodeId := match e.target with
    | .code x => (jsonNum x).map .finite
    | .human _ => none
  targetHumanNodeId := match e.target with
    | .code _ => none
    | .human id => some id
  type := e.type
  properties := e.properties
  confidence := e.confidence
  sourceFile := e.sourceFile

/-! ## Export -/

/-- The edges of the project whose source is among the notes. -/
def Db.backupEdges (project : Text) (db : Db) : List HumanEdge :=
  (db.listAllEdges project 1000000).filter fun e =>
    decide (e.source ∈ (db.listNodes project 100000).map HumanNode.id)

def exportBackup (project : Text) (db : Db) : Backup where
  notes := (db.listNodes project 100000).map HumanNode.backup
  edges := (db.backupEdges project).map HumanEdge.backup

/-! ## Import -/

/-- An empty text counts as missing. -/
def nonempty : Option Text → Option Text
  | some (c :: t) => some (c :: t)
  | _ => none

/-- The input that the import gives to `createNode`. -/
def BackupNote.input (project : Text) (note : BackupNote) : CreateHumanNodeInput where
  project := project
  label := note.label
  title := note.title
  bodyMarkdown := some note.bodyMarkdown
  frontmatter := some note.frontmatter
  status := some note.status
  source := some note.source
  cbmNodeIds := some note.cbmNodeIds
  tags := some note.tags
  obsidianPath := nonempty note.obsidianPath
  author := nonempty note.author

/-- A note whose slug or path is taken, or that is rejected, is skipped. -/
def importNote (host : Host) (project : Text) (now : ℕ) (db : Db) (note : BackupNote) : Db :=
  if (db.getNodeBySlug project note.slug).isSome then db
  else if ((nonempty note.obsidianPath).bind fun p => db.getNodeByObsidianPath project p).isSome then db
  else
    match createNode host (note.input project) now db with
    | .ok (_, db) => db
    | .error _ => db

/-- `oldToNewNoteId.get(old)`: the last note with the id whose slug is in the database. -/
def newNoteId (project : Text) (notes : List BackupNote) (db : Db) (old : ℕ) : Option ℕ :=
  notes.reverse.findSome? fun note =>
    if note.id = old then (db.getNodeBySlug project note.slug).map HumanNode.id else none

/-- The input that the import gives to `createEdge`; `none` if an end is not among the notes. -/
def BackupEdge.input (project : Text) (newId : ℕ → Option ℕ) (edge : BackupEdge) :
    Option CreateHumanEdgeInput :=
  match newId edge.source with
  | none | some 0 => none
  | some source =>
    let input : CreateHumanEdgeInput :=
      { project := project
        source := source
        targetKind := edge.targetKind
        type := edge.type
        properties := some edge.properties }
    match edge.targetKind, edge.targetHumanNodeId with
    | .code, _ => some { input with targetCbmNodeId := edge.targetCbmNodeId }
    | .human, none => some input
    | .human, some old =>
      match newId old with
      | none | some 0 => none
      | some target => some { input with targetHumanNodeId := some target }

def importEdge (project : Text) (newId : ℕ → Option ℕ) (now : ℕ) (db : Db) (edge : BackupEdge) : Db :=
  match edge.input project newId with
  | none => db
  | some input =>
    match createEdge input now db with
    | .ok (_, db) => db
    | .error _ => db

/-- The notes, each at the time that `clock` gives for it. -/
def importNotes (host : Host) (project : Text) (clock : ℕ → ℕ) (notes : List BackupNote) (db : Db) : Db :=
  notes.foldl (fun db note => importNote host project (clock note.id) db note) db

def importEdges (project : Text) (newId : ℕ → Option ℕ) (clock : ℕ → ℕ) (edges : List BackupEdge)
    (db : Db) : Db :=
  edges.foldl (fun db edge => importEdge project newId (clock edge.id) db edge) db

def importBackup (host : Host) (project : Text) (noteClock edgeClock : ℕ → ℕ) (backup : Backup)
    (db : Db) : Db :=
  let db := importNotes host project noteClock backup.notes db
  importEdges project (newNoteId project backup.notes db) edgeClock backup.edges db

/-! ## The round trip -/

/-- What is compared of a note. -/
structure NoteView where
  label : HumanNodeLabel
  title : Text
  slug : Text
  status : HumanNodeStatus
  confidence : Num
  sourceFile : Option Text
  bodyMarkdown : Text
  tags : List Text
  cbmNodeIds : List Num
  deriving DecidableEq

def HumanNode.view (n : HumanNode) : NoteView :=
  ⟨n.label, n.title, n.slug, n.status, n.confidence, n.sourceFile, n.bodyMarkdown, n.tags, n.cbmNodeIds⟩

/-- What is compared of an edge. -/
structure EdgeView where
  source : ℕ
  target : EdgeTarget
  type : HumanEdgeType
  properties : JsFields
  confidence : Num
  sourceFile : Option Text
  deriving DecidableEq

def EdgeTarget.rename (f : ℕ → ℕ) : EdgeTarget → EdgeTarget
  | .code x => .code x
  | .human id => .human (f id)

/-- An edge with its ends renamed. Its properties count as the object that their JSON text denotes. -/
def HumanEdge.view (f : ℕ → ℕ) (e : HumanEdge) : EdgeView :=
  ⟨f e.source, e.target.rename f, e.type, e.properties.stored, e.confidence, e.sourceFile⟩

def Db.projectNodes (project : Text) (db : Db) : List HumanNode :=
  db.nodes.filter fun n => n.project = project

def Db.projectEdges (project : Text) (db : Db) : List HumanEdge :=
  db.edges.filter fun e => e.project = project

/-- **The round trip**: the same notes, and the same edges with their ends renamed to the nodes that
stand for the old ones. -/
def RoundTrip (project project' : Text) (db db' : Db) : Prop :=
  ((db.projectNodes project).map HumanNode.view).Perm ((db'.projectNodes project').map HumanNode.view) ∧
    ∃ f : ℕ → ℕ,
      (∀ n ∈ db.projectNodes project, ∃ n' ∈ db'.projectNodes project', n'.id = f n.id ∧ n'.view = n.view) ∧
      ((db.projectEdges project).map (HumanEdge.view f)).Perm
        ((db'.projectEdges project').map (HumanEdge.view id))

/-! ## What can be restored -/

/-- The path that the import gives to a note. -/
def HumanNode.restoredPath (n : HumanNode) : Text :=
  (nonempty n.obsidianPath).getD (obsidianPathFor n.label n.slug)

/-- **A note is restored** after the notes `before` have been. -/
structure HumanNode.Restorable (host : Host) (now : ℕ) (before : List HumanNode) (n : HumanNode) : Prop where
  title : validTitle n.title = .ok ()
  path : validObsidianPath
    ((nonempty n.obsidianPath).getD (obsidianPathFor n.label (titleSlug host n.title now)))
  /-- The slug is the first of the title's candidates that none of the notes before has. -/
  slug : ∃ k < 100, slugCandidate (titleSlug host n.title now) k = n.slug ∧
    ∀ j < k, slugCandidate (titleSlug host n.title now) j ∈ before.map HumanNode.slug
  /-- No note before has the path. -/
  free : ∀ p, nonempty n.obsidianPath = some p → p ∉ before.map HumanNode.restoredPath
  confidence : n.confidence = .finite 1
  sourceFile : n.sourceFile = none

/-- The ids that an edge to a code node asks for are in the list of its source. -/
def HumanEdge.CodeListed (db : Db) (e : HumanEdge) : Prop :=
  ∀ x, e.target = .code x → ∃ q, x = .finite q ∧
    (0 < q → ∀ n ∈ db.nodes, n.id = e.source → x ∈ n.cbmNodeIds)

/-- **What a backup can restore.** -/
structure Db.Restorable (host : Host) (clock : ℕ → ℕ) (project : Text) (db : Db) : Prop where
  nodeLimit : (db.projectNodes project).length ≤ 100000
  notes : ∀ before n after, db.listNodes project 100000 = before ++ n :: after →
    n.Restorable host (clock n.id) before
  edgeLimit : (db.projectEdges project).length ≤ 1000000
  /-- No edge is there twice. -/
  keys : ((db.projectEdges project).map HumanEdge.key).Nodup
  confidence : ∀ e ∈ db.projectEdges project, e.confidence = .finite 1
  sourceFile : ∀ e ∈ db.projectEdges project, e.sourceFile = none
  code : ∀ e ∈ db.projectEdges project, e.CodeListed db

end Ariad.Human
