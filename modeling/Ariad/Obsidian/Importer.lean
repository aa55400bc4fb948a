import Ariad.Human.StoreLaws
import Ariad.Obsidian.Wikilinks

/-!
# The import of a vault

* `Vault` — the files that `walkVault` lists, and what `readNote` returns.
* `parseVaultFile` — what is read from a file: `UpsertSpec`.
* `resolveExistingNode`, `upsertNode`, `processWikilinks` — the steps of one file.
* `importSingleFile`, `importVault` — one file, and all files in their order.
-/

namespace Ariad.Obsidian

open Human Text

/-- What `readNote` does: it throws, or it returns `null` or the content. -/
inductive ReadNote where
  | failed
  | missing
  | content (t : Text)
  deriving DecidableEq

structure Vault where
  /-- The files in the order in which they are visited. -/
  files : List Text
  read : Text → ReadNote

/-! ## What a file says -/

/-- The label that a frontmatter type stands for. -/
def typeLabel (type : Text) : Option HumanNodeLabel :=
  [HumanNodeLabel.ArchitectureNote, .ADR, .BugNote, .RefactorPlan, .LegacyNote, .Convention, .Prompt,
    .JournalEntry, .ModuleNote, .RouteNote, .RiskNote].find? fun label => mapLabelToType label = type

/-- The label that a folder stands for. -/
def pathLabel (relPath : Text) : Option HumanNodeLabel :=
  let starts := fun folder : String => folder.toList.isPrefixOf relPath
  if starts "ADR/" then some .ADR
  else if starts "Bugs/" then some .BugNote
  else if starts "Refactor/" then some .RefactorPlan
  else if starts "Legacy/" then some .LegacyNote
  else if starts "Conventions/" then some .Convention
  else if starts "Prompts/" then some .Prompt
  else if starts "Journal/" then some .JournalEntry
  else if starts "Modules/" then some .ModuleNote
  else if starts "Routes/" then some .RouteNote
  else if starts "Architecture/" then
    if Text.includes "risk-".toList relPath then some .RiskNote else some .ArchitectureNote
  else none

/-- Why a file is not imported. -/
inductive ImportError where
  | cannotInferLabel
  | invalidField (field : Text)
  | store (e : StoreError)
  /-- Any other exception: the file cannot be read, or the type is not a text. -/
  | thrown
  deriving DecidableEq

def inferLabelFromFrontmatter (host : Host) (fm : JsFields) (relPath : Text) :
    Except ImportError HumanNodeLabel :=
  let fromPath := match pathLabel relPath with
    | some label => .ok label
    | none => .error .cannotInferLabel
  match given "type".toList fm with
  | none => fromPath
  | some (.str s) =>
    match typeLabel (s.flatMap host.lower) with
    | some label => .ok label
    | none => fromPath
  | some _ => .error .thrown

/-- A heading `# title` at the start of a line: `/#\s+(.+)$/m` there. -/
def titleAt : Text → Option Text
  | '#' :: t =>
    let space := t.takeWhile isSpace
    let rest := t.dropWhile isSpace
    if space = [] then none
    else if rest ≠ [] then some (trim (rest.takeWhile fun c => !isTerminator c))
    else if space.tail.any fun c => !isTerminator c then some [] else none
  | _ => none

/-- The first heading of a text; the flag says that a line starts here. -/
def firstTitle (lineStart : Bool) : Text → Option Text
  | [] => none
  | c :: t => (if lineStart then titleAt (c :: t) else none).or (firstTitle (isTerminator c) t)

/-- `replace(/\.md$/i, '')`. -/
def dropMd (name : Text) : Text :=
  if [".md", ".mD", ".Md", ".MD"].any fun e => e.toList.isSuffixOf name then name.take (name.length - 3)
  else name

/-- `relPath.split('/').pop() || relPath`. -/
def basename (relPath : Text) : Text :=
  let last := (relPath.splitOn '/').getLastD []
  if last = [] then relPath else last

def extractTitle (body relPath : Text) : Text := (firstTitle true body).getD (dropMd (basename relPath))

/-- A field with one of the allowed values, or without a value. -/
def validateEnum {ε : Type} (text : ε → Text) (allowed : List ε) (default : ε) (field : Text)
    (v : Option Js) : Except ImportError ε :=
  match v with
  | none => .ok default
  | some (.str s) =>
    match allowed.find? fun a => text a = s with
    | some a => .ok a
    | none => .error (.invalidField field)
  | some _ => .error (.invalidField field)

structure UpsertSpec where
  relPath : Text
  label : HumanNodeLabel
  title : Text
  humanBody : Text
  fm : JsFields
  status : HumanNodeStatus
  source : HumanNodeSource
  cbmNodeIds : List Num
  tags : List Text
  deriving DecidableEq

/-- What the import takes from a file. -/
def parseVaultFile (host : Host) (relPath content : Text) : Except ImportError UpsertSpec := do
  let parsed := parseNote host content
  let fm := parsed.frontmatter
  let label ← inferLabelFromFrontmatter host fm relPath
  let status ← validateEnum statusText [.draft, .active, .reviewed, .deprecated] .active
    "status".toList (given "status".toList fm)
  let source ← validateEnum sourceText [.human, .generated, .mixed] .human
    "source".toList (given "source".toList fm)
  return {
    relPath := relPath
    label := label
    title := extractTitle parsed.body relPath
    humanBody := trim (removeAll placeholder 0 (splitSections parsed.body).humanNotes)
    fm := fm
    status := status
    source := source
    cbmNodeIds := parseCbmNodeIds host fm
    tags := parseTags host fm }

/-! ## The steps of one file -/

/-- The node of the file: the one with its path, or else the one with the slug of its title, if that has
no path or its file is gone. -/
def resolveExistingNode (project : Text) (vault : Vault) (relPath slug : Text) (db : Db) :
    Except ImportError (Option HumanNode) :=
  match db.getNodeByObsidianPath project relPath with
  | some node => .ok (some node)
  | none =>
    if slug = [] then .ok none
    else
      match db.getNodeBySlug project slug with
      | none => .ok none
      | some node =>
        match node.obsidianPath with
        | none | some [] => .ok (some node)
        | some path =>
          match vault.read path with
          | .failed => .error .thrown
          | .missing => .ok (some node)
          | .content _ => .ok none

/-- Nothing that the import compares has changed. Lists are compared after sorting. -/
def UpsertSpec.Unchanged (spec : UpsertSpec) (existing : HumanNode) : Prop :=
  existing.bodyMarkdown = spec.humanBody ∧ existing.title = spec.title ∧
    (existing.cbmNodeIds.map jsonNum).Perm (spec.cbmNodeIds.map jsonNum) ∧
    existing.tags.Perm spec.tags ∧ existing.status = spec.status ∧
    existing.frontmatter.sortKeys.stored = spec.fm.sortKeys.stored ∧
    existing.obsidianPath = some spec.relPath

instance (spec : UpsertSpec) (existing : HumanNode) : Decidable (spec.Unchanged existing) := by
  unfold UpsertSpec.Unchanged
  infer_instance

def UpsertSpec.update (spec : UpsertSpec) : UpdateHumanNodeInput where
  title := some spec.title
  bodyMarkdown := some spec.humanBody
  frontmatter := some spec.fm
  status := some spec.status
  source := some spec.source
  cbmNodeIds := some spec.cbmNodeIds
  tags := some spec.tags
  obsidianPath := some (some spec.relPath)

def UpsertSpec.create (spec : UpsertSpec) (project : Text) : CreateHumanNodeInput where
  project := project
  label := spec.label
  title := spec.title
  bodyMarkdown := some spec.humanBody
  frontmatter := some spec.fm
  status := some spec.status
  source := some spec.source
  cbmNodeIds := some spec.cbmNodeIds
  tags := some spec.tags
  obsidianPath := some spec.relPath
  sourceFile := some spec.relPath

/-- What became of a file. -/
inductive Outcome where
  /-- The index, the template, or an empty file. -/
  | skipped
  | created
  | updated
  | unchanged
  | error (e : ImportError)
  deriving DecidableEq

/-- The node is left, updated or created; the id, and what became of the file. -/
def upsertNode (host : Host) (project : Text) (spec : UpsertSpec) (existing : Option HumanNode) (now : ℕ)
    (db : Db) : Except StoreError ((ℕ × Outcome) × Db) :=
  match existing with
  | some node =>
    if spec.Unchanged node then .ok ((node.id, .unchanged), db)
    else
      match updateNode node.id spec.update now db with
      | .error e => .error e
      | .ok (_, db) => .ok ((node.id, .updated), markSynced node.id now db)
  | none =>
    match createNode host (spec.create project) now db with
    | .error e => .error e
    | .ok (node, db) => .ok ((node.id, .created), markSynced node.id now db)

/-- `null`, or a text. -/
def orNull : Option Text → Js
  | none => .null
  | some t => .str t

/-- The path of a file that a link names. -/
def linkPath (target : Text) : Text :=
  if ".md".toList.isSuffixOf target then target else target ++ ".md".toList

/-- The edge of a link to another note. -/
def mention (project : Text) (sourceNodeId : ℕ) (relPath : Text) (properties : List (Text × Js))
    (target : ℕ) : CreateHumanEdgeInput where
  project := project
  source := sourceNodeId
  targetKind := .human
  targetHumanNodeId := some target
  type := .MENTIONS
  properties := some (fieldsOf properties)
  sourceFile := some relPath

/-- The edge that a link asks for; `none` if its target is not there. -/
def wikilinkEdge (host : Host) (project : Text) (sourceNodeId : ℕ) (relPath humanBody : Text)
    (wl : Wikilink) (db : Db) : Option CreateHumanEdgeInput :=
  let shown := ("alias".toList, orNull wl.linkAlias)
  match classifyWikilinkTarget wl.target with
  | .code => (parseCodeNodeId host wl.target).map fun cbmId =>
    { project := project
      source := sourceNodeId
      targetKind := .code
      targetCbmNodeId := some cbmId
      type := inferEdgeType host humanBody wl.line
      properties := some (fieldsOf [shown, ("inferred".toList, .bool true)])
      sourceFile := some relPath }
  | .human => (db.getNodeBySlug project wl.target).map fun target =>
    mention project sourceNodeId relPath [shown] target.id
  | .path => (db.getNodeByObsidianPath project (linkPath wl.target)).map fun target =>
    mention project sourceNodeId relPath [shown, ("via".toList, .str "path".toList)] target.id
  | .unknown => none

/-- The edges of the links, one after the other; the ids of the edges that are there. An exception ends
the loop. -/
def createEdges (host : Host) (project : Text) (sourceNodeId : ℕ) (relPath humanBody : Text) (now : ℕ) :
    List Wikilink → Db → (Option StoreError × List ℕ) × Db
  | [], db => ((none, []), db)
  | wl :: rest, db =>
    match wikilinkEdge host project sourceNodeId relPath humanBody wl db with
    | none => createEdges host project sourceNodeId relPath humanBody now rest db
    | some input =>
      match createEdge input now db with
      | .error e => ((some e, []), db)
      | .ok (edge, db) =>
        let r := createEdges host project sourceNodeId relPath humanBody now rest db
        ((r.1.1, edge.id :: r.1.2), r.2)

/-- The edges of the old file of a node that was renamed. -/
def dropOldEdges (sourceNodeId : ℕ) (oldSourceFile : Option Text) (db : Db) : Db :=
  match oldSourceFile with
  | none => db
  | some file => deleteStaleEdgesFromNode sourceNodeId (some file) [] db

def processWikilinks (host : Host) (project : Text) (sourceNodeId : ℕ) (humanBody relPath : Text)
    (oldSourceFile : Option Text) (now : ℕ) (db : Db) : Option StoreError × Db :=
  let r := createEdges host project sourceNodeId relPath humanBody now (parseWikilinks humanBody)
    (dropOldEdges sourceNodeId oldSourceFile db)
  match r.1.1 with
  | some e => (some e, r.2)
  | none => (none, deleteStaleEdgesFromNode sourceNodeId (some relPath) r.1.2 r.2)

/-- The path of the node before, if it had another one. -/
def oldObsidianPath (relPath : Text) (existing : Option HumanNode) : Option Text :=
  match existing.bind HumanNode.obsidianPath with
  | none | some [] => none
  | some path => if path = relPath then none else some path

/-! ## All files -/

/-- One file whose content is known. -/
def importContent (host : Host) (project : Text) (vault : Vault) (relPath content : Text) (now : ℕ)
    (db : Db) : Outcome × Db :=
  match parseVaultFile host relPath content with
  | .error e => (.error e, db)
  | .ok spec =>
    match resolveExistingNode project vault relPath (slugify host spec.title) db with
    | .error e => (.error e, db)
    | .ok existing =>
      match upsertNode host project spec existing now db with
      | .error e => (.error (.store e), db)
      | .ok ((sourceNodeId, outcome), db) =>
        -- A note that has not changed is taken to have the same links.
        if outcome = .unchanged then (.unchanged, db)
        else
          match processWikilinks host project sourceNodeId spec.humanBody relPath
            (oldObsidianPath relPath existing) now db with
          | (some e, db) => (.error (.store e), db)
          | (none, db) => (outcome, db)

/-- The files that are not notes. -/
def isGenerated (relPath : Text) : Bool :=
  relPath = "00_Index.md".toList || "ADR-000-template.md".toList.isSuffixOf relPath

def importSingleFile (host : Host) (project : Text) (vault : Vault) (now : ℕ) (relPath : Text) (db : Db) :
    Outcome × Db :=
  if isGenerated relPath then (.skipped, db)
  else
    match vault.read relPath with
    | .failed => (.error .thrown, db)
    | .missing | .content [] => (.skipped, db)
    | .content content => importContent host project vault relPath content now db

/-- All files, each at the time that `clock` gives for it; what became of each. -/
def importFiles (host : Host) (project : Text) (vault : Vault) (clock : Text → ℕ) :
    List Text → Db → List (Text × Outcome) × Db
  | [], db => ([], db)
  | file :: rest, db =>
    let r := importSingleFile host project vault (clock file) file db
    let rs := importFiles host project vault clock rest r.2
    ((file, r.1) :: rs.1, rs.2)

def importVault (host : Host) (project : Text) (vault : Vault) (clock : Text → ℕ) (db : Db) :
    List (Text × Outcome) × Db :=
  importFiles host project vault clock vault.files db

end Ariad.Obsidian
