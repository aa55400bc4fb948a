import Ariad.Obsidian.Importer
import Ariad.Obsidian.Render

/-!
# The export of a vault

* `Folder` — the vault as `readNote` and `writeNote` see it.
* `syncSingleNode` — the file of one node: written anew, rebuilt, or left.
* `createAutoNote` — a node and a file for a module or a route of the code graph.
* `generateVault` — all nodes, the notes of modules and routes, the index and the template.
-/

namespace Ariad.Obsidian

open Human Text

/-! ## The folder -/

/-- A vault on disk. -/
structure Folder where
  /-- The file that a path names. `assertPathInsideRoot` throws for the others. -/
  locate : Text → Option Text
  /-- What is there. -/
  content : Text → ReadNote
  /-- The files that can be written. -/
  writable : Text → Bool
  /-- The files of which a backup was made, the last one first. -/
  backups : List Text

namespace Folder

def readNote (relPath : Text) (folder : Folder) : ReadNote :=
  match folder.locate relPath with
  | none => .failed
  | some file => folder.content file

/-- The content of one file is replaced. -/
def put (file content : Text) (folder : Folder) : Folder :=
  { folder with content := fun f => if f = file then .content content else folder.content f }

/-- The write itself; it can fail. -/
def overwrite (file content : Text) (folder : Folder) : Bool × Folder :=
  if folder.writable file then (true, folder.put file content) else (false, folder)

/-- `writeNote`: whether it returns, and the folder. Nothing is written when the content is there. -/
def writeNote (relPath content : Text) (backupBeforeWrite : Bool) (folder : Folder) : Bool × Folder :=
  match folder.locate relPath with
  | none => (false, folder)
  | some file =>
    match folder.content file with
    | .failed => (false, folder)
    | .missing => folder.overwrite file content
    | .content existing =>
      if existing = content then (true, folder)
      else
        (if backupBeforeWrite then { folder with backups := file :: folder.backups } else folder).overwrite
          file content

end Folder

/-! ## Options -/

structure CodeModule where
  id : Num
  name : Text
  degree : ℕ
  /-- The generated section, as `renderModuleAutoGenerated` renders it. -/
  rendered : Text

structure CodeRoute where
  id : Num
  /-- `route_method`, or `GET`. -/
  method : Text
  /-- `route_path`, or the name. -/
  path : Text
  /-- The generated section, as `renderRouteAutoGenerated` renders it. -/
  rendered : Text

/-- The code graph, as far as the export reads it. -/
structure CodeReader where
  nodes : CodeNodes
  modules : List CodeModule
  routes : List CodeRoute
  moduleCount : ℕ
  routeCount : ℕ

structure GenerateOptions where
  project : Text
  codeReader : Option CodeReader
  backupBeforeWrite : Bool
  force : Bool
  autoGenerateModuleNotes : Bool
  autoGenerateRouteNotes : Bool
  minDegreeForModuleNote : ℕ

/-- What became of the file of a node. -/
inductive Exported where
  | created
  | updated
  | unchanged
  | error
  deriving DecidableEq

/-! ## Nodes -/

/-- The node is marked if the file was written. -/
def exportFile (opts : GenerateOptions) (id : ℕ) (relPath content : Text) (outcome : Exported) (now : ℕ)
    (s : Db × Folder) : Exported × Db × Folder :=
  match s.2.writeNote relPath content opts.backupBeforeWrite with
  | (true, folder) => (outcome, markSynced id now s.1, folder)
  | (false, folder) => (.error, s.1, folder)

def syncSingleNode (host : Host) (opts : GenerateOptions) (clock : Text → ℕ) (node : HumanNode)
    (s : Db × Folder) : Exported × Db × Folder :=
  match node.obsidianPath with
  | none | some [] => (.error, s)
  | some relPath =>
    let codeNodes := opts.codeReader.map CodeReader.nodes
    match s.2.readNote relPath with
    | .failed => (.error, s)
    | .missing =>
      exportFile opts node.id relPath (renderNoteForVault host codeNodes node) .created (clock relPath) s
    | .content existing =>
      let fullContent := rebuildNoteContent host codeNodes existing node
      if normalizeForDiff fullContent ≠ normalizeForDiff existing ∨ opts.force then
        exportFile opts node.id relPath fullContent .updated (clock relPath) s
      else (.unchanged, s)

/-- The nodes one after the other, each as it was listed. -/
def syncNodes (host : Host) (opts : GenerateOptions) (clock : Text → ℕ) :
    List HumanNode → Db × Folder → List Exported × Db × Folder
  | [], s => ([], s)
  | node :: rest, s =>
    let r := syncSingleNode host opts clock node s
    let rs := syncNodes host opts clock rest r.2
    (r.1 :: rs.1, rs.2)

def syncHumanNodesToVault (host : Host) (opts : GenerateOptions) (clock : Text → ℕ) (s : Db × Folder) :
    List Exported × Db × Folder :=
  syncNodes host opts clock (s.1.listNodes opts.project s.1.nodes.length) s

/-! ## Notes of modules and routes -/

structure AutoNoteSpec where
  relPath : Text
  label : HumanNodeLabel
  title : Text
  frontmatter : JsFields
  bodyTitle : Text
  autoContent : Text
  cbmNodeIds : List Num
  tags : List Text

/-- The frontmatter of a note for a code node. -/
def autoFrontmatter (host : Host) (type nodeType : Text) (id : Num) (now : ℕ) : JsFields :=
  fieldsOf
    [("type".toList, .str type), ("source".toList, .str "generated".toList),
      ("status".toList, .str "active".toList), ("cbm_node_id".toList, .num id),
      ("cbm_node_type".toList, .str nodeType), ("last_generated".toList, .str (datePart (host.iso now)))]

def AutoNoteSpec.input (project : Text) (spec : AutoNoteSpec) : CreateHumanNodeInput where
  project := project
  label := spec.label
  title := spec.title
  bodyMarkdown := some []
  frontmatter := some spec.frontmatter
  source := some .generated
  status := some .active
  cbmNodeIds := some spec.cbmNodeIds
  tags := some spec.tags
  obsidianPath := some spec.relPath

def createAutoNote (host : Host) (opts : GenerateOptions) (now : ℕ) (spec : AutoNoteSpec)
    (s : Db × Folder) : Exported × Db × Folder :=
  let content := serializeNote host spec.frontmatter (mergeSections spec.bodyTitle spec.autoContent [])
  match createNode host (spec.input opts.project) now s.1 with
  | .error _ => (.error, s)
  | .ok (node, db) => exportFile opts node.id spec.relPath content .created now (db, s.2)

/-- One module or route: nothing if there is a file or a node at the path. `none` if the file cannot be
read, which ends the export. -/
def autoNote (host : Host) (opts : GenerateOptions) (now : ℕ) (spec : AutoNoteSpec) (s : Db × Folder) :
    Option (Db × Folder) :=
  match s.2.readNote spec.relPath with
  | .failed => none
  | .content (_ :: _) => some s
  | .content [] | .missing =>
    if (s.1.getNodeByObsidianPath opts.project spec.relPath).isSome then some s
    else some (createAutoNote host opts now spec s).2

/-- The note of a module; `none` if its degree is too low or its name has no slug. -/
def CodeModule.spec (host : Host) (minDegree : ℕ) (clock : Text → ℕ) (m : CodeModule) :
    Option AutoNoteSpec :=
  let slug := slugify host m.name
  let relPath := "Modules/".toList ++ slug ++ ".md".toList
  if m.degree < minDegree ∨ slug = [] then none
  else some
    { relPath := relPath
      label := .ModuleNote
      title := "Module: ".toList ++ m.name
      frontmatter := autoFrontmatter host "module".toList "Module".toList m.id (clock relPath)
      bodyTitle := "# Module: ".toList ++ m.name
      autoContent := m.rendered
      cbmNodeIds := [m.id]
      tags := ["module".toList, slug] }

def CodeRoute.spec (host : Host) (clock : Text → ℕ) (r : CodeRoute) : Option AutoNoteSpec :=
  let slug := slugify host (r.method ++ "-".toList ++ r.path)
  let relPath := "Routes/".toList ++ slug ++ ".md".toList
  if slug = [] then none
  else some
    { relPath := relPath
      label := .RouteNote
      title := "Route: ".toList ++ r.method ++ " ".toList ++ r.path
      frontmatter := autoFrontmatter host "route".toList "Route".toList r.id (clock relPath)
      bodyTitle := "# Route: ".toList ++ r.method ++ " ".toList ++ r.path
      autoContent := r.rendered
      cbmNodeIds := [r.id]
      tags := ["route".toList, r.method.flatMap host.lower] }

/-- The notes that the options ask for, modules first. -/
def autoSpecs (host : Host) (opts : GenerateOptions) (clock : Text → ℕ) : List AutoNoteSpec :=
  match opts.codeReader with
  | none => []
  | some reader =>
    (if opts.autoGenerateModuleNotes then
      reader.modules.filterMap (CodeModule.spec host opts.minDegreeForModuleNote clock) else []) ++
    if opts.autoGenerateRouteNotes then reader.routes.filterMap (CodeRoute.spec host clock) else []

/-- The notes one after the other, and whether the export goes on. -/
def autoNotes (host : Host) (opts : GenerateOptions) (clock : Text → ℕ) :
    List AutoNoteSpec → Db × Folder → Bool × Db × Folder
  | [], s => (true, s)
  | spec :: rest, s =>
    match autoNote host opts (clock spec.relPath) spec s with
    | none => (false, s)
    | some s => autoNotes host opts clock rest s

/-! ## The index and the template -/

/-- The numbers of the index. -/
structure VaultStats where
  modulesCount : ℕ
  routesCount : ℕ
  adrsCount : ℕ
  bugsCount : ℕ
  refactorsCount : ℕ
  notesTotal : ℕ

def countLabel (project : Text) (label : HumanNodeLabel) (db : Db) : ℕ :=
  (db.nodes.filter fun n => n.project = project ∧ n.label = label).length

def vaultStats (opts : GenerateOptions) (db : Db) : VaultStats where
  modulesCount := (opts.codeReader.map CodeReader.moduleCount).getD 0
  routesCount := (opts.codeReader.map CodeReader.routeCount).getD 0
  adrsCount := countLabel opts.project .ADR db
  bugsCount := countLabel opts.project .BugNote db
  refactorsCount := countLabel opts.project .RefactorPlan db
  notesTotal := (db.nodes.filter fun n => n.project = opts.project).length

/-- The part of the index that is always the same. -/
def vaultGuide : Text :=
  joinLines
    ["## Vault structure".toList, [],
     "- [[Architecture/overview|Architecture]] — overview, hotspots, risk map".toList,
     "- [[ADR/]] — Architecture Decision Records".toList, "- [[Modules/]] — one note per module".toList,
     "- [[Routes/]] — one note per HTTP route".toList, "- [[Refactor/]] — refactor plans".toList,
     "- [[Bugs/]] — known bugs".toList, "- [[Legacy/]] — legacy zones".toList,
     "- [[Conventions/]] — project conventions".toList,
     "- [[Prompts/]] — useful prompts for AI agents".toList, "- [[Journal/]] — activity journal".toList,
     [], "## How to use this vault".toList, [], "### For developers".toList, [],
     "1. Open the vault folder in Obsidian".toList, "2. Navigate via backlinks and wikilinks".toList,
     "3. **Edit only the `## HUMAN NOTES` section** of each note".toList,
     "4. The `## AUTO-GENERATED` section is regenerated by V2 on the next sync".toList, [],
     "### For AI agents".toList, [], "Use the V2 MCP tools:".toList, [],
     "- `get_project_overview` — executive view".toList,
     "- `get_module_context` — rich module context (code + human)".toList,
     "- `get_undocumented_hotspots` — critical modules without notes".toList,
     "- `create_human_note` — create an ADR, BugNote, etc.".toList,
     "- `link_note_to_code_node` — link a note to a code node".toList,
     "- `search_code_and_memory` — unified search".toList, [], "## Sync".toList, [], "```bash".toList,
     "# Bidirectional sync (DB ↔ vault)".toList, "cbm-v2 obsidian sync".toList, [],
     "# Preview without writing".toList, "cbm-v2 obsidian sync --dry-run".toList, [],
     "# Export only (DB → vault)".toList, "cbm-v2 obsidian export".toList, "```".toList, []]

def renderVaultIndex (projectName today : Text) (stats : VaultStats) : Text :=
  let row := fun (name : String) (n : ℕ) =>
    "| ".toList ++ name.toList ++ " | ".toList ++ Nat.toDigits 10 n ++ " |".toList
  joinLines
    ["---".toList, "type: index".toList, "project: ".toList ++ projectName,
      "last_generated: ".toList ++ today, "---".toList, [],
      "# ".toList ++ projectName ++ " — Codebase Memory Vault".toList, [],
      "> Vault generated and synced by **Codebase Memory V2**.".toList,
      "> Editable in Obsidian, VS Code (Foam), or any Markdown editor.".toList, [],
      "## Statistics".toList, [], "| Metric | Value |".toList, "|---|---|".toList,
      row "Modules" stats.modulesCount, row "Routes" stats.routesCount, row "ADRs" stats.adrsCount,
      row "Known bugs" stats.bugsCount, row "Refactors" stats.refactorsCount,
      row "Total notes" stats.notesTotal, [], vaultGuide]

def getAdrTemplate (today : Text) : Text :=
  joinLines
    ["---".toList, "type: adr".toList, "status: draft".toList, "source: human".toList,
     "last_generated: ".toList ++ today, "tags:".toList, "  - adr".toList, "---".toList, [],
     "# ADR-XXX: <title>".toList, [], "## AUTO-GENERATED".toList, [],
     "> This section is controlled by Codebase Memory V2 and may be regenerated.".toList, [],
     "### Metadata".toList, [], "- **Status** : draft".toList, "- **Date** : ".toList ++ today,
     "- **Linked to** : (no code node linked yet)".toList, [], "---".toList, [],
     "## HUMAN NOTES".toList, [], "### Context".toList, [],
     "<Describe the problem or constraint that motivates this decision>".toList, [],
     "### Decision".toList, [], "<Describe the decision made>".toList, [], "### Consequences".toList,
     [], "- <Positive consequence 1>".toList, "- <Positive consequence 2>".toList,
     "- <Negative consequence 1>".toList, [], "### Alternatives considered".toList, [],
     "- <Alternative 1> — <reason for rejection>".toList,
     "- <Alternative 2> — <reason for rejection>".toList, []]

def indexRelPath : Text := "00_Index.md".toList

def templateRelPath : Text := "ADR/ADR-000-template.md".toList

/-- The index, and the template if there is none; whether both calls return. -/
def generateVaultIndexAndTemplate (host : Host) (opts : GenerateOptions) (clock : Text → ℕ)
    (s : Db × Folder) : Bool × Db × Folder :=
  let indexContent := renderVaultIndex opts.project (datePart (host.iso (clock indexRelPath)))
    (vaultStats opts s.1)
  match s.2.writeNote indexRelPath indexContent opts.backupBeforeWrite with
  | (false, folder) => (false, s.1, folder)
  | (true, folder) =>
    match folder.readNote templateRelPath with
    | .failed => (false, s.1, folder)
    | .content (_ :: _) => (true, s.1, folder)
    | .content [] | .missing =>
      let r := folder.writeNote templateRelPath
        (getAdrTemplate (datePart (host.iso (clock templateRelPath)))) false
      (r.1, s.1, r.2)

/-! ## The export -/

/-- What became of the nodes, and whether the export returns. -/
structure GenerateResult where
  nodes : List Exported
  returned : Bool

def generateVault (host : Host) (opts : GenerateOptions) (clock : Text → ℕ) (s : Db × Folder) :
    GenerateResult × Db × Folder :=
  let r := syncHumanNodesToVault host opts clock s
  match autoNotes host opts clock (autoSpecs host opts clock) r.2 with
  | (false, s) => (⟨r.1, false⟩, s)
  | (true, s) =>
    let t := generateVaultIndexAndTemplate host opts clock s
    (⟨r.1, t.1⟩, t.2)

end Ariad.Obsidian
