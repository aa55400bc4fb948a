import Ariad.Obsidian.Frontmatter

/-!
# Notes as the export writes them

* `mergeFrontmatter` — the fields of the file under those of the node.
* `renderAutoGeneratedSection` — the generated section of a node.
* `renderNoteForVault`, `rebuildNoteContent` — a new file, and a file that is there already.
* `normalizeForDiff` — what of two contents is compared.
-/

namespace Ariad.Obsidian

open Human Text

/-! ## Frontmatter -/

/-- The keys that the file may keep. -/
def editorialKeys : List Text := ["title".toList, "description".toList, "notes".toList]

/-- A field that is missing or `null`. -/
def isNullish (v : Option Js) : Bool :=
  match v with
  | none | some .null => true
  | some _ => false

/-- The fields of `fresh`, one after the other, over those of `result`. -/
def assignFields : JsFields → JsFields → JsFields
  | .nil, result => result
  | .cons k v rest, result =>
    assignFields rest (if k ∉ editorialKeys ∨ isNullish (result.get k) then result.assign k v else result)

/-- The node wins for technical keys, the file for editorial ones. A `last_generated` of the file is
dropped. -/
def mergeFrontmatter (existing fresh : JsFields) : JsFields :=
  let result := assignFields fresh existing
  if (fresh.get "last_generated".toList).isNone then result.erase "last_generated".toList else result

/-! ## The generated section -/

def labelText : HumanNodeLabel → Text
  | .ArchitectureNote => "ArchitectureNote".toList
  | .ADR => "ADR".toList
  | .BugNote => "BugNote".toList
  | .RefactorPlan => "RefactorPlan".toList
  | .LegacyNote => "LegacyNote".toList
  | .Convention => "Convention".toList
  | .Prompt => "Prompt".toList
  | .JournalEntry => "JournalEntry".toList
  | .ModuleNote => "ModuleNote".toList
  | .RouteNote => "RouteNote".toList
  | .RiskNote => "RiskNote".toList

/-- What a code node shows, each field as the text that a template makes of it. -/
structure CodeNode where
  label : Text
  name : Text
  filePath : Text
  startLine : Text

/-- The code graph, as far as rendering reads it: the code node with an id. -/
abbrev CodeNodes := Num → Option CodeNode

/-- `t.split('T')[0]` of an ISO time. -/
def datePart (t : Text) : Text := t.takeWhile (· ≠ 'T')

/-- `- **name** : value`. -/
def metadataLine (name : String) (value : Text) : Text :=
  "- **".toList ++ name.toList ++ "** : ".toList ++ value

def codeLinkLine (host : Host) (codeNodes : Option CodeNodes) (cbmId : Num) : Text :=
  let link := "- [[".toList ++ host.string (.num cbmId) ++ "]]".toList
  match codeNodes with
  | none => link
  | some nodes =>
    match nodes cbmId with
    | some n => link ++ " — ".toList ++ n.label ++ ":".toList ++ n.name ++ " (`".toList ++ n.filePath ++
        ":".toList ++ n.startLine ++ "`)".toList
    | none => link ++ " — *(code node not found)*".toList

def metadataLines (host : Host) (node : HumanNode) : List Text :=
  ["### Metadata".toList, [], metadataLine "Type" (labelText node.label),
    metadataLine "Status" (statusText node.status), metadataLine "Source" (sourceText node.source),
    metadataLine "Slug" node.slug, metadataLine "Created" (datePart (host.iso node.createdAt)),
    metadataLine "Updated" (datePart (host.iso node.updatedAt))] ++
    (match node.author with
      | none | some [] => []
      | some author => [metadataLine "Author" author]) ++
    [[]]

def renderAutoGeneratedSection (host : Host) (codeNodes : Option CodeNodes) (node : HumanNode) : Text :=
  joinLines
    (["> ⚠️ This section is controlled by Codebase Memory V2 and may be regenerated.".toList,
        "> Do not edit — your changes would be lost on the next sync.".toList, []] ++
      metadataLines host node ++
      (if node.cbmNodeIds = [] then []
        else ["### Links to code".toList, []] ++ node.cbmNodeIds.map (codeLinkLine host codeNodes) ++ [[]]) ++
      if node.tags = [] then []
      else ["### Tags".toList, [], [' '].intercalate (node.tags.map ('#' :: ·)), []])

/-! ## Contents -/

/-- The content of a new file. -/
def renderNoteForVault (host : Host) (codeNodes : Option CodeNodes) (node : HumanNode) : Text :=
  serializeNote host (buildFrontmatter host node)
    (mergeSections ("# ".toList ++ node.title) (renderAutoGeneratedSection host codeNodes node)
      node.bodyMarkdown)

/-- The content of a file that is there: its notes are kept, and what stands before the sections. -/
def rebuildNoteContent (host : Host) (codeNodes : Option CodeNodes) (existingContent : Text)
    (node : HumanNode) : Text :=
  let parsed := parseNote host existingContent
  let sections := splitSections parsed.body
  serializeNote host (mergeFrontmatter parsed.frontmatter (buildFrontmatter host node))
    (mergeSections sections.preSectionContent (renderAutoGeneratedSection host codeNodes node)
      sections.humanNotes)

/-- `s.replace(/^last_synced:[^\n]*\n?/gm, '')`. The flags say that a line starts here, and that a line is
being dropped. -/
def dropLastSynced (lineStart dropping : Bool) : Text → Text
  | [] => []
  | c :: t =>
    if dropping then
      if c = '\n' then dropLastSynced true false t else dropLastSynced false true t
    else if lineStart && "last_synced:".toList.isPrefixOf (c :: t) then dropLastSynced false true t
    else c :: dropLastSynced (isTerminator c) false t

def normalizeForDiff (s : Text) : Text := dropLastSynced true false s

end Ariad.Obsidian
