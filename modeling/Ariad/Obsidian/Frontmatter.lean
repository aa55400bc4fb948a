import Ariad.Human.Schema

/-!
# Notes as text

A note of the vault: YAML frontmatter between two lines `---`, and a body with the sections
`## AUTO-GENERATED` and `## HUMAN NOTES`.

* `parseNote`, `serializeNote` — frontmatter and body.
* `splitSections`, `mergeSections` — the sections of a body.
* `buildFrontmatter`, `parseCbmNodeIds`, `parseTags` — the fields of the frontmatter.
-/

namespace Ariad.Obsidian

open Human Text

/-! ## Frontmatter and body -/

structure ParsedNote where
  frontmatter : JsFields
  body : Text

/-- The line that opens and closes the frontmatter. -/
def delimiter : Text := "---".toList

/-- What `yaml.parse` returns, as an object. -/
def asObject : Option Js → JsFields
  | some (.obj fields) => fields
  | _ => .nil

/-- The text without a byte order mark. -/
def stripBom : Text → Text
  | '\uFEFF' :: t => t
  | t => t

def parseNote (host : Host) (content : Text) : ParsedNote :=
  let cleanContent := stripBom content
  match splitLines cleanContent with
  | [] => ⟨.nil, cleanContent⟩
  | first :: rest =>
    if first ≠ delimiter then ⟨.nil, cleanContent⟩
    else
      match rest.findIdx? (· = delimiter) with
      | none => ⟨.nil, cleanContent⟩
      | some i =>
        -- Malformed YAML counts as an empty frontmatter.
        ⟨asObject (host.yamlParse (joinLines (rest.take i))), joinLines (rest.drop (i + 1))⟩

def serializeNote (host : Host) (frontmatter : JsFields) (body : Text) : Text :=
  "---\n".toList ++ trim (host.yamlStringify frontmatter) ++ "\n---\n\n".toList ++ body

/-! ## Sections -/

def autoMarker : Text := "## AUTO-GENERATED".toList

def humanMarker : Text := "## HUMAN NOTES".toList

/-- The character of the fence that a line starts. -/
def fenceOf (line : Text) : Option Char :=
  if "```".toList.isPrefixOf line then some '`'
  else if "~~~".toList.isPrefixOf line then some '~'
  else none

/-- The fence that is open after a line, given the one that is open before it. A line that starts with
the character of the open fence three times closes it. -/
def fenceStep (fence : Option Char) (line : Text) : Option Char :=
  match fence with
  | none => fenceOf line
  | some c => if [c, c, c].isPrefixOf line then none else some c

/-- The first line outside of fences that is the marker, white space aside. -/
def markerIdx (marker : Text) (fence : Option Char) : List Text → Option ℕ
  | [] => none
  | line :: rest =>
    if fence = none ∧ fenceOf line = none ∧ trim line = marker then some 0
    else (markerIdx marker (fenceStep fence line) rest).map (· + 1)

/-- `substring` from the start of line `i` to the start of line `j`. -/
def textBetween (ls : List Text) (i j : ℕ) : Text := ((ls.take j).drop i).flatMap (· ++ ['\n'])

/-- `substring` from the start of line `i`. -/
def textFrom (ls : List Text) (i : ℕ) : Text := joinLines (ls.drop i)

/-- `replace(/^marker\r?\n?/, '')`. -/
def stripMarker (marker t : Text) : Text :=
  if marker.isPrefixOf t then
    match t.drop marker.length with
    | '\r' :: '\n' :: rest => rest
    | '\r' :: rest => rest
    | '\n' :: rest => rest
    | rest => rest
  else t

structure SplitSections where
  autoGenerated : Text
  humanNotes : Text
  preSectionContent : Text
  deriving DecidableEq

def splitSections (body : Text) : SplitSections :=
  let ls := lines body
  match markerIdx autoMarker none ls, markerIdx humanMarker none ls with
  | none, none => ⟨[], body, []⟩
  | some auto, some human =>
    if human < auto then
      -- Reversed order: the notes end where the generated section starts.
      ⟨[], trim (stripMarker humanMarker (textBetween ls human auto)), textBetween ls 0 human⟩
    else
      ⟨trim (stripMarker autoMarker (textBetween ls auto human)),
        trim (stripMarker humanMarker (textFrom ls human)), textBetween ls 0 auto⟩
  | some auto, none => ⟨trim (stripMarker autoMarker (textFrom ls auto)), [], textBetween ls 0 auto⟩
  | none, some human => ⟨[], trim (stripMarker humanMarker (textFrom ls human)), textBetween ls 0 human⟩

/-- What stands in an empty `## HUMAN NOTES` section. -/
def placeholder : Text :=
  ("> ✏️ This section belongs to the user. It will **never** be overwritten by " ++
    "Codebase Memory V2.").toList

def mergeSections (preSectionContent autoGenerated humanNotes : Text) : Text :=
  joinLines
    ((if trim preSectionContent = [] then [] else [trim preSectionContent, []]) ++
      [autoMarker, []] ++
      (if trim autoGenerated = [] then [] else [trim autoGenerated, []]) ++
      [delimiter, [], humanMarker, []] ++
      if trim humanNotes = [] then [placeholder, []] else [trim humanNotes])

/-! ## Fields of the frontmatter -/

def mapLabelToType : HumanNodeLabel → Text
  | .ArchitectureNote => "architecture".toList
  | .ADR => "adr".toList
  | .BugNote => "bug".toList
  | .RefactorPlan => "refactor".toList
  | .LegacyNote => "legacy".toList
  | .Convention => "convention".toList
  | .Prompt => "prompt".toList
  | .JournalEntry => "journal".toList
  | .ModuleNote => "module".toList
  | .RouteNote => "route".toList
  | .RiskNote => "risk".toList

def statusText : HumanNodeStatus → Text
  | .draft => "draft".toList
  | .active => "active".toList
  | .reviewed => "reviewed".toList
  | .deprecated => "deprecated".toList

def sourceText : HumanNodeSource → Text
  | .human => "human".toList
  | .generated => "generated".toList
  | .mixed => "mixed".toList

/-- The fields of a list, in its order. -/
def fieldsOf (l : List (Text × Js)) : JsFields := l.foldr (fun f o => .cons f.1 f.2 o) .nil

/-- Ids and tags are there even when they are empty, so that they replace what the file has. -/
def buildFrontmatter (host : Host) (node : HumanNode) : JsFields :=
  fieldsOf
    ([("type".toList, .str (mapLabelToType node.label)), ("source".toList, .str (sourceText node.source)),
      ("status".toList, .str (statusText node.status))] ++
      (match node.lastSyncedAt with
        | none => []
        | some t => [("last_synced".toList, .str (host.iso t))]) ++
      [("cbm_node_ids".toList, .arr (.ofList (node.cbmNodeIds.map .num))),
        ("tags".toList, .arr (.ofList (node.tags.map .str)))])

/-- A field that is there and not `null`. -/
def given (k : Text) (fm : JsFields) : Option Js :=
  match fm.get k with
  | none | some .null => none
  | some v => some v

def notNaN (x : Num) : Bool := decide (x ≠ .nan)

def parseCbmNodeIds (host : Host) (fm : JsFields) : List Num :=
  match (given "cbm_node_id".toList fm).or (given "cbm_node_ids".toList fm) with
  | some (.arr items) => (items.toList.map host.number).filter notNaN
  | some (.num x) => [x]
  | some (.str s) => [host.number (.str s)].filter notNaN
  | _ => []

def parseTags (host : Host) (fm : JsFields) : List Text :=
  match given "tags".toList fm with
  | some (.arr items) => items.toList.map host.string
  | some (.str s) => ((s.splitOn ',').map trim).filter (· ≠ [])
  | _ => []

end Ariad.Obsidian
