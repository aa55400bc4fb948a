import Ariad.Javascript.Value

/-!
# The schema of the human memory graph

* `HumanNodeLabel`, `HumanEdgeType`, … — the enumerations.
* `HumanNode`, `HumanEdge` — the rows of `human_nodes` and `human_edges`.
* `Db` — the tables of a human database: nodes, edges and `human_node_cbm_links`.
* `Host` — what the code takes from its runtime and from the YAML package.
* `slugify`, `obsidianPathFor` — the names derived from a title.
-/

namespace Ariad.Human

inductive HumanNodeLabel where
  | ArchitectureNote
  | ADR
  | BugNote
  | RefactorPlan
  | LegacyNote
  | Convention
  | Prompt
  | JournalEntry
  | ModuleNote
  | RouteNote
  | RiskNote
  deriving DecidableEq, Repr

inductive HumanEdgeType where
  | EXPLAINS
  | DECIDES
  | AFFECTS
  | TOUCHES
  | DOCUMENTS
  | DEPRECATES
  | REPLACES
  | RISKS
  | MENTIONS
  | JUSTIFIES
  | OWNS
  | TODO_FOR
  deriving DecidableEq, Repr

inductive HumanNodeStatus where
  | draft
  | active
  | reviewed
  | deprecated
  deriving DecidableEq, Repr

inductive HumanNodeSource where
  | human
  | generated
  | mixed
  deriving DecidableEq, Repr

/-- A row of `human_nodes`. Times are milliseconds. -/
structure HumanNode where
  id : ℕ
  project : Text
  label : HumanNodeLabel
  title : Text
  slug : Text
  bodyMarkdown : Text
  /-- The object that `frontmatter_json` denotes. -/
  frontmatter : JsFields
  status : HumanNodeStatus
  source : HumanNodeSource
  obsidianPath : Option Text
  /-- The array that the column `cbm_node_ids` denotes; `none` is `null`. -/
  cbmJson : List (Option ℚ)
  tags : List Text
  confidence : Num
  sourceFile : Option Text
  author : Option Text
  createdAt : ℕ
  updatedAt : ℕ
  lastSyncedAt : Option ℕ
  deriving DecidableEq

/-- Where an edge leads: `target_kind` with the one target column that is not null. -/
inductive EdgeTarget where
  | code (cbmNodeId : Num)
  | human (humanNodeId : ℕ)
  deriving DecidableEq

/-- A row of `human_edges`. -/
structure HumanEdge where
  id : ℕ
  project : Text
  source : ℕ
  target : EdgeTarget
  type : HumanEdgeType
  /-- The object that `properties_json` denotes. -/
  properties : JsFields
  confidence : Num
  sourceFile : Option Text
  createdAt : ℕ
  deriving DecidableEq

/-- A human database. Rows stand in the order of their ids; `nextNode` and `nextEdge` are what
`AUTOINCREMENT` gives out next. -/
structure Db where
  nodes : List HumanNode
  edges : List HumanEdge
  /-- The rows of `human_node_cbm_links`: the human node and the code node. -/
  links : List (ℕ × Num)
  nextNode : ℕ
  nextEdge : ℕ
  deriving DecidableEq

/-- The database right after the migrations. -/
def Db.empty : Db := ⟨[], [], [], 1, 1⟩

/-- What the code takes from its runtime, and from the YAML package. -/
structure Host where
  /-- `toLowerCase` of one character. -/
  lower : Char → Text
  /-- The canonical decomposition of one character. -/
  nfd : Char → Text
  /-- `Number(v)`. -/
  number : Js → Num
  /-- `String(v)`. -/
  string : Js → Text
  /-- `n.toString(36)`. -/
  base36 : ℕ → Text
  /-- `toISOString` of a time. -/
  iso : ℕ → Text
  /-- `yaml.parse`; `none` when it throws. -/
  yamlParse : Text → Option Js
  /-- `yaml.stringify` of an object, keys in the order they have. -/
  yamlStringify : JsFields → Text

/-- A natural number in decimal digits. -/
def decimal (t : Text) : ℕ := t.foldl (fun n c => 10 * n + (c.toNat - '0'.toNat)) 0

/-- The runtime on ASCII texts and natural numbers, without YAML. -/
def asciiHost : Host where
  lower c := [c.toLower]
  nfd c := [c]
  number v := match v with
    | .num x => x
    | .str s => if s.all Char.isDigit then .finite (decimal s) else .nan
    | _ => .nan
  string v := match v with
    | .str s => s
    | _ => []
  base36 n := Nat.toDigits 36 n
  iso n := Nat.toDigits 10 n
  yamlParse _ := none
  yamlStringify _ := []

/-! ## The linked code nodes -/

/-- A valid id: a positive finite number. -/
def validCbmId : Num → Bool
  | .finite q => decide (0 < q)
  | _ => false

/-- How `JSON.stringify` writes a number: one that is not finite becomes `null`. -/
def jsonNum : Num → Option ℚ
  | .finite q => some q
  | _ => none

/-- The ids that `deserializeNode` reads from the column. -/
def HumanNode.cbmNodeIds (n : HumanNode) : List Num :=
  (n.cbmJson.filterMap fun x => x.map Num.finite).filter validCbmId

/-- What is read back of a written list: its valid ids. -/
theorem cbmNodeIds_of_json {n : HumanNode} {ids : List Num} (h : n.cbmJson = ids.map jsonNum) :
    n.cbmNodeIds = ids.filter validCbmId := by
  rw [HumanNode.cbmNodeIds, h]
  clear h
  induction ids with
  | nil => rfl
  | cons x ids ih =>
    cases x with
    | nan => simpa [jsonNum, validCbmId] using ih
    | infinite s => simpa [jsonNum, validCbmId] using ih
    | finite q =>
      simp only [List.map_cons, jsonNum, List.filterMap_cons, Option.map_some, List.filter_cons]
      rw [ih]

/-! ## Names -/

/-- `[a-z0-9]` -/
def isSlugChar (c : Char) : Bool := ('a' ≤ c && c ≤ 'z') || ('0' ≤ c && c ≤ '9')

/-- The combining marks that `slugify` drops. -/
def isCombiningMark (c : Char) : Bool := 0x300 ≤ c.toNat && c.toNat ≤ 0x36f

/-- Each run of other characters becomes one hyphen. The flag says that the character before was one of
a run. -/
def hyphenate (inRun : Bool) : Text → Text
  | [] => []
  | c :: t =>
    if isSlugChar c then c :: hyphenate false t
    else if inRun then hyphenate true t else '-' :: hyphenate true t

/-- No hyphens at the ends. -/
def stripHyphens (t : Text) : Text := (t.dropWhile (· == '-')).rdropWhile (· == '-')

/-- Two or more hyphens in a row become one. -/
def squeezeHyphens : Text → Text
  | [] => []
  | '-' :: '-' :: t => squeezeHyphens ('-' :: t)
  | c :: t => c :: squeezeHyphens t

def slugify (host : Host) (s : Text) : Text :=
  let folded := (s.flatMap host.lower).flatMap host.nfd
  squeezeHyphens (stripHyphens (hyphenate false (folded.filter fun c => !isCombiningMark c)))

/-- `s` without the text `p` at its start. -/
def dropPrefix (p s : Text) : Text := if p.isPrefixOf s then s.drop p.length else s

def obsidianPathFor (label : HumanNodeLabel) (slug : Text) : Text :=
  match label with
  | .ArchitectureNote => "Architecture/".toList ++ slug ++ ".md".toList
  | .ADR => "ADR/".toList ++ slug ++ ".md".toList
  | .BugNote => "Bugs/".toList ++ slug ++ ".md".toList
  | .RefactorPlan => "Refactor/".toList ++ slug ++ ".md".toList
  | .LegacyNote => "Legacy/".toList ++ slug ++ ".md".toList
  | .Convention => "Conventions/".toList ++ slug ++ ".md".toList
  | .Prompt => "Prompts/".toList ++ slug ++ ".md".toList
  | .JournalEntry => "Journal/".toList ++ slug ++ ".md".toList
  | .ModuleNote => "Modules/".toList ++ dropPrefix "module-note-".toList slug ++ ".md".toList
  | .RouteNote => "Routes/".toList ++ dropPrefix "route-note-".toList slug ++ ".md".toList
  | .RiskNote => "Architecture/risk-".toList ++ slug ++ ".md".toList

end Ariad.Human
