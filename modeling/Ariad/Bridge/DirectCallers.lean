import Mathlib.Data.Char
import Mathlib.Data.List.Lex
import Ariad.Bridge.TestPaths
import Ariad.Javascript.PlainObject

/-!
# Who calls a symbol

The call sites whose callee ends with a name, added up for the functions in which they stand. The answer says whether
it is complete.

* `callerOwnerQualifiedName` — the function in which a call stands, callbacks without a name left out.
* `callerRows` — the query, one row for each function and file.
* `groupRow` — rows of one owner in one file are added up; `toCaller`: with the node of the owner.
* `listDirectCallers` — the answer, with the reasons for which it may be incomplete.
-/

namespace Ariad.Bridge

open Keyset PlainObject

/-! ## The database -/

/-- A row of `call_sites`. -/
structure CallSiteRow where
  project : Text
  filePath : Text
  sourceQn : Text
  lastSegment : Text
  line : ℕ
  deriving DecidableEq

/-- The columns of `projects` that are read. -/
structure ProjectCallSiteStatusRow where
  name : Text
  crossFileCallsStale : Option ℤ
  callSitesInitialized : Option ℤ

/-- The tables that are read. A table that is not there makes the query throw. -/
structure CallerDb where
  graph : CodeGraph
  startLine : CodeNode → Option ℕ
  projects : Option (List ProjectCallSiteStatusRow)
  callSites : Option (List CallSiteRow)

/-! ## Owners -/

/-- `split('::')` -/
def splitColons : Text → List Text
  | [] => [[]]
  | ':' :: ':' :: t => [] :: splitColons t
  | c :: t =>
    match splitColons t with
    | [] => [[c]]
    | part :: parts => (c :: part) :: parts

/-- `/^(?:anonymous#\d+|<anonymous>)$/` -/
def isAnonymous (part : Text) : Bool :=
  part = "<anonymous>".toList ||
    ("anonymous#".toList.isPrefixOf part && part.drop 10 ≠ [] && (part.drop 10).all fun c => c.isDigit)

/-- The loop that takes anonymous parts off the end; the last part stands first. -/
def popAnonymous : List Text → List Text
  | last :: previous :: parts => if isAnonymous last then popAnonymous (previous :: parts) else last :: previous :: parts
  | parts => parts

def callerOwnerQualifiedName (qualifiedName : Text) : Text :=
  "::".toList.intercalate (popAnonymous (splitColons qualifiedName).reverse).reverse

/-! ## Queries -/

variable (db : CallerDb) (project symbol : Text)

/-- `SELECT * FROM nodes WHERE project = ? AND name = ?` -/
def nodesNamed : List CodeNode := (db.graph.projectNodes project).filter fun n => n.name = symbol

def findNodesByName (limit : ℕ) : List CodeNode := (nodesNamed db project symbol).take limit

/-- The call sites of a symbol. -/
def sitesOf (callSites : List CallSiteRow) : List CallSiteRow :=
  callSites.filter fun r => r.project = project && r.lastSegment = symbol

/-- The ones that the statements select: with `productionFilter`, unless tests are included. -/
def selectedSites (includeTests : Bool) (callSites : List CallSiteRow) : List CallSiteRow :=
  (sitesOf project symbol callSites).filter fun r => includeTests || !sqlTestPath r.filePath

structure DirectCallerRow where
  sourceQn : Text
  filePath : Text
  callSites : ℕ
  firstCallLine : ℕ

/-- `GROUP BY source_qn, file_path ORDER BY source_qn, file_path LIMIT ?` -/
def callerRows (sites : List CallSiteRow) (limit : ℕ) : List DirectCallerRow :=
  let rows := (Rows.groups (fun r : CallSiteRow => (r.sourceQn, r.filePath)) sites).map fun group =>
    (⟨group.1.1, group.1.2, group.2.length, (Rows.least (group.2.map CallSiteRow.line)).getD 0⟩ : DirectCallerRow)
  (orderBy (fun r => toLex (r.sourceQn, r.filePath)) rows).take limit

/-! ## Callers -/

structure GroupedCaller where
  qualifiedName : Text
  filePath : Text
  callSites : ℕ
  firstCallLine : ℕ
  deriving DecidableEq

/-- The key has a NUL between the name and the path, which no path has. -/
def groupKey (row : DirectCallerRow) : Text × Text :=
  (callerOwnerQualifiedName row.sourceQn, normalizePathForSearch row.filePath)

def addRow (row : DirectCallerRow) : Option GroupedCaller → GroupedCaller
  | some existing => { existing with
      callSites := existing.callSites + row.callSites
      firstCallLine := min existing.firstCallLine row.firstCallLine }
  | none => ⟨(groupKey row).1, (groupKey row).2, row.callSites, row.firstCallLine⟩

def groupRow (grouped : OrderedMap (Text × Text) GroupedCaller) (row : DirectCallerRow) :
    OrderedMap (Text × Text) GroupedCaller :=
  grouped.set (groupKey row) (addRow row (grouped.get (groupKey row)))

/-- The nodes with the names, the first one by id of each. -/
def ownerNodes (names : List Text) : OrderedMap Text CodeNode :=
  (orderBy CodeNode.id ((db.graph.projectNodes project).filter fun n => n.qualifiedName ∈ names)).foldl
    (fun m n => if m.has n.qualifiedName then m else m.set n.qualifiedName n) .empty

structure DirectCallerSummary where
  name : Text
  qualifiedName : Text
  path : Text
  definitionLine : ℕ
  callSites : ℕ
  deriving DecidableEq

def toCaller (owners : OrderedMap Text CodeNode) (row : GroupedCaller) : DirectCallerSummary :=
  let owner := owners.get row.qualifiedName
  { name := (owner.map CodeNode.name).getD ((splitColons row.qualifiedName).getLastD row.qualifiedName)
    qualifiedName := row.qualifiedName
    path := normalizePathForSearch ((owner.map CodeNode.filePath).getD row.filePath)
    definitionLine := (owner.bind db.startLine).getD row.firstCallLine
    callSites := row.callSites }

def compareCallers (left right : DirectCallerSummary) : Ordering :=
  (stableStringCompare left.name right.name).then <|
    (stableStringCompare left.path right.path).then <|
      (compare left.definitionLine right.definitionLine).then <|
        stableStringCompare left.qualifiedName right.qualifiedName

/-! ## The answer -/

inductive IncompleteReason where
  | targetSearchTruncated
  | targetNotFound
  | targetAmbiguous
  | targetCandidatesTruncated
  | projectStatusUnavailable
  | callSitesNotInitialized
  | crossFileCallsStale
  | crossFileCallStatusUnknown
  | callSitesUnavailable
  | callersTruncated
  | callerNamesAmbiguous
  deriving DecidableEq

def IncompleteReason.text : IncompleteReason → Text
  | targetSearchTruncated => "target_search_truncated".toList
  | targetNotFound => "target_not_found".toList
  | targetAmbiguous => "target_ambiguous".toList
  | targetCandidatesTruncated => "target_candidates_truncated".toList
  | projectStatusUnavailable => "project_status_unavailable".toList
  | callSitesNotInitialized => "call_sites_not_initialized".toList
  | crossFileCallsStale => "cross_file_calls_stale".toList
  | crossFileCallStatusUnknown => "cross_file_call_status_unknown".toList
  | callSitesUnavailable => "call_sites_unavailable".toList
  | callersTruncated => "callers_truncated".toList
  | callerNamesAmbiguous => "caller_names_ambiguous".toList

/-- `[...new Set(reasons)].sort()` -/
def sortedReasons (reasons : List IncompleteReason) : List IncompleteReason :=
  sortBy (fun a b => stableStringCompare a.text b.text) reasons.dedup

structure TargetCandidate where
  qualifiedName : Text
  path : Text
  definitionLine : Option ℕ
  deriving DecidableEq

structure DirectCallerAggregation where
  symbol : Text
  targetCandidates : List TargetCandidate
  callers : List DirectCallerSummary
  callersByName : OrderedMap Text Counter
  totalCallSites : ℕ
  callersTruncated : Bool
  complete : Bool
  incompleteReasons : List IncompleteReason
  deriving DecidableEq

/-- The nodes with the name that are no tests, among the first thousand. -/
def targetNodes (includeTests : Bool) : List CodeNode :=
  ((findNodesByName db project symbol 1001).take 1000).filter fun n => includeTests || !isTestSourcePath n.filePath

def toTarget (n : CodeNode) : TargetCandidate := ⟨n.qualifiedName, normalizePathForSearch n.filePath, db.startLine n⟩

def targetReasons (includeTests : Bool) : List IncompleteReason :=
  let targets := targetNodes db project symbol includeTests
  (if 1000 < (findNodesByName db project symbol 1001).length then [.targetSearchTruncated] else []) ++
    (if targets.length = 0 then [.targetNotFound] else []) ++ (if 1 < targets.length then [.targetAmbiguous] else []) ++
      if 20 < targets.length then [.targetCandidatesTruncated] else []

def statusReasons : List IncompleteReason :=
  match db.projects with
  | none => [.projectStatusUnavailable]
  | some projects =>
    match Rows.get ProjectCallSiteStatusRow.name project projects with
    | none => [.projectStatusUnavailable]
    | some status =>
      (if status.callSitesInitialized = some 1 then [] else [.callSitesNotInitialized]) ++
        if status.crossFileCallsStale = some 1 then [.crossFileCallsStale]
        else if status.crossFileCallsStale = some 0 then [] else [.crossFileCallStatusUnknown]

/-- The callers of the rows. -/
def callersOf (rows : List DirectCallerRow) : List DirectCallerSummary :=
  let grouped := (rows.foldl groupRow .empty).entries.map Prod.snd
  let ownerQualifiedNames := (grouped.map GroupedCaller.qualifiedName).dedup
  sortBy compareCallers (grouped.map (toCaller db (ownerNodes db project ownerQualifiedNames)))

def safeLimit (limit : Option ℤ) : ℕ := (max 1 (min 1000 (limit.getD 200))).toNat

def listDirectCallers (includeTests : Bool) (limit : Option ℤ) : DirectCallerAggregation :=
  let targetCandidates := ((targetNodes db project symbol includeTests).map (toTarget db)).take 20
  let reasons := targetReasons db project symbol includeTests ++ statusReasons db project
  match db.callSites with
  | none => ⟨symbol, targetCandidates, [], .empty, 0, false, false, sortedReasons (reasons ++ [.callSitesUnavailable])⟩
  | some callSites =>
    let sites := selectedSites project symbol includeTests callSites
    let rows := callerRows sites (safeLimit limit + 1)
    let callersTruncated := decide (safeLimit limit < rows.length)
    let callers := callersOf db project (if callersTruncated then rows.take (safeLimit limit) else rows)
    let ambiguous := (OrderedMap.tally DirectCallerSummary.name callers).entries.any fun e => 1 < e.2
    let reasons := sortedReasons (reasons ++ (if callersTruncated then [.callersTruncated] else []) ++
      if ambiguous then [.callerNamesAmbiguous] else [])
    ⟨symbol, targetCandidates, callers, PlainObject.countRows DirectCallerSummary.name DirectCallerSummary.callSites callers,
      sites.length, callersTruncated, reasons.isEmpty, reasons⟩

end Ariad.Bridge
