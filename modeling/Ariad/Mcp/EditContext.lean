import Ariad.Bridge.BulkQueries
import Ariad.Bridge.ExactPages
import Ariad.Human.Store

/-!
# Before an edit

`prepare_edit_context` tells an agent in one sentence what is known about a file: it looks for the nodes whose path
contains the query, and for their degrees and notes. Each of its statements may fail, and most failures are taken for
an answer without rows.

* `prepareEditContext` — the tool, up to the warnings it gives; without one it says `SAFE TO EDIT`.
* `Sound` — what that sentence says about the nodes.
* `prepareEditContext_sound_iff` — the statements without which it says too much.
-/

namespace Ariad.Mcp

open Bridge Human Keyset List

/-! ## Risk -/

/-- The arithmetic of the runtime, on numbers other than `NaN`. -/
structure Arithmetic (R : Type) where
  ofRat : ℚ → R
  add : R → R → R
  mul : R → R → R
  div : R → R → R

variable {R : Type} [LinearOrder R]

/-- The score is `NaN` if the complexity is: `none`. -/
def Arithmetic.computeRiskScore (A : Arithmetic R) (degree : ℕ) (complexity : Option R) (notesCount : ℕ) : Option R :=
  complexity.map fun complexity =>
    let degreeScore := min (A.div (A.ofRat degree) (A.ofRat 100)) (A.ofRat 1)
    let complexityScore := min (A.div complexity (A.ofRat 20)) (A.ofRat 1)
    let documentationPenalty := A.ofRat (if 0 < degree ∧ notesCount = 0 then 0.2 else 0)
    min (A.add (A.add (A.mul degreeScore (A.ofRat 0.5)) (A.mul complexityScore (A.ofRat 0.3))) documentationPenalty)
      (A.ofRat 1)

/-- What has to be right about the arithmetic: two scores, on their sides of the limit. -/
structure Arithmetic.Reliable (A : Arithmetic R) : Prop where
  zero : A.ofRat 0 < A.ofRat 0.7
  idle : ∃ x, A.computeRiskScore 0 (some (A.ofRat 20)) 0 = some x ∧ x < A.ofRat 0.7
  busy : ∃ x, A.computeRiskScore 100 (some (A.ofRat 20)) 0 = some x ∧ A.ofRat 0.7 ≤ x

/-! ## The tool -/

inductive RelationshipType where
  | CALLS
  | IMPORTS
  deriving DecidableEq

def RelationshipType.text : RelationshipType → Text
  | CALLS => "CALLS".toList
  | IMPORTS => "IMPORTS".toList

def relationshipType (node : CodeNode) : RelationshipType :=
  if node.label = "File".toList ∨ node.label = "Module".toList then .IMPORTS else .CALLS

/-- The statements that the warnings depend on. -/
inductive EditStatement where
  | projectRoot
  | findNodes
  | degrees (type : RelationshipType) (side : Side)
  | notes
  /-- All notes, after the statement with a window function has failed. -/
  | allNotes
  | noteCounts
  | activeCounts

structure EditState (R : Type) where
  graph : CodeGraph
  /-- `complexity_avg ?? complexity ?? 0` as a number: `none` is `NaN`, and some objects throw. -/
  complexity : CodeNode → Except Unit (Option R)
  human : Db
  project : Text
  rootPath : Option Text
  toLowerCase : Text → Text
  /-- The score of `getGraphFreshness`, which is 0 where it fails. -/
  freshness : R

variable (A : Arithmetic R) (fails : EditStatement → Bool) (s : EditState R)

/-- `slice(units)`; the other half of a pair that is cut goes as well. -/
def sliceUnits : ℕ → Text → Text
  | 0, t => t
  | _, [] => []
  | n + 1, c :: t => sliceUnits (n + 1 - (utf16 c).length) t

/-- The query, and before it the query from the root of the project on. -/
def searchTerms (normalizedQuery : Text) : List Text :=
  match if fails .projectRoot then none else s.rootPath with
  | none | some [] => [normalizedQuery]
  | some root =>
    let rootPrefix := (normalizePathForSearch root).rdropWhile (· = '/') ++ ['/']
    let relativeQuery := sliceUnits (rootPrefix.flatMap utf16).length normalizedQuery
    if (s.toLowerCase rootPrefix).isPrefixOf (s.toLowerCase normalizedQuery) ∧ relativeQuery ≠ [] then
      [relativeQuery, normalizedQuery]
    else [normalizedQuery]

/-- The nodes whose path contains one of the terms. -/
def pathMatches (normalizedQuery : Text) : List CodeNode :=
  orderBy CodeNode.id ((s.graph.projectNodes s.project).filter fun n =>
    (searchTerms fails s normalizedQuery).any fun t => Bridge.likeContains t (slashes n.filePath))

def findNodesByFilePath (filePathSubstr : Text) (limit : ℕ) : Except Unit (List CodeNode) :=
  let normalizedQuery := normalizePathForSearch filePathSubstr
  if normalizedQuery = [] then .ok []
  else if fails .findNodes then .error ()
  else .ok ((pathMatches fails s normalizedQuery).take limit)

/-- `COUNT(*)` of the edges of a type on one side of a node. -/
def typedDegree (type : RelationshipType) (side : Side) (id : ℕ) : ℕ :=
  s.graph.edges.countP fun e => side.anchor e = id ∧ e.type = type.text

/-- `getBulkNodeDegreesSplit` at one of its ids: nothing is counted after a failure. -/
def degreesSplit (type : RelationshipType) (id : ℕ) : SplitDegree :=
  if fails (.degrees type .out) then ⟨0, 0⟩
  else ⟨if fails (.degrees type .inn) then 0 else typedDegree s type .inn id, typedDegree s type .out id⟩

/-- The notes of the project that are linked to a node. -/
def linkedNotes (id : ℕ) : List HumanNode :=
  s.human.nodes.filter fun n => n.project = s.project && s.human.links.contains (n.id, .finite id)

/-- `getBulkNotesByCbmNodeIds` at one of its ids. -/
def notesOf (id : ℕ) (limit : ℕ) : List HumanNode :=
  if fails .notes && fails .allNotes then []
  else (orderBy (fun n => toLex (OrderDual.toDual n.updatedAt, n.id)) (linkedNotes s id)).take limit

/-- `getBulkNoteCountsByCbmNodeIds` at one of its ids. -/
def noteCount (id : ℕ) : ℕ := if fails .noteCounts then 0 else (linkedNotes s id).length

/-- An active note with the label. -/
def activeAs (label : HumanNodeLabel) (n : HumanNode) : Bool := n.label = label ∧ n.status = .active

def activeCount (label : HumanNodeLabel) (id : ℕ) : ℕ := (linkedNotes s id).countP (activeAs label)

/-- `getBulkActiveNoteLabelCountsByCbmNodeIds` at one of its ids and a label. -/
def activeNoteLabelCount (label : HumanNodeLabel) (id : ℕ) : ℕ :=
  if fails .activeCounts then 0 else activeCount s label id

/-- What the tool finds out about a node. -/
structure NodeContext (R : Type) where
  humanNotes : List HumanNode
  notesTruncated : Bool
  riskScore : Option R

/-- The body of the loop over the nodes, for a node whose complexity does not throw. -/
def nodeContext (node : CodeNode) : NodeContext R :=
  let splitDegree := degreesSplit fails s (relationshipType node) node.id
  let humanNotesProbe := notesOf fails s node.id 201
  let riskRelevantNotesCount :=
    activeNoteLabelCount fails s .BugNote node.id + activeNoteLabelCount fails s .RefactorPlan node.id
  { humanNotes := humanNotesProbe.take 200
    notesTruncated := 200 < noteCount fails s node.id || 200 < humanNotesProbe.length
    riskScore := A.computeRiskScore (splitDegree.inDegree + splitDegree.outDegree) (s.complexity node).toOption.join
      riskRelevantNotesCount }

inductive EditWarning where
  | highRisk
  | knownBugs
  | refactorPlans
  | conventions
  | notesTruncated
  | notAnalyzed
  | staleData
  deriving DecidableEq

/-- `NaN` is above nothing. -/
def maxRiskScore (contexts : List (NodeContext R)) : R :=
  (contexts.filterMap NodeContext.riskScore).foldl (fun maxRiskScore riskScore =>
    if maxRiskScore < riskScore then riskScore else maxRiskScore) (A.ofRat 0)

def warnings (matchingNodes : ℕ) (contexts : List (NodeContext R)) : List EditWarning :=
  let linked (label : HumanNodeLabel) : Bool := contexts.any fun c => c.humanNotes.any (activeAs label)
  ([(.highRisk, decide (A.ofRat 0.7 ≤ maxRiskScore A contexts)), (.knownBugs, linked .BugNote),
    (.refactorPlans, linked .RefactorPlan), (.conventions, linked .Convention),
    (.notesTruncated, contexts.any NodeContext.notesTruncated), (.notAnalyzed, contexts.length < matchingNodes),
    (.staleData, decide (s.freshness < A.ofRat 0.5))].filter Prod.snd).map Prod.fst

inductive EditAnswer where
  | error
  | notFound
  /-- `SAFE TO EDIT` without warnings, else `PROCEED WITH CAUTION`. -/
  | found (warnings : List EditWarning)

/-- The answer for the nodes that were found, of which the first 20 are analyzed. -/
def answer (found : List CodeNode) : EditAnswer :=
  let matchingNodes := found.take 50
  let analyzed := matchingNodes.take 20
  if found = [] then .notFound
  else if ∃ n ∈ analyzed, (s.complexity n).toOption = none then .error
  else .found (warnings A s matchingNodes.length (analyzed.map (nodeContext A fails s)))

def prepareEditContext (filePath : Text) : EditAnswer :=
  match findNodesByFilePath fails s filePath 51 with
  | .error _ => .error
  | .ok found => answer A fails s found

/-! ## What the sentence says -/

/-- The score from the degrees and notes that the databases have. -/
def exactRiskScore (n : CodeNode) : Option R :=
  A.computeRiskScore (typedDegree s (relationshipType n) .inn n.id + typedDegree s (relationshipType n) .out n.id)
    (s.complexity n).toOption.join (activeCount s .BugNote n.id + activeCount s .RefactorPlan n.id)

/-- **`SAFE TO EDIT` is true**: no node of the path has an active note of the three kinds, or a high risk. -/
def Sound (filePath : Text) : Prop :=
  prepareEditContext A fails s filePath = .found [] →
    ∀ n ∈ s.graph.projectNodes s.project, Text.includes (normalizePathForSearch filePath) (slashes n.filePath) →
      (∀ label ∈ [HumanNodeLabel.BugNote, .RefactorPlan, .Convention], activeCount s label n.id = 0) ∧
        ∃ x, exactRiskScore A s n = some x ∧ x < A.ofRat 0.7

/-- The complexities are numbers. -/
def EditState.Numeric : Prop := ∀ n ∈ s.graph.nodes, s.complexity n ≠ .ok none

/-! ## What it takes -/

section Sound

variable {A fails s} {filePath : Text} {contexts : List (NodeContext R)} {id matchingNodes : ℕ}

theorem maxRiskScore_lt_iff {x : R} :
    maxRiskScore A contexts < x ↔ A.ofRat 0 < x ∧ ∀ c ∈ contexts, ∀ y, c.riskScore = some y → y < x := by
  have hfold (scores : List R) (best : R) :
      scores.foldl (fun best y => if best < y then y else best) best < x ↔ best < x ∧ ∀ y ∈ scores, y < x := by
    induction scores generalizing best with
    | nil => simp
    | cons y scores ih =>
      rw [foldl_cons, ih, forall_mem_cons]
      by_cases h : best < y
      · rw [if_pos h]
        exact ⟨fun hy => ⟨h.trans hy.1, hy⟩, And.right⟩
      · rw [if_neg h]
        exact ⟨fun hb => ⟨hb.1, (not_lt.mp h).trans_lt hb.1, hb.2⟩, fun hb => ⟨hb.1, hb.2.2⟩⟩
  rw [maxRiskScore, hfold]
  simp only [mem_filterMap]
  exact and_congr_right fun _ => ⟨fun h c hc y hy => h y ⟨c, hc, hy⟩, fun h y ⟨c, hc, hy⟩ => h c hc y hy⟩

theorem warnings_eq_nil_iff :
    warnings A s matchingNodes contexts = [] ↔
      maxRiskScore A contexts < A.ofRat 0.7 ∧
        (∀ label ∈ [HumanNodeLabel.BugNote, .RefactorPlan, .Convention],
          ∀ c ∈ contexts, c.humanNotes.any (activeAs label) = false) ∧
        (∀ c ∈ contexts, c.notesTruncated = false) ∧ matchingNodes ≤ contexts.length ∧
        A.ofRat 0.5 ≤ s.freshness := by
  simp [warnings, and_assoc]

/-- **The tool says `SAFE TO EDIT`** after it has looked at all nodes of the path, at most 20, and found nothing. -/
theorem safe_iff {found : List CodeNode} (hfound : pathMatches fails s (normalizePathForSearch filePath) = found) :
    prepareEditContext A fails s filePath = .found [] ↔
      normalizePathForSearch filePath ≠ [] ∧ fails .findNodes = false ∧ found ≠ [] ∧ found.length ≤ 20 ∧
        (∀ n ∈ found, (s.complexity n).toOption ≠ none) ∧
        warnings A s found.length (found.map (nodeContext A fails s)) = [] := by
  rw [prepareEditContext, findNodesByFilePath, hfound]
  by_cases hq : normalizePathForSearch filePath = []
  · simp [hq, answer]
  by_cases hf : fails .findNodes = true
  · simp [hq, hf]
  have hnodes : ((found.take 51).take 50).take 20 = found.take 20 := by rw [take_take, take_take]; rfl
  have hcount : ((found.take 51).take 50).length = min 50 found.length := by rw [take_take, length_take]; rfl
  have hempty : found.take 51 = [] ↔ found = [] := by simp
  rw [if_neg hq, if_neg hf]
  simp only [answer, hnodes, hcount, hempty]
  by_cases hlen : found.length ≤ 20
  · rw [take_of_length_le hlen, min_eq_right (hlen.trans (by decide))]
    by_cases hnil : found = []
    · simp [hnil]
    by_cases hthrows : ∃ n ∈ found, (s.complexity n).toOption = none
    · rw [if_neg hnil, if_pos hthrows]
      exact iff_of_false (by simp) fun h => hthrows.elim fun n hn => h.2.2.2.2.1 n hn.1 hn.2
    · rw [if_neg hnil, if_neg hthrows, EditAnswer.found.injEq]
      exact ⟨fun h => ⟨hq, by simpa using hf, hnil, hlen, by simpa using hthrows, h⟩, fun h => h.2.2.2.2.2⟩
  · have hmore : warnings A s (min 50 found.length) ((found.take 20).map (nodeContext A fails s)) ≠ [] := by
      intro hw
      have := (warnings_eq_nil_iff.mp hw).2.2.2.1
      rw [length_map, length_take] at this
      omega
    refine iff_of_false (fun h => ?_) fun h => hlen h.2.2.2.1
    split_ifs at h
    exact hmore (EditAnswer.found.inj h)

omit [LinearOrder R] in
/-- A context that is complete has the notes of its node. -/
theorem humanNotes_perm (hnotes : (fails .notes && fails .allNotes) = false)
    (h : (notesOf fails s id 201).length ≤ 200) : ((notesOf fails s id 201).take 200).Perm (linkedNotes s id) := by
  rw [notesOf, hnotes] at h ⊢
  simp only [Bool.false_eq_true, if_false, length_take] at h ⊢
  rw [take_take, take_of_length_le (by omega)]
  exact orderBy_perm ..

/-- Where the statements succeed, the sentence is true of every node. -/
theorem sound_of_reads (hnotes : (fails .notes && fails .allNotes) = false)
    (hdegrees : ∀ type side, fails (.degrees type side) = false) (hnum : s.Numeric) : Sound A fails s filePath := by
  intro hsafe n hn hq
  obtain ⟨-, -, -, -, hsome, hwarn⟩ := (safe_iff rfl).mp hsafe
  obtain ⟨hrisk, hlabels, hcomplete, -, -⟩ := warnings_eq_nil_iff.mp hwarn
  have hterm : normalizePathForSearch filePath ∈ searchTerms fails s (normalizePathForSearch filePath) := by
    unfold searchTerms
    split
    · simp
    · simp
    · dsimp only
      split <;> simp
  have hfound : n ∈ pathMatches fails s (normalizePathForSearch filePath) := by
    rw [pathMatches, mem_orderBy, mem_filter]
    exact ⟨hn, any_eq_true.mpr ⟨_, hterm, decide_eq_true ((of_decide_eq_true hq).map _)⟩⟩
  have hctx := mem_map_of_mem (f := nodeContext A fails s) hfound
  have hactive : ∀ label ∈ [HumanNodeLabel.BugNote, .RefactorPlan, .Convention], activeCount s label n.id = 0 := by
    intro label hlabel
    have hany := hlabels label hlabel _ hctx
    have hshort := hcomplete _ hctx
    simp only [nodeContext, Bool.or_eq_false_iff, decide_eq_false_iff_not, not_lt] at hany hshort
    rw [activeCount, ← (humanNotes_perm hnotes hshort.2).countP_eq, countP_eq_zero]
    simpa using hany
  refine ⟨hactive, ?_⟩
  have hscore : (nodeContext A fails s n).riskScore = exactRiskScore A s n := by
    simp only [nodeContext, exactRiskScore, degreesSplit, hdegrees, activeNoteLabelCount,
      hactive .BugNote (by simp), hactive .RefactorPlan (by simp), ite_self, Bool.false_eq_true, if_false]
  have hnumber : ∃ x, (s.complexity n).toOption.join = some x := by
    have hthrows := hsome n hfound
    have hnan := hnum n (mem_filter.mp hn).1
    rcases hc : s.complexity n with _ | _ | x
    · exact absurd (by rw [hc]; rfl) hthrows
    · exact absurd hc hnan
    · exact ⟨x, rfl⟩
  obtain ⟨c, hc⟩ := hnumber
  have hexact : ∃ x, exactRiskScore A s n = some x := by
    rw [exactRiskScore, hc]
    exact ⟨_, rfl⟩
  obtain ⟨x, hx⟩ := hexact
  exact ⟨x, hx, (maxRiskScore_lt_iff.mp hrisk).2 _ hctx x (hscore.trans hx)⟩

end Sound

/-! ## A file that looks safe -/

section Trap

/-- An active bug. -/
def bugNote : HumanNode :=
  CreateHumanNodeInput.row { project := "p".toList, label := .BugNote, title := "t".toList } 1 "t".toList "t.md".toList 0

/-- The node of the file. -/
def subject (type : RelationshipType) : CodeNode :=
  ⟨1, "p".toList, if type = .CALLS then "Function".toList else "File".toList, [], [], "a".toList⟩

/-- A file with one node and maybe a bug. Each of some nodes of another file uses the node or is used by it. -/
def trap (type : RelationshipType) (side : Side) (edges : ℕ) (complexity : Option R) (bug : Bool) : EditState R where
  graph :=
    { nodes := subject type :: (range edges).map fun i => ⟨i + 2, "p".toList, "Function".toList, [], [], "b".toList⟩
      edges := (range edges).map fun i =>
        ⟨i, "p".toList, if side = .out then 1 else i + 2, if side = .out then i + 2 else 1, type.text⟩
      nodup_nodes := by
        rw [map_cons, map_map, nodup_cons]
        refine ⟨fun h => ?_, nodup_range.map fun i j h => Nat.add_right_cancel h⟩
        obtain ⟨i, -, hi⟩ := mem_map.mp h
        exact absurd (show i + 2 = 1 from hi) (by omega)
      nodup_edges := by
        rw [map_map]
        exact nodup_range.map fun i j h => h }
  complexity _ := .ok complexity
  human := { Db.empty with nodes := if bug then [bugNote] else [], links := if bug then [(1, .finite 1)] else [] }
  project := "p".toList
  rootPath := none
  toLowerCase t := t
  freshness := A.ofRat 0.5

variable {A fails} {type : RelationshipType} {side : Side} {edges : ℕ} {complexity : Option R} {bug : Bool}

omit [LinearOrder R] in
theorem trap_matches : pathMatches fails (trap A type side edges complexity bug) "a".toList = [subject type] := by
  rw [pathMatches, CodeGraph.projectNodes, filter_filter, trap, filter_cons_of_pos, filter_eq_nil_iff.mpr]
  · rfl
  · intro n hn
    obtain ⟨i, -, rfl⟩ := mem_map.mp hn
    simp [searchTerms]
    decide
  · cases type <;> simp [subject, searchTerms] <;> decide

theorem relationshipType_subject : relationshipType (subject type) = type := by cases type <;> decide

omit [LinearOrder R] in
theorem trap_degree (side' : Side) :
    typedDegree (trap A type side edges complexity bug) type side' 1 = if side' = side then edges else 0 := by
  rw [typedDegree, trap, countP_map]
  cases side <;> cases side' <;> simp [Side.anchor, Function.comp_def]

omit [LinearOrder R] in
theorem trap_linkedNotes :
    linkedNotes (trap A type side edges complexity bug) 1 = if bug then [bugNote] else [] := by
  cases bug <;> rfl

omit [LinearOrder R] in
theorem trap_bugs : activeCount (trap A type side edges complexity true) .BugNote (subject type).id = 1 := by
  rw [activeCount, show (subject type).id = 1 from rfl, trap_linkedNotes]
  decide

theorem trap_exactRiskScore : exactRiskScore A (trap A type side edges complexity bug) (subject type) =
    A.computeRiskScore edges complexity (if bug then 1 else 0) := by
  have hid : (subject type).id = 1 := rfl
  simp only [exactRiskScore, relationshipType_subject, hid, trap_degree, activeCount, trap_linkedNotes]
  have hdegree : ((if Side.inn = side then edges else 0) + if Side.out = side then edges else 0) = edges := by
    cases side <;> simp
  rw [hdegree]
  cases bug <;> rfl

/-- The tool sees no edge and no note. -/
theorem trap_safe (hzero : A.ofRat 0 < A.ofRat 0.7) (hfind : fails .findNodes = false)
    (hedges : edges = 0 ∨ fails (.degrees type side) = true)
    (hnotes : bug = false ∨ (fails .notes && fails .allNotes) = true)
    (hscore : ∀ x, A.computeRiskScore 0 complexity 0 = some x → x < A.ofRat 0.7) :
    prepareEditContext A fails (trap A type side edges complexity bug) "a".toList = .found [] := by
  have hnone : notesOf fails (trap A type side edges complexity bug) 1 201 = [] := by
    rw [notesOf, trap_linkedNotes]
    rcases hnotes with rfl | h
    · split <;> rfl
    · rw [h]
      rfl
  have hcount : noteCount fails (trap A type side edges complexity bug) 1 ≤ 200 := by
    rw [noteCount, trap_linkedNotes]
    cases bug <;> split <;> decide
  have hdegrees : degreesSplit fails (trap A type side edges complexity bug) type 1 = ⟨0, 0⟩ := by
    rw [degreesSplit, trap_degree, trap_degree]
    rcases hedges with rfl | h
    · simp
    · cases side <;> simp [h]
  refine (safe_iff trap_matches).mpr
    ⟨by decide, hfind, by simp, Nat.le_of_ble_eq_true rfl, by simp [trap, Except.toOption], ?_⟩
  rw [warnings_eq_nil_iff, maxRiskScore_lt_iff]
  have hid : (subject type).id = 1 := rfl
  simp only [map_singleton, mem_singleton, forall_eq, nodeContext, relationshipType_subject, hid, hnone, hdegrees]
  exact ⟨⟨hzero, hscore⟩, by simp, by simpa using hcount, le_rfl, le_rfl⟩

/-- Which statements have to succeed for the sentence to be true, and that the complexities have to be numbers. -/
theorem prepareEditContext_sound_iff (hA : A.Reliable) (anyComplexity : Prop) :
    (∀ s : EditState R, (¬anyComplexity → s.Numeric) → ∀ filePath, Sound A fails s filePath) ↔
      fails .findNodes = true ∨ ¬anyComplexity ∧ (fails .notes && fails .allNotes) = false ∧
        ∀ type side, fails (.degrees type side) = false := by
  constructor
  · intro h
    by_contra hno
    have hfind : fails .findNodes = false := by simpa using fun hfind => hno (.inl hfind)
    have hpath : Text.includes (normalizePathForSearch "a".toList) (slashes "a".toList) = true := by decide
    have htrap (type side edges complexity bug) (hnumber : anyComplexity ∨ complexity ≠ none)
        (hedges : edges = 0 ∨ fails (.degrees type side) = true)
        (hnotes : bug = false ∨ (fails .notes && fails .allNotes) = true)
        (hscore : ∀ x, A.computeRiskScore 0 complexity 0 = some x → x < A.ofRat 0.7) :=
      h (trap A type side edges complexity bug)
        (fun hodd n _ hn => (hnumber.resolve_left hodd) (Except.ok.inj hn)) "a".toList
        (trap_safe hA.zero hfind hedges hnotes hscore) (subject type)
        (mem_filter.mpr ⟨mem_cons_self, rfl⟩) hpath
    have hidle (x) (hx : A.computeRiskScore 0 (some (A.ofRat 20)) 0 = some x) : x < A.ofRat 0.7 := by
      obtain ⟨y, hy, hlow⟩ := hA.idle
      exact Option.some.inj (hy.symm.trans hx) ▸ hlow
    by_cases hodd : anyComplexity
    · -- a complexity that is not a number
      obtain ⟨x, hx, -⟩ :=
        (htrap .CALLS .out 0 none false (.inl hodd) (.inl rfl) (.inl rfl) fun _ hx => by cases hx).2
      rw [trap_exactRiskScore] at hx
      cases hx
    by_cases hnotes : (fails .notes && fails .allNotes) = true
    · -- a bug that is not read
      have hbug := (htrap .CALLS .out 0 (some (A.ofRat 20)) true (.inr (by simp)) (.inl rfl) (.inr hnotes) hidle).1
        .BugNote (by simp)
      exact absurd (trap_bugs.symm.trans hbug) Nat.one_ne_zero
    · -- edges that are not counted
      obtain ⟨type, side, hfail⟩ : ∃ type side, fails (.degrees type side) = true := by
        by_contra hall
        exact hno (.inr ⟨hodd, by simpa using hnotes, fun type side => by
          simpa using fun hfail => hall ⟨type, side, hfail⟩⟩)
      obtain ⟨x, hx, hlow⟩ :=
        (htrap type side 100 (some (A.ofRat 20)) false (.inr (by simp)) (.inr hfail) (.inl rfl) hidle).2
      obtain ⟨y, hy, hhigh⟩ := hA.busy
      rw [trap_exactRiskScore] at hx
      exact absurd (Option.some.inj (hx.symm.trans hy) ▸ hlow) (not_lt.mpr hhigh)
  · rintro (hfind | ⟨hnumber, hnotes, hdegrees⟩) s hs filePath
    · intro hsafe
      exact absurd ((safe_iff rfl).mp hsafe).2.1 (by simp [hfind])
    · exact sound_of_reads hnotes hdegrees (hs hnumber)

/-- Exact arithmetic. -/
def rational : Arithmetic ℚ := ⟨id, (· + ·), (· * ·), (· / ·)⟩

theorem rational_reliable : rational.Reliable where
  zero := by decide +kernel
  idle := ⟨_, rfl, by decide +kernel⟩
  busy := ⟨_, rfl, by decide +kernel⟩

theorem sound_rational : Sound rational (fun _ => false) (trap rational .CALLS .out 0 (some 0) true) "a".toList :=
  (prepareEditContext_sound_iff rational_reliable False).mpr (.inr ⟨not_false, rfl, fun _ _ => rfl⟩) _
    (by rintro - n - ⟨⟩) _

/-- Neither statement for the notes succeeds. -/
def withoutNotes : EditStatement → Bool
  | .notes | .allNotes => true
  | _ => false

/-- The file has a bug, and the sentence says that it has none. -/
theorem unsound_without_notes :
    ¬Sound rational withoutNotes (trap rational .CALLS .out 0 (some 0) true) "a".toList := by
  intro h
  have hsafe :
      prepareEditContext rational withoutNotes (trap rational .CALLS .out 0 (some 0) true) "a".toList = .found [] :=
    trap_safe rational_reliable.zero rfl (.inl rfl) (.inr rfl) fun x hx => by
      obtain rfl := Option.some.inj hx
      decide +kernel
  have hbug := (h hsafe (subject .CALLS) (mem_filter.mpr ⟨mem_cons_self, rfl⟩) (by decide)).1 .BugNote (by simp)
  exact absurd (trap_bugs.symm.trans hbug) Nat.one_ne_zero

end Trap

end Ariad.Mcp
