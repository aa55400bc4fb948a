import Ariad.Indexer.Containment
import Ariad.Indexer.LexicalScopes

/-!
# Calls of imported names

A call whose callee is bound by an import should be left to the resolver, which knows the imports; the extractor asks
the names of the file first.

* `calleeDeclarations` — the declarations of the file with the name of the callee, or else with its last segment.
* `callEdges_eq_nil_iff`, `unresolvedCall_eq` — what a call gives.
* `importsWin_iff` — imports win exactly where no declaration has the name.
-/

namespace Ariad.FastWalker

open CrossFile List

variable (tree : SyntaxTree) (relPath fileQn : Text)

/-! ## Qualified names -/

/-- The name of the file and the names of the declarations that are seen around one with the label. -/
def seenScope (k : DeclLabel) : List TSNode → Text
  | [] => fileQn
  | p :: ps =>
    match labelOf p.type with
    | some r => if r.rank ≤ k.rank then seenScope r ps ++ "::".toList ++ nameOf tree p else seenScope k ps
    | none => seenScope k ps

/-- The qualified name that a declaration gets. -/
def qualifiedName (y : Place) : Text :=
  seenScope tree fileQn ((labelOf y.node.type).getD .function) y.parents ++ "::".toList ++ nameOf tree y.node

variable {tree relPath fileQn}

theorem seenScope_seen (k : DeclLabel) (parents : List TSNode) :
    seenScope tree fileQn k parents = ((seen k parents).map (qualifiedName tree fileQn)).getD fileQn := by
  induction parents with
  | nil => rfl
  | cons p ps ih =>
    rw [seenScope, seen, ancestors, find?_cons]
    cases hr : labelOf p.type with
    | none => exact ih
    | some r =>
      by_cases hrank : r.rank ≤ k.rank
      · simp [hrank, qualifiedName, hr]
      · simpa [hrank, seen] using ih

theorem qn_eq_qualifiedName {d : Declared} (hd : d ∈ extracted tree fileQn) :
    d.qn = qualifiedName tree fileQn d.place := by
  -- By the number of nodes around it: what it sees has fewer.
  induction hn : d.place.parents.length using Nat.strong_induction_on generalizing d with
  | _ n ih =>
    have hlabel : labelOf d.place.node.type = some d.label := (mem_declarations.mp (key_mem hd)).2
    rw [Declared.qn, qualifiedName, hlabel, Option.getD_some, nameOf_extracted hd, parentQn_eq hd, seenScope_seen]
    cases hseen : seen d.label d.place.parents with
    | none => rfl
    | some y =>
      obtain ⟨hy, r, hr⟩ := seen_some hseen
      obtain ⟨e, he, rfl⟩ := exists_around hd hy hr
      have heq := ih _ (hn ▸ length_parents_lt hy) he rfl
      rw [Option.bind_some, qnByNode_extracted he, heq]
      rfl

/-! ## What a call gives -/

/-- The declarations with the name. -/
def declarationsNamed (tree : SyntaxTree) (name : Text) : List Place :=
  ((declarations tree).map Prod.snd).filter fun x => nameOf tree x.node = name

/-- The declarations with the name of the callee, or else with its last segment. -/
def calleeDeclarations (tree : SyntaxTree) (calleeName : Text) : List Place :=
  match declarationsNamed tree calleeName with
  | [] => declarationsNamed tree (IndexedProject.lastSegmentOf calleeName)
  | found => found

theorem qnsOfName_extracted (name : Text) :
    qnsOfName (extracted tree fileQn) name = (declarationsNamed tree name).map (qualifiedName tree fileQn) := by
  have hplaces : (declarations tree).map Prod.snd = (extracted tree fileQn).reverse.map Declared.place := by
    rw [← key_reverse fileQn, map_map]
    rfl
  have hnames : ((extracted tree fileQn).reverse.filter fun d => d.name = name) =
      (extracted tree fileQn).reverse.filter fun d => nameOf tree d.place.node = name :=
    filter_congr fun d hd => by rw [nameOf_extracted (mem_reverse.mp hd)]
  rw [qnsOfName, hnames, declarationsNamed, hplaces, filter_map, map_map]
  exact map_congr_left fun d hd => qn_eq_qualifiedName (mem_reverse.mp (mem_of_mem_filter hd))

theorem callCandidates_extracted (calleeName : Text) :
    callCandidates (extracted tree fileQn) calleeName =
      (calleeDeclarations tree calleeName).map (qualifiedName tree fileQn) := by
  rw [callCandidates, qnsOfName_extracted, calleeDeclarations]
  cases declarationsNamed tree calleeName with
  | nil => exact qnsOfName_extracted _
  | cons x found => rfl

section Call

variable {x y : Place} {funcNode : TSNode} (hx : x ∈ tree.places)
  (hf : x.node.childForFieldName "function".toList = some funcNode) (hy : enclosingCallable x.parents = some y)

include hx hf hy

/-- The caller is the function or method around. -/
theorem callOf_eq : callOf (extracted tree fileQn) x = some (funcNode, qualifiedName tree fileQn y) := by
  have hplace : y ∈ tree.places := SyntaxTree.ancestor_mem hx (mem_of_find?_eq_some hy)
  have hlabel : labelOf y.node.type = some .function ∨ labelOf y.node.type = some .method := by
    simpa using find?_some hy
  obtain ⟨r, hr⟩ : ∃ r, labelOf y.node.type = some r := hlabel.elim (fun h => ⟨_, h⟩) fun h => ⟨_, h⟩
  have hmem : (r, y) ∈ declarations tree := mem_declarations.mpr ⟨hplace, hr⟩
  obtain ⟨e, he, hkey⟩ := exists_extracted fileQn hmem
  obtain rfl : e.place = y := congrArg Prod.snd hkey
  rw [callOf, hf, Option.bind_some, findEnclosing_eq hx, hy, Option.bind_some, qnByNode_extracted he,
    qn_eq_qualifiedName he]
  rfl

/-- A call has no edges if and only if all declarations with the name have the qualified name of the caller. -/
theorem callEdges_eq_nil_iff : callEdges (extracted tree fileQn) x = [] ↔
    ∀ c ∈ calleeDeclarations tree funcNode.text, qualifiedName tree fileQn c = qualifiedName tree fileQn y := by
  rw [callEdges, callOf_eq hx hf hy]
  dsimp only
  rw [callCandidates_extracted, filterMap_eq_nil_iff]
  constructor
  · intro h c hc
    obtain ⟨i, hi, rfl⟩ := getElem_of_mem hc
    have hmem : (qualifiedName tree fileQn (calleeDeclarations tree funcNode.text)[i], i) ∈
        ((calleeDeclarations tree funcNode.text).map (qualifiedName tree fileQn)).zipIdx := by
      rw [mk_mem_zipIdx_iff_getElem?, getElem?_map, getElem?_eq_getElem hi]
      rfl
    have hnone := h _ hmem
    by_contra hne
    rw [if_neg hne] at hnone
    cases hnone
  · intro h p hp
    obtain ⟨c, hc, heq⟩ := mem_map.mp (fst_mem_of_mem_zipIdx hp)
    rw [if_pos (heq.symm.trans (h c hc))]

/-- The call site of a call, if no declaration has the name. -/
theorem unresolvedCall_eq (relPath fileQn : Text) : unresolvedCall (extracted tree fileQn) relPath x =
    if calleeDeclarations tree funcNode.text = [] then
      some ⟨qualifiedName tree fileQn y, funcNode.text, IndexedProject.lastSegmentOf funcNode.text, callKindOf funcNode,
        relPath⟩
    else none := by
  rw [unresolvedCall, callOf_eq hx hf hy, Option.bind_some]
  dsimp only
  rw [callCandidates_extracted]
  cases calleeDeclarations tree funcNode.text with
  | nil => rfl
  | cons c found => rfl

end Call

/-! ## Imports -/

/-- **The callee is imported**: a name that a runtime import binds, or a member of a namespace import, and no scope
around the call declares the name again. -/
def ImportedCallee (tree : SyntaxTree) (relPath : Text) (x : Place) (funcNode : TSNode) : Prop :=
  (funcNode.type = "identifier".toList ∧ (∃ row ∈ extractImports tree relPath, row.localName = funcNode.text) ∧
    ¬Redeclared x funcNode.text) ∨
  (funcNode.type = "member_expression".toList ∧ ∃ object ∈ funcNode.childForFieldName "object".toList,
    object.type = "identifier".toList ∧
    (∃ row ∈ extractImports tree relPath, row.importKind = .namespace_ ∧ row.localName = object.text) ∧
    ¬Redeclared x object.text)

/-- Calls of imported names have no edges and one call site each, and of the other calls in functions and methods each
has an edge or a call site, unless the caller is the only declaration with the name. -/
def ImportsWin (tree : SyntaxTree) (relPath fileQn : Text) : Prop :=
  ∀ x ∈ tree.descendantsOfType callTypes, ∀ funcNode y,
    x.node.childForFieldName "function".toList = some funcNode → enclosingCallable x.parents = some y →
    (ImportedCallee tree relPath x funcNode → callEdges (extracted tree fileQn) x = [] ∧
      unresolvedCall (extracted tree fileQn) relPath x = some ⟨qualifiedName tree fileQn y, funcNode.text,
        IndexedProject.lastSegmentOf funcNode.text, callKindOf funcNode, relPath⟩) ∧
    (¬ImportedCallee tree relPath x funcNode → callEdges (extracted tree fileQn) x ≠ [] ∨
      (unresolvedCall (extracted tree fileQn) relPath x).isSome = true ∨ calleeDeclarations tree funcNode.text = [y])

/-- No declaration of the file has the name of an imported callee, and no other declaration has both the name of
another callee and the qualified name of its caller, unless one with another qualified name has the name too. -/
def CalleesApart (tree : SyntaxTree) (relPath fileQn : Text) : Prop :=
  ∀ x ∈ tree.descendantsOfType callTypes, ∀ funcNode y,
    x.node.childForFieldName "function".toList = some funcNode → enclosingCallable x.parents = some y →
    (ImportedCallee tree relPath x funcNode → calleeDeclarations tree funcNode.text = []) ∧
    (¬ImportedCallee tree relPath x funcNode → calleeDeclarations tree funcNode.text = [] ∨
      calleeDeclarations tree funcNode.text = [y] ∨
      ∃ c ∈ calleeDeclarations tree funcNode.text, qualifiedName tree fileQn c ≠ qualifiedName tree fileQn y)

/-- **Imports win exactly where callees are apart from the declarations of the file.** -/
theorem importsWin_iff (tree : SyntaxTree) (relPath fileQn : Text) :
    ImportsWin tree relPath fileQn ↔ CalleesApart tree relPath fileQn := by
  refine forall₂_congr fun x hx => forall₄_congr fun funcNode y hf hy => ?_
  have hplace : x ∈ tree.places := mem_of_mem_filter hx
  have hedges : callEdges (extracted tree fileQn) x = [] ↔ ∀ c ∈ calleeDeclarations tree funcNode.text,
      qualifiedName tree fileQn c = qualifiedName tree fileQn y := callEdges_eq_nil_iff hplace hf hy
  have hsite := unresolvedCall_eq hplace hf hy relPath fileQn
  refine and_congr (imp_congr_right fun _ => ?_) (imp_congr_right fun _ => ?_)
  · rw [hedges, hsite]
    constructor
    · rintro ⟨-, h⟩
      by_contra hne
      rw [if_neg hne] at h
      cases h
    · intro h
      refine ⟨fun c hc => ?_, if_pos h⟩
      rw [h] at hc
      cases hc
  · rw [Ne, hedges, hsite]
    constructor
    · rintro (h | h | h)
      · push Not at h
        exact .inr (.inr h)
      · by_contra hne
        rw [if_neg fun hnil => hne (.inl hnil)] at h
        cases h
      · exact .inr (.inl h)
    · rintro (h | h | ⟨c, hc, hne⟩)
      · exact .inr (.inl (by rw [if_pos h, Option.isSome_some]))
      · exact .inr (.inr h)
      · exact .inl fun h => hne (h c hc)

/-! ### `import { run } from './x'`, a class with a method `run`, and a function that calls `run` -/

def runImport : TSNode :=
  .inner 10 "import_statement" "import \x7b run \x7d from './x'"
    [.leaf 11 "import" "import",
      .inner 12 "import_clause" "\x7b run \x7d" [.inner 13 "named_imports" "\x7b run \x7d"
        [.leaf 14 "\x7b" "\x7b", .inner 15 "import_specifier" "run" [.inField "name" (.leaf 16 "identifier" "run")],
          .leaf 17 "\x7d" "\x7d"]],
      .leaf 18 "from" "from", .inField "source" (.leaf 19 "string" "'./x'")]

def runClass : TSNode :=
  .inner 20 "class_declaration" "class A \x7b run() \x7b\x7d \x7d"
    [.leaf 21 "class" "class", .inField "name" (.leaf 22 "type_identifier" "A"),
      .inField "body" (.inner 23 "class_body" "\x7b run() \x7b\x7d \x7d" [.inner 24 "method_definition" "run() \x7b\x7d"
        [.inField "name" (.leaf 25 "property_identifier" "run"), .inField "parameters" (.leaf 26 "formal_parameters" "()"),
          .inField "body" (.leaf 27 "statement_block" "\x7b\x7d")]])]

def runCall : TSNode :=
  .inner 40 "call_expression" "run()"
    [.inField "function" (.leaf 41 "identifier" "run"), .inField "arguments" (.leaf 42 "arguments" "()")]

def runBlock : TSNode := .inField "body" (.inner 36 "statement_block" "\x7b run() \x7d" [runCall])

def runMain : TSNode :=
  .inner 30 "function_declaration" "function main() \x7b run() \x7d"
    [.leaf 31 "function" "function", .inField "name" (.leaf 32 "identifier" "main"),
      .inField "parameters" (.leaf 33 "formal_parameters" "()"), runBlock]

def runProgram : TSNode := .inner 0 "program" "" [runImport, runClass, runMain]

def runTree : SyntaxTree := ⟨runProgram, by decide⟩

/-- The call gets an edge to the method, and the resolver does not see it. -/
theorem method_before_import : ¬∀ (tree : SyntaxTree) (relPath fileQn : Text), ImportsWin tree relPath fileQn := by
  intro h
  have hcalls : runTree.descendantsOfType callTypes = [⟨runCall, [runBlock, runMain, runProgram]⟩] := rfl
  have hcall := h runTree ['f', '.', 't', 's'] ['f'] ⟨runCall, [runBlock, runMain, runProgram]⟩
    (hcalls ▸ mem_cons_self) _ _ rfl rfl
  have himported : ImportedCallee runTree ['f', '.', 't', 's'] ⟨runCall, [runBlock, runMain, runProgram]⟩
      (.inField "function" (.leaf 41 "identifier" "run")) := .inl (by decide)
  have hedges := (hcall.1 himported).1
  exact absurd hedges (by decide)

end Ariad.FastWalker
