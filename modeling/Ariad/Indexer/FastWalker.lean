import Ariad.Indexer.CallEdgeLaws
import Ariad.Indexer.SyntaxTree

/-!
# The fast walker

What the extractor reads off the syntax tree of a file.

* `extractDecls` — functions, then classes, then methods, each with a name and a parent.
* `callEdges`, `unresolvedCalls` — the calls: an edge to every declaration of the file that has the name, or else a
  call site for the resolver.
* `extractImports`, `extractExports`, `extractDefaultExport` — the import and export statements.
* `extractFast` — all of it.
-/

namespace Ariad.FastWalker

open CrossFile

/-! ## Types of nodes -/

def functionTypes : List Text :=
  ["function_declaration", "function_definition", "arrow_function", "generator_function_declaration",
    "generator_function"].map String.toList

def classTypes : List Text :=
  ["class_declaration", "class_definition", "class", "interface_declaration", "struct_specifier"].map String.toList

def methodTypes : List Text :=
  ["method_definition", "method_declaration", "constructor_declaration", "getter_definition",
    "setter_definition"].map String.toList

def callTypes : List Text := ["call_expression", "call"].map String.toList

def importTypes : List Text := ["import_statement"].map String.toList

def exportTypes : List Text := ["export_statement"].map String.toList

def complexityTypes : List Text :=
  ["if_statement", "if", "while_statement", "while", "for_statement", "for", "for_in_statement", "for_each", "case",
    "catch_clause", "catch", "conditional_expression", "ternary", "binary_expression",
    "boolean_operator_expression"].map String.toList

def binaryOpTypes : List Text := ["&&", "||", "and", "or"].map String.toList

def typeOnlyDefaultTypes : List Text := ["interface_declaration", "type_alias_declaration"].map String.toList

/-! ## Declarations -/

inductive DeclLabel where
  | function
  | class_
  | method
  deriving DecidableEq

/-- A declaration that was extracted: an entry of `nodes`, `nameToQns` and `qnByNode`, and its `CONTAINS` edge. -/
structure Declared where
  label : DeclLabel
  place : Place
  name : Text
  parentQn : Text

def Declared.qn (d : Declared) : Text := d.parentQn ++ "::".toList ++ d.name

/-- What was extracted so far, the last declaration first, and the counter for functions without a name. -/
structure DeclState where
  decls : List Declared
  anonymousCounter : ℕ

/-- The name of a declaration, and the counter behind it. -/
def getDeclNameFast (node : TSNode) (anonymousCounter : ℕ) : Text × ℕ :=
  match node.childForFieldName "name".toList with
  | some nameNode => (nameNode.text, anonymousCounter)
  | none =>
    match node.children.find? fun c => c.type = "identifier".toList with
    | some child => (child.text, anonymousCounter)
    | none => ("anonymous#".toList ++ Nat.toDigits 10 (anonymousCounter + 1), anonymousCounter + 1)

/-- `qnByNode.get(n.id)`. -/
def qnByNode (decls : List Declared) (n : TSNode) : Option Text :=
  (decls.find? fun d => d.place.node.id = n.id).map Declared.qn

/-- The nearest node around that is a declaration and has its qualified name already. -/
def findParentQnFast (parents : List TSNode) (fileQn : Text) (decls : List Declared) : Text :=
  (parents.findSome? fun parent =>
    if parent.type ∈ functionTypes ∨ parent.type ∈ classTypes ∨ parent.type ∈ methodTypes then qnByNode decls parent
    else none).getD fileQn

/-- The nearest function or method around. -/
def findEnclosingDeclQnFast (parents : List TSNode) (decls : List Declared) : Option Text :=
  parents.findSome? fun parent =>
    if parent.type ∈ functionTypes ∨ parent.type ∈ methodTypes then qnByNode decls parent else none

def declare (fileQn : Text) (label : DeclLabel) (s : DeclState) (x : Place) : DeclState :=
  let name := getDeclNameFast x.node s.anonymousCounter
  ⟨⟨label, x, name.1, findParentQnFast x.parents fileQn s.decls⟩ :: s.decls, name.2⟩

/-- The functions of the file, then its classes, then its methods. -/
def extractDecls (tree : SyntaxTree) (fileQn : Text) : DeclState :=
  let functions := (tree.descendantsOfType functionTypes).foldl (declare fileQn .function) ⟨[], 0⟩
  let classes := (tree.descendantsOfType classTypes).foldl (declare fileQn .class_) functions
  (tree.descendantsOfType methodTypes).foldl (declare fileQn .method) classes

/-! ## Nodes and edges -/

inductive NodeLabel where
  | File
  | Function
  | Class
  | Method
  deriving DecidableEq

structure FastNode where
  label : NodeLabel
  name : Text
  qualifiedName : Text
  filePath : Text
  startLine : ℕ
  endLine : ℕ
  properties : Text
  deriving DecidableEq

inductive EdgeType where
  | CONTAINS
  | CALLS
  deriving DecidableEq

structure FastEdge where
  sourceQn : Text
  targetQn : Text
  type : EdgeType
  properties : Text
  deriving DecidableEq

/-- Decisions below a node, and one. -/
def estimateComplexityFast (node : TSNode) : ℕ :=
  let decisions := (node.places []).filter fun x => x.node.type ∈ complexityTypes ∧
    (x.node.type ∈ ["binary_expression".toList, "boolean_operator_expression".toList] →
      ∃ op ∈ x.node.children[1]?, op.type ∈ binaryOpTypes)
  1 + decisions.length

def Declared.properties (d : Declared) : Text :=
  match d.label with
  | .class_ => "\x7b\"language\":\"tree-sitter\"\x7d".toList
  | _ => "\x7b\"language\":\"tree-sitter\",\"complexity\":".toList ++
    Nat.toDigits 10 (estimateComplexityFast d.place.node) ++ "\x7d".toList

def Declared.toNode (relPath : Text) (d : Declared) : FastNode where
  label := match d.label with
    | .function => .Function
    | .class_ => .Class
    | .method => .Method
  name := d.name
  qualifiedName := d.qn
  filePath := relPath
  startLine := d.place.node.startRow + 1
  endLine := d.place.node.endRow + 1
  properties := d.properties

def Declared.contains (d : Declared) : FastEdge := ⟨d.parentQn, d.qn, .CONTAINS, "\x7b\x7d".toList⟩

/-- The node of the file itself. -/
def fileNode (tree : SyntaxTree) (relPath fileQn : Text) (sourceLength : ℕ) : FastNode where
  label := .File
  name := (truthy (some (relPath.rtakeWhile (· ≠ '/')))).getD relPath
  qualifiedName := fileQn
  filePath := relPath
  startLine := 1
  endLine := tree.root.endRow + 1
  properties := "\x7b\"language\":\"tree-sitter\",\"size\":".toList ++ Nat.toDigits 10 sourceLength ++ "\x7d".toList

/-! ## Calls -/

/-- `nameToQns.get(name)`, in the order of the declarations. -/
def qnsOfName (decls : List Declared) (name : Text) : List Text :=
  (decls.reverse.filter fun d => d.name = name).map Declared.qn

/-- `nameToQns.get(calleeName) || nameToQns.get(lastSegment)`. -/
def callCandidates (decls : List Declared) (calleeName : Text) : List Text :=
  match qnsOfName decls calleeName with
  | [] => qnsOfName decls (IndexedProject.lastSegmentOf calleeName)
  | qns => qns

/-- The properties of a call edge, put together from their texts. -/
def callProperties (calleeName : Text) (candidateIndex : ℕ) : Text :=
  "\x7b\"callee\":\"".toList ++ calleeName ++ "\",\"inferred\":true,\"candidate_index\":".toList ++
    Nat.toDigits 10 candidateIndex ++ ",\"resolution\":\"intra_file\"\x7d".toList

/-- A call in a function or method: what is called, and the function or method. -/
def callOf (decls : List Declared) (x : Place) : Option (TSNode × Text) :=
  (x.node.childForFieldName "function".toList).bind fun funcNode =>
    (findEnclosingDeclQnFast x.parents decls).map (funcNode, ·)

/-- The edges of a call: one to each declaration of the name but the caller. -/
def callEdges (decls : List Declared) (x : Place) : List FastEdge :=
  match callOf decls x with
  | none => []
  | some (funcNode, sourceQn) =>
    (callCandidates decls funcNode.text).zipIdx.filterMap fun candidate =>
      if candidate.1 = sourceQn then none
      else some ⟨sourceQn, candidate.1, .CALLS, callProperties funcNode.text candidate.2⟩

def callKindOf (funcNode : TSNode) : CallKind :=
  if funcNode.type = "identifier".toList then .identifier_call
  else if funcNode.type = "member_expression".toList then .member_call
  else .computed_call

/-- The call site of a call that no declaration of the file has the name of. -/
def unresolvedCall (decls : List Declared) (relPath : Text) (x : Place) : Option CrossFile.CallSite :=
  (callOf decls x).bind fun call =>
    match callCandidates decls call.1.text with
    | [] => some ⟨call.2, call.1.text, IndexedProject.lastSegmentOf call.1.text, callKindOf call.1, relPath⟩
    | _ => none

/-! ## Import statements -/

def isQuote (c : Char) : Bool := c = '"' || c = '\'' || c = '\x60'

/-- A string literal without its quotes. -/
def stripQuotes (t : Text) : Text :=
  let t := if t.head?.any isQuote then t.tail else t
  if t.getLast?.any isQuote then t.dropLast else t

/-- The specifier of a statement: the last of its strings. -/
def sourceModuleOf (statement : TSNode) : Option Text :=
  (statement.children.filter fun c => c.type = "string".toList).getLast?.map fun c => stripQuotes c.text

/-- A token or a child of the type. -/
def hasChild (n : TSNode) (type : Text) : Bool := n.children.any fun c => c.type = type

/-- The last child of the type. -/
def lastChild (n : TSNode) (type : Text) : Option TSNode := (n.children.filter fun c => c.type = type).getLast?

/-- A specifier between the braces; those of types are left out. -/
def namedImport (filePath sourceModule : Text) (spec : TSNode) : Option ImportRow :=
  if spec.type ≠ "import_specifier".toList ∨ hasChild spec "type".toList then none
  else
    (spec.childForFieldName "name".toList).map fun nameNode =>
      match spec.childForFieldName "alias".toList with
      | some aliasNode => ⟨filePath, aliasNode.text, sourceModule, nameNode.text, .alias⟩
      | none => ⟨filePath, nameNode.text, sourceModule, nameNode.text, .named⟩

/-- The bindings of one part of an import clause. -/
def clauseImports (filePath sourceModule : Text) (child : TSNode) : List ImportRow :=
  if child.type = "named_imports".toList then child.children.filterMap (namedImport filePath sourceModule)
  else if child.type = "namespace_import".toList then
    match child.children.find? fun c => c.type = "identifier".toList with
    | some idNode =>
      if idNode.text = [] then [] else [⟨filePath, idNode.text, sourceModule, "*".toList, .namespace_⟩]
    | none => []
  else if child.type = "identifier".toList then
    [⟨filePath, child.text, sourceModule, "default".toList, .default⟩]
  else []

def importsOf (filePath : Text) (imp : TSNode) : List ImportRow :=
  if hasChild imp "type".toList then []
  else
    match lastChild imp "import_clause".toList, truthy (sourceModuleOf imp) with
    | some importClause, some sourceModule => importClause.children.flatMap (clauseImports filePath sourceModule)
    | _, _ => []

def extractImports (tree : SyntaxTree) (filePath : Text) : List ImportRow :=
  (tree.descendantsOfType importTypes).flatMap fun x => importsOf filePath x.node

/-! ## Export statements -/

/-- The star of `export *`. -/
def isStarChild (c : TSNode) : Bool :=
  (c.type = "namespace_export".toList || c.type = "*".toList) && c.text = "*".toList

/-- The row of a type that is exported as `default`. -/
def typeOnlyDefault (filePath : Text) (sourceModule : Option Text) (nameNode : TSNode) (aliasNode : Option TSNode) :
    Option ExportRow :=
  if (aliasNode.getD nameNode).text = "default".toList then
    some ⟨filePath, "default".toList, some nameNode.text, sourceModule,
      (truthy sourceModule).map fun _ => nameNode.text, .type_only_default⟩
  else none

/-- A specifier of `export type`. -/
def typeSpecifier (filePath : Text) (sourceModule : Option Text) (spec : TSNode) : Option ExportRow :=
  if spec.type ≠ "export_specifier".toList then none
  else
    (spec.childForFieldName "name".toList).bind fun nameNode =>
      typeOnlyDefault filePath sourceModule nameNode (spec.childForFieldName "alias".toList)

/-- A specifier of `export`. -/
def exportSpecifier (filePath : Text) (sourceModule : Option Text) (spec : TSNode) : Option ExportRow :=
  if spec.type ≠ "export_specifier".toList then none
  else
    (spec.childForFieldName "name".toList).bind fun nameNode =>
      let aliasNode := spec.childForFieldName "alias".toList
      if hasChild spec "type".toList then typeOnlyDefault filePath sourceModule nameNode aliasNode
      else
        let exportedName := (aliasNode.getD nameNode).text
        match truthy sourceModule with
        | some source =>
          some ⟨filePath, exportedName, none, some source, some nameNode.text,
            if aliasNode.isSome then .re_export_alias else .re_export_named⟩
        | none =>
          some ⟨filePath, exportedName, some nameNode.text, none, none,
            if aliasNode.isSome then .local_alias else .local_named⟩

/-- The rows of an export statement, without those of a declaration in it. -/
def exportsOf (filePath : Text) (exp : TSNode) : List ExportRow :=
  let sourceModule := sourceModuleOf exp
  let specifiers := ((lastChild exp "export_clause".toList).map TSNode.children).getD []
  if hasChild exp "type".toList then
    if exp.children.any isStarChild then [] else specifiers.filterMap (typeSpecifier filePath sourceModule)
  else if hasChild exp "default".toList then []
  else if exp.children.any isStarChild then
    match truthy sourceModule with
    | some source => [⟨filePath, "*".toList, none, some source, none, .star_re_export⟩]
    | none => []
  else specifiers.filterMap (exportSpecifier filePath sourceModule)

def exportDeclTypes : List Text :=
  ["function_declaration", "class_declaration", "generator_function_declaration", "lexical_declaration",
    "variable_declaration"].map String.toList

/-- The name of an exported declaration; of variables the first one. -/
def exportedDeclName (decl : TSNode) : Option Text :=
  let nameOf (n : TSNode) : Option Text := truthy ((n.childForFieldName "name".toList).map TSNode.text)
  if decl.type ∈ ["lexical_declaration".toList, "variable_declaration".toList] then
    (decl.children.find? fun c => c.type = "variable_declarator".toList).bind nameOf
  else nameOf decl

/-- The row of a declaration right in an export statement. -/
def declaredExport (filePath : Text) (x : Place) : Option ExportRow :=
  match x.parents with
  | [] => none
  | parent :: _ =>
    if parent.type ≠ "export_statement".toList ∨ hasChild parent "default".toList then none
    else (exportedDeclName x.node).map fun declName => ⟨filePath, declName, some declName, none, none, .local_named⟩

def extractExports (tree : SyntaxTree) (filePath : Text) : List ExportRow :=
  ((tree.descendantsOfType exportTypes).flatMap fun x => exportsOf filePath x.node) ++
    (tree.descendantsOfType exportDeclTypes).filterMap (declaredExport filePath)

/-- What a default export declares: its qualified name, if it is a function, a method or a class. -/
def defaultQn (decls : List Declared) (fileQn : Text) (exp : TSNode) : Option Text :=
  let declares (c : TSNode) : Bool := c.type ∈ functionTypes ∨ c.type ∈ methodTypes ∨
    (c.type ∈ classTypes ∧ c.type ∉ typeOnlyDefaultTypes)
  match exp.children.find? fun c => declares c || c.type = "identifier".toList with
  | some child => if declares child then some ((qnByNode decls child).getD fileQn) else none
  | none => none

/-- The default exports of values. -/
def isRuntimeDefault (exp : TSNode) : Bool :=
  hasChild exp "default".toList && !exp.children.any fun c => c.type ∈ typeOnlyDefaultTypes

/-- The first default export with a qualified name, and the number of default exports. -/
def extractDefaultExport (tree : SyntaxTree) (decls : List Declared) (fileQn : Text) : Option Text × ℕ :=
  let defaults := (tree.descendantsOfType exportTypes).filter fun x => isRuntimeDefault x.node
  (defaults.findSome? fun x => defaultQn decls fileQn x.node, defaults.length)

/-! ## The file -/

structure FastFileResult where
  nodes : List FastNode
  edges : List FastEdge
  unresolvedCalls : List CrossFile.CallSite
  imports : List ImportRow
  exports : List ExportRow
  defaultExportQn : Option Text
  defaultExportCount : ℕ

/-- **What is read off the tree of a file.** -/
def extractFast (tree : SyntaxTree) (relPath fileQn : Text) (sourceLength : ℕ) : FastFileResult :=
  let decls := (extractDecls tree fileQn).decls
  let calls := tree.descendantsOfType callTypes
  let defaultExport := extractDefaultExport tree decls fileQn
  { nodes := fileNode tree relPath fileQn sourceLength :: decls.reverse.map (Declared.toNode relPath)
    edges := decls.reverse.map Declared.contains ++ calls.flatMap (callEdges decls)
    unresolvedCalls := calls.filterMap (unresolvedCall decls relPath)
    imports := extractImports tree relPath
    exports := extractExports tree relPath
    defaultExportQn := defaultExport.1
    defaultExportCount := defaultExport.2 }

end Ariad.FastWalker
