import Ariad.Indexer.SyntaxTree

/-!
# Lexical scopes

Which names the nodes around a place declare, as the language has it: parameters, names of functions and classes,
hoisted variables of a function, and the declarations of a block, a loop or a `catch`.

* `boundNames` — the names that a pattern binds.
* `scopeNames` — the names that a node declares for what is in it.
* `Redeclared` — some node around a place, up to the module, declares the name.
-/

namespace Ariad

namespace TSNode

def typeIn (n : TSNode) (types : List String) : Bool := types.any fun t => n.type = t.toList

def fieldIs (n : TSNode) (name : String) : Bool := n.field = some name.toList

/-- The names in the child are bound by the pattern around it; defaults and computed keys bind nothing. -/
def bindsThrough (parent child : TSNode) : Bool :=
  parent.typeIn ["object_pattern", "array_pattern", "rest_pattern", "formal_parameters"] ||
    (parent.typeIn ["pair_pattern"] && child.fieldIs "value") ||
    (parent.typeIn ["assignment_pattern", "object_assignment_pattern"] && child.fieldIs "left") ||
    (parent.typeIn ["required_parameter", "optional_parameter"] && child.fieldIs "pattern")

def boundUpTo : TSNode → List TSNode → Bool
  | _, [] => true
  | child, parent :: parents => bindsThrough parent child && boundUpTo parent parents

/-- The names that a pattern binds. -/
def boundNames (pattern : TSNode) : List Text :=
  ((pattern.places []).filter fun x =>
    x.node.typeIn ["identifier", "shorthand_property_identifier_pattern"] && boundUpTo x.node x.parents).map
      fun x => x.node.text

def namesInField (n : TSNode) (name : String) : List Text :=
  ((n.childForFieldName name.toList).map boundNames).getD []

def nameText (n : TSNode) : List Text := ((n.childForFieldName "name".toList).map text).toList

/-- The names of all declarators of a declaration. -/
def declaratorNames (declaration : TSNode) : List Text :=
  (declaration.children.filter fun c => c.typeIn ["variable_declarator"]).flatMap fun c => c.namesInField "name"

/-- The names that a statement declares in its block. -/
def statementNames (statement : TSNode) : List Text :=
  if statement.typeIn ["lexical_declaration"] then statement.declaratorNames
  else if statement.typeIn ["function_declaration", "generator_function_declaration", "class_declaration",
      "abstract_class_declaration", "enum_declaration"] then statement.nameText
  else []

def isFunction (n : TSNode) : Bool :=
  n.typeIn ["function_declaration", "function_expression", "generator_function_declaration", "generator_function",
    "arrow_function", "method_definition"]

def isClass (n : TSNode) : Bool := n.typeIn ["class_declaration", "abstract_class_declaration", "class"]

/-- The variables of a function, those of functions in it left out. -/
def hoistedNames (body : TSNode) : List Text :=
  ((body.places []).filter fun x => !x.parents.any isFunction).flatMap fun x =>
    if x.node.typeIn ["variable_declaration"] then x.node.declaratorNames
    else if x.node.typeIn ["for_in_statement"] then
      if x.node.children.any fun c => c.typeIn ["var"] then x.node.namesInField "left" else []
    else []

/-- **The names that a node declares for what is in it.** -/
def scopeNames (n : TSNode) : List Text :=
  if n.isFunction then
    (if n.typeIn ["method_definition"] then [] else n.nameText) ++ n.namesInField "parameters" ++
      n.namesInField "parameter" ++ ((n.childForFieldName "body".toList).map hoistedNames).getD []
  else if n.isClass then n.nameText
  else if n.typeIn ["statement_block"] then n.children.flatMap statementNames
  else if n.typeIn ["switch_body"] then n.children.flatMap fun c => c.children.flatMap statementNames
  else if n.typeIn ["for_statement"] then ((n.childForFieldName "initializer".toList).map statementNames).getD []
  else if n.typeIn ["for_in_statement"] then
    if n.children.any fun c => c.typeIn ["let", "const"] then n.namesInField "left" else []
  else if n.typeIn ["catch_clause"] then n.namesInField "parameter"
  else []

end TSNode

/-- A node around the place, up to the module, declares the name. -/
def Redeclared (x : Place) (name : Text) : Prop := ∃ a ∈ x.parents, name ∈ a.scopeNames

instance (x : Place) (name : Text) : Decidable (Redeclared x name) :=
  inferInstanceAs (Decidable (∃ a ∈ x.parents, name ∈ a.scopeNames))

end Ariad
