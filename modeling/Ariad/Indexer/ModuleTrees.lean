import Ariad.Ecmascript.ModuleItems
import Ariad.Indexer.LexicalScopes

/-!
# Modules as syntax trees

Which trees the parser makes of the import and export declarations of a module. Only the nodes that tell the form of a
declaration are fixed; keywords, separators, comments and decorators may stand anywhere.

* `IsImport`, `IsExport` — a statement is the tree of a declaration.
* `ExportParts` — what stands in an export statement that is no default export.
* `IsModule` — the tree of a module.
-/

namespace Ariad

open Ecmascript

/-- The children of some types. -/
def TSNode.childrenIn (n : TSNode) (types : List String) : List TSNode := n.children.filter fun c => c.typeIn types

/-- A string literal: the text between two quotes. -/
def IsLiteral (s : Spelling) (c : TSNode) : Prop :=
  ∃ q ∈ ['"', '\''], c.text = q :: s.written ++ [q]

/-- What is written in a field. -/
def FieldText (n : TSNode) (name : String) (s : Option Spelling) : Prop :=
  (n.childForFieldName name.toList).map TSNode.text = s.map Spelling.written

/-- A specifier of an import or export clause. -/
structure IsSpecifier (type : String) (s : Specifier) (spec : TSNode) : Prop where
  type : spec.type = type.toList
  typeOnly : spec.childrenIn ["type"] ≠ [] ↔ s.typeOnly = true
  name : FieldText spec "name" (some s.name)
  alias_ : FieldText spec "alias" s.alias_

/-! ## Imports -/

def IsImportPart : ImportPart → TSNode → Prop
  | .default name, c => c.type = "identifier".toList ∧ c.text = name.1.written
  | .namespace_ name, c =>
    c.type = "namespace_import".toList ∧ (c.childrenIn ["identifier"]).map TSNode.text = [name.1.written]
  | .named specifiers, c =>
    c.type = "named_imports".toList ∧ List.Forall₂ (IsSpecifier "import_specifier") specifiers (c.childrenIn ["import_specifier"])

def IsImportClause (parts : List ImportPart) (c : TSNode) : Prop :=
  List.Forall₂ IsImportPart parts (c.childrenIn ["identifier", "namespace_import", "named_imports"])

structure IsImport (d : ImportDeclaration) (imp : TSNode) : Prop where
  typeOnly : imp.childrenIn ["type"] ≠ [] ↔ d.typeOnly = true
  clause : List.Forall₂ IsImportClause d.clause.toList (imp.childrenIn ["import_clause"])
  source : List.Forall₂ IsLiteral [d.source] (imp.childrenIn ["string"])

/-! ## Exports -/

/-- What tells the form of an export statement. -/
structure ExportParts where
  typeOnly : Bool
  star : Bool
  namespace_ : Option Spelling
  clause : Option (List Specifier)
  source : Option Spelling
  declaration : Option ExportedDeclaration
  typeDeclaration : Bool

namespace ExportParts

/-- Nothing but the keyword. -/
def empty : ExportParts := ⟨false, false, none, none, none, none, false⟩

end ExportParts

/-- The parts of an export that is no default export. -/
def Ecmascript.ExportItem.parts : ExportItem → ExportParts
  | .star typeOnly source => { ExportParts.empty with typeOnly := typeOnly, star := true, source := some source }
  | .namespace_ typeOnly name source =>
    { ExportParts.empty with typeOnly := typeOnly, namespace_ := some name, source := some source }
  | .clause c =>
    { ExportParts.empty with typeOnly := c.typeOnly, clause := some c.specifiers, source := c.source }
  | .declaration d => { ExportParts.empty with declaration := some d }
  | .typeDeclaration => { ExportParts.empty with typeDeclaration := true }
  | .default _ => .empty

/-- `* as` and the name. -/
def IsNamespaceExport (name : Spelling) (c : TSNode) : Prop :=
  ∃ between, between ≠ [] ∧ c.text = '*' :: between ++ name.written

def IsExportClause (specifiers : List Specifier) (c : TSNode) : Prop :=
  List.Forall₂ (IsSpecifier "export_specifier") specifiers (c.childrenIn ["export_specifier"])

def IsDeclarator : Declarator → TSNode → Prop
  | .identifier name, c =>
    ∃ n, c.childForFieldName "name".toList = some n ∧ n.type = "identifier".toList ∧ n.text = name.1.written
  | .pattern p, c =>
    ∃ n, c.childForFieldName "name".toList = some n ∧ n.typeIn ["object_pattern", "array_pattern"] ∧
      n.text = p.written ∧ n.boundNames = p.names.map fun name => name.1.written

def IsDeclaration : ExportedDeclaration → TSNode → Prop
  | .function_ name, c => c.type = "function_declaration".toList ∧ FieldText c "name" (some name)
  | .generator name, c => c.type = "generator_function_declaration".toList ∧ FieldText c "name" (some name)
  | .class_ name, c => c.type = "class_declaration".toList ∧ FieldText c "name" (some name)
  | .abstractClass name, c => c.type = "abstract_class_declaration".toList ∧ FieldText c "name" (some name)
  | .variable_ declarators, c =>
    c.typeIn ["lexical_declaration", "variable_declaration"] ∧
      List.Forall₂ IsDeclarator declarators (c.childrenIn ["variable_declarator"])

def declarationTypes : List String :=
  ["function_declaration", "generator_function_declaration", "class_declaration", "abstract_class_declaration",
    "lexical_declaration", "variable_declaration"]

structure HasParts (p : ExportParts) (exp : TSNode) : Prop where
  default : exp.childrenIn ["default"] = []
  typeOnly : exp.childrenIn ["type"] ≠ [] ↔ p.typeOnly = true
  star : (exp.childrenIn ["*"]).map TSNode.text = if p.star then ["*".toList] else []
  namespace_ : List.Forall₂ IsNamespaceExport p.namespace_.toList (exp.childrenIn ["namespace_export"])
  clause : List.Forall₂ IsExportClause p.clause.toList (exp.childrenIn ["export_clause"])
  source : List.Forall₂ IsLiteral p.source.toList (exp.childrenIn ["string"])
  declaration : List.Forall₂ IsDeclaration p.declaration.toList (exp.childrenIn declarationTypes)
  typeDeclaration : exp.childrenIn ["interface_declaration", "type_alias_declaration", "ambient_declaration",
    "function_signature"] ≠ [] ↔ p.typeDeclaration = true

/-- `export default`; what is exported may be any expression. -/
structure IsDefault (kind : DefaultKind) (exp : TSNode) : Prop where
  default : exp.childrenIn ["default"] ≠ []
  typeOnly : exp.childrenIn ["type"] = []
  type : exp.childrenIn ["interface_declaration", "type_alias_declaration"] ≠ [] ↔ kind = .type
  signature : exp.childrenIn ["function_signature"] ≠ [] ↔ kind = .signature

def IsExport : ExportItem → TSNode → Prop
  | .default kind, exp => IsDefault kind exp
  | item, exp => HasParts item.parts exp

/-- **The tree of a module**, whose import and export declarations are at top level. -/
structure IsModule (m : ModuleItems) (tree : SyntaxTree) : Prop where
  imports : List.Forall₂ (fun d x => IsImport d x.node) m.imports
    (tree.descendantsOfType ["import_statement".toList])
  exports : List.Forall₂ (fun e x => IsExport e x.node) m.exports
    (tree.descendantsOfType ["export_statement".toList])
  topLevel : ∀ x ∈ tree.descendantsOfType ["import_statement".toList, "export_statement".toList],
    x.parents = [tree.root]

end Ariad
