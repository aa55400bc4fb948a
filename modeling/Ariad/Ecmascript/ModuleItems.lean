import Ariad.Javascript.Text

/-!
# Module items

The import and export declarations of a module as ECMAScript has them, with the type-only forms of TypeScript, and
the entries that they have.

* `Spelling` — a name or a specifier as it is written, and what it stands for.
* `ImportDeclaration`, `ExportItem`, `ModuleItems` — the syntax.
* `ImportBinding`, `ExportBinding` — one name of a declaration. Each is read as an entry, of what is written or of
  what it stands for.
* `ModuleItems.importEntries`, `ModuleItems.exportRecords`, `ModuleItems.runtimeDefaults` — what the module has.
-/

namespace Ariad.Ecmascript

/-! ## Names -/

/-- What a name or a string cannot be written with, if it stands for itself. -/
def isMark (c : Char) : Bool := c = '\\' || c = '"' || c = '\''

/-- A name or a string: its text, without the quotes of a module specifier, and its value. A text with escapes or
quotes is longer than its value. -/
structure Spelling where
  written : Text
  value : Text
  marked : written ≠ value → value.length < written.length ∧ written.any isMark = true

namespace Spelling

/-- A text that stands for itself. -/
def itself (t : Text) : Spelling := ⟨t, t, fun h => absurd rfl h⟩

/-- Without quotes and escapes. -/
def Plain (s : Spelling) : Prop := s.written = s.value

instance (s : Spelling) : Decidable s.Plain := inferInstanceAs (Decidable (_ = _))

/-- The text is a name: there is one, and it is no pattern. -/
def IsIdentifier (s : Spelling) : Prop := ∃ c t, s.value = c :: t ∧ c ≠ '\x7b' ∧ c ≠ '['

theorem length_le (s : Spelling) : s.value.length ≤ s.written.length := by
  by_cases h : s.written = s.value
  · rw [h]
  · exact (s.marked h).1.le

theorem plain_iff_length (s : Spelling) : s.Plain ↔ s.written.length ≤ s.value.length := by
  constructor
  · intro h
    rw [show s.written = s.value from h]
  · intro hlength
    by_contra h
    exact absurd hlength (s.marked h).1.not_ge

/-- A text without marks stands for itself. -/
theorem plain_of_unmarked {s : Spelling} (h : s.written.any isMark = false) : s.Plain := by
  by_contra hplain
  obtain ⟨-, hmark⟩ := s.marked hplain
  rw [h] at hmark
  cases hmark

theorem IsIdentifier.written_ne_nil {s : Spelling} (h : s.IsIdentifier) : s.written ≠ [] := by
  obtain ⟨c, t, hvalue, -⟩ := h
  intro hnil
  have hlength := s.length_le
  rw [hvalue, hnil] at hlength
  exact absurd hlength (Nat.not_succ_le_zero _)

end Spelling

/-- A name that the module declares. -/
abbrev Identifier := {s : Spelling // s.IsIdentifier}

/-! ## Syntax -/

/-- What stands between the braces of a clause. -/
structure Specifier where
  typeOnly : Bool
  name : Spelling
  alias_ : Option Spelling

/-- The local name of an import, the exported name of an export. -/
def Specifier.bound (s : Specifier) : Spelling := s.alias_.getD s.name

inductive ImportPart where
  | default (name : Identifier)
  | namespace_ (name : Identifier)
  | named (specifiers : List Specifier)

/-- An import declaration; without a clause it binds nothing. -/
structure ImportDeclaration where
  typeOnly : Bool
  clause : Option (List ImportPart)
  source : Spelling

/-- `export { … }`, with or without `from`. What the module exports of its own has a name in it. -/
structure ExportClause where
  typeOnly : Bool
  specifiers : List Specifier
  source : Option Spelling
  locals : source = none → ∀ s ∈ specifiers, s.name.IsIdentifier

/-- A pattern to the left of an initializer. -/
structure BindingPattern where
  written : Text
  names : List Identifier
  opened : ∃ c t, written = c :: t ∧ (c = '\x7b' ∨ c = '[')

inductive Declarator where
  | identifier (name : Identifier)
  | pattern (p : BindingPattern)

def Declarator.names : Declarator → List Identifier
  | identifier name => [name]
  | pattern p => p.names

inductive ExportedDeclaration where
  | function_ (name : Identifier)
  | generator (name : Identifier)
  | class_ (name : Identifier)
  | abstractClass (name : Identifier)
  | variable_ (declarators : List Declarator)

/-- What `export default` exports: a value, an interface or type, or a signature of an overloaded function. -/
inductive DefaultKind where
  | value
  | type
  | signature
  deriving DecidableEq

inductive ExportItem where
  | star (typeOnly : Bool) (source : Spelling)
  | namespace_ (typeOnly : Bool) (name source : Spelling)
  | clause (c : ExportClause)
  | declaration (d : ExportedDeclaration)
  | typeDeclaration
  | default (kind : DefaultKind)

/-- The import and export declarations of a module. -/
structure ModuleItems where
  imports : List ImportDeclaration
  exports : List ExportItem

/-! ## Entries -/

/-- `[[ImportName]]` -/
inductive ImportName where
  | name (n : Text)
  | namespaceObject
  | all
  | allButDefault
  deriving DecidableEq

structure ImportEntry where
  moduleRequest : Text
  importName : ImportName
  localName : Text
  deriving DecidableEq

structure ExportEntry where
  exportName : Option Text
  moduleRequest : Option Text
  importName : Option ImportName
  localName : Option Text
  deriving DecidableEq

/-- An entry, or the marker of a type that is exported as `default`. -/
inductive ExportRecord where
  | entry (e : ExportEntry)
  | typeOnlyDefault (localName : Text) (moduleRequest : Option Text)
  deriving DecidableEq

/-! ## Imports -/

inductive Imported where
  | default
  | namespaceObject
  | name (s : Spelling)

/-- One name that an import declaration binds. -/
structure ImportBinding where
  source : Spelling
  imported : Imported
  localName : Spelling

def Imported.importName (read : Spelling → Text) : Imported → ImportName
  | default => .name "default".toList
  | namespaceObject => .namespaceObject
  | name s => .name (read s)

def ImportBinding.entry (read : Spelling → Text) (b : ImportBinding) : ImportEntry :=
  ⟨read b.source, b.imported.importName read, read b.localName⟩

/-- What a specifier binds; a type is not bound. -/
def Specifier.importBinding (source : Spelling) (s : Specifier) : Option ImportBinding :=
  if s.typeOnly then none else some ⟨source, .name s.name, s.bound⟩

def ImportPart.bindings (source : Spelling) : ImportPart → List ImportBinding
  | default name => [⟨source, .default, name⟩]
  | namespace_ name => [⟨source, .namespaceObject, name⟩]
  | named specifiers => specifiers.filterMap (Specifier.importBinding source)

def ImportDeclaration.bindings (d : ImportDeclaration) : List ImportBinding :=
  if d.typeOnly then [] else (d.clause.getD []).flatMap (ImportPart.bindings d.source)

/-! ## Exports -/

/-- One name that an export declaration exports, or a star. -/
inductive ExportBinding where
  | star (source : Spelling)
  | namespace_ (name source : Spelling)
  | indirect (name exported source : Spelling)
  | local_ (name exported : Spelling)
  | typeOnlyDefault (name exported : Spelling) (source : Option Spelling)

def ExportBinding.record (read : Spelling → Text) : ExportBinding → ExportRecord
  | star source => .entry ⟨none, some (read source), some .allButDefault, none⟩
  | namespace_ name source => .entry ⟨some (read name), some (read source), some .all, none⟩
  | indirect name exported source => .entry ⟨some (read exported), some (read source), some (.name (read name)), none⟩
  | local_ name exported => .entry ⟨some (read exported), none, none, some (read name)⟩
  | typeOnlyDefault name _ source => .typeOnlyDefault (read name) (source.map read)

/-- What a specifier exports; a type is exported for its name `default` only. -/
def Specifier.exportBinding (typeOnly : Bool) (source : Option Spelling) (s : Specifier) : Option ExportBinding :=
  if typeOnly || s.typeOnly then
    if s.bound.value = "default".toList then some (.typeOnlyDefault s.name s.bound source) else none
  else
    match source with
    | some source => some (.indirect s.name s.bound source)
    | none => some (.local_ s.name s.bound)

def ExportedDeclaration.names : ExportedDeclaration → List Identifier
  | function_ name | generator name | class_ name | abstractClass name => [name]
  | variable_ declarators => declarators.flatMap Declarator.names

/-- A name that is exported as it is. -/
def ExportBinding.declared (name : Identifier) : ExportBinding := .local_ name name

def ExportItem.bindings : ExportItem → List ExportBinding
  | star typeOnly source => if typeOnly then [] else [.star source]
  | namespace_ typeOnly name source => if typeOnly then [] else [.namespace_ name source]
  | clause c => c.specifiers.filterMap (Specifier.exportBinding c.typeOnly c.source)
  | declaration d => d.names.map ExportBinding.declared
  | typeDeclaration => []
  | default _ => []

namespace ModuleItems

/-- `[[ImportEntries]]`: an entry for every name that is bound. -/
def importEntries (m : ModuleItems) : List ImportEntry :=
  (m.imports.flatMap ImportDeclaration.bindings).map (ImportBinding.entry Spelling.value)

/-- The export entries, those of `export default` left out, and the markers of types. -/
def exportRecords (m : ModuleItems) : List ExportRecord :=
  (m.exports.flatMap ExportItem.bindings).map (ExportBinding.record Spelling.value)

def isRuntimeDefault : ExportItem → Bool
  | .default .value => true
  | _ => false

/-- The default exports of values. -/
def runtimeDefaults (m : ModuleItems) : ℕ := (m.exports.filter isRuntimeDefault).length

end ModuleItems

end Ariad.Ecmascript
