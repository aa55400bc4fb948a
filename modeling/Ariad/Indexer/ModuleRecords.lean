import Ariad.Indexer.FastWalker
import Ariad.Indexer.ModuleTrees
import Ariad.Relational.Matching

/-!
# Module records

The rows of imports and exports as the entries of a module, and the forms that are recorded as they are.

* `ImportRow.entry`, `ExportRow.record` — rows as entries.
* `RecordsExact` — the rows of a file are the entries of its module.
* `ModuleItems.importAtoms`, `ModuleItems.exportAtoms` — name by name, what is recorded and what the entry is.
* `ModuleItems.Supported` — every form is recorded as it is.
* `imports_perm_iff`, `exports_perm_iff` — what is recorded is what there is exactly if the forms are supported.
-/

namespace Ariad

open CrossFile Ecmascript FastWalker Matching List

/-! ## Rows as entries -/

def CrossFile.ImportRow.entry (r : ImportRow) : ImportEntry where
  moduleRequest := r.sourceModule
  importName := if r.importKind = .namespace_ then .namespaceObject else .name r.importedName
  localName := r.localName

def CrossFile.ExportRow.record (r : ExportRow) : ExportRecord :=
  match r.exportKind with
  | .type_only_default => .typeOnlyDefault (r.localName.getD []) r.sourceModule
  | .star_re_export => .entry ⟨none, r.sourceModule, some .allButDefault, r.localName⟩
  | _ => .entry ⟨some r.exportedName, r.sourceModule, r.importedName.map .name, r.localName⟩

/-- The rows are the entries, each as often, and the default exports are counted right. -/
structure RecordsExact (m : ModuleItems) (r : FastFileResult) : Prop where
  imports : (r.imports.map ImportRow.entry).Perm m.importEntries
  exports : (r.exports.map ExportRow.record).Perm m.exportRecords
  defaultExportCount : r.defaultExportCount = m.runtimeDefaults

/-! ## Imports, name by name -/

namespace Ecmascript

/-- A specifier without escapes that is not empty. -/
def Spelling.Recorded (s : Spelling) : Prop := s.Plain ∧ s.written ≠ []

def Imported.Plain : Imported → Prop
  | .name s => s.Plain
  | _ => True

namespace ImportBinding

variable (b : ImportBinding)

/-- What the extractor records; a specifier that is empty is taken for none. -/
def recorded : Option ImportEntry := if b.source.written = [] then none else some (b.entry Spelling.written)

def atom : Option ImportEntry × Option ImportEntry := (b.recorded, some (b.entry Spelling.value))

/-- **A binding that is recorded as it is.** -/
def Supported : Prop := b.source.Recorded ∧ b.imported.Plain ∧ b.localName.Plain

end ImportBinding

def ImportName.size : ImportName → ℕ
  | .name n => n.length
  | _ => 0

def ImportEntry.size (e : ImportEntry) : ℕ := e.moduleRequest.length + e.importName.size + e.localName.length

namespace ImportBinding

variable {b : ImportBinding}

variable {i : Option ExportRecord × Option ExportRecord}

theorem size_importName {i : Imported} : (i.importName Spelling.value).size ≤ (i.importName Spelling.written).size ∧
      ((i.importName Spelling.value).size = (i.importName Spelling.written).size ↔ i.Plain) := by
  cases i with
  | name s => exact ⟨s.length_le, ⟨fun h => s.plain_iff_length.mpr h.ge, fun h => congrArg List.length (Eq.symm h)⟩⟩
  | _ => exact ⟨le_rfl, iff_of_true rfl trivial⟩

theorem importName_eq_iff {i : Imported} : i.importName Spelling.written = i.importName Spelling.value ↔ i.Plain := by
  cases i with
  | name s => exact ImportName.name.injEq _ _ ▸ Iff.rfl
  | _ => exact iff_of_true rfl trivial

theorem entry_eq_iff : b.entry Spelling.written = b.entry Spelling.value ↔
    b.source.Plain ∧ b.imported.Plain ∧ b.localName.Plain := by
  rw [entry, entry, ImportEntry.mk.injEq, importName_eq_iff]
  rfl

theorem agree_iff : b.atom.1 = b.atom.2 ↔ b.Supported := by
  rw [atom, recorded, Supported, Spelling.Recorded]
  split
  · rename_i hnil
    exact iff_of_false (fun h => by cases h) fun h => h.1.2 hnil
  · rename_i hne
    rw [Option.some.injEq, entry_eq_iff]
    exact ⟨fun h => ⟨⟨h.1, hne⟩, h.2⟩, fun h => ⟨h.1.1, h.2⟩⟩

theorem lighter : Lighter ImportEntry.size b.atom := by
  intro x hx
  refine ⟨_, rfl, ?_⟩
  have hsource := b.source.length_le
  have hlocal := b.localName.length_le
  obtain ⟨hname, hnameEq⟩ := size_importName (i := b.imported)
  obtain ⟨-, hx⟩ := Option.ite_none_left_eq_some.mp hx
  obtain rfl := Option.some.inj hx
  simp only [entry, ImportEntry.size]
  refine ⟨by omega, fun heq => ?_⟩
  exact (entry_eq_iff.mpr ⟨b.source.plain_iff_length.mpr (by omega), hnameEq.mp (by omega),
    b.localName.plain_iff_length.mpr (by omega)⟩).symm

end ImportBinding

/-! ## Exports, name by name -/

namespace ExportBinding

/-- What the extractor records. A specifier that is empty is taken for none, and a type is exported as `default`
where this is written. -/
def recorded : ExportBinding → Option ExportRecord
  | star source => if source.written = [] then none else some ((star source).record Spelling.written)
  | namespace_ _ _ => none
  | indirect name exported source =>
    some (if source.written = [] then (local_ name exported).record Spelling.written
      else (indirect name exported source).record Spelling.written)
  | local_ name exported => some ((local_ name exported).record Spelling.written)
  | typeOnlyDefault name exported source =>
    if exported.written = "default".toList then
      some ((typeOnlyDefault name exported source).record Spelling.written)
    else none

def atom (b : ExportBinding) : Option ExportRecord × Option ExportRecord :=
  (b.recorded, some (b.record Spelling.value))

/-- **A binding that is recorded as it is.** -/
def Supported : ExportBinding → Prop
  | star source => source.Recorded
  | namespace_ _ _ => False
  | indirect name exported source => name.Plain ∧ exported.Plain ∧ source.Recorded
  | local_ name exported => name.Plain ∧ exported.Plain
  | typeOnlyDefault name exported source =>
    name.Plain ∧ exported.written = "default".toList ∧ ∀ s ∈ source, s.Plain

end ExportBinding

/-- What the extractor takes the name of a pattern for. -/
def BindingPattern.misread (p : BindingPattern) : ExportRecord := .entry ⟨some p.written, none, none, some p.written⟩

/-- A name that is not recorded. -/
def missing (name : Identifier) : Option ExportRecord × Option ExportRecord :=
  (none, some ((ExportBinding.declared name).record Spelling.value))

namespace ExportedDeclaration

/-- Of variables the first declarator is recorded, with its text. -/
def atoms : ExportedDeclaration → List (Option ExportRecord × Option ExportRecord)
  | function_ name | generator name | class_ name => [(ExportBinding.declared name).atom]
  | abstractClass name => [missing name]
  | variable_ [] => []
  | variable_ (.identifier name :: rest) =>
    (ExportBinding.declared name).atom :: (rest.flatMap Declarator.names).map missing
  | variable_ (.pattern p :: rest) =>
    (some p.misread, none) :: (p.names ++ rest.flatMap Declarator.names).map missing

/-- **A declaration that is recorded as it is**: of variables, the first one is no pattern and the others bind
nothing. -/
def Supported : ExportedDeclaration → Prop
  | function_ name | generator name | class_ name => name.1.Plain
  | abstractClass _ => False
  | variable_ [] => True
  | variable_ (.identifier name :: rest) => name.1.Plain ∧ ∀ d ∈ rest, d.names = []
  | variable_ (.pattern _ :: _) => False

end ExportedDeclaration

namespace ExportItem

def atoms : ExportItem → List (Option ExportRecord × Option ExportRecord)
  | declaration d => d.atoms
  | item => item.bindings.map ExportBinding.atom

/-- **An export that is recorded as it is.** -/
def Supported : ExportItem → Prop
  | declaration d => d.Supported
  | item => ∀ b ∈ item.bindings, b.Supported

end ExportItem

/-- **A module whose records are exact**: its imports and exports have forms that are recorded as they are, and it has
no signature of a default export. -/
structure ModuleItems.Supported (m : ModuleItems) : Prop where
  imports : ∀ d ∈ m.imports, ∀ b ∈ d.bindings, b.Supported
  exports : ∀ e ∈ m.exports, e.Supported
  defaults : ExportItem.default .signature ∉ m.exports

/-! ## Agreement -/

namespace ExportBinding

variable {b : ExportBinding}

theorem map_written_eq_iff {source : Option Spelling} :
    source.map Spelling.written = source.map Spelling.value ↔ ∀ s ∈ source, s.Plain := by
  cases source with
  | none => exact iff_of_true rfl fun s hs => by cases hs
  | some s => simp [Spelling.Plain]

theorem agree_iff : b.atom.1 = b.atom.2 ↔ b.Supported := by
  cases b with
  | star source => by_cases hnil : source.written = [] <;> simp [atom, recorded, record, Supported, Spelling.Recorded,
      Spelling.Plain, hnil]
  | namespace_ name source => exact iff_of_false (fun h => by cases h) id
  | indirect name exported source =>
    by_cases hnil : source.written = [] <;> simp [atom, recorded, record, Supported, Spelling.Recorded,
      Spelling.Plain, hnil]
    tauto
  | local_ name exported =>
    simp only [atom, recorded, record, Supported, Spelling.Plain, Option.some.injEq, ExportRecord.entry.injEq,
      ExportEntry.mk.injEq]
    tauto
  | typeOnlyDefault name exported source =>
    by_cases hdefault : exported.written = "default".toList
    · simp only [atom, recorded, record, Supported, hdefault, if_true, Option.some.injEq,
        ExportRecord.typeOnlyDefault.injEq, map_written_eq_iff, true_and]
      rfl
    · refine iff_of_false (fun h => ?_) fun h => hdefault h.2.1
      rw [atom, recorded, if_neg hdefault] at h
      cases h

end ExportBinding

/-- Texts are together no shorter than their values, and if they are as long, they stand for themselves. -/
theorem Spelling.sum_length_le (l : List Spelling) :
    (l.map fun s => s.value.length).sum ≤ (l.map fun s => s.written.length).sum ∧
      ((l.map fun s => s.value.length).sum = (l.map fun s => s.written.length).sum → ∀ s ∈ l, s.Plain) := by
  induction l with
  | nil => exact ⟨Nat.le_refl _, fun _ s hs => absurd hs not_mem_nil⟩
  | cons s l ih =>
    obtain ⟨hle, hplain⟩ := ih
    have hlength := s.length_le
    rw [map_cons, map_cons, sum_cons, sum_cons]
    refine ⟨by omega, fun h => forall_mem_cons.mpr ⟨s.plain_iff_length.mpr (by omega), hplain (by omega)⟩⟩

def textSize : Option Text → ℕ
  | some t => t.length
  | none => 0

def ExportRecord.size : ExportRecord → ℕ
  | .entry e => textSize e.exportName + textSize e.moduleRequest + (e.importName.elim 0 ImportName.size) +
      textSize e.localName
  | .typeOnlyDefault localName moduleRequest => localName.length + textSize moduleRequest

namespace ExportBinding

variable {b : ExportBinding}

/-- The texts of a binding. -/
def spellings : ExportBinding → List Spelling
  | star source => [source]
  | namespace_ name source => [name, source]
  | indirect name exported source => [name, exported, source]
  | local_ name exported => [name, exported]
  | typeOnlyDefault name _ source => name :: source.toList

theorem size_record (read : Spelling → Text) :
    (b.record read).size = (b.spellings.map fun s => (read s).length).sum := by
  cases b with
  | typeOnlyDefault name exported source => cases source <;> simp [record, ExportRecord.size, textSize, spellings]
  | _ =>
    simp only [record, ExportRecord.size, textSize, spellings, Option.elim, ImportName.size, map_cons,
      map_nil, sum_cons, sum_nil]
    omega

theorem record_plain (h : ∀ s ∈ b.spellings, s.Plain) : b.record Spelling.value = b.record Spelling.written := by
  cases b with
  | typeOnlyDefault name exported source =>
    obtain ⟨hname, hsource⟩ := forall_mem_cons.mp h
    rw [record, record, show name.written = name.value from hname,
      map_written_eq_iff.mpr fun s hs => hsource s (Option.mem_toList.mpr hs)]
  | _ =>
    simp only [spellings, forall_mem_cons, Spelling.Plain] at h
    simp only [record, h]

/-- What is written is no shorter, and what is as long is the same. -/
theorem size_le : (b.record Spelling.value).size ≤ (b.record Spelling.written).size ∧
    ((b.record Spelling.value).size = (b.record Spelling.written).size →
      b.record Spelling.value = b.record Spelling.written) := by
  rw [size_record, size_record]
  obtain ⟨hle, hplain⟩ := Spelling.sum_length_le b.spellings
  exact ⟨hle, fun h => record_plain (hplain h)⟩

/-- A request of the empty specifier is not recorded. -/
theorem request_ne_nil {e : ExportEntry} (h : b.recorded = some (.entry e)) : e.moduleRequest ≠ some [] := by
  cases b with
  | star source =>
    obtain ⟨hne, h⟩ := Option.ite_none_left_eq_some.mp h
    obtain rfl := ExportRecord.entry.inj (Option.some.inj h)
    exact fun hnil => hne (Option.some.inj hnil)
  | namespace_ => cases h
  | indirect name exported source =>
    have h := Option.some.inj h
    split at h
    · obtain rfl := ExportRecord.entry.inj h
      exact fun hnil => by cases hnil
    · rename_i hne
      obtain rfl := ExportRecord.entry.inj h
      exact fun hnil => hne (Option.some.inj hnil)
  | local_ =>
    obtain rfl := ExportRecord.entry.inj (Option.some.inj h)
    exact fun hnil => by cases hnil
  | typeOnlyDefault =>
    obtain ⟨-, h⟩ := Option.ite_none_right_eq_some.mp h
    cases h

theorem lighter (h : ∀ e, b.record Spelling.value = .entry e → e.moduleRequest ≠ some []) :
    Lighter ExportRecord.size b.atom := by
  intro x hx
  have hrecorded : b.record Spelling.written = x := by
    cases b with
    | star => exact Option.some.inj (Option.ite_none_left_eq_some.mp hx).2
    | namespace_ => cases hx
    | indirect name exported source =>
      have hx := Option.some.inj hx
      have hne : source.written ≠ [] := by
        intro hnil
        have hlength := source.length_le
        rw [hnil] at hlength
        exact h _ rfl (congrArg some (length_eq_zero_iff.mp (Nat.le_zero.mp hlength)))
      rwa [if_neg hne] at hx
    | local_ => exact Option.some.inj hx
    | typeOnlyDefault => exact Option.some.inj (Option.ite_none_right_eq_some.mp hx).2
  subst hrecorded
  exact ⟨_, rfl, size_le⟩

end ExportBinding

/-- What is recorded and what there is of a name: of one that is exported, of one that is missed, or of a pattern. -/
inductive IsAtom : Option ExportRecord × Option ExportRecord → Prop where
  | binding (b : ExportBinding) : IsAtom b.atom
  | missing (y : Option ExportRecord) : IsAtom (none, y)
  | misread (p : BindingPattern) : IsAtom (some p.misread, none)

namespace ExportedDeclaration

variable {d : ExportedDeclaration}

theorem right_missing (names : List Identifier) : right (names.map missing) =
    (names.map ExportBinding.declared).map (ExportBinding.record Spelling.value) := by
  rw [right, filterMap_map, map_map, ← filterMap_eq_map]
  rfl

theorem right_atoms : right d.atoms = (d.names.map ExportBinding.declared).map (ExportBinding.record Spelling.value) := by
  cases d with
  | variable_ declarators =>
    cases declarators with
    | nil => rfl
    | cons first rest =>
      cases first with
      | identifier name => exact congrArg _ (right_missing (rest.flatMap Declarator.names))
      | pattern p => exact right_missing (p.names ++ rest.flatMap Declarator.names)
  | _ => rfl

theorem isAtom_of_mem (h : i ∈ d.atoms) : IsAtom i := by
  have hmissing {names : List Identifier} (h : i ∈ names.map Ecmascript.missing) : IsAtom i := by
    obtain ⟨name, -, rfl⟩ := mem_map.mp h
    exact .missing _
  cases d with
  | variable_ declarators =>
    cases declarators with
    | nil => cases h
    | cons first rest =>
      cases first with
      | identifier name =>
        rcases mem_cons.mp h with rfl | h
        · exact .binding _
        · exact hmissing h
      | pattern p =>
        rcases mem_cons.mp h with rfl | h
        · exact .misread p
        · exact hmissing h
  | abstractClass name =>
    obtain rfl := mem_singleton.mp h
    exact .missing _
  | _ =>
    obtain rfl := mem_singleton.mp h
    exact .binding _

theorem agree_missing {names : List Identifier} : Agree (names.map missing) ↔ names = [] := by
  cases names with
  | nil => exact iff_of_true (fun i hi => absurd hi not_mem_nil) rfl
  | cons name names =>
    refine iff_of_false (fun h => ?_) (cons_ne_nil _ _)
    cases h _ mem_cons_self

theorem agree_declared {name : Identifier} :
    (ExportBinding.declared name).atom.1 = (ExportBinding.declared name).atom.2 ↔ name.1.Plain :=
  ExportBinding.agree_iff.trans and_self_iff

theorem agree_iff : Agree d.atoms ↔ d.Supported := by
  cases d with
  | variable_ declarators =>
    cases declarators with
    | nil => exact iff_of_true (fun i hi => absurd hi not_mem_nil) trivial
    | cons first rest =>
      cases first with
      | identifier name =>
        rw [atoms, agree_cons, agree_declared, agree_missing, flatMap_eq_nil_iff]
        rfl
      | pattern p =>
        refine iff_of_false (fun h => ?_) id
        cases h _ mem_cons_self
  | abstractClass name =>
    refine iff_of_false (fun h => ?_) id
    cases h _ mem_cons_self
  | _ =>
    rw [atoms, Agree, forall_mem_singleton]
    exact agree_declared

end ExportedDeclaration

namespace ExportItem

variable {e : ExportItem}

theorem right_map_atom (bindings : List ExportBinding) :
    right (bindings.map ExportBinding.atom) = bindings.map (ExportBinding.record Spelling.value) := by
  rw [right, filterMap_map, ← filterMap_eq_map]
  rfl

theorem right_atoms : right e.atoms = e.bindings.map (ExportBinding.record Spelling.value) := by
  cases e with
  | declaration d => exact d.right_atoms
  | _ => exact right_map_atom _

theorem isAtom_of_mem (h : i ∈ e.atoms) : IsAtom i := by
  cases e with
  | declaration d => exact ExportedDeclaration.isAtom_of_mem h
  | _ =>
    obtain ⟨b, -, rfl⟩ := mem_map.mp h
    exact .binding b

theorem agree_iff : Agree e.atoms ↔ e.Supported := by
  have hbindings {bindings : List ExportBinding} :
      Agree (bindings.map ExportBinding.atom) ↔ ∀ b ∈ bindings, b.Supported := by
    rw [Agree, forall_mem_map]
    exact forall₂_congr fun b _ => ExportBinding.agree_iff
  cases e with
  | declaration d => exact d.agree_iff
  | _ => exact hbindings

/-- What a module exports of its own has a name. -/
theorem local_identifier {name exported : Spelling} (h : ExportBinding.local_ name exported ∈ e.bindings) :
    name.IsIdentifier := by
  cases e with
  | star typeOnly => cases typeOnly <;> simp [bindings] at h
  | namespace_ typeOnly => cases typeOnly <;> simp [bindings] at h
  | clause c =>
    obtain ⟨s, hs, hbinding⟩ := mem_filterMap.mp h
    unfold Specifier.exportBinding at hbinding
    split at hbinding
    · split at hbinding <;> cases hbinding
    · split at hbinding
      · cases hbinding
      · rename_i hsource
        cases hbinding
        exact c.locals hsource s hs
  | declaration d =>
    obtain ⟨name, -, hname⟩ := mem_map.mp h
    cases hname
    exact name.2
  | typeDeclaration => cases h
  | default => cases h

end ExportItem

/-! ## The module -/

namespace ModuleItems

variable (m : ModuleItems)

def importAtoms : List (Option ImportEntry × Option ImportEntry) :=
  (m.imports.flatMap ImportDeclaration.bindings).map ImportBinding.atom

def exportAtoms : List (Option ExportRecord × Option ExportRecord) := m.exports.flatMap ExportItem.atoms

variable {m}

theorem right_importAtoms : right m.importAtoms = m.importEntries := by
  rw [right, importAtoms, filterMap_map, importEntries, ← filterMap_eq_map]
  rfl

theorem right_exportAtoms : right m.exportAtoms = m.exportRecords := by
  rw [exportAtoms, right_flatMap, exportRecords, map_flatMap]
  exact flatMap_congr fun e _ => e.right_atoms

theorem imports_perm_iff : (left m.importAtoms).Perm m.importEntries ↔
    ∀ d ∈ m.imports, ∀ b ∈ d.bindings, b.Supported := by
  have hlighter : ∀ i ∈ m.importAtoms, (∀ x, i.1 = some x → x ∈ right m.importAtoms) →
      (∀ y, i.2 = some y → y ∈ left m.importAtoms) → Lighter ImportEntry.size i := by
    intro i hi _ _
    obtain ⟨b, -, rfl⟩ := mem_map.mp hi
    exact ImportBinding.lighter
  rw [← right_importAtoms, perm_iff_agree hlighter, Agree, importAtoms, forall_mem_map]
  constructor
  · intro h d hd b hb
    exact ImportBinding.agree_iff.mp (h b (mem_flatMap.mpr ⟨d, hd, hb⟩))
  · intro h b hb
    obtain ⟨d, hd, hb⟩ := mem_flatMap.mp hb
    exact ImportBinding.agree_iff.mpr (h d hd b hb)

/-- The text of a pattern is the name of no entry. -/
theorem misread_notMem {p : BindingPattern} : p.misread ∉ m.exportRecords := by
  intro h
  obtain ⟨b, hb, hrecord⟩ := mem_map.mp h
  obtain ⟨e, -, hb⟩ := mem_flatMap.mp hb
  cases b with
  | local_ name exported =>
    obtain ⟨c, t, hvalue, hbrace, hbracket⟩ := ExportItem.local_identifier hb
    obtain ⟨c', t', hwritten, hopened⟩ := p.opened
    have hsame : some name.value = some p.written := (ExportEntry.mk.inj (ExportRecord.entry.inj hrecord)).2.2.2
    rw [hvalue, hwritten, Option.some.injEq, List.cons.injEq] at hsame
    obtain ⟨rfl, -⟩ := hsame
    exact hopened.elim hbrace hbracket
  | typeOnlyDefault => cases hrecord
  | _ => cases (ExportEntry.mk.inj (ExportRecord.entry.inj hrecord)).2.1

theorem request_ne_nil {e : ExportEntry} (h : .entry e ∈ left m.exportAtoms) : e.moduleRequest ≠ some [] := by
  obtain ⟨i, hi, hrecorded⟩ := mem_filterMap.mp h
  obtain ⟨item, -, hi⟩ := mem_flatMap.mp hi
  cases ExportItem.isAtom_of_mem hi with
  | binding b => exact ExportBinding.request_ne_nil hrecorded
  | missing => cases hrecorded
  | misread p =>
    obtain rfl := ExportRecord.entry.inj (Option.some.inj hrecorded)
    exact fun hnil => by cases hnil

theorem exports_perm_iff : (left m.exportAtoms).Perm m.exportRecords ↔ ∀ e ∈ m.exports, e.Supported := by
  have hlighter : ∀ i ∈ m.exportAtoms, (∀ x, i.1 = some x → x ∈ right m.exportAtoms) →
      (∀ y, i.2 = some y → y ∈ left m.exportAtoms) → Lighter ExportRecord.size i := by
    intro i hi hleft hright
    obtain ⟨item, -, hatom⟩ := mem_flatMap.mp hi
    cases ExportItem.isAtom_of_mem hatom with
    | binding b => exact ExportBinding.lighter fun e he => request_ne_nil (he ▸ hright _ rfl)
    | missing => exact fun x hx => by cases hx
    | misread p => exact absurd (right_exportAtoms ▸ hleft _ rfl) misread_notMem
  rw [← right_exportAtoms, perm_iff_agree hlighter, exportAtoms, agree_flatMap]
  exact forall₂_congr fun e _ => e.agree_iff

end ModuleItems

end Ecmascript

end Ariad
