import Ariad.Indexer.CallEdges

/-!
# Which call edges are guesses

* `builtin_filter_iff` — a method of the language is never guessed if and only if its name in lower case is in the
  list too.
* `importedQn` — the declaration that the import of a call site names; `callSiteEdges_namespace`,
  `callSiteEdges_explicit`: the edges that follow from it.
* `imports_decide_iff` — when the import alone decides.
-/

namespace Ariad.CrossFile

open List Option

namespace IndexedProject

variable {p : IndexedProject} {semanticsCurrent : Bool} {cs : CallSite} {sourceId : ℕ}

/-! ## Candidates -/

theorem nodeId_isSome_of_mem {n : IndexedNode} (h : n ∈ p.nodes) : (p.nodeId n.node.qualifiedName).isSome := by
  rw [nodeId, isSome_map, getLast?_isSome]
  exact ne_nil_of_mem (mem_filter.mpr ⟨h, decide_eq_true rfl⟩)

theorem nodeId_isSome_of_candidate {candidate : Text} (h : candidate ∈ p.candidates cs) :
    (p.nodeId candidate).isSome := by
  have hsymbol {name : Text} (h : candidate ∈ p.globalSymbols name) : (p.nodeId candidate).isSome := by
    obtain ⟨n, hn, rfl⟩ := mem_map.mp h
    exact nodeId_isSome_of_mem (mem_of_mem_filter hn)
  rw [candidates] at h
  split at h
  · exact hsymbol h
  · exact hsymbol h

theorem candidateEdge_isSome_iff {n : ℕ} {candidate : Text × ℕ} (h : candidate.1 ∈ p.candidates cs)
    (hcaller : (p.nodeId cs.sourceQn).isSome) :
    (p.candidateEdge cs n candidate).isSome ↔ candidate.1 ≠ cs.sourceQn := by
  obtain ⟨sourceId, hsource⟩ := isSome_iff_exists.mp hcaller
  obtain ⟨targetId, htarget⟩ := isSome_iff_exists.mp (nodeId_isSome_of_candidate h)
  rw [candidateEdge, hsource, htarget]
  split
  · rename_i hself
    simp [hself]
  · rename_i hother
    simp [hother]

/-- The names find nothing if and only if the first five of them are the caller itself. -/
theorem nameFallback_eq_nil_iff (hcaller : (p.nodeId cs.sourceQn).isSome) :
    p.nameFallback cs = [] ↔ ∀ candidate ∈ (p.candidates cs).take 5, candidate = cs.sourceQn := by
  have hnone {n : ℕ} {c : Text × ℕ} (hc : c.1 ∈ (p.candidates cs).take 5) :
      p.candidateEdge cs n c = none ↔ c.1 = cs.sourceQn := by
    rw [← not_isSome_iff_eq_none, candidateEdge_isSome_iff (take_subset _ _ hc) hcaller, not_not]
  rw [nameFallback, filterMap_eq_nil_iff]
  constructor
  · intro h candidate hc
    obtain ⟨i, hi, rfl⟩ := mem_iff_getElem.mp hc
    exact (hnone hc).mp (h (_, i) (mk_mem_zipIdx_iff_getElem?.mpr (getElem?_eq_getElem hi)))
  · intro h c hc
    have hmem := fst_mem_of_mem_zipIdx hc
    exact (hnone hmem).mpr (h c.1 hmem)

/-! ## Methods of the language -/

theorem explicitImport_of_member (h : cs.callKind = .member_call) : p.explicitImport semanticsCurrent cs = none := by
  rw [explicitImport, if_neg (by simp [h])]

/-- What the imports leave to the names. -/
theorem callSiteEdges_of_none (h : cs.callKind = .member_call) (hns : p.namespaceImport semanticsCurrent cs = none) :
    p.callSiteEdges semanticsCurrent cs = if p.builtinCall cs then [] else p.nameFallback cs := by
  simp only [callSiteEdges, hns, explicitImport_of_member h, or_none]

theorem builtinMethodNames_ascii : ∀ method ∈ builtinMethodNames, ∀ c ∈ method, c.toNat < 128 := by
  have hall : (builtinMethodNames.all fun method => method.all fun c => decide (c.toNat < 128)) = true := by
    decide +kernel
  intro method hmethod c hc
  have hchars := all_eq_true.mp (all_eq_true.mp hall method hmethod)
  exact of_decide_eq_true (hchars c hc)

theorem builtinMethodNames_named :
    ∀ method ∈ builtinMethodNames, method ≠ [] ∧ ¬"anonymous#".toList.isPrefixOf method := by decide +kernel

/-- The lower case of a listed name does not depend on the runtime. -/
theorem builtinCall_iff (h : cs.callKind = .member_call) (hmethod : cs.lastSegment ∈ builtinMethodNames) :
    p.builtinCall cs = true ↔ cs.lastSegment.map Char.toLower ∈ builtinMethodNames := by
  rw [builtinCall, p.runtime.ascii _ (builtinMethodNames_ascii _ hmethod)]
  simp [h]

/-- The runtime on ASCII texts. -/
def asciiRuntime : Runtime := ⟨fun _ => false, fun t => t.map Char.toLower, fun _ _ => rfl⟩

/-- A caller, and elsewhere a function of the method's name. -/
def decoyProject (method : Text) : IndexedProject where
  nodes := [⟨1, "Function".toList, ⟨[], "caller".toList, "a.ts".toList⟩⟩,
    ⟨2, "Function".toList, ⟨method, "decoy".toList, "b.ts".toList⟩⟩]
  imports := []
  exports := []
  runtime := asciiRuntime
  ids := by simp

def decoyCall (receiver method : Text) : CallSite :=
  ⟨"caller".toList, receiver ++ '.' :: method, method, .member_call, "a.ts".toList⟩

theorem namespaceImport_decoy (receiver method : Text) :
    (decoyProject method).namespaceImport semanticsCurrent (decoyCall receiver method) = none := by
  have hnone : (objectName (decoyCall receiver method).callee).bind
      ((decoyProject method).importBinding (decoyCall receiver method).filePath) = none := by
    cases objectName (decoyCall receiver method).callee <;> rfl
  rw [namespaceImport, hnone]
  rfl

theorem candidates_decoy {receiver method : Text} (hmethod : method ∈ builtinMethodNames) :
    (decoyProject method).candidates (decoyCall receiver method) = ["decoy".toList] := by
  obtain ⟨hne, hnamed⟩ := builtinMethodNames_named method hmethod
  have hcallee : (decoyProject method).globalSymbols (decoyCall receiver method).callee = [] := by
    have hlonger : method ≠ receiver ++ '.' :: method := by
      intro h
      have := congrArg List.length h
      rw [length_append, length_cons] at this
      omega
    change (decoyProject method).globalSymbols (receiver ++ '.' :: method) = []
    simp [globalSymbols, decoyProject, hlonger]
  have hlast : (decoyProject method).globalSymbols method = ["decoy".toList] := by
    have hcaller : ([] : Text) ≠ method := hne.symm
    rw [globalSymbols, decoyProject, filter_cons_of_neg (by simp [hcaller]),
      filter_cons_of_pos (by simpa using hnamed)]
    rfl
  rw [candidates, hcallee]
  exact hlast

theorem nameFallback_decoy {receiver method : Text} (hmethod : method ∈ builtinMethodNames) :
    (decoyProject method).nameFallback (decoyCall receiver method) ≠ [] := by
  have hcaller : ((decoyProject method).nodeId (decoyCall receiver method).sourceQn).isSome := rfl
  have hother : "decoy".toList ≠ "caller".toList := by decide
  intro hnil
  rw [nameFallback_eq_nil_iff hcaller, candidates_decoy hmethod] at hnil
  exact hother (hnil "decoy".toList (mem_singleton_self _))

/-- **A listed method is never guessed, in whatever project, if and only if its name in lower case is listed
too.** -/
theorem builtin_filter_iff (receiver method : Text) (hmethod : method ∈ builtinMethodNames) :
    (∀ (p : IndexedProject) (semanticsCurrent : Bool) (cs : CallSite), cs.callKind = .member_call →
        cs.callee = receiver ++ '.' :: method → cs.lastSegment = method →
        p.namespaceImport semanticsCurrent cs = none → p.callSiteEdges semanticsCurrent cs = []) ↔
      method.map Char.toLower ∈ builtinMethodNames := by
  constructor
  · intro h
    have hnone := h (decoyProject method) true (decoyCall receiver method) rfl rfl rfl (namespaceImport_decoy ..)
    rw [callSiteEdges_of_none rfl (namespaceImport_decoy ..)] at hnone
    by_contra hlower
    rw [if_neg (fun hb => hlower ((builtinCall_iff rfl hmethod).mp hb))] at hnone
    exact nameFallback_decoy hmethod hnone
  · rintro hlower p semanticsCurrent cs hkind - rfl hns
    rw [callSiteEdges_of_none hkind hns, if_pos ((builtinCall_iff hkind hmethod).mpr hlower)]

/-- `findIndex` is listed, but what is looked up is `findindex`. -/
theorem findIndex_guessed :
    ¬∀ (p : IndexedProject) (semanticsCurrent : Bool) (cs : CallSite) (receiver method : Text),
      method ∈ builtinMethodNames → cs.callKind = .member_call → cs.callee = receiver ++ '.' :: method →
        cs.lastSegment = method → p.namespaceImport semanticsCurrent cs = none →
          p.callSiteEdges semanticsCurrent cs = [] := by
  intro h
  have hlisted : "findIndex".toList ∈ builtinMethodNames := by decide
  have hedges := h (decoyProject "findIndex".toList) true (decoyCall "rows".toList "findIndex".toList) _ _ hlisted rfl rfl
    rfl (namespaceImport_decoy ..)
  have hlower : "findIndex".toList.map Char.toLower ∉ builtinMethodNames := by decide
  rw [callSiteEdges_of_none rfl (namespaceImport_decoy ..),
    if_neg fun hbuiltin => hlower ((builtinCall_iff rfl hlisted).mp hbuiltin)] at hedges
  exact nameFallback_decoy hlisted hedges

theorem builtin_filter_find : "find".toList.map Char.toLower ∈ builtinMethodNames ∧
    ∀ (p : IndexedProject) (semanticsCurrent : Bool) (cs : CallSite), cs.callKind = .member_call →
      cs.callee = "rows".toList ++ '.' :: "find".toList → cs.lastSegment = "find".toList →
        p.namespaceImport semanticsCurrent cs = none → p.callSiteEdges semanticsCurrent cs = [] :=
  ⟨by decide, (builtin_filter_iff "rows".toList "find".toList (by decide)).mpr (by decide)⟩

/-! ## Explicit imports -/

variable (p) in
/-- The binding that a call site is about: the namespace before the first dot, or the name that is called. -/
def importedBinding (cs : CallSite) : Option ImportRow :=
  match cs.callKind with
  | .member_call =>
    ((objectName cs.callee).bind (p.importBinding cs.filePath)).filter fun b => b.importKind = .namespace_
  | .identifier_call => (p.importBinding cs.filePath cs.callee).or (p.importBinding cs.filePath cs.lastSegment)
  | .computed_call => none

variable (p) in
/-- What the binding is in its module. -/
def bindingResult (binding : ImportRow) (file : Text) (cs : CallSite) : ResolutionResult :=
  if cs.callKind = .member_call then p.tables.resolveExportedSymbol 11 file cs.lastSegment []
  else if binding.importKind = .namespace_ then .missing
  else if binding.importKind = .default then p.defaultTarget file
  else p.tables.resolveExportedSymbol 11 file binding.importedName []

variable (p) in
/-- **The declaration that an import says is called.** -/
def importedQn (cs : CallSite) : Option Text :=
  (p.importedBinding cs).bind fun binding =>
    (p.tables.resolveModulePath binding.sourceModule cs.filePath).bind fun file =>
      match p.bindingResult binding file cs with
      | .resolved qn => some qn
      | _ => none

variable (p) in
/-- What is left to the names. -/
def guessedEdges (cs : CallSite) : List CallEdge := if p.builtinCall cs then [] else p.nameFallback cs

theorem callSiteEdges_of_member (h : cs.callKind = .member_call) :
    p.callSiteEdges semanticsCurrent cs = (p.namespaceImport semanticsCurrent cs).getD (p.guessedEdges cs) := by
  rw [callSiteEdges, explicitImport_of_member h, or_none, guessedEdges]
  cases p.namespaceImport semanticsCurrent cs <;> rfl

theorem callSiteEdges_of_identifier (h : cs.callKind = .identifier_call) :
    p.callSiteEdges semanticsCurrent cs = (p.explicitImport semanticsCurrent cs).getD (p.guessedEdges cs) := by
  have hns : p.namespaceImport semanticsCurrent cs = none := by rw [namespaceImport, if_neg (by simp [h])]
  rw [callSiteEdges, hns, none_or, guessedEdges]
  cases p.explicitImport semanticsCurrent cs <;> rfl

/-- The edge of an import, if the target has a node. -/
theorem edgeTo_eq (hcaller : p.nodeId cs.sourceQn = some sourceId) (qn : Text) (resolution : Resolution)
    (binding : ImportRow) :
    p.edgeTo cs qn resolution binding =
      (p.nodeId qn).map fun targetId => [importEdge sourceId targetId cs resolution binding] := by
  rw [edgeTo, hcaller]
  cases p.nodeId qn <;> rfl

variable {binding : ImportRow}

/-- A call of a name of a namespace. A name that turns out to be the caller is left to the guesses. -/
theorem callSiteEdges_namespace (h : cs.callKind = .member_call) (hbinding : p.importedBinding cs = some binding)
    (hcaller : p.nodeId cs.sourceQn = some sourceId) :
    p.callSiteEdges true cs = (p.importedQn cs).elim [] fun qn =>
      if qn = cs.sourceQn then p.guessedEdges cs
      else ((p.nodeId qn).map fun targetId =>
        [importEdge sourceId targetId cs .cross_file_namespace_exact binding]).getD (p.guessedEdges cs) := by
  have hfound := hbinding
  simp only [importedBinding, h, filter_eq_some_iff, decide_eq_true_eq] at hfound
  rw [callSiteEdges_of_member h, importedQn, hbinding, bind_some, namespaceImport, if_pos h, hfound.1]
  simp only [if_pos hfound.2]
  cases p.tables.resolveModulePath binding.sourceModule cs.filePath with
  | none => rfl
  | some file =>
    rw [bind_some, bindingResult, if_pos h]
    cases hresult : p.tables.resolveExportedSymbol 11 file cs.lastSegment [] with
    | resolved qn =>
      by_cases hself : qn = cs.sourceQn
      · simp [hresult, hself]
      · simp only [hresult, elim_some, if_neg hself, edgeTo_eq hcaller]
    | missing => simp [hresult, terminal]
    | ambiguous => simp [hresult, terminal]
    | unknown reason => simp [hresult, terminal]

/-- The label of an edge of an explicit import. -/
def explicitResolution (binding : ImportRow) : Resolution :=
  if binding.importKind = .alias then .cross_file_import_alias else .cross_file_import_exact

/-- A call of an imported name. -/
theorem callSiteEdges_explicit (h : cs.callKind = .identifier_call) (hbinding : p.importedBinding cs = some binding)
    (hcaller : p.nodeId cs.sourceQn = some sourceId) :
    p.callSiteEdges true cs = (p.importedQn cs).elim [] fun qn =>
      if qn = cs.sourceQn then []
      else ((p.nodeId qn).map fun targetId =>
        [importEdge sourceId targetId cs (explicitResolution binding) binding]).getD (p.guessedEdges cs) := by
  have hmember : cs.callKind ≠ .member_call := by simp [h]
  have hfound := hbinding
  simp only [importedBinding, h] at hfound
  rw [callSiteEdges_of_identifier h, importedQn, hbinding, bind_some, explicitImport, if_pos h, hfound]
  simp only
  cases hmodule : p.tables.resolveModulePath binding.sourceModule cs.filePath with
  | none => simp
  | some file =>
    simp only [bind_some, bindingResult, if_neg hmember]
    by_cases hns : binding.importKind = .namespace_
    · simp [hns]
    · simp only [if_neg hns]
      cases hresult : (if binding.importKind = .default then p.defaultTarget file
        else p.tables.resolveExportedSymbol 11 file binding.importedName []) with
      | resolved qn =>
        by_cases hself : qn = cs.sourceQn
        · simp [hself]
        · simp only [elim_some, if_neg hself, edgeTo_eq hcaller, explicitResolution]
      | missing => simp [terminal]
      | ambiguous => simp [terminal]
      | unknown reason => simp [terminal]

/-! ## Guesses -/

theorem guessed_of_mem_nameFallback {e : CallEdge} (h : e ∈ p.nameFallback cs) :
    e.resolution = .cross_file_name_fallback ∨ e.resolution = .cross_file_ambiguous := by
  obtain ⟨c, -, hc⟩ := mem_filterMap.mp h
  rw [candidateEdge] at hc
  split at hc
  · cases hc
  · split at hc
    · obtain rfl := Option.some.inj hc
      by_cases hone : (List.take 5 (p.candidates cs)).length = 1
      · exact .inl (if_pos hone)
      · exact .inr (if_neg hone)
    · cases hc

theorem guessed_of_mem {e : CallEdge} (h : e ∈ p.guessedEdges cs) :
    e.resolution = .cross_file_name_fallback ∨ e.resolution = .cross_file_ambiguous := by
  rw [guessedEdges] at h
  split at h
  · exact absurd h not_mem_nil
  · exact guessed_of_mem_nameFallback h

theorem guessedEdges_eq_nil_iff (hcaller : (p.nodeId cs.sourceQn).isSome) :
    p.guessedEdges cs = [] ↔
      p.builtinCall cs = true ∨ ∀ candidate ∈ (p.candidates cs).take 5, candidate = cs.sourceQn := by
  rw [guessedEdges, ← nameFallback_eq_nil_iff hcaller]
  cases p.builtinCall cs <;> simp

/-! ## Imports that decide -/

/-- `ns.name`, with nothing else around. -/
def SingleAccess (callee ns name : Text) : Prop :=
  ns ≠ [] ∧ name ≠ [] ∧ '.' ∉ ns ∧ '.' ∉ name ∧ callee = ns ++ '.' :: name

/-- `callee.split('.').pop() || callee`. -/
def lastSegmentOf (callee : Text) : Text := (truthy (some (callee.rtakeWhile (· ≠ '.')))).getD callee

/-- A call site as the extractor writes it. -/
structure Extracted (p : IndexedProject) (cs : CallSite) : Prop where
  lastSegment : cs.lastSegment = lastSegmentOf cs.callee
  caller : (p.nodeId cs.sourceQn).isSome

/-- **The import alone decides**: one edge at most, none found by its name, and an edge of a namespace is for
`ns.name` and ends at what `name` is in the module. -/
structure DecidedByImport (p : IndexedProject) (cs : CallSite) : Prop where
  atMostOne : (p.callSiteEdges true cs).length ≤ 1
  notGuessed : ∀ e ∈ p.callSiteEdges true cs,
    e.resolution ≠ .cross_file_name_fallback ∧ e.resolution ≠ .cross_file_ambiguous
  exact : ∀ e ∈ p.callSiteEdges true cs, e.resolution = .cross_file_namespace_exact →
    ∃ ns name binding file qn, SingleAccess cs.callee ns name ∧ p.importBinding cs.filePath ns = some binding ∧
      binding.importKind = .namespace_ ∧ p.tables.resolveModulePath binding.sourceModule cs.filePath = some file ∧
      p.tables.resolveExportedSymbol 11 file name [] = .resolved qn ∧ p.nodeId qn = some e.targetId

theorem DecidedByImport.of_nil (h : p.callSiteEdges true cs = []) : p.DecidedByImport cs := by
  constructor <;> simp [h]

/-- Nothing that is guessed is decided by an import. -/
theorem decidedByImport_guessed_iff (h : p.callSiteEdges true cs = p.guessedEdges cs)
    (hcaller : (p.nodeId cs.sourceQn).isSome) : p.DecidedByImport cs ↔
      p.builtinCall cs = true ∨ ∀ candidate ∈ (p.candidates cs).take 5, candidate = cs.sourceQn := by
  rw [← guessedEdges_eq_nil_iff hcaller, ← h]
  refine ⟨fun hdecided => ?_, .of_nil⟩
  rw [eq_nil_iff_forall_not_mem]
  intro e he
  obtain ⟨hfallback, hambiguous⟩ := hdecided.notGuessed e he
  rcases guessed_of_mem (h ▸ he) with hguess | hguess
  · exact hfallback hguess
  · exact hambiguous hguess

theorem objectName_of_singleAccess {callee ns name : Text} (h : SingleAccess callee ns name) :
    objectName callee = some ns := by
  obtain ⟨hns, -, hdot, -, rfl⟩ := h
  have htake : (ns ++ '.' :: name).takeWhile (· ≠ '.') = ns := by
    rw [takeWhile_append_of_pos]
    · simp
    · intro c hc
      exact decide_eq_true fun heq => hdot (heq ▸ hc)
  rw [objectName, if_pos (by simp), htake]
  cases ns with
  | nil => exact absurd rfl hns
  | cons c ns => rfl

theorem lastSegment_of_singleAccess {callee ns name : Text} (h : SingleAccess callee ns name) :
    lastSegmentOf callee = name := by
  obtain ⟨-, hname, -, hdot, rfl⟩ := h
  have htake : (ns ++ '.' :: name).rtakeWhile (· ≠ '.') = name := by
    rw [List.rtakeWhile, reverse_append, reverse_cons, append_assoc, takeWhile_append_of_pos]
    · simp
    · intro c hc
      exact decide_eq_true fun heq => hdot (heq ▸ mem_reverse.mp hc)
  rw [lastSegmentOf, htake]
  cases name with
  | nil => exact absurd rfl hname
  | cons c name => rfl

theorem importedQn_eq_some {qn : Text} (hbinding : p.importedBinding cs = some binding) (h : p.importedQn cs = some qn) :
    ∃ file, p.tables.resolveModulePath binding.sourceModule cs.filePath = some file ∧
      p.bindingResult binding file cs = .resolved qn := by
  rw [importedQn, hbinding, bind_some] at h
  obtain ⟨file, hfile, hresult⟩ := bind_eq_some_iff.mp h
  refine ⟨file, hfile, ?_⟩
  split at hresult
  · rename_i hqn
    obtain rfl := Option.some.inj hresult
    exact hqn
  · cases hresult

/-- The edge of a namespace is right if nothing else is accessed. -/
theorem decidedByImport_namespace_iff {targetId : ℕ} {qn : Text} (h : cs.callKind = .member_call)
    (hbinding : p.importedBinding cs = some binding) (hqn : p.importedQn cs = some qn) (hsite : Extracted p cs)
    (htarget : p.nodeId qn = some targetId)
    (hedges : p.callSiteEdges true cs = [importEdge sourceId targetId cs .cross_file_namespace_exact binding]) :
    p.DecidedByImport cs ↔ ∃ ns name, SingleAccess cs.callee ns name := by
  constructor
  · intro hdecided
    obtain ⟨ns, name, -, -, -, hsingle, -⟩ := hdecided.exact _ (hedges ▸ mem_singleton_self _) rfl
    exact ⟨ns, name, hsingle⟩
  · rintro ⟨ns, name, hsingle⟩
    refine ⟨by simp [hedges], by simp [hedges, importEdge], ?_⟩
    intro e he _
    obtain rfl := mem_singleton.mp (hedges ▸ he)
    simp only [importedBinding, h, filter_eq_some_iff, decide_eq_true_eq, objectName_of_singleAccess hsingle,
      bind_some] at hbinding
    obtain ⟨file, hfile, hresult⟩ := importedQn_eq_some (by
      simp only [importedBinding, h, filter_eq_some_iff, decide_eq_true_eq, objectName_of_singleAccess hsingle,
        bind_some]
      exact hbinding) hqn
    rw [bindingResult, if_pos h, hsite.lastSegment, lastSegment_of_singleAccess hsingle] at hresult
    exact ⟨ns, name, binding, file, qn, hsingle, hbinding.1, hbinding.2, hfile, hresult, htarget⟩

theorem decidedByImport_explicit {targetId : ℕ}
    (hedges : p.callSiteEdges true cs = [importEdge sourceId targetId cs (explicitResolution binding) binding]) :
    p.DecidedByImport cs := by
  have hresolution : explicitResolution binding = .cross_file_import_alias ∨
      explicitResolution binding = .cross_file_import_exact := by
    rw [explicitResolution]
    split
    · exact .inl rfl
    · exact .inr rfl
  have hedge {e : CallEdge} (he : e ∈ p.callSiteEdges true cs) : e.resolution = explicitResolution binding := by
    obtain rfl := mem_singleton.mp (hedges ▸ he)
    rfl
  refine ⟨by simp [hedges], fun e he => ?_, fun e he hns => ?_⟩
  · rw [hedge he]
    rcases hresolution with hr | hr <;> simp [hr]
  · rw [hedge he] at hns
    rcases hresolution with hr | hr <;> simp [hr] at hns

/-- `a.ts` imports itself, and another file declares the name too. -/
def selfImport : IndexedProject where
  nodes := [⟨1, "Function".toList, ⟨"load".toList, "app::a.ts::load".toList, "a.ts".toList⟩⟩,
    ⟨2, "Function".toList, ⟨"load".toList, "app::c.ts::load".toList, "c.ts".toList⟩⟩]
  imports := [⟨"a.ts".toList, "self".toList, "./a".toList, "*".toList, .namespace_⟩]
  exports := [⟨"a.ts".toList, "load".toList, some "load".toList, none, none, .local_named⟩]
  runtime := asciiRuntime
  ids := by simp

/-- `load` calls `self.load()`. -/
def selfCall : CallSite :=
  ⟨"app::a.ts::load".toList, "self.load".toList, "load".toList, .member_call, "a.ts".toList⟩

theorem extracted_selfCall : Extracted selfImport selfCall := ⟨by decide +kernel, by decide +kernel⟩

end IndexedProject

end Ariad.CrossFile
