import Ariad.Graphs.Search

/-!
# `ResolveExport` of ECMAScript

The operation of source text module records that finds the binding behind an exported name. One list, the
resolve set, goes through the whole recursion.

* `ModuleRecords` — the export entries of all modules, with the requested modules in place of their specifiers.
* `resolveExport` — the operation, step by step as the specification has it. It stops at a depth.
* `ResolvesTo` — what it returns when it does not stop there.
* `exportSpace` — modules and names as a graph, whose leaves are the bindings.
* `resolveExport_eq_shared` — the operation is the search of this graph that enters a node once.
-/

namespace Ariad.Ecmascript

open Search Option

variable {M N : Type} [DecidableEq M] [DecidableEq N]

/-- The export entries of all modules. -/
structure ModuleRecords (M N : Type) where
  /-- `[[LocalExportEntries]]`: the exported name and the local one. -/
  localExportEntries : M → List (N × N)
  /-- `[[IndirectExportEntries]]`: the exported name, the requested module and the name there. -/
  indirectExportEntries : M → List (N × M × N)
  /-- `[[StarExportEntries]]`: the requested modules. -/
  starExportEntries : M → List M
  /-- The name `default`. -/
  default : N

/-- A module and an exported name, or a module and a local name. -/
abbrev Binding (M N : Type) := M × N

/-- What the operation returns. -/
inductive Resolution (M N : Type) where
  | null
  | binding (b : Binding M N)
  | ambiguous
  deriving DecidableEq

/-- The loop over the star exports. -/
def starLoop (resolve : M → List (M × N) → Option (Resolution M N × List (M × N))) :
    List M → Resolution M N → List (M × N) → Option (Resolution M N × List (M × N))
  | [], starResolution, resolveSet => some (starResolution, resolveSet)
  | importedModule :: rest, starResolution, resolveSet =>
    match resolve importedModule resolveSet with
    | none => none
    | some (.ambiguous, resolveSet) => some (.ambiguous, resolveSet)
    | some (.null, resolveSet) => starLoop resolve rest starResolution resolveSet
    | some (.binding resolution, resolveSet) =>
      match starResolution with
      | .binding other =>
        if resolution = other then starLoop resolve rest starResolution resolveSet else some (.ambiguous, resolveSet)
      | _ => starLoop resolve rest (.binding resolution) resolveSet

/-- **`module.ResolveExport(exportName, resolveSet)`**, with the resolve set that it leaves; `none` below
`depth` calls. -/
def resolveExport (records : ModuleRecords M N) :
    ℕ → M → N → List (M × N) → Option (Resolution M N × List (M × N))
  | 0, _, _, _ => none
  | depth + 1, module, exportName, resolveSet =>
    if (module, exportName) ∈ resolveSet then some (.null, resolveSet)
    else
      let resolveSet := (module, exportName) :: resolveSet
      match (records.localExportEntries module).find? fun e => e.1 = exportName with
      | some e => some (.binding (module, e.2), resolveSet)
      | none =>
        match (records.indirectExportEntries module).find? fun e => e.1 = exportName with
        | some e => resolveExport records depth e.2.1 e.2.2 resolveSet
        | none =>
          if exportName = records.default then some (.null, resolveSet)
          else
            starLoop (fun importedModule resolveSet => resolveExport records depth importedModule exportName resolveSet)
              (records.starExportEntries module) .null resolveSet

/-- `module.ResolveExport(exportName)` returns `r`. -/
def ResolvesTo (records : ModuleRecords M N) (module : M) (exportName : N) (r : Resolution M N) : Prop :=
  ∃ depth resolveSet, resolveExport records depth module exportName [] = some (r, resolveSet)

/-! ## As a search -/

/-- Modules with names as a graph. -/
def exportSpace (records : ModuleRecords M N) (v : M × N) : Node (M × N) (Binding M N) :=
  match (records.localExportEntries v.1).find? fun e => e.1 = v.2 with
  | some e => .leaf (v.1, e.2)
  | none =>
    match (records.indirectExportEntries v.1).find? fun e => e.1 = v.2 with
    | some e => .inner [e.2]
    | none =>
      if v.2 = records.default then .inner []
      else .inner ((records.starExportEntries v.1).map fun importedModule => (importedModule, v.2))

/-- The answer of a search in the words of the specification. -/
def Resolution.ofOutcome : Outcome (Binding M N) → Resolution M N
  | .missing => .null
  | .found b => .binding b
  | .ambiguous => .ambiguous

omit [DecidableEq M] [DecidableEq N] in
theorem Resolution.ofOutcome_injective : Function.Injective (Resolution.ofOutcome (M := M) (N := N)) := by
  intro r s h
  cases r <;> cases s <;> simp_all [ofOutcome]

/-- What a call returns, from what a search has found. -/
def returned (answer : Outcome (Binding M N) × List (M × N)) : Resolution M N × List (M × N) :=
  (Resolution.ofOutcome answer.1, answer.2)

/-- The loop over the star exports is the loop of the search, if each call is. -/
theorem starLoop_eq {resolve : M → List (M × N) → Option (Resolution M N × List (M × N))}
    {visit : List (M × N) → M × N → Option (Outcome (Binding M N) × List (M × N))} {exportName : N}
    (h : ∀ m set, resolve m set = (visit set (m, exportName)).map returned) (modules : List M)
    (acc : Outcome (Binding M N)) (hacc : acc ≠ .ambiguous) (set : List (M × N)) :
    starLoop resolve modules (Resolution.ofOutcome acc) set =
      (sharedLoop visit (modules.map fun m => (m, exportName)) acc set).map returned := by
  induction modules generalizing acc set with
  | nil => rfl
  | cons m modules ih =>
    rw [starLoop, List.map_cons, sharedLoop, h]
    cases hvisit : visit set (m, exportName) with
    | none => rfl
    | some answer =>
      obtain ⟨x, set'⟩ := answer
      cases x with
      | ambiguous => simp [returned, Resolution.ofOutcome]
      | missing =>
        have hmerge : acc.merge .missing = acc := Outcome.merge_missing acc
        simp only [map_some, returned, Resolution.ofOutcome, hmerge]
        cases acc with
        | ambiguous => exact absurd rfl hacc
        | missing | found b => exact ih _ hacc set'
      | found b =>
        cases acc with
        | ambiguous => exact absurd rfl hacc
        | missing => exact ih (.found b) (by simp) set'
        | found c =>
          simp only [map_some, returned, Resolution.ofOutcome, Outcome.merge_found]
          by_cases hbc : b = c
          · rw [if_pos hbc, if_pos hbc.symm]
            exact ih (.found c) (by simp) set'
          · rw [if_neg hbc, if_neg (Ne.symm hbc)]
            rfl

/-- **The operation enters each module with each name once.** -/
theorem resolveExport_eq_shared (records : ModuleRecords M N) (depth : ℕ) (m : M) (n : N) (set : List (M × N)) :
    resolveExport records depth m n set = (shared (exportSpace records) depth set (m, n)).map returned := by
  induction depth generalizing m n set with
  | zero => rfl
  | succ depth ih =>
    rw [resolveExport, shared]
    by_cases hmem : (m, n) ∈ set
    · rw [if_pos hmem, if_pos hmem]
      rfl
    · rw [if_neg hmem, if_neg hmem, exportSpace]
      cases hlocal : (records.localExportEntries m).find? fun e => e.1 = n with
      | some e => rfl
      | none =>
        cases hindirect : (records.indirectExportEntries m).find? fun e => e.1 = n with
        | some e =>
          dsimp only
          -- a call of its own is a loop over one node
          rw [ih, sharedLoop]
          cases shared (exportSpace records) depth ((m, n) :: set) (e.2.1, e.2.2) with
          | none => rfl
          | some answer =>
            obtain ⟨x, set'⟩ := answer
            cases x <;> rfl
        | none =>
          dsimp only
          split
          · rfl
          · exact starLoop_eq (fun m set => ih m n set) _ .missing (by simp) _

/-- What the operation returns is the answer for the bindings that are reachable. -/
theorem resolvesTo_iff {records : ModuleRecords M N} {m : M} {n : N} {bound : ℕ}
    (hchains : ∀ chain, Chain (exportSpace records) chain → chain.head? = some (m, n) → chain.length ≤ bound)
    {r : Outcome (Binding M N)} :
    ResolvesTo records m n (Resolution.ofOutcome r) ↔ Sums (leaves (exportSpace records) (m, n)) r := by
  constructor
  · rintro ⟨depth, set, h⟩
    rw [resolveExport_eq_shared, map_eq_some_iff] at h
    obtain ⟨⟨r', set'⟩, h, hr⟩ := h
    rw [returned, Prod.mk.injEq] at hr
    exact Resolution.ofOutcome_injective hr.1 ▸ shared_sums h
  · intro h
    have hchain : Chain (exportSpace records) [(m, n)] := ⟨.singleton _, by simp⟩
    have hsome : (shared (exportSpace records) bound [] (m, n)).isSome :=
      shared_isSome (Nat.le_add_right bound _) List.nodup_nil (List.nil_subset _) hchain hchains
    obtain ⟨⟨r', set'⟩, hshared⟩ := isSome_iff_exists.mp hsome
    obtain rfl := (shared_sums hshared).unique h
    exact ⟨bound, set', by rw [resolveExport_eq_shared, hshared]; rfl⟩

end Ariad.Ecmascript
