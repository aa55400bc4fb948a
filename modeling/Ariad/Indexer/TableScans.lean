import Ariad.Indexer.ExportResolution
import Ariad.Relational.ChunkedScan

/-!
# Scans of the resolver

How the cross-file resolver reads its tables: 100,000 rows at a time, behind the `id` of the last row it was
given. Of the four generators only that of the nodes selects the column `id`.

* `Table` — rows with the ids that SQLite gives them.
* `iterateNodes`, `iterateImports`, `iterateExports`, `iterateCallSites` — the generators.
* `iterateNodes_complete` — the nodes are read to the end.
* `scans_complete_iff` — the others are exactly if they fit into the first chunk.
-/

namespace Ariad.CrossFile

open Keyset List

/-! ## Tables -/

/-- A row as the table keeps it: its id, its project and its other columns. -/
structure Stored (ρ : Type) where
  id : ℕ
  project : Text
  columns : ρ

/-- A table with an `id INTEGER PRIMARY KEY` that SQLite assigns. -/
structure Table (ρ : Type) where
  rows : List (Stored ρ)
  nodup : (rows.map Stored.id).Nodup
  positive : ∀ r ∈ rows, 0 < r.id

/-- A row of `nodes` as it is selected. -/
structure IndexedNode where
  id : ℕ
  label : Text
  node : NodeRow
  deriving DecidableEq

inductive CallKind where
  | identifier_call
  | member_call
  | computed_call
  deriving DecidableEq

/-- A row of `call_sites`. -/
structure CallSite where
  sourceQn : Text
  callee : Text
  lastSegment : Text
  callKind : CallKind
  filePath : Text
  deriving DecidableEq

namespace Table

variable {ρ σ : Type} (t : Table ρ) (project : Text)

def ofProject : List (Stored ρ) := t.rows.filter fun r => r.project = project

/-- The selected columns of all rows of a project, by their ids. -/
def scan (select : Stored ρ → σ) : List σ := (orderBy Stored.id (t.ofProject project)).map select

/-- A generator over a table, from `last = 0` on. `cursor` is what `row.id` is of a selected row: nothing if the
column was not selected. It is `undefined` then, which is bound as NULL. -/
def iterateChunks (select : Stored ρ → σ) (cursor : σ → Option ℕ) (queries : ℕ) : Option (List σ) :=
  iterate (fun last => (chunk Stored.id 100000 (t.ofProject project) last).map select) cursor queries (some 0)

theorem nodup_ofProject : ((t.ofProject project).map Stored.id).Nodup :=
  t.nodup.sublist (filter_sublist.map Stored.id)

theorem positive_ofProject : ∀ r ∈ t.ofProject project, 0 < r.id :=
  fun r hr => t.positive r (mem_of_mem_filter hr)

theorem length_scan (select : Stored ρ → σ) : (t.scan project select).length = (t.ofProject project).length := by
  rw [scan, length_map, length_orderBy]

end Table

/-! ## The generators -/

/-- `SELECT id, label, name, qualified_name, file_path`. -/
def selectNode (r : Stored (Text × NodeRow)) : IndexedNode := ⟨r.id, r.columns.1, r.columns.2⟩

def rowId (row : IndexedNode) : Option ℕ := some row.id

def iterateNodes (nodes : Table (Text × NodeRow)) (project : Text) : ℕ → Option (List IndexedNode) :=
  nodes.iterateChunks project selectNode rowId

/-- `SELECT file_path, local_name, source_module, imported_name, import_kind`. -/
def iterateImports (imports : Table ImportRow) (project : Text) : ℕ → Option (List ImportRow) :=
  imports.iterateChunks project Stored.columns fun _ => none

/-- `SELECT file_path, exported_name, local_name, source_module, imported_name, export_kind`. -/
def iterateExports (exports : Table ExportRow) (project : Text) : ℕ → Option (List ExportRow) :=
  exports.iterateChunks project Stored.columns fun _ => none

/-- `SELECT source_qn, callee, last_segment, call_kind, file_path`. -/
def iterateCallSites (callSites : Table CallSite) (project : Text) : ℕ → Option (List CallSite) :=
  callSites.iterateChunks project Stored.columns fun _ => none

/-! ## What they yield -/

namespace Table

variable {ρ σ : Type} {t : Table ρ} {project : Text} {select : Stored ρ → σ}

/-- A generator stops, and it yields `l`. -/
def Yields (generator : ℕ → Option (List σ)) (l : List σ) : Prop := ∃ queries, generator queries = some l

/-- Without the id of a row nothing behind the first chunk is read. -/
theorem yields_first_chunk {l : List σ} :
    Yields (t.iterateChunks project select fun _ => none) l ↔ l = (t.scan project select).take 100000 := by
  have hfirst (queries : ℕ) : t.iterateChunks project select (fun _ => none) (queries + 2) =
      some ((t.scan project select).take 100000) := by
    rw [scan, ← map_take]
    exact iterate_first (t.nodup_ofProject project) (fun _ _ => rfl) (t.positive_ofProject project) queries
  constructor
  · rintro ⟨queries, h⟩
    exact iterate_unique h (hfirst 0)
  · rintro rfl
    exact ⟨2, hfirst 0⟩

/-- A scan without the id is complete if and only if it fits into one chunk. -/
theorem yields_scan_iff :
    Yields (t.iterateChunks project select fun _ => none) (t.scan project select) ↔
      (t.ofProject project).length ≤ 100000 := by
  rw [yields_first_chunk, ← t.length_scan project select]
  constructor
  · intro h
    have := congrArg List.length h
    rw [length_take] at this
    omega
  · exact fun h => (take_of_length_le h).symm

end Table

/-- The nodes are read to the end, whatever their number. -/
theorem iterateNodes_complete (nodes : Table (Text × NodeRow)) (project : Text) :
    Table.Yields (iterateNodes nodes project) (nodes.scan project selectNode) := by
  have hcursor : ∀ r ∈ nodes.ofProject project, rowId (selectNode r) = some r.id := fun _ _ => rfl
  exact iterate_all (nodes.nodup_ofProject project) (Nat.succ_pos 99999) hcursor (nodes.positive_ofProject project)

/-- **Imports, exports and call sites are each read completely if and only if the project has at most 100,000
rows of them.** -/
theorem scans_complete_iff (imports : Table ImportRow) (exports : Table ExportRow) (callSites : Table CallSite)
    (project : Text) :
    (Table.Yields (iterateImports imports project) (imports.scan project Stored.columns) ↔
        (imports.ofProject project).length ≤ 100000) ∧
      (Table.Yields (iterateExports exports project) (exports.scan project Stored.columns) ↔
        (exports.ofProject project).length ≤ 100000) ∧
      (Table.Yields (iterateCallSites callSites project) (callSites.scan project Stored.columns) ↔
        (callSites.ofProject project).length ≤ 100000) :=
  ⟨Table.yields_scan_iff, Table.yields_scan_iff, Table.yields_scan_iff⟩

/-- One call site more than a chunk holds. -/
def crowdedCallSites : Table CallSite where
  rows := (List.range' 1 100001).map fun id =>
    ⟨id, "app".toList, ⟨"app::a.ts::run".toList, "load".toList, "load".toList, .identifier_call, "a.ts".toList⟩⟩
  nodup := by
    rw [List.map_map]
    exact (List.map_id _).symm ▸ List.nodup_range'
  positive := by
    intro r hr
    obtain ⟨id, hid, rfl⟩ := List.mem_map.mp hr
    exact (List.mem_range'_1.mp hid).1

/-- The last of 100,001 call sites is never read. -/
theorem callSites_cut_off :
    ¬∀ (callSites : Table CallSite) (project : Text),
      Table.Yields (iterateCallSites callSites project) (callSites.scan project Stored.columns) := by
  intro h
  have hall : (crowdedCallSites.ofProject "app".toList) = crowdedCallSites.rows := by
    rw [Table.ofProject, filter_eq_self]
    intro r hr
    obtain ⟨id, -, rfl⟩ := mem_map.mp hr
    exact decide_eq_true rfl
  have := Table.yields_scan_iff.mp (h crowdedCallSites "app".toList)
  rw [hall, crowdedCallSites, length_map, length_range'] at this
  exact absurd this (by decide)

end Ariad.CrossFile
