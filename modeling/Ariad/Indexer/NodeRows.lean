import Ariad.Indexer.Operations

/-!
# The rows of the nodes table

The nodes table with its row ids, of every project in the database. `nodes.id` is an `INTEGER PRIMARY KEY` without
`AUTOINCREMENT`, and the indexer counts the ids itself, on from the greatest one in the table.

* `NodeRow`, `SymbolExtractor` — a row, and what an extraction inserts.
* `DbWrite.runNodes` — what each write of a run does to the rows.
* `DbWrite.numberedFrom` — the rows on from which a write counts its ids.
* `runNodes_nodup`, `mem_runNodes` — the ids stay apart, and new ones are above those that are counted on from.
-/

namespace Ariad

open List

variable {φ χ δ : Type} {project : Text}

structure NodeRow where
  id : ℕ
  project : Text
  qualifiedName : Text
  filePath : RelPath
  deriving DecidableEq

/-- An extractor, with the nodes that it makes of a text. -/
structure SymbolExtractor (φ χ δ : Type) extends Extractor φ χ δ where
  /-- The qualified names of the nodes, in the order in which they are inserted. -/
  symbols : RelPath → χ → List Text
  yields_nodes : ∀ p c, yields .nodes p c = !(symbols p c).isEmpty

namespace NodeRow

/-- `SELECT COALESCE(MAX(id), 0) FROM nodes` -/
def maxId (rows : List NodeRow) : ℕ := (rows.map NodeRow.id).foldr max 0

/-- `DELETE FROM nodes WHERE project = ?` -/
def deleteProject (project : Text) (rows : List NodeRow) : List NodeRow := rows.filter fun r => r.project ≠ project

/-- `DELETE FROM nodes WHERE project = ? AND file_path IN (…)` -/
def deleteFiles (project : Text) (paths : List RelPath) (rows : List NodeRow) : List NodeRow :=
  rows.filter fun r => ¬(r.project = project ∧ r.filePath ∈ paths)

/-- The rows of a file, with the ids that are next. -/
def numbered (project : Text) (path : RelPath) : ℕ → List Text → List NodeRow
  | _, [] => []
  | next, q :: qs => ⟨next, project, q, path⟩ :: numbered project path (next + 1) qs

/-- Files are written one after the other; the streaming writer deletes the old rows of each file first. -/
def writeFiles (S : SymbolExtractor φ χ δ) (project : Text) (deletes : Bool) :
    ℕ → List (FileUpdate χ δ) → List NodeRow → List NodeRow
  | _, [], rows => rows
  | next, u :: us, rows =>
    let symbols := S.symbols u.path u.content
    let rows := if deletes then deleteFiles project [u.path] rows else rows
    writeFiles S project deletes (next + symbols.length) us (rows ++ numbered project u.path next symbols)

end NodeRow

namespace DbWrite

open NodeRow

/-- The names of the nodes that a write inserts. -/
def inserted (S : SymbolExtractor φ χ δ) : DbWrite φ χ δ → List Text
  | .extractionTx _ _ updates _ => updates.flatMap fun u => S.symbols u.path u.content
  | .streamingTx _ _ updates _ _ _ => updates.flatMap fun u => S.symbols u.path u.content
  | _ => []

/-- The rows that are in the table when a write asks for the greatest id. The sequential writer has deleted the rows of
all changed files by then, the streaming writer only those of a full run. -/
def numberedFrom (project : Text) (rows : List NodeRow) : DbWrite φ χ δ → List NodeRow
  | .extractionTx incremental _ updates _ =>
    if incremental then deleteFiles project (updates.map fun u => u.path) rows else rows
  | .streamingTx incremental _ _ _ _ _ => if incremental then rows else deleteProject project rows
  | _ => rows

/-- The rows after a write. -/
def runNodes (S : SymbolExtractor φ χ δ) (project : Text) (rows : List NodeRow) (w : DbWrite φ χ δ) : List NodeRow :=
  let base := w.numberedFrom project rows
  match w with
  | .clearProjectData => deleteProject project rows
  | .cleanupTx deletedRelPaths _ _ => deleteFiles project deletedRelPaths rows
  | .deleteTx deletedRelPaths _ => deleteFiles project deletedRelPaths rows
  | .extractionTx _ _ updates _ => writeFiles S project false (maxId base + 1) updates base
  | .streamingTx incremental _ updates _ _ _ => writeFiles S project incremental (maxId base + 1) updates base
  | _ => rows

end DbWrite

/-! ## Ids -/

namespace NodeRow

variable {S : SymbolExtractor φ χ δ} {rows : List NodeRow} {r : NodeRow} {next : ℕ} {path : RelPath}

theorem id_le_maxId (h : r ∈ rows) : r.id ≤ maxId rows := by
  induction rows with
  | nil => cases h
  | cons r' rows ih =>
    rcases mem_cons.mp h with rfl | h
    · exact Nat.le_max_left _ _
    · exact (ih h).trans (Nat.le_max_right _ _)

theorem le_id_numbered {qs : List Text} (h : r ∈ numbered project path next qs) :
    next ≤ r.id ∧ r.id < next + qs.length := by
  induction qs generalizing next with
  | nil => cases h
  | cons q qs ih =>
    rw [length_cons]
    rcases mem_cons.mp h with rfl | h
    · exact ⟨le_rfl, by simp⟩
    · obtain ⟨hle, hlt⟩ := ih h
      omega

theorem nodup_numbered (next : ℕ) (qs : List Text) : ((numbered project path next qs).map NodeRow.id).Nodup := by
  induction qs generalizing next with
  | nil => exact nodup_nil
  | cons q qs ih =>
    refine nodup_cons.mpr ⟨fun hmem => ?_, ih (next + 1)⟩
    obtain ⟨r, hr, hid⟩ := mem_map.mp hmem
    have hle := (le_id_numbered hr).1
    dsimp only at hid
    omega

/-- A table whose ids are apart, and below the next one. -/
structure Below (next : ℕ) (rows : List NodeRow) : Prop where
  nodup : (rows.map NodeRow.id).Nodup
  lt : ∀ r ∈ rows, r.id < next

theorem Below.filter (h : Below next rows) (p : NodeRow → Bool) : Below next (rows.filter p) where
  nodup := h.nodup.sublist (filter_sublist.map NodeRow.id)
  lt := fun r hr => h.lt r (mem_filter.mp hr).1

theorem Below.append (h : Below next rows) (qs : List Text) :
    Below (next + qs.length) (rows ++ numbered project path next qs) where
  nodup := by
    rw [map_append, List.nodup_append]
    refine ⟨h.nodup, nodup_numbered next qs, fun i hi j hj => ?_⟩
    obtain ⟨r, hr, rfl⟩ := mem_map.mp hi
    obtain ⟨r', hr', rfl⟩ := mem_map.mp hj
    exact ((h.lt r hr).trans_le (le_id_numbered hr').1).ne
  lt := fun r hr => by
    rcases mem_append.mp hr with hr | hr
    · exact (h.lt r hr).trans_le (Nat.le_add_right _ _)
    · exact (le_id_numbered hr).2

theorem Below.writeFiles {deletes : Bool} {us : List (FileUpdate χ δ)} (h : Below next rows) :
    ((writeFiles S project deletes next us rows).map NodeRow.id).Nodup := by
  induction us generalizing next rows with
  | nil => exact h.nodup
  | cons u us ih =>
    refine ih (Below.append ?_ _)
    split
    · exact h.filter _
    · exact h

/-- A row behind the writes was there before, or has an id that was not given out. -/
theorem mem_writeFiles {deletes : Bool} {us : List (FileUpdate χ δ)} (h : r ∈ writeFiles S project deletes next us rows) :
    r ∈ rows ∨ next ≤ r.id ∧ us.flatMap (fun u => S.symbols u.path u.content) ≠ [] := by
  induction us generalizing next rows with
  | nil => exact .inl h
  | cons u us ih =>
    rcases ih h with hr | ⟨hle, hne⟩
    · rcases mem_append.mp hr with hr | hr
      · split at hr
        · exact .inl (mem_filter.mp hr).1
        · exact .inl hr
      · refine .inr ⟨(le_id_numbered hr).1, fun hnil => ?_⟩
        rw [flatMap_cons, append_eq_nil_iff] at hnil
        rw [hnil.1] at hr
        cases hr
    · refine .inr ⟨(Nat.le_add_right _ _).trans hle, fun hnil => hne ?_⟩
      rw [flatMap_cons, append_eq_nil_iff] at hnil
      exact hnil.2

theorem below_maxId (h : (rows.map NodeRow.id).Nodup) : Below (maxId rows + 1) rows :=
  ⟨h, fun _ hr => Nat.lt_succ_of_le (id_le_maxId hr)⟩

end NodeRow

namespace DbWrite

open NodeRow

variable {S : SymbolExtractor φ χ δ} {rows : List NodeRow} {r : NodeRow}

theorem nodup_filter (h : (rows.map NodeRow.id).Nodup) (p : NodeRow → Bool) :
    ((rows.filter p).map NodeRow.id).Nodup := h.sublist (filter_sublist.map NodeRow.id)

theorem nodup_numberedFrom (w : DbWrite φ χ δ) (h : (rows.map NodeRow.id).Nodup) :
    ((w.numberedFrom project rows).map NodeRow.id).Nodup := by
  cases w with
  | extractionTx incremental =>
    cases incremental with
    | true => exact nodup_filter h _
    | false => exact h
  | streamingTx incremental =>
    cases incremental with
    | true => exact h
    | false => exact nodup_filter h _
  | _ => exact h

theorem mem_numberedFrom {w : DbWrite φ χ δ} (h : r ∈ w.numberedFrom project rows) : r ∈ rows := by
  cases w with
  | extractionTx incremental =>
    cases incremental with
    | true => exact (mem_filter.mp h).1
    | false => exact h
  | streamingTx incremental =>
    cases incremental with
    | true => exact h
    | false => exact (mem_filter.mp h).1
  | _ => exact h

/-- The ids of the table stay apart. -/
theorem runNodes_nodup (w : DbWrite φ χ δ) (h : (rows.map NodeRow.id).Nodup) :
    ((w.runNodes S project rows).map NodeRow.id).Nodup := by
  have hbase : ((w.numberedFrom project rows).map NodeRow.id).Nodup := nodup_numberedFrom w h
  cases w with
  | clearProjectData => exact nodup_filter h _
  | cleanupTx => exact nodup_filter h _
  | deleteTx => exact nodup_filter h _
  | extractionTx => exact (below_maxId hbase).writeFiles
  | streamingTx => exact (below_maxId hbase).writeFiles
  | _ => exact h

/-- A row behind a write was there before, or its id is above those that the write counted on from. -/
theorem mem_runNodes {w : DbWrite φ χ δ} (h : r ∈ w.runNodes S project rows) :
    r ∈ rows ∨ maxId (w.numberedFrom project rows) < r.id ∧ w.inserted S ≠ [] := by
  cases w with
  | clearProjectData => exact .inl (mem_filter.mp h).1
  | cleanupTx => exact .inl (mem_filter.mp h).1
  | deleteTx => exact .inl (mem_filter.mp h).1
  | extractionTx => exact (mem_writeFiles h).imp_left mem_numberedFrom
  | streamingTx => exact (mem_writeFiles h).imp_left mem_numberedFrom
  | _ => exact .inl h

end DbWrite

end Ariad
