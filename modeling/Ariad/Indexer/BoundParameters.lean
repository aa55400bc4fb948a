import Ariad.Indexer.NodeRows
import Ariad.Relational.Chunks

/-!
# Bound parameters

What the statements of an incremental run bind, where a list of paths or ids is put into an `IN (…)`.

* `BoundStatement` — a prepared statement with the values that are bound to it.
* `cleanup`, `affectedScope`, `scopedDelete`, `writeOneFile`, `replaceForFiles` — the statements of the sites.
* `IndexOp.statements` — those of an operation; `statementsOf`: those of a run.
* `withinLimit_iff` — no statement of a run binds too much exactly if every operation fits.
-/

namespace Ariad

open List

variable {φ χ δ : Type}

/-! ## Statements -/

/-- SQLite's limit on the variables of a statement. -/
def variableLimit : ℕ := 32766

inductive BoundValue where
  | project
  | path (p : RelPath)
  | id (n : ℕ)
  | column (name : String)

inductive BoundSql where
  | selectNodeIds
  | selectCallerFiles
  | deleteEdgesOfNodes
  | deleteCrossFileCallsOfNodes
  | deleteModuleImports
  | clearCrossFileCallEdges
  | selectCallSites
  | deleteFiles (t : StructuralTable)
  | insertInto (t : FileTable)

/-- A statement, and the values that are bound to it in order. -/
structure BoundStatement where
  sql : BoundSql
  bindings : List BoundValue

def BoundStatement.WithinLimit (s : BoundStatement) : Prop := s.bindings.length ≤ variableLimit

instance (s : BoundStatement) : Decidable s.WithinLimit := inferInstanceAs (Decidable (_ ≤ _))

namespace BoundStatement

/-- `WHERE project = ? AND file_path IN (…)` -/
def onFiles (sql : BoundSql) (paths : List RelPath) : BoundStatement := ⟨sql, .project :: paths.map .path⟩

/-- `WHERE project = ? AND (source_id IN (…) OR target_id IN (…))` -/
def onBothEnds (sql : BoundSql) (ids : List ℕ) : BoundStatement := ⟨sql, .project :: (ids.map .id ++ ids.map .id)⟩

/-- `WHERE e.project = ? AND e.target_id IN (…)` -/
def onTargets (sql : BoundSql) (ids : List ℕ) : BoundStatement := ⟨sql, .project :: ids.map .id⟩

/-- The columns that a row of a table is inserted with. -/
def insertColumns : FileTable → List String
  | .callSites => ["project", "file_path", "source_qn", "callee", "last_segment", "call_kind", "line"]
  | .imports => ["project", "file_path", "local_name", "source_module", "imported_name", "import_kind", "line"]
  | .exports =>
    ["project", "file_path", "exported_name", "local_name", "source_module", "imported_name", "export_kind", "line"]
  | .nodes =>
    ["id", "project", "label", "name", "qualified_name", "file_path", "start_line", "end_line", "properties_json"]
  | .edges => ["project", "source_id", "target_id", "type", "properties_json"]

def insertRow (t : FileTable) : BoundStatement := ⟨.insertInto t, (insertColumns t).map .column⟩

theorem length_onFiles (sql : BoundSql) (paths : List RelPath) :
    (onFiles sql paths).bindings.length = paths.length + 1 := by
  simp [onFiles]

theorem length_onBothEnds (sql : BoundSql) (ids : List ℕ) :
    (onBothEnds sql ids).bindings.length = 2 * ids.length + 1 := by
  simp [onBothEnds]
  omega

theorem length_onTargets (sql : BoundSql) (ids : List ℕ) : (onTargets sql ids).bindings.length = ids.length + 1 := by
  simp [onTargets]

end BoundStatement

open BoundStatement

/-! ## Sites -/

section Sites

variable (project : Text) (rows : List NodeRow) (paths : List RelPath)

/-- `SELECT id FROM nodes WHERE project = ? AND file_path IN (…)` -/
def oldNodeIds : List ℕ :=
  (rows.filter fun r => r.project = project ∧ r.filePath ∈ paths).map NodeRow.id

/-- The ids of the nodes of some files, and the edges of these. -/
def deleteEdges (sql : BoundSql) : List BoundStatement :=
  onFiles .selectNodeIds paths ::
    if oldNodeIds project rows paths = [] then [] else [onBothEnds sql (oldNodeIds project rows paths)]

/-- The cleanup of deleted files. -/
def cleanup : List BoundStatement :=
  deleteEdges project rows paths .deleteEdgesOfNodes ++
    [.rows .nodes, .fileHashes, .rows .callSites, .rows .imports, .rows .exports].map fun t =>
      onFiles (.deleteFiles t) paths

/-- The cleanup of changed files in the sequential writer. -/
def changedCleanup : List BoundStatement :=
  if paths = [] then []
  else deleteEdges project rows paths .deleteEdgesOfNodes ++ [onFiles (.deleteFiles (.rows .nodes)) paths]

/-- The files with cross-file calls into changed ones. -/
def affectedScope : List BoundStatement :=
  onFiles .selectNodeIds paths ::
    if oldNodeIds project rows paths = [] then []
    else [onTargets .selectCallerFiles (oldNodeIds project rows paths)]

/-- The cross-file edges of the files of a scope, 400 files at a time, and the call sites that are resolved anew. -/
def scopedDelete (scope : List RelPath) : List BoundStatement :=
  (chunksOf 400 scope).flatMap (fun chunk => deleteEdges project rows chunk .deleteCrossFileCallsOfNodes) ++
    ⟨.deleteModuleImports, [.project]⟩ :: (chunksOf 400 scope).map (onFiles .selectCallSites)

/-- `replaceCallSitesForFiles` and its likes: the old rows of the files, and a statement for the new ones. -/
def replaceForFiles (t : FileTable) : List BoundStatement :=
  (if paths = [] then [] else [onFiles (.deleteFiles (.rows t)) paths]) ++ [insertRow t]

/-- What the helpers replace. -/
def replacedTables : List FileTable := [.callSites, .imports, .exports]

/-- One file of the streaming writer. -/
def writeOneFile (incremental : Bool) (path : RelPath) : List BoundStatement :=
  (if incremental then
    deleteEdges project rows [path] .deleteEdgesOfNodes ++ [onFiles (.deleteFiles (.rows .nodes)) [path]]
  else []) ++
    replacedTables.flatMap (replaceForFiles (if incremental then [path] else []))

end Sites

/-! ## Operations -/

section Operations

variable (S : SymbolExtractor φ χ δ) (project : Text)

/-- The files of the streaming writer, one after the other. -/
def writeFilesStatements (incremental : Bool) : ℕ → List (FileUpdate χ δ) → List NodeRow → List BoundStatement
  | _, [], _ => []
  | next, u :: us, rows =>
    let symbols := S.symbols u.path u.content
    let kept := if incremental then NodeRow.deleteFiles project [u.path] rows else rows
    writeOneFile project rows incremental u.path ++
      writeFilesStatements incremental (next + symbols.length) us
        (kept ++ NodeRow.numbered project u.path next symbols)

/-- The scope that the streaming writer resolves anew, if it does. -/
def resolvedScope (db : CodeDb φ χ δ) (rowsAfter : List NodeRow) (incremental callSitesInitialized : Bool)
    (scope : Option (List RelPath)) : List RelPath :=
  if incremental && db.isExtractorSemanticsCurrent && callSitesInitialized &&
      rowsAfter.any (fun r => r.project = project) then scope.getD []
  else []

/-- What a write prepares, of the statements with lists. -/
def DbWrite.statements (db : CodeDb φ χ δ) (rows : List NodeRow) (w : DbWrite φ χ δ) : List BoundStatement :=
  match w with
  | .cleanupTx deletedRelPaths _ _ => cleanup project rows deletedRelPaths
  | .deleteTx deletedRelPaths _ => cleanup project rows deletedRelPaths
  | .extractionTx incremental _ updates _ =>
    let changed := if incremental then updates.map fun u => u.path else []
    changedCleanup project rows changed ++ replacedTables.flatMap (replaceForFiles changed)
  | .streamingTx incremental _ updates _ callSitesInitialized scope =>
    let base := w.numberedFrom project rows
    let rowsAfter := w.runNodes S project rows
    let resolved := resolvedScope project db rowsAfter incremental callSitesInitialized scope
    writeFilesStatements S project incremental (NodeRow.maxId base + 1) updates base ++
      if resolved = [] then [] else scopedDelete project rowsAfter resolved
  | _ => []

def DbRead.statements (rows : List NodeRow) : DbRead φ → List BoundStatement
  | .selectCallers paths => affectedScope project rows paths
  | _ => []

def IndexOp.statements (db : CodeDb φ χ δ) (rows : List NodeRow) : IndexOp φ χ δ → List BoundStatement
  | .read r => r.statements project rows
  | .write w => w.statements S project db rows
  | _ => []

/-- The database after an operation that does not fail. -/
def IndexOp.dbAfter [DecidableEq φ] (db : CodeDb φ χ δ) : IndexOp φ χ δ → CodeDb φ χ δ
  | .write w => (w.run S.toExtractor db).1
  | _ => db

def IndexOp.rowsAfter (rows : List NodeRow) : IndexOp φ χ δ → List NodeRow
  | .write w => w.runNodes S project rows
  | _ => rows

/-- **The statements of a run**, operation after operation. -/
def statementsOf [DecidableEq φ] : List (IndexOp φ χ δ) → CodeDb φ χ δ → List NodeRow → List BoundStatement
  | [], _, _ => []
  | o :: os, db, rows =>
    o.statements S project db rows ++ statementsOf os (o.dbAfter S db) (o.rowsAfter S project rows)

end Operations

/-! ## What fits -/

section Fits

variable (project : Text) (rows : List NodeRow) (paths : List RelPath)

/-- Not too many files, and not too many nodes in them, since an edge has two ends. -/
def CleanupFits : Prop :=
  paths.length + 1 ≤ variableLimit ∧ 2 * (oldNodeIds project rows paths).length + 1 ≤ variableLimit

variable {project rows paths}

theorem onFiles_within {sql : BoundSql} : (onFiles sql paths).WithinLimit ↔ paths.length + 1 ≤ variableLimit := by
  rw [WithinLimit, length_onFiles]

theorem insertRow_within (t : FileTable) : (insertRow t).WithinLimit := by
  cases t <;> decide

theorem deleteEdges_within {sql : BoundSql} :
    (∀ s ∈ deleteEdges project rows paths sql, s.WithinLimit) ↔ CleanupFits project rows paths := by
  rw [deleteEdges, forall_mem_cons, onFiles_within, CleanupFits]
  refine and_congr_right fun _ => ?_
  split
  · rename_i hnil
    rw [hnil]
    exact iff_of_true (fun s hs => absurd hs not_mem_nil) (by decide)
  · rw [forall_mem_singleton, WithinLimit, length_onBothEnds]

theorem cleanup_within : (∀ s ∈ cleanup project rows paths, s.WithinLimit) ↔ CleanupFits project rows paths := by
  rw [cleanup, forall_mem_append, deleteEdges_within, and_iff_left_iff_imp]
  intro hfits s hs
  obtain ⟨t, -, rfl⟩ := mem_map.mp hs
  exact onFiles_within.mpr hfits.1

theorem cleanupFits_nil : CleanupFits project rows [] := by
  have hnone : oldNodeIds project rows [] = [] := by simp [oldNodeIds]
  rw [CleanupFits, hnone]
  decide

theorem replaced_within (h : paths.length + 1 ≤ variableLimit) :
    ∀ s ∈ replacedTables.flatMap (replaceForFiles paths), s.WithinLimit := by
  intro s hs
  obtain ⟨t, -, hs⟩ := mem_flatMap.mp hs
  rcases mem_append.mp hs with hs | hs
  · split at hs
    · cases hs
    · obtain rfl := mem_singleton.mp hs
      exact onFiles_within.mpr h
  · obtain rfl := mem_singleton.mp hs
    exact insertRow_within t

theorem changed_within :
    (∀ s ∈ changedCleanup project rows paths ++ replacedTables.flatMap (replaceForFiles paths), s.WithinLimit) ↔
      CleanupFits project rows paths := by
  rw [forall_mem_append, changedCleanup]
  split
  · rename_i hnil
    subst hnil
    exact iff_of_true ⟨fun s hs => absurd hs not_mem_nil, replaced_within (by decide)⟩ cleanupFits_nil
  · rw [forall_mem_append, deleteEdges_within, forall_mem_singleton, onFiles_within]
    exact ⟨fun h => h.1.1, fun h => ⟨⟨h, h.1⟩, replaced_within h.1⟩⟩

theorem affectedScope_within : (∀ s ∈ affectedScope project rows paths, s.WithinLimit) ↔
    paths.length + 1 ≤ variableLimit ∧ (oldNodeIds project rows paths).length + 1 ≤ variableLimit := by
  rw [affectedScope, forall_mem_cons, onFiles_within]
  refine and_congr_right fun _ => ?_
  split
  · rename_i hnil
    rw [hnil]
    exact iff_of_true (fun s hs => absurd hs not_mem_nil) (by decide)
  · rw [forall_mem_singleton, WithinLimit, length_onTargets]

/-- The chunks are short enough, but not what is in their files. -/
theorem scopedDelete_within {scope : List RelPath} : (∀ s ∈ scopedDelete project rows scope, s.WithinLimit) ↔
    ∀ chunk ∈ chunksOf 400 scope, 2 * (oldNodeIds project rows chunk).length + 1 ≤ variableLimit := by
  have hchunk : ∀ chunk ∈ chunksOf 400 scope, chunk.length + 1 ≤ variableLimit := by
    intro chunk hmem
    have hle := length_chunk_le hmem
    rw [variableLimit]
    omega
  rw [scopedDelete, forall_mem_append, forall_mem_cons]
  constructor
  · rintro ⟨hedges, -⟩ chunk hmem
    exact (deleteEdges_within.mp fun s hs => hedges s (mem_flatMap.mpr ⟨chunk, hmem, hs⟩)).2
  · intro h
    refine ⟨fun s hs => ?_, by decide, fun s hs => ?_⟩
    · obtain ⟨chunk, hmem, hs⟩ := mem_flatMap.mp hs
      exact deleteEdges_within.mpr ⟨hchunk chunk hmem, h chunk hmem⟩ s hs
    · obtain ⟨chunk, hmem, rfl⟩ := mem_map.mp hs
      exact onFiles_within.mpr (hchunk chunk hmem)

theorem single_fits (path : RelPath) : [path].length + 1 ≤ variableLimit := by
  rw [length_singleton]
  decide

theorem writeOneFile_within {incremental : Bool} {path : RelPath} :
    (∀ s ∈ writeOneFile project rows incremental path, s.WithinLimit) ↔
      (incremental = true → 2 * (oldNodeIds project rows [path]).length + 1 ≤ variableLimit) := by
  rw [writeOneFile, forall_mem_append]
  cases incremental with
  | false =>
    have hnone : ([] : List RelPath).length + 1 ≤ variableLimit := by decide
    refine iff_of_true ⟨fun s hs => absurd hs not_mem_nil, replaced_within hnone⟩ fun h => ?_
    cases h
  | true =>
    have hone := single_fits path
    simp only [if_true, forall_const]
    rw [forall_mem_append, deleteEdges_within, forall_mem_singleton, onFiles_within]
    exact ⟨fun h => h.1.1.2, fun h => ⟨⟨⟨hone, h⟩, hone⟩, replaced_within hone⟩⟩

end Fits

section Run

variable (S : SymbolExtractor φ χ δ) (project : Text)

/-- No changed file has too many nodes when it is written. -/
def FilesFit (incremental : Bool) : ℕ → List (FileUpdate χ δ) → List NodeRow → Prop
  | _, [], _ => True
  | next, u :: us, rows =>
    let symbols := S.symbols u.path u.content
    let kept := if incremental then NodeRow.deleteFiles project [u.path] rows else rows
    (incremental = true → 2 * (oldNodeIds project rows [u.path]).length + 1 ≤ variableLimit) ∧
      FilesFit incremental (next + symbols.length) us (kept ++ NodeRow.numbered project u.path next symbols)

variable {S project}

theorem writeFiles_within {incremental : Bool} {next : ℕ} {us : List (FileUpdate χ δ)} {rows : List NodeRow} :
    (∀ s ∈ writeFilesStatements S project incremental next us rows, s.WithinLimit) ↔
      FilesFit S project incremental next us rows := by
  induction us generalizing next rows with
  | nil => exact iff_of_true (fun s hs => absurd hs not_mem_nil) trivial
  | cons u us ih =>
    rw [writeFilesStatements, FilesFit, forall_mem_append, writeOneFile_within]
    exact and_congr_right fun _ => ih

variable (S project)

/-- **An operation fits**: neither the files it is about nor the nodes they have are too many. -/
def IndexOp.Fits (db : CodeDb φ χ δ) (rows : List NodeRow) : IndexOp φ χ δ → Prop
  | .read (.selectCallers paths) =>
    paths.length + 1 ≤ variableLimit ∧ (oldNodeIds project rows paths).length + 1 ≤ variableLimit
  | .write (.cleanupTx deletedRelPaths _ _) => CleanupFits project rows deletedRelPaths
  | .write (.deleteTx deletedRelPaths _) => CleanupFits project rows deletedRelPaths
  | .write (.extractionTx incremental _ updates _) =>
    CleanupFits project rows (if incremental then updates.map fun u => u.path else [])
  | .write (.streamingTx incremental root updates metadataOnly callSitesInitialized scope) =>
    let w := DbWrite.streamingTx incremental root updates metadataOnly callSitesInitialized scope
    let base := w.numberedFrom project rows
    let rowsAfter := w.runNodes S project rows
    FilesFit S project incremental (NodeRow.maxId base + 1) updates base ∧
      ∀ chunk ∈ chunksOf 400 (resolvedScope project db rowsAfter incremental callSitesInitialized scope),
        2 * (oldNodeIds project rowsAfter chunk).length + 1 ≤ variableLimit
  | _ => True

/-- Every operation of a run fits when it is made. -/
def AllFit [DecidableEq φ] : List (IndexOp φ χ δ) → CodeDb φ χ δ → List NodeRow → Prop
  | [], _, _ => True
  | o :: os, db, rows => o.Fits S project db rows ∧ AllFit os (o.dbAfter S db) (o.rowsAfter S project rows)

variable {S project}

/-- The statements of an operation bind as much as SQLite takes exactly if the operation fits. -/
theorem IndexOp.within_iff {db : CodeDb φ χ δ} {rows : List NodeRow} (o : IndexOp φ χ δ) :
    (∀ s ∈ o.statements S project db rows, s.WithinLimit) ↔ o.Fits S project db rows := by
  have hnone : (∀ s ∈ ([] : List BoundStatement), s.WithinLimit) ↔ True :=
    iff_of_true (fun s hs => absurd hs not_mem_nil) trivial
  cases o with
  | read r =>
    cases r with
    | selectCallers paths => exact affectedScope_within
    | _ => exact hnone
  | write w =>
    cases w with
    | cleanupTx => exact cleanup_within
    | deleteTx => exact cleanup_within
    | extractionTx => exact changed_within
    | streamingTx incremental root updates metadataOnly callSitesInitialized scope =>
      rw [IndexOp.statements, DbWrite.statements, IndexOp.Fits, forall_mem_append, writeFiles_within]
      refine and_congr_right fun _ => ?_
      split
      · rename_i hscope
        rw [hscope]
        exact iff_of_true (fun s hs => absurd hs not_mem_nil) fun chunk hmem => absurd hmem not_mem_nil
      · exact scopedDelete_within
    | _ => exact hnone
  | _ => exact hnone

/-- **No statement of a run binds more than SQLite takes exactly if every operation fits.** -/
theorem withinLimit_iff [DecidableEq φ] (os : List (IndexOp φ χ δ)) (db : CodeDb φ χ δ) (rows : List NodeRow) :
    (∀ s ∈ statementsOf S project os db rows, s.WithinLimit) ↔ AllFit S project os db rows := by
  induction os generalizing db rows with
  | nil => exact iff_of_true (fun s hs => absurd hs not_mem_nil) trivial
  | cons o os ih =>
    rw [statementsOf, AllFit, forall_mem_append, IndexOp.within_iff, ih]

end Run

/-! ### A deleted file with 16,383 nodes -/

/-- Two functions more than half of what SQLite takes. -/
def largeFile : List NodeRow := (List.range 16383).map fun n => ⟨n + 1, ['p'], [], ["a.ts"]⟩

def plainSymbols : SymbolExtractor ℕ ℕ ℕ where
  toExtractor := plainExtractor
  symbols := fun _ _ => [[]]
  yields_nodes := fun _ _ => (rfl : true = true)

theorem length_largeFile : (oldNodeIds ['p'] largeFile [["a.ts"]]).length = 16383 := by
  have hall : (largeFile.filter fun r => r.project = ['p'] ∧ r.filePath ∈ [["a.ts"]]) = largeFile := by
    refine filter_eq_self.mpr fun r hr => ?_
    obtain ⟨n, -, rfl⟩ := mem_map.mp hr
    rfl
  rw [oldNodeIds, hall, length_map, largeFile, length_map, length_range]

/-- Its nodes are bound twice, for the two ends of an edge. -/
theorem cleanup_too_large : ¬∀ (os : List (IndexOp ℕ ℕ ℕ)) (db : CodeDb ℕ ℕ ℕ) (rows : List NodeRow),
    ∀ s ∈ statementsOf plainSymbols ['p'] os db rows, s.WithinLimit := by
  intro h
  have hstatements := h [.write (.cleanupTx [["a.ts"]] false true)] ⟨none, fun _ => [], [], [], []⟩ largeFile
  have hcleanup : ∀ s ∈ cleanup ['p'] largeFile [["a.ts"]], s.WithinLimit :=
    fun s hs => hstatements s (mem_append_left _ hs)
  have hfits := (cleanup_within.mp hcleanup).2
  rw [length_largeFile] at hfits
  exact absurd hfits (by decide)

end Ariad
