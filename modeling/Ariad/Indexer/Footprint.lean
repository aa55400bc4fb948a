import Ariad.Indexer.Rules

/-!
# What a run can do

The operations that the parts of a run can perform, whatever the operations return.

* `IndexM.Only` — every operation of a program is of a certain kind.
* `Only.holds` — what the operations of that kind preserve is preserved by the program.
* `IndexOp.Reads` — the kind that leaves database and readers alone; the parts of a run that only
  perform such operations.
-/

namespace Ariad

variable {φ χ δ α β : Type}

namespace IndexM

/-- Every operation that the program can perform satisfies `C`. -/
def Only (C : IndexOp φ χ δ → Prop) (m : IndexM φ χ δ α) : Prop := Proc.Uses C (fun _ => True) m

variable {C D : IndexOp φ χ δ → Prop} {m m' : IndexM φ χ δ α} {f : α → IndexM φ χ δ β}

theorem Only.pure (a : α) : IndexM.Only C (Pure.pure a : IndexM φ χ δ α) := Proc.Uses.pure a

theorem Only.bind (hm : m.Only C) (hf : ∀ a, (f a).Only C) : IndexM.Only C (m >>= f) :=
  Proc.Uses.bind hm hf

theorem Only.attempt (hm : m.Only C) : IndexM.Only C (Proc.attempt m) := Proc.Uses.attempt hm

theorem Only.tryCatch {handler : IndexFault → IndexM φ χ δ α} (hm : m.Only C)
    (hh : ∀ e, (handler e).Only C) : IndexM.Only C (MonadExcept.tryCatch m handler) :=
  Proc.Uses.tryCatch hm fun e _ => hh e

theorem Only.ite {c : Prop} [Decidable c] (hm : m.Only C) (hm' : m'.Only C) :
    IndexM.Only C (if c then m else m') :=
  Proc.Uses.ite (fun _ => hm) fun _ => hm'

theorem Only.perform {o : IndexOp φ χ δ} (h : C o) : (IndexM.perform o).Only C :=
  Proc.Uses.perform h fun _ => trivial

theorem Only.executeIf {b : Bool} {u : DbWrite φ χ δ} (h : C (.write u)) :
    (IndexM.executeIf b u).Only C :=
  .ite (.bind (.perform h) fun _ => .pure _) (.pure _)

theorem Only.forEach (as : List α) (hf : ∀ a, (f a).Only C) : (IndexM.forEach f as).Only C := by
  induction as with
  | nil => exact .pure _
  | cons a as ih => exact .bind (hf a) fun _ => .bind ih fun _ => .pure _

/-- **Framing by operations.** What every allowed operation of the kind preserves holds throughout. -/
theorem Only.holds [DecidableEq φ] {X : Extractor φ χ δ}
    {A : IndexOp φ χ δ → IndexChoice χ → IndexWorld φ χ δ → Prop} {J : IndexWorld φ χ δ → Prop}
    {w : IndexWorld φ χ δ} (h : m.Only C)
    (hstep : ∀ o ch w, C o → J w → A o ch w → J (o.exec X ch w).2) (hw : J w) :
    m.Holds X A J (fun _ => J) J w :=
  Proc.Holds.uses (I := J) h hstep hw

end IndexM

open IndexM

/-! ## Operations that write nothing -/

/-- The operation changes neither the database nor what readers see. -/
def IndexOp.Reads : IndexOp φ χ δ → Prop
  | .write _ => False
  | .publishGenerationSnapshot => False
  | _ => True

/-- The database and the active generation are the same. -/
theorem IndexOp.Reads.exec [DecidableEq φ] {X : Extractor φ χ δ} {o : IndexOp φ χ δ} (h : o.Reads)
    (ch : IndexChoice χ) (w : IndexWorld φ χ δ) :
    (o.exec X ch w).2.db = w.db ∧ (o.exec X ch w).2.active = w.active := by
  unfold IndexOp.exec
  split
  · exact ⟨rfl, rfl⟩
  · cases o with
    | discoverSourceFiles cfg root =>
      simp only [IndexOp.run]
      split <;> exact ⟨rfl, rfl⟩
    | statFile p =>
      simp only [IndexOp.run]
      split <;> exact ⟨rfl, rfl⟩
    | readFile p =>
      simp only [IndexOp.run]
      split <;> exact ⟨rfl, rfl⟩
    | write u => exact h.elim
    | publishGenerationSnapshot => exact h.elim
    | _ => exact ⟨rfl, rfl⟩

section

variable {C : IndexOp φ χ δ → Prop} (hC : ∀ o : IndexOp φ χ δ, o.Reads → C o) (v : Survey φ)

include hC

theorem IndexM.Only.query (r : DbRead φ) : (IndexM.query r).Only C := .perform (hC _ trivial)

theorem IndexM.Only.statFile (p : AbsPath) : (IndexM.statFile p).Only C := .perform (hC _ trivial)

theorem IndexM.Only.readFile (p : AbsPath) : (IndexM.readFile p).Only C := .perform (hC _ trivial)

theorem only_existsAny (ts : List StructuralTable) : (existsAny ts).Only C := by
  induction ts with
  | nil => exact .pure _
  | cons t ts ih => exact .bind (.query hC _) fun _ => .ite (.pure _) ih

theorem only_readProjectState (opts : IndexOptions φ) : (opts.readProjectState).Only C :=
  .ite (.query hC _) (.pure _)

theorem Survey.only_hasPublishedSnapshot : v.hasPublishedSnapshot.Only C := by
  unfold Survey.hasPublishedSnapshot
  split
  · exact .pure _
  · exact .ite (.bind (.query hC _) fun _ => .ite (.query hC _) (.pure _)) (.pure _)

theorem Survey.only_resolveFileStat (f : AbsPath) : (v.resolveFileStat f).Only C := by
  unfold Survey.resolveFileStat
  split
  · exact .pure _
  · exact .statFile hC _

theorem Survey.only_estimatedFilesToIndex : v.estimatedFilesToIndex.Only C :=
  .ite (.bind (.query hC _) fun _ => .bind (.forEach _ fun f =>
    .bind (v.only_resolveFileStat hC f) fun _ => .pure _) fun _ => .pure _) (.pure _)

theorem Survey.only_readDeletedRelPaths : v.readDeletedRelPaths.Only C :=
  .ite (.bind (.query hC _) fun _ => .pure _) (.pure _)

theorem only_prefetch (files : List AbsPath) : (prefetch files).Only C :=
  .bind (.forEach _ fun f => .bind (.attempt (.readFile hC f)) fun _ => .pure _) fun _ => .pure _

theorem Survey.only_fileContents : v.fileContents.Only C := .ite (.pure _) (only_prefetch hC _)

theorem Survey.only_bulkMeta : v.bulkMeta.Only C := .ite (.query hC _) (.pure _)

theorem only_scopedFiles (incremental : Bool) (changed : List RelPath) :
    (scopedFiles incremental changed).Only C :=
  .ite (.bind (.query hC _) fun _ => .pure _) (.pure _)

variable (X : Extractor φ χ δ)

theorem Survey.only_extractFile [DecidableEq δ] (cache : List (AbsPath × χ)) (f : AbsPath) :
    (v.extractFile X cache f).Only C := by
  refine .tryCatch (.bind (.statFile hC _) fun m => .ite (.bind (.query hC _) fun existing => ?_) ?_)
    fun _ => .pure _
  · split
    · exact .ite (.pure _) (.bind (.readFile hC _) fun _ => .ite (.pure _) (.pure _))
    · exact .bind (.readFile hC _) fun _ => .pure _
  · split <;> exact .pure _

theorem Survey.only_skipPass [DecidableEq δ] (bulkMeta : List (FileHash φ δ)) (f : AbsPath) :
    (v.skipPass X bulkMeta f).Only C := by
  refine .ite (.bind (v.only_resolveFileStat hC f) fun m => .ite (.pure _) ?_) (.pure _)
  refine .bind (.query hC _) fun existing => .bind (.readFile hC _) fun content => ?_
  dsimp only
  split
  · exact .ite (.pure _) (.pure _)
  · exact .pure _

theorem Survey.only_workerFile (x : AbsPath × Option (HashUpdate δ)) :
    (v.workerFile X x).Only C :=
  .tryCatch (.bind (.readFile hC _) fun _ => .bind (.statFile hC _) fun _ => .pure _) fun _ => .pure _

end

/-! ## The paths -/

namespace Survey

variable (v : Survey φ) (C : IndexOp φ χ δ → Prop)

/-- The operations of the fast paths of the run are of the kind. -/
structure FastKind : Prop where
  reads : ∀ o, o.Reads → C o
  markStale : ∀ guard, C (.write (.markStale guard))
  premark : C (.write (.premark v.rootPath))
  noOpTx : ∀ stale noOpStale initialized version hasIndexError,
    C (.write (.noOpTx stale noOpStale v.rootPath initialized version hasIndexError))
  cleanupTx : ∀ paths stale initialized, C (.write (.cleanupTx paths stale initialized))
  updateProjectStats : ∀ initialized version hasIndexError,
    C (.write (.updateProjectStats v.rootPath true initialized version hasIndexError))
  commit : ∀ initialized version, C (.write (.commitAliasStateAtomically v.rootPath initialized version
    v.opts.root.fingerprint v.opts.runId v.contributiveAliases v.liveAliasPaths))

/-- The operations behind the extraction are of the kind too. -/
structure EndKind : Prop extends v.FastKind C where
  deleteTx : ∀ paths stale, C (.write (.deleteTx paths stale))
  publish : C .publishGenerationSnapshot

/-- The operations of the run are of the kind; `metadataTx` is for `indexParallel` alone. -/
structure RunKind : Prop extends v.EndKind C where
  clearProjectData : C (.write .clearProjectData)
  extractionTx : ∀ updates metadataOnly, C (.write (.extractionTx v.opts.incremental
    v.opts.root.fingerprint updates metadataOnly))
  streamingTx : ∀ updates metadataOnly initialized scope, C (.write (.streamingTx v.opts.incremental
    v.opts.root.fingerprint updates metadataOnly initialized scope))

variable {v C}

omit v in
theorem only_bestEffortStale (hmark : ∀ guard, C (.write (.markStale guard))) :
    (bestEffortStale : IndexM φ χ δ PUnit).Only C :=
  .bind (.attempt (.perform (hmark _))) fun _ => .pure _

theorem only_noOpPath (h : v.FastKind C) : (v.noOpPath : IndexM φ χ δ IndexResult).Only C := by
  refine .bind (.perform (h.noOpTx _ _ _ _ _)) fun _ => .ite (.pure _)
    (.bind (.attempt (.perform (h.commit _ _))) ?_)
  rintro (_ | _)
  · exact .bind (only_bestEffortStale h.markStale) fun _ => .pure _
  · exact .pure _

theorem only_deletionOnlyPath (h : v.FastKind C) (deleted : List RelPath) :
    (v.deletionOnlyPath deleted : IndexM φ χ δ IndexResult).Only C := by
  refine .bind (.perform h.premark) fun _ => .bind (.query h.reads _) fun _ =>
    .bind (.perform (h.cleanupTx _ _ _)) fun _ =>
      .ite (.bind (.perform (h.updateProjectStats _ _ _)) fun _ => .pure _)
        (.bind (.attempt (.perform (h.commit _ _))) ?_)
  rintro (_ | _)
  · exact .bind (only_bestEffortStale h.markStale) fun _ => .pure _
  · exact .pure _

theorem only_conclude (h : v.EndKind C) (result : ExtractionResult) (stale initialized : Bool) :
    (v.conclude result stale initialized : IndexM φ χ δ IndexResult).Only C := by
  refine .bind (.ite (.bind (.attempt (.perform h.publish)) ?_) (.pure _)) fun _ => .pure _
  rintro (_ | _) <;> exact .pure _

theorem only_crashed (hmark : ∀ guard, C (.write (.markStale guard))) (code : FailureCode) :
    (v.crashed code : IndexM φ χ δ IndexResult).Only C :=
  .bind (only_bestEffortStale hmark) fun _ => .pure _

theorem only_afterExtraction (h : v.EndKind C) (deleted : List RelPath) (result : ExtractionResult) :
    (v.afterExtraction deleted result : IndexM φ χ δ IndexResult).Only C := by
  refine .bind (.executeIf (h.deleteTx _ _)) fun _ => .ite
    (.bind (.perform (h.updateProjectStats _ _ _)) fun _ => only_conclude h _ _ _)
    (.bind (.attempt (.perform (h.commit _ _))) ?_)
  rintro (_ | _)
  · exact .bind (only_bestEffortStale h.markStale) fun _ => .pure _
  · exact only_conclude h _ _ _

/-- The end of the main path, when there was an extraction. -/
theorem only_extracted (h : v.EndKind C) (deleted : List RelPath) (result : ExtractionResult) :
    IndexM.Only C (tryCatch (v.afterExtraction deleted result) fun _ => v.crashed .DB_ERROR) :=
  .tryCatch (only_afterExtraction h _ _) fun _ => only_crashed h.markStale _

variable [DecidableEq δ]

theorem only_extractFromFilesWasm (h : v.RunKind C) (X : Extractor φ χ δ) :
    (v.extractFromFilesWasm X).Only C :=
  .ite (.pure _) (.bind (v.only_fileContents h.reads) fun _ =>
    .bind (.forEach _ fun f => v.only_extractFile h.reads X _ f) fun _ =>
      .bind (.perform (h.extractionTx _ _)) fun _ => .pure _)

theorem only_indexParallel (h : v.RunKind C)
    (hmetadata : ∀ us, C (.write (.metadataTx v.opts.root.fingerprint us))) (X : Extractor φ χ δ) :
    (v.indexParallel X).Only C := by
  refine .bind (v.only_bulkMeta h.reads) fun _ =>
    .bind (.forEach _ fun f => v.only_skipPass h.reads X _ f) fun _ => .ite
      (.bind (.executeIf (hmetadata _)) fun _ => .pure _)
      (.bind (only_scopedFiles h.reads _ _) fun _ => .bind (.query h.reads _) fun _ =>
        .bind (.forEach _ fun x => v.only_workerFile h.reads X x) fun _ =>
          .bind (.perform (h.streamingTx _ _ _ _)) fun _ => .pure _)

theorem only_mainPath (h : v.RunKind C)
    (hmetadata : ∀ us, C (.write (.metadataTx v.opts.root.fingerprint us))) (X : Extractor φ χ δ)
    (useParallel : Bool) (deleted : List RelPath) : (v.mainPath X useParallel deleted).Only C :=
  .bind (.attempt (.ite (only_indexParallel h hmetadata X) (only_extractFromFilesWasm h X))) fun
    | .error _ => only_crashed h.markStale _
    | .ok result => only_extracted h.toEndKind deleted result

theorem only_index (h : v.RunKind C)
    (hmetadata : ∀ us, C (.write (.metadataTx v.opts.root.fingerprint us))) (X : Extractor φ χ δ) :
    (v.index X).Only C :=
  .bind (.perform h.premark) fun _ => .bind (v.only_estimatedFilesToIndex h.reads) fun _ =>
    .bind (.executeIf h.clearProjectData) fun _ => .bind (v.only_readDeletedRelPaths h.reads) fun _ =>
      .ite (.ite (only_noOpPath h.toFastKind) (only_deletionOnlyPath h.toFastKind _))
        (only_mainPath h hmetadata X _ _)

end Survey

/-- A refusal reads, and marks the project stale. -/
theorem only_markProjectStalePreservingGraph {C : IndexOp φ χ δ → Prop}
    (hreads : ∀ o : IndexOp φ χ δ, o.Reads → C o) (hmark : ∀ version, C (.write (.markTx version))) :
    (markProjectStalePreservingGraph : IndexM φ χ δ PUnit).Only C := by
  refine .bind (.attempt (.bind (.query hreads _) fun row => ?_)) fun _ => .pure _
  split
  · exact .pure _
  · exact .bind (.perform (hmark _)) fun _ => .pure _

theorem Survey.only_rootChangedRefusal [DecidableEq φ] {C : IndexOp φ χ δ → Prop}
    (hreads : ∀ o : IndexOp φ χ δ, o.Reads → C o) (hmark : ∀ guard, C (.write (.markStale guard)))
    (v : Survey φ) (published : φ) : (v.rootChangedRefusal published).Only C := by
  refine .bind (v.only_hasPublishedSnapshot hreads) fun _ => .bind (.bind (.attempt
    (.bind (.perform (hmark _)) fun _ => .ite (.pure _) (.bind (.query hreads _) fun row => ?_)))
      fun r => ?_) fun _ => .pure _
  · split
    · exact .pure _
    · exact .ite (.pure _) (.pure _)
  · split <;> exact .pure _

theorem Survey.only_rootIdentityUnknownRefusal {C : IndexOp φ χ δ → Prop}
    (hreads : ∀ o : IndexOp φ χ δ, o.Reads → C o) (hmark : ∀ guard, C (.write (.markStale guard)))
    (v : Survey φ) : v.rootIdentityUnknownRefusal.Only C := by
  refine .bind (v.only_hasPublishedSnapshot hreads) fun _ => .bind (.bind (.attempt
    (.bind (.perform (hmark _)) fun _ => .ite (.pure _) (.bind (.query hreads _) fun row => ?_)))
      fun r => ?_) fun _ => .pure _
  · split
    · exact .pure _
    · exact .ite (.pure _) (.pure _)
  · split <;> exact .pure _

end Ariad
