import Ariad.Indexer.CodeDbLaws
import Ariad.Indexer.Gates

/-!
# Generations and the index

What readers of generations see after a run that ended without warnings. The main path publishes the
database as it is at its end. The fast paths publish nothing: they add no rows of files, and readers
keep seeing the generation that they saw before.
-/

namespace Ariad

variable {φ χ δ : Type} {X : Extractor φ χ δ} {w₀ w w' : IndexWorld φ χ δ}
  {v : Survey φ}

open IndexM

/-! ## The fast paths -/

/-- The operation adds no rows of files and publishes nothing. -/
def IndexOp.Trims : IndexOp φ χ δ → Prop
  | .write (.markStale _) => True
  | .write (.premark _) => True
  | .write (.noOpTx _ _ _ _ _ _) => True
  | .write (.cleanupTx _ _ _) => True
  | .write (.updateProjectStats _ _ _ _ _) => True
  | .write (.commitAliasStateAtomically _ _ _ _ _ _ _) => True
  | .write _ => False
  | .publishGenerationSnapshot => False
  | _ => True

/-- The same generation is active, and there are no rows of files that were not there. -/
structure Trimmed (w₀ w : IndexWorld φ χ δ) : Prop where
  active : w.active = w₀.active
  table : ∀ t, w.db.table t ⊆ w₀.db.table t
  fileHashes : w.db.fileHashes ⊆ w₀.db.fileHashes

theorem Trimmed.refl (w : IndexWorld φ χ δ) : Trimmed w w := ⟨rfl, fun _ _ h => h, fun _ h => h⟩

theorem IndexOp.Reads.trims {o : IndexOp φ χ δ} (h : o.Reads) : o.Trims := by
  cases o with
  | write u => exact h.elim
  | publishGenerationSnapshot => exact h.elim
  | _ => trivial

theorem CodeDb.deleteFiles_subset (db : CodeDb φ χ δ) (paths : List RelPath) (t : FileTable) :
    (db.deleteFiles paths).table t ⊆ db.table t := by
  intro r hr
  cases t <;> exact List.mem_of_mem_filter hr

theorem CodeDb.cleanupTx_subset (db : CodeDb φ χ δ) (paths : List RelPath) (semanticsStale initialized : Bool) :
    (∀ t, (db.cleanupTx X paths semanticsStale initialized).1.table t ⊆ db.table t) ∧
      (db.cleanupTx X paths semanticsStale initialized).1.fileHashes ⊆ db.fileHashes := by
  have hdeleted : ∀ t, (db.deleteFiles paths).table t ⊆ db.table t := db.deleteFiles_subset paths
  have hhashes : (db.deleteFiles paths).fileHashes ⊆ db.fileHashes := fun h hh =>
    List.mem_of_mem_filter hh
  unfold CodeDb.cleanupTx
  dsimp only
  split
  · exact ⟨hdeleted, hhashes⟩
  · split <;> exact ⟨hdeleted, hhashes⟩

/-- One step of a fast path. -/
theorem IndexOp.Trims.exec [DecidableEq φ] {o : IndexOp φ χ δ} (h : o.Trims) (ch : IndexChoice χ)
    (hw : Trimmed w₀ w) : Trimmed w₀ (o.exec X ch w).2 := by
  have hsame : ∀ db : CodeDb φ χ δ, CodeDb.SameRows w.db db →
      Trimmed w₀ { w.edited ch.writes with db := db } := by
    intro db hdb
    refine ⟨hw.active, fun t => ?_, ?_⟩
    · show db.table t ⊆ _
      rw [hdb.table]
      exact hw.table t
    · show db.fileHashes ⊆ _
      rw [hdb.fileHashes]
      exact hw.fileHashes
  by_cases hreads : o.Reads
  · obtain ⟨hdb, hactive⟩ := hreads.exec (X := X) ch w
    refine ⟨hactive.trans hw.active, fun t => ?_, ?_⟩
    · rw [hdb]
      exact hw.table t
    · rw [hdb]
      exact hw.fileHashes
  unfold IndexOp.exec
  split
  · exact hsame _ (.refl _)
  · cases o with
    | write u =>
      cases u with
      | markStale guard =>
        simp only [IndexOp.run, DbWrite.run]
        split
        · exact hsame _ (.refl _)
        · split
          · exact hsame _ .markStale
          · exact hsame _ (.refl _)
      | premark rootPath => exact hsame _ (.premark _)
      | noOpTx semanticsStale noOpStale rootPath initialized version hasIndexError =>
        simp only [IndexOp.run, DbWrite.run, CodeDb.noOpTx]
        cases semanticsStale <;> cases noOpStale <;>
          exact ⟨hw.active, hw.table, hw.fileHashes⟩
      | cleanupTx deleted semanticsStale initialized =>
        obtain ⟨htable, hhashes⟩ := CodeDb.cleanupTx_subset (X := X) w.db deleted semanticsStale
          initialized
        exact ⟨hw.active, fun t => List.Subset.trans (htable t) (hw.table t),
          List.Subset.trans hhashes hw.fileHashes⟩
      | updateProjectStats => exact hsame _ (.updateProjectStats _ _ _ _ _ _ _ _)
      | commitAliasStateAtomically => exact hsame _ (.commitAliasStateAtomically _ _ _ _ _ _ _)
      | _ => exact h.elim
    | publishGenerationSnapshot => exact h.elim
    | _ => exact absurd trivial hreads

theorem Survey.fastKind_trims (v : Survey φ) : v.FastKind (IndexOp.Trims (χ := χ) (δ := δ)) where
  reads := fun _ h => h.trims
  markStale := fun _ => trivial
  premark := trivial
  noOpTx := fun _ _ _ _ _ => trivial
  cleanupTx := fun _ _ _ => trivial
  updateProjectStats := fun _ _ _ => trivial
  commit := fun _ _ => trivial

/-! ## The main path -/

/-- The main path reports what became of the publication; without a warning it was published. -/
def Published (r : IndexResult) (w : IndexWorld φ χ δ) : Prop :=
  r.outcome = .SUCCESS → r.generationPublication = some .published ∧ w.active = some w.db

/-- A result that is no success. -/
theorem published_of_ne {r : IndexResult} (h : r.outcome ≠ .SUCCESS) : Published r w :=
  fun hsuccess => absurd hsuccess h

section

variable [DecidableEq φ]

/-- What a procedure that returns leaves. -/
abbrev IndexM.Returns {α : Type} (X : Extractor φ χ δ) (A : IndexOp φ χ δ → IndexChoice χ → IndexWorld φ χ δ → Prop)
    (m : IndexM φ χ δ α) (Q : α → IndexWorld φ χ δ → Prop) (w : IndexWorld φ χ δ) : Prop :=
  m.Holds X A (fun _ => True) Q (fun _ => True) w

/-- What is known once the publication was decided on and tried. -/
theorem Survey.holds_publish {A : IndexOp φ χ δ → IndexChoice χ → IndexWorld φ χ δ → Prop}
    (hpub : v.opts.publication = true) (hasErrors crossFileStale : Bool) :
    (v.publish hasErrors crossFileStale).Returns X A (fun p w => (p = .published → w.active = some w.db) ∧
        (p = .skipped → hasErrors = true ∨ crossFileStale = true)) w := by
  unfold Survey.publish
  split
  · refine Holds.bind (Holds.attempt (Holds.perform trivial (fun _ _ _ => ?_) fun _ _ _ => ?_))
    · exact Holds.pure (by simp)
    · exact Holds.pure ⟨fun _ => rfl, by simp⟩
  · rename_i h
    refine Holds.pure ⟨by simp, fun _ => ?_⟩
    rw [hpub] at h
    revert h
    cases hasErrors <;> cases crossFileStale <;> simp

theorem Survey.holds_conclude {A : IndexOp φ χ δ → IndexChoice χ → IndexWorld φ χ δ → Prop}
    (hpub : v.opts.publication = true) (result : ExtractionResult) (crossFileStale initialized : Bool) :
    (v.conclude result crossFileStale initialized).Returns X A Published w := by
  unfold Survey.conclude
  refine Holds.bind ((v.holds_publish hpub _ _).mono ?_ fun _ h => h)
  rintro p w' ⟨hpublished, hskipped⟩
  refine Holds.pure fun hsuccess => ?_
  -- without errors, staleness and warnings the decision was to publish, and it did not fail
  cases p with
  | published => exact ⟨rfl, hpublished rfl⟩
  | skipped =>
    rcases hskipped rfl with h | h
    · simp [computeOutcome, h] at hsuccess
    · simp [computeOutcome, h] at hsuccess
      split at hsuccess <;> cases hsuccess
  | failed =>
    simp only [computeOutcome, decide_true, Bool.or_true] at hsuccess
    split at hsuccess
    · split at hsuccess <;> cases hsuccess
    · split at hsuccess <;> cases hsuccess

section

variable {A : IndexOp φ χ δ → IndexChoice χ → IndexWorld φ χ δ → Prop}

theorem Survey.holds_crashed (code : FailureCode) :
    (v.crashed code).Returns X A Published w :=
  .after fun _ _ => Holds.pure (published_of_ne (by simp [refusedFor]))

theorem holds_publicationFailed (errors : List RelPath) :
    (do bestEffortStale; pure (publicationFailed errors) : IndexM φ χ δ IndexResult).Returns X A Published w :=
  .after fun _ _ => Holds.pure (published_of_ne (by simp [publicationFailed]))

variable [DecidableEq δ]

theorem Survey.holds_mainPath (hpub : v.opts.publication = true) (useParallel : Bool) (deleted : List RelPath) :
    (v.mainPath X useParallel deleted).Returns X A Published w := by
  refine .after fun result w => ?_
  cases result with
  | error _ => exact v.holds_crashed _
  | ok result =>
    refine Holds.tryCatch (Holds.mono (E := fun _ => True) ?_ (fun _ _ h => h) fun w _ => v.holds_crashed _)
    refine .after fun _ w => ?_
    dsimp only
    split
    · exact .after fun _ w => v.holds_conclude hpub _ _ _
    · refine .after fun r w => ?_
      cases r with
      | ok _ => exact v.holds_conclude hpub _ _ _
      | error _ => exact holds_publicationFailed _

end

end

/-! ## Whole runs -/

/-- **What a run without warnings leaves to the readers**: the main path publishes the database as it is;
a fast path leaves them the generation that they had, and adds no rows. -/
def Follows (w₀ : IndexWorld φ χ δ) (r : IndexResult) (w : IndexWorld φ χ δ) : Prop :=
  r.outcome = .SUCCESS →
    r.generationPublication = some .published ∧ w.active = some w.db ∨
      r.generationPublication = none ∧ Trimmed w₀ w

theorem follows_of_ne {r : IndexResult} (h : r.outcome ≠ .SUCCESS) : Follows w₀ r w :=
  fun hsuccess => absurd hsuccess h

section

variable [DecidableEq φ] {A : IndexOp φ χ δ → IndexChoice χ → IndexWorld φ χ δ → Prop}

/-- A fast path reports no publication. -/
theorem holds_fast {m : IndexM φ χ δ IndexResult} (honly : m.Only IndexOp.Trims)
    (hnone : m.Returns X A (fun r _ => r.generationPublication = none) w) (hw : Trimmed w₀ w) : m.Returns X A (Follows w₀) w := by
  have htrimmed := honly.holds (X := X) (A := A) (J := Trimmed w₀) (w := w)
    (fun o ch w ho hJ _ => ho.exec ch hJ) hw
  exact (hnone.and htrimmed).mono (fun r w' h _ => .inr h) fun _ _ => trivial

theorem Survey.holds_noOpPath [DecidableEq δ] (hw : Trimmed w₀ w) :
    (v.noOpPath).Returns X A (Follows w₀) w := by
  refine holds_fast (Survey.only_noOpPath v.fastKind_trims) (.after fun _ w => ?_) hw
  split
  · exact Holds.pure rfl
  · refine .after fun r w => ?_
    cases r with
    | ok _ => exact Holds.pure rfl
    | error _ => exact .after fun _ _ => Holds.pure rfl

theorem Survey.holds_deletionOnlyPath [DecidableEq δ] (deleted : List RelPath) (hw : Trimmed w₀ w) :
    (v.deletionOnlyPath deleted).Returns X A (Follows w₀) w := by
  refine holds_fast (Survey.only_deletionOnlyPath v.fastKind_trims deleted) (.after fun _ w => .after fun _ w =>
    .after fun _ w => ?_) hw
  split
  · exact .after fun _ _ => Holds.pure rfl
  · refine .after fun r w => ?_
    cases r with
    | ok _ => exact Holds.pure rfl
    | error _ => exact .after fun _ _ => Holds.pure rfl

/-- What comes before a fast path. -/
theorem IndexM.Holds.beforeFast {α β : Type} {m : IndexM φ χ δ α} {f : α → IndexM φ χ δ β}
    {R : β → IndexWorld φ χ δ → Prop} (honly : m.Only IndexOp.Trims) (hw : Trimmed w₀ w)
    (h : ∀ a w, Trimmed w₀ w → (f a).Returns X A R w) :
    IndexM.Holds X A (fun _ => True) (m >>= f) R (fun _ => True) w := by
  have htrimmed := honly.holds (X := X) (A := A) (J := Trimmed w₀) (w := w)
    (fun o ch w ho hJ _ => ho.exec ch hJ) hw
  refine Holds.bind (((holds_any m).and htrimmed).mono (fun a w hx => h a w hx.2) fun _ _ => trivial)

theorem Survey.holds_index [DecidableEq δ] (hpub : v.opts.publication = true) (hw : Trimmed w₀ w) :
    (v.index X).Returns X A (Follows w₀) w := by
  have hmain : ∀ useParallel deleted (w : IndexWorld φ χ δ),
      (v.mainPath X useParallel deleted).Returns X A (Follows w₀) w :=
    fun _ _ _ => (v.holds_mainPath hpub _ _).mono (fun _ _ h hsuccess => .inl (h hsuccess))
      fun _ h => h
  have hreads : ∀ o : IndexOp φ χ δ, o.Reads → o.Trims := fun _ h => h.trims
  refine .beforeFast (.perform trivial) hw fun _ w hw => ?_
  refine .beforeFast (v.only_estimatedFilesToIndex hreads) hw fun estimated w hw => ?_
  cases hinc : v.opts.incremental with
  | false => exact .after fun _ _ => .after fun _ _ => hmain _ _ _
  | true =>
    refine .beforeFast (.pure PUnit.unit) hw fun _ w hw => ?_
    refine .beforeFast (v.only_readDeletedRelPaths hreads) hw fun deleted w hw => ?_
    split
    · split
      · exact v.holds_noOpPath hw
      · exact v.holds_deletionOnlyPath _ hw
    · exact hmain _ _ _

theorem Survey.holds_admitted [DecidableEq δ] (hpub : v.opts.publication = true) (hw : Trimmed w₀ w) :
    (v.admitted X).Returns X A (Follows w₀) w := by
  unfold Survey.admitted
  split
  · split
    · refine .after fun _ _ => .after fun p _ => Holds.pure (follows_of_ne ?_)
      cases p <;> simp [Survey.rootChangedResult]
    · exact v.holds_index hpub hw
  · split
    · refine .after fun _ _ => .after fun p _ => Holds.pure (follows_of_ne ?_)
      cases p <;> simp [Survey.rootIdentityUnknownResult]
    · exact v.holds_index hpub hw

theorem holds_indexProjectWasm [DecidableEq δ] {opts : IndexOptions φ} (hpub : opts.publication = true)
    (hw : Trimmed w₀ w) : (indexProjectWasm X opts).Returns X A (Follows w₀) w := by
  have hreads : ∀ o : IndexOp φ χ δ, o.Reads → o.Trims := fun _ h => h.trims
  have hrefused : ∀ code recovery (w : IndexWorld φ χ δ), (do
      markProjectStalePreservingGraph
      pure (refusedFor code recovery) : IndexM φ χ δ IndexResult).Returns X A (Follows w₀) w :=
    fun _ _ _ => .after fun _ _ => Holds.pure (follows_of_ne (by simp [refusedFor]))
  refine .beforeFast (.attempt (.perform trivial)) hw fun root w hw => ?_
  cases root with
  | error _ => exact hrefused _ _ _
  | ok _ =>
    refine .beforeFast (.attempt (.perform trivial)) hw fun discovery w hw => ?_
    cases discovery with
    | error _ => exact hrefused _ _ _
    | ok discovery =>
      refine .beforeFast (.query hreads _) hw fun aliasHistory w hw => ?_
      split
      · exact hrefused _ _ _
      · refine .beforeFast (.query hreads _) hw fun bootstrap w hw => ?_
        refine .beforeFast (only_existsAny hreads _) hw fun hasData w hw => ?_
        dsimp only
        split
        · exact .after fun _ _ => Holds.pure (follows_of_ne (by simp [Survey.uncertainRefusal]))
        · refine .beforeFast (only_readProjectState hreads opts) hw fun row w hw => ?_
          exact Survey.holds_admitted hpub hw

end

/-! ## A file that is deleted -/

/-- A run in which nothing fails, on a platform where publication is enabled. -/
def indexed (incremental present : Bool) (w : IndexWorld ℕ ℕ ℕ) :
    (Except IndexFault IndexResult × PUnit) × IndexWorld ℕ ℕ ℕ :=
  followed (wholeRoot incremental true 1) (fun _ _ => ⟨false, [], shown present, 2⟩) w

theorem indexed_leads (incremental present : Bool) (w : IndexWorld ℕ ℕ ℕ) :
    (indexProjectWasm plainExtractor (wholeRoot incremental true 1) ⟨⟩).Leads
      (indexMachine plainExtractor) 0 (fun _ _ _ => True) w
      (some (indexed incremental present w).1) (indexed incremental present w).2 :=
  Prog.follow_leads _ _ _ (fun _ _ => trivial) _ _

/-- A full run finds the file; an incremental run finds that it is gone. -/
def deletedWorld : IndexWorld ℕ ℕ ℕ := (indexed true false (indexed false true unindexedWorld).2).2

end Ariad
