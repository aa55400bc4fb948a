import Ariad.Indexer.Operations

/-!
# Laws of the code database

What the writes of the indexer leave alone. Those that write rows of files keep the trust columns and
the alias history (`SameTrust`); those that write trust columns keep the rows of files (`SameRows`).
-/

namespace Ariad

variable {φ χ δ : Type} {X : Extractor φ χ δ} {db db' db₁ db₂ db₃ : CodeDb φ χ δ}

namespace CodeDb

/-! ## Writes of rows -/

/-- The trust columns and the alias history are the same. -/
structure SameTrust (db db' : CodeDb φ χ δ) : Prop where
  project : db'.project = db.project
  aliasHistory : db'.aliasHistory = db.aliasHistory

namespace SameTrust

theorem refl (db : CodeDb φ χ δ) : SameTrust db db := ⟨rfl, rfl⟩

theorem trans (h₁ : SameTrust db₁ db₂) (h₂ : SameTrust db₂ db₃) : SameTrust db₁ db₃ :=
  ⟨h₂.project.trans h₁.project, h₂.aliasHistory.trans h₁.aliasHistory⟩

theorem clearProjectData : SameTrust db db.clearProjectData := ⟨rfl, rfl⟩

theorem clearCrossFileCallEdges : SameTrust db db.clearCrossFileCallEdges := ⟨rfl, rfl⟩

theorem deleteFiles (paths : List RelPath) : SameTrust db (db.deleteFiles paths) := ⟨rfl, rfl⟩

theorem upsertHash (h : FileHash φ δ) : SameTrust db (db.upsertHash h) := ⟨rfl, rfl⟩

theorem upsertHashes (root : φ) (us : List (HashUpdate δ)) : SameTrust db (db.upsertHashes root us) := by
  induction us generalizing db with
  | nil => exact .refl db
  | cons u us ih => exact (upsertHash _).trans ih

theorem writeFile (incremental : Bool) (root : φ) (u : FileUpdate χ δ) :
    SameTrust db (db.writeFile X incremental root u) := by
  cases incremental
  · exact ⟨rfl, rfl⟩
  · exact ⟨rfl, rfl⟩

theorem writeFiles (incremental : Bool) (root : φ) (us : List (FileUpdate χ δ)) :
    SameTrust db (us.foldl (CodeDb.writeFile X incremental root) db) := by
  induction us generalizing db with
  | nil => exact .refl db
  | cons u us ih => exact (writeFile incremental root u).trans ih

theorem rebuildCrossFileCallsEdges (scope : Option (List RelPath)) :
    SameTrust db (db.rebuildCrossFileCallsEdges X scope) := ⟨rfl, rfl⟩

theorem resolveCrossFile (incremental initialized : Bool) (scope : Option (List RelPath)) :
    SameTrust db (db.resolveCrossFile X incremental initialized scope).1 := by
  unfold CodeDb.resolveCrossFile
  split
  · split
    · exact clearCrossFileCallEdges
    · split
      · exact .refl db
      · split
        · exact rebuildCrossFileCallsEdges scope
        · exact .refl db
  · exact rebuildCrossFileCallsEdges none

theorem extractionTx (incremental : Bool) (root : φ) (us : List (FileUpdate χ δ))
    (hs : List (HashUpdate δ)) : SameTrust db (db.extractionTx X incremental root us hs).1 :=
  ((writeFiles incremental root us).trans (upsertHashes root hs)).trans (resolveCrossFile _ _ _)

theorem streamingTx (incremental : Bool) (root : φ) (us : List (FileUpdate χ δ))
    (hs : List (HashUpdate δ)) (initialized : Bool) (scope : Option (List RelPath)) :
    SameTrust db (db.streamingTx X incremental root us hs initialized scope).1 := by
  have hstart : SameTrust db (if incremental then db else db.clearProjectData) := by
    split
    · exact .refl db
    · exact clearProjectData
  refine .trans ?_ (resolveCrossFile _ _ _)
  split
  · exact hstart.trans (writeFiles _ _ _)
  · exact (hstart.trans (writeFiles _ _ _)).trans (upsertHashes _ _)

theorem cleanupTx (paths : List RelPath) (semanticsStale initialized : Bool) :
    SameTrust db (db.cleanupTx X paths semanticsStale initialized).1 := by
  refine (deleteFiles paths).trans ?_
  unfold CodeDb.cleanupTx
  dsimp only
  split
  · exact clearCrossFileCallEdges
  · split
    · exact rebuildCrossFileCallsEdges none
    · exact .refl _

theorem deleteTx (paths : List RelPath) (semanticsStale : Bool) :
    SameTrust db (db.deleteTx X paths semanticsStale) := by
  refine (deleteFiles paths).trans ?_
  unfold CodeDb.deleteTx
  dsimp only
  split
  · exact clearCrossFileCallEdges
  · split
    · exact rebuildCrossFileCallsEdges none
    · exact .refl _

end SameTrust

/-- The deletion-only path resolves the cross-file edges whenever it can. -/
theorem cleanupTx_resolved (paths : List RelPath) (semanticsStale initialized : Bool) :
    (db.cleanupTx X paths semanticsStale initialized).2 = (!semanticsStale && initialized) := by
  unfold cleanupTx
  dsimp only
  cases semanticsStale
  · rw [if_neg Bool.false_ne_true]
    split
    · rename_i h
      exact ((Bool.and_eq_true_iff.mp h).1).symm
    · rfl
  · rfl

/-! ## Writes of trust columns -/

/-- The rows of files and the edges between files are the same. -/
structure SameRows (db db' : CodeDb φ χ δ) : Prop where
  table : db'.table = db.table
  fileHashes : db'.fileHashes = db.fileHashes
  crossFileEdges : db'.crossFileEdges = db.crossFileEdges

namespace SameRows

theorem refl (db : CodeDb φ χ δ) : SameRows db db := ⟨rfl, rfl, rfl⟩

theorem markStale : SameRows db db.markStale := ⟨rfl, rfl, rfl⟩

theorem premark (rootPath : AbsPath) : SameRows db (db.premark rootPath) := ⟨rfl, rfl, rfl⟩

theorem updateProjectStats (rootPath : AbsPath) (stale initialized : Bool) (version : ℤ)
    (hasIndexError : Bool) (ai : Option Bool) (pv : Option ℤ) (fp : Option φ) :
    SameRows db (db.updateProjectStats rootPath stale initialized version hasIndexError ai pv fp) :=
  ⟨rfl, rfl, rfl⟩

theorem commitAliasStateAtomically [DecidableEq φ] (rootPath : AbsPath) (initialized : Bool)
    (version : ℤ) (fingerprint : φ) (runId : ℕ) (resolved : List ResolvedAlias)
    (live : List RelPath) :
    SameRows db (db.commitAliasStateAtomically rootPath initialized version fingerprint runId resolved
      live) := ⟨rfl, rfl, rfl⟩

end SameRows

end CodeDb

end Ariad
