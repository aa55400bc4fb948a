import Ariad.Indexer.CodeDbLaws
import Ariad.Indexer.Gates

/-!
# The root of the rows

A stored fingerprint says of which root the rows are. It is written by the commit of a run; the rows are
written before.

* `CodeDb.HasRoot` — some row was extracted from the root.
* `OneRoot` — all rows are of one root, and a stored fingerprint is that root's.
* `KeepsRoot` — a full run writes rows only if no other root is stored.
-/

namespace Ariad

open List Option

variable {φ χ δ α : Type} {X : Extractor φ χ δ} {db db' : CodeDb φ χ δ}

open IndexM

namespace CodeDb

/-! ## Roots -/

/-- Some row of the project was extracted from the root. -/
def HasRoot (db : CodeDb φ χ δ) (root : φ) : Prop :=
  (∃ t, ∃ rows ∈ db.table t, rows.root = root) ∨ (∃ h ∈ db.fileHashes, h.root = root) ∨
    ∃ e ∈ db.crossFileEdges, e.root = root

/-- Every row was extracted from the root. -/
def AllRows (db : CodeDb φ χ δ) (root : φ) : Prop := ∀ r, db.HasRoot r → r = root

def fingerprint (db : CodeDb φ χ δ) : Option φ := db.project.bind ProjectRow.rootFingerprint

/-- **All rows are of one root**, and if a fingerprint is stored it is that root's. -/
structure OneRoot (db : CodeDb φ χ δ) : Prop where
  unmixed : ∀ r r', db.HasRoot r → db.HasRoot r' → r = r'
  identity : ∀ root, db.fingerprint = some root → db.AllRows root

variable {us : List (FileUpdate χ δ)} {hs : List (HashUpdate δ)} {scope : Option (List RelPath)}

variable {initialized : Bool}

theorem AllRows.oneRoot {r : φ} (h : db.AllRows r)
    (hfp : db.fingerprint = none ∨ db.fingerprint = some r) : db.OneRoot where
  unmixed := fun r₁ r₂ hr₁ hr₂ => (h r₁ hr₁).trans (h r₂ hr₂).symm
  identity := by
    intro published hpublished
    rcases hfp with hfp | hfp
    · cases hfp.symm.trans hpublished
    · cases hfp.symm.trans hpublished
      exact h

/-- The write adds rows of one root at most. -/
def AddsOnly (root : φ) (db db' : CodeDb φ χ δ) : Prop := ∀ r, db'.HasRoot r → db.HasRoot r ∨ r = root

/-- The write adds no rows. -/
def AddsNone (db db' : CodeDb φ χ δ) : Prop := ∀ r, db'.HasRoot r → db.HasRoot r

theorem AddsNone.addsOnly {root : φ} (h : AddsNone db db') : AddsOnly root db db' :=
  fun r hr => .inl (h r hr)

theorem AddsNone.refl (db : CodeDb φ χ δ) : AddsNone db db := fun _ h => h

theorem AddsNone.trans {db'' : CodeDb φ χ δ} (h : AddsNone db db') (h' : AddsNone db' db'') :
    AddsNone db db'' := fun r hr => h r (h' r hr)

theorem AddsOnly.trans {db'' : CodeDb φ χ δ} {root : φ} (h : AddsOnly root db db')
    (h' : AddsOnly root db' db'') : AddsOnly root db db'' := by
  intro r hr
  rcases h' r hr with h'' | rfl
  · exact h r h''
  · exact .inr rfl

theorem AllRows.addsOnly {root : φ} (h : db.AllRows root) (hadd : AddsOnly root db db') : db'.AllRows root := by
  intro r hr
  rcases hadd r hr with hr | rfl
  · exact h r hr
  · rfl

theorem AllRows.addsNone {root : φ} (h : db.AllRows root) (hadd : AddsNone db db') :
    db'.AllRows root := h.addsOnly hadd.addsOnly

theorem SameRows.addsNone (h : SameRows db db') : AddsNone db db' := by
  intro r hr
  rwa [HasRoot, h.table, h.fileHashes, h.crossFileEdges] at hr

theorem addsNone_of_subset (htable : ∀ t, db'.table t ⊆ db.table t)
    (hhashes : db'.fileHashes ⊆ db.fileHashes) (hedges : db'.crossFileEdges ⊆ db.crossFileEdges) : AddsNone db db' := by
  rintro r (⟨t, rows, hrows, rfl⟩ | ⟨h, hh, rfl⟩ | ⟨e, he, rfl⟩)
  · exact .inl ⟨t, rows, htable t hrows, rfl⟩
  · exact .inr (.inl ⟨h, hhashes hh, rfl⟩)
  · exact .inr (.inr ⟨e, hedges he, rfl⟩)

/-! ## What the writes add -/

theorem addsNone_clearCrossFileCallEdges : AddsNone db db.clearCrossFileCallEdges :=
  addsNone_of_subset (fun _ _ h => h) (fun _ h => h) (nil_subset _)

theorem addsNone_deleteNodes (paths : List RelPath) : AddsNone db (db.deleteNodes paths) := by
  refine addsNone_of_subset (fun t r hr => ?_) (fun _ h => h) fun e he => mem_of_mem_filter he
  cases t with
  | nodes => exact mem_of_mem_filter hr
  | edges => exact mem_of_mem_filter hr
  | _ => exact hr

theorem addsNone_deleteBindings (paths : List RelPath) : AddsNone db (db.deleteBindings paths) := by
  refine addsNone_of_subset (fun t r hr => ?_) (fun _ h => h) fun _ h => h
  cases t with
  | nodes => exact hr
  | edges => exact hr
  | _ => exact mem_of_mem_filter hr

theorem addsNone_deleteFiles (paths : List RelPath) : AddsNone db (db.deleteFiles paths) := by
  have hhashes : AddsNone (db.deleteNodes paths) ((db.deleteNodes paths).deleteHashes paths) :=
    addsNone_of_subset (fun _ _ h => h) (fun _ h => mem_of_mem_filter h) fun _ h => h
  exact ((addsNone_deleteNodes paths).trans hhashes).trans (addsNone_deleteBindings paths)

/-- The resolver makes edges of rows that are there. -/
theorem addsNone_rebuild (scope : Option (List RelPath)) : AddsNone db (db.rebuildCrossFileCallsEdges X scope) := by
  rintro r (h | h | ⟨e, he, rfl⟩)
  · exact .inl h
  · exact .inr (.inl h)
  · rcases X.rebuild_root scope db.table db.crossFileEdges e he with h | ⟨t, rows, hrows, hroot⟩
    · exact .inr (.inr ⟨e, h, rfl⟩)
    · exact .inl ⟨t, rows, hrows, hroot⟩

theorem addsNone_resolveCrossFile (incremental initialized : Bool) (scope : Option (List RelPath)) :
    AddsNone db (db.resolveCrossFile X incremental initialized scope).1 := by
  unfold resolveCrossFile
  split
  · split
    · exact addsNone_clearCrossFileCallEdges
    · split
      · exact .refl db
      · split
        · exact addsNone_rebuild scope
        · exact .refl db
  · exact addsNone_rebuild none

theorem addsOnly_upsertHash (h : FileHash φ δ) : AddsOnly h.root db (db.upsertHash h) := by
  rintro r (hr | ⟨h', hh', rfl⟩ | hr)
  · exact .inl (.inl hr)
  · rcases mem_append.mp hh' with hh' | hh'
    · exact .inl (.inr (.inl ⟨h', mem_of_mem_filter hh', rfl⟩))
    · rw [mem_singleton.mp hh']
      exact .inr rfl
  · exact .inl (.inr (.inr hr))

theorem addsOnly_upsertHashes (root : φ) (us : List (HashUpdate δ)) : AddsOnly root db (db.upsertHashes root us) := by
  induction us generalizing db with
  | nil => exact (AddsNone.refl db).addsOnly
  | cons u us ih => exact (addsOnly_upsertHash (u.row root)).trans ih

theorem addsOnly_writeFile (incremental : Bool) (root : φ) (u : FileUpdate χ δ) :
    AddsOnly root db (db.writeFile X incremental root u) := by
  have hold : AddsNone db
      (if incremental then (db.deleteNodes [u.path]).deleteBindings [u.path] else db) := by
    split
    · exact (addsNone_deleteNodes _).trans (addsNone_deleteBindings _)
    · exact .refl db
  refine hold.addsOnly.trans (.trans ?_ (addsOnly_upsertHash (u.row root)))
  rintro r (⟨t, rows, hrows, rfl⟩ | hr | hr)
  · rcases mem_append.mp hrows with hrows | hrows
    · exact .inl (.inl ⟨t, rows, hrows, rfl⟩)
    · split at hrows
      · rw [mem_singleton.mp hrows]
        exact .inr rfl
      · cases hrows
  · exact .inl (.inr (.inl hr))
  · exact .inl (.inr (.inr hr))

theorem addsOnly_writeFiles (incremental : Bool) (root : φ) (us : List (FileUpdate χ δ)) :
    AddsOnly root db (us.foldl (writeFile X incremental root) db) := by
  induction us generalizing db with
  | nil => exact (AddsNone.refl db).addsOnly
  | cons u us ih => exact (addsOnly_writeFile incremental root u).trans ih

theorem addsOnly_extractionTx (incremental : Bool) (root : φ) (us : List (FileUpdate χ δ))
    (hs : List (HashUpdate δ)) : AddsOnly root db (db.extractionTx X incremental root us hs).1 :=
  ((addsOnly_writeFiles incremental root us).trans (addsOnly_upsertHashes root hs)).trans
    (addsNone_resolveCrossFile _ _ _).addsOnly

/-- The transaction of the workers adds to what it started from. -/
theorem addsOnly_streamingTx (incremental : Bool) (root : φ) (us : List (FileUpdate χ δ))
    (hs : List (HashUpdate δ)) (initialized : Bool) (scope : Option (List RelPath)) :
    AddsOnly root (if incremental then db else db.clearProjectData)
      (db.streamingTx X incremental root us hs initialized scope).1 := by
  have hhashes : ∀ db : CodeDb φ χ δ,
      AddsOnly root db (if us = [] then db else db.upsertHashes root hs) := by
    intro db
    split
    · exact (AddsNone.refl db).addsOnly
    · exact addsOnly_upsertHashes root hs
  exact (addsOnly_writeFiles incremental root us).trans
    ((hhashes _).trans (addsNone_resolveCrossFile _ _ _).addsOnly)

theorem addsNone_cleanupTx (paths : List RelPath) (semanticsStale initialized : Bool) :
    AddsNone db (db.cleanupTx X paths semanticsStale initialized).1 := by
  refine (addsNone_deleteFiles paths).trans ?_
  unfold cleanupTx
  dsimp only
  split
  · exact addsNone_clearCrossFileCallEdges
  · split
    · exact addsNone_rebuild none
    · exact .refl _

theorem addsNone_deleteTx (paths : List RelPath) (semanticsStale : Bool) :
    AddsNone db (db.deleteTx X paths semanticsStale) := by
  refine (addsNone_deleteFiles paths).trans ?_
  unfold deleteTx
  dsimp only
  split
  · exact addsNone_clearCrossFileCallEdges
  · split
    · exact addsNone_rebuild none
    · exact .refl _

theorem no_root_clearProjectData (root : φ) : ¬db.clearProjectData.HasRoot root := by
  rintro (⟨t, rows, hrows, -⟩ | ⟨h, hh, -⟩ | ⟨e, he, -⟩)
  · cases hrows
  · cases hh
  · cases he

theorem no_root_of_empty (h : db.hasGraphData = false) (root : φ) : ¬db.HasRoot root := by
  have hempty : ∀ t ∈ structuralTables, db.existsRows t = false := by
    simpa [hasGraphData] using h
  have htable : ∀ t, db.table t = [] := by
    intro t
    have ht := hempty (.rows t) (by cases t <;> simp [structuralTables])
    cases t <;> simp [existsRows] at ht
    case edges => exact ht.1
    all_goals exact ht
  rintro (⟨t, rows, hrows, -⟩ | ⟨h, hh, -⟩ | ⟨e, he, -⟩)
  · rw [htable t] at hrows
    cases hrows
  · have hhashes := hempty .fileHashes (by simp [structuralTables])
    simp only [existsRows, Bool.not_eq_false', List.isEmpty_iff] at hhashes
    rw [hhashes] at hh
    cases hh
  · have hedges := hempty (.rows .edges) (by simp [structuralTables])
    simp only [existsRows, Bool.or_eq_false_iff, Bool.not_eq_false', List.isEmpty_iff] at hedges
    rw [hedges.2] at he
    cases he

/-! ## What the writes do to the fingerprint -/

theorem fingerprint_markStale : db.markStale.fingerprint = db.fingerprint := by
  rw [fingerprint, fingerprint, markStale]
  cases db.project <;> rfl

theorem fingerprint_premark (rootPath : AbsPath) : (db.premark rootPath).fingerprint = db.fingerprint := by
  rw [fingerprint, fingerprint, premark]
  cases db.project <;> rfl

theorem fingerprint_updateProjectStats (rootPath : AbsPath) (stale initialized : Bool) (version : ℤ)
    (hasIndexError : Bool) (ai : Option Bool) (pv : Option ℤ) :
    (db.updateProjectStats rootPath stale initialized version hasIndexError ai pv none).fingerprint =
      db.fingerprint := by
  simp only [fingerprint, updateProjectStats]
  cases db.project with
  | none => simp
  | some row => simp

theorem SameTrust.fingerprint (h : SameTrust db db') : db'.fingerprint = db.fingerprint := by
  rw [CodeDb.fingerprint, CodeDb.fingerprint, h.project]

end CodeDb

/-! ## One step of a run -/

/-- The operation is one of a run of the root. -/
def IndexOp.OfRoot (incremental : Bool) (root : φ) : IndexOp φ χ δ → Prop
  | .write (.extractionTx i r _ _) => i = incremental ∧ r = root
  | .write (.streamingTx i r _ _ _ _) => i = incremental ∧ r = root
  | .write (.metadataTx r _) => incremental = true ∧ r = root
  | .write (.commitAliasStateAtomically _ _ _ r _ _ _) => r = root
  | _ => True

/-- **A full run writes rows only where no other root is stored.** -/
def KeepsRoot : IndexOp φ χ δ → CodeDb φ χ δ → Prop
  | .write (.extractionTx false root us hs), db =>
    us = [] ∧ hs = [] ∨ db.fingerprint = none ∨ db.fingerprint = some root
  | .write (.streamingTx false root us _ _ _), db =>
    us = [] ∨ db.fingerprint = none ∨ db.fingerprint = some root
  | _, _ => True

instance [DecidableEq φ] : (o : IndexOp φ χ δ) → (db : CodeDb φ χ δ) → Decidable (KeepsRoot o db)
  | .write (.extractionTx false root us hs), db => inferInstanceAs (Decidable
      (us = [] ∧ hs = [] ∨ db.fingerprint = none ∨ db.fingerprint = some root))
  | .write (.streamingTx false root us _ _ _), db => inferInstanceAs (Decidable
      (us = [] ∨ db.fingerprint = none ∨ db.fingerprint = some root))
  | .write (.extractionTx true _ _ _), _ => isTrue trivial
  | .write (.streamingTx true _ _ _ _ _), _ => isTrue trivial
  | .write (.markStale _), _ => isTrue trivial
  | .write (.markTx _), _ => isTrue trivial
  | .write (.premark _), _ => isTrue trivial
  | .write .clearProjectData, _ => isTrue trivial
  | .write (.noOpTx _ _ _ _ _ _), _ => isTrue trivial
  | .write (.cleanupTx _ _ _), _ => isTrue trivial
  | .write (.metadataTx _ _), _ => isTrue trivial
  | .write (.deleteTx _ _), _ => isTrue trivial
  | .write (.updateProjectStats _ _ _ _ _), _ => isTrue trivial
  | .write (.commitAliasStateAtomically _ _ _ _ _ _ _), _ => isTrue trivial
  | .assertDiscoveryRoot _, _ => isTrue trivial
  | .discoverSourceFiles _ _, _ => isTrue trivial
  | .statFile _, _ => isTrue trivial
  | .readFile _, _ => isTrue trivial
  | .read _, _ => isTrue trivial
  | .publishGenerationSnapshot, _ => isTrue trivial

/-- What a run that is allowed to write keeps: the rows are of its root. -/
structure Own (incremental : Bool) (root : φ) (db : CodeDb φ χ δ) : Prop where
  rows : db.AllRows root
  identity : ∀ r, db.fingerprint = some r → db.AllRows r
  accepted : incremental = true → db.fingerprint = none ∨ db.fingerprint = some root

namespace Own

variable {incremental : Bool} {root : φ}

theorem oneRoot (h : Own incremental root db) : db.OneRoot where
  unmixed := fun r r' hr hr' => (h.rows r hr).trans (h.rows r' hr').symm
  identity := h.identity

theorem addsNone (h : Own incremental root db) (hadd : CodeDb.AddsNone db db')
    (hfp : db'.fingerprint = db.fingerprint) : Own incremental root db' where
  rows := h.rows.addsNone hadd
  identity := fun r hr => (h.identity r (hfp.symm.trans hr)).addsNone hadd
  accepted := fun hinc => by
    rw [hfp]
    exact h.accepted hinc

/-- Rows of the root are written, and no other root is stored. -/
theorem of_rows (hrows : db'.AllRows root)
    (hfp : db'.fingerprint = none ∨ db'.fingerprint = some root) : Own incremental root db' :=
  ⟨hrows, (hrows.oneRoot hfp).identity, fun _ => hfp⟩

theorem clear (db : CodeDb φ χ δ) : Own false root db.clearProjectData where
  rows := fun r hr => absurd hr (CodeDb.no_root_clearProjectData r)
  identity := fun _ _ r hr => absurd hr (CodeDb.no_root_clearProjectData r)
  accepted := fun h => nomatch h

theorem extractionTx (h : Own incremental root db)
    (hkeeps : KeepsRoot (.write (.extractionTx incremental root us hs)) db) :
    Own incremental root (db.extractionTx X incremental root us hs).1 := by
  have htrust : (db.extractionTx X incremental root us hs).1.fingerprint = db.fingerprint :=
    (CodeDb.SameTrust.extractionTx _ _ _ _).fingerprint
  have hrows := h.rows.addsOnly (CodeDb.addsOnly_extractionTx (X := X) incremental root us hs)
  cases incremental with
  | true =>
    have hfp := h.accepted rfl
    rw [← htrust] at hfp
    exact of_rows hrows hfp
  | false =>
    rcases hkeeps with ⟨rfl, rfl⟩ | hfp
    · exact h.addsNone (CodeDb.addsNone_resolveCrossFile _ _ _) htrust
    · rw [← htrust] at hfp
      exact of_rows hrows hfp

/-- The workers of a full run start from nothing, so that no rows of another root are left. -/
theorem streamingTx_full (hkeeps : KeepsRoot (.write (.streamingTx false root us hs initialized scope)) db) :
    Own false root (db.streamingTx X false root us hs initialized scope).1 := by
  have htrust : (db.streamingTx X false root us hs initialized scope).1.fingerprint =
      db.fingerprint := (CodeDb.SameTrust.streamingTx _ _ _ _ _ _).fingerprint
  rcases hkeeps with rfl | hfp
  · refine (clear db).addsNone (CodeDb.addsNone_resolveCrossFile _ _ _) (htrust.trans ?_)
    exact CodeDb.SameTrust.clearProjectData.fingerprint.symm
  · rw [← htrust] at hfp
    exact of_rows ((clear db : Own false root _).rows.addsOnly
      (CodeDb.addsOnly_streamingTx (X := X) false root us hs initialized scope)) hfp

theorem streamingTx (h : Own incremental root db)
    (hkeeps : KeepsRoot (.write (.streamingTx incremental root us hs initialized scope)) db) :
    Own incremental root (db.streamingTx X incremental root us hs initialized scope).1 := by
  cases incremental with
  | false => exact streamingTx_full hkeeps
  | true =>
    have hfp := h.accepted rfl
    rw [← (CodeDb.SameTrust.streamingTx (X := X) true root us hs initialized scope).fingerprint] at hfp
    exact of_rows (h.rows.addsOnly
      (CodeDb.addsOnly_streamingTx (X := X) true root us hs initialized scope)) hfp

theorem metadataTx (h : Own true root db) : Own true root (db.upsertHashes root hs) := by
  have hfp := h.accepted rfl
  rw [← (CodeDb.SameTrust.upsertHashes root hs).fingerprint] at hfp
  exact of_rows (h.rows.addsOnly (CodeDb.addsOnly_upsertHashes root hs)) hfp

theorem noOpTx (h : Own incremental root db) (semanticsStale noOpStale : Bool) (rootPath : AbsPath)
    (initialized : Bool) (version : ℤ) (hasIndexError : Bool) : Own incremental root
      (db.noOpTx semanticsStale noOpStale rootPath initialized version hasIndexError) := by
  have hclear : ∀ b : Bool, Own incremental root (if b then db.clearCrossFileCallEdges else db) := by
    intro b
    split
    · exact h.addsNone CodeDb.addsNone_clearCrossFileCallEdges rfl
    · exact h
  unfold CodeDb.noOpTx
  dsimp only
  split
  · exact (hclear _).addsNone (CodeDb.SameRows.updateProjectStats _ _ _ _ _ _ _ _).addsNone
      (CodeDb.fingerprint_updateProjectStats _ _ _ _ _ _ _)
  · exact hclear _

theorem markTx (h : Own incremental root db) (version : ℤ) : Own incremental root (db.markTx version) := by
  have hmark : Own incremental root db.markStale :=
    h.addsNone CodeDb.SameRows.markStale.addsNone CodeDb.fingerprint_markStale
  unfold CodeDb.markTx
  split
  · exact hmark.addsNone CodeDb.addsNone_clearCrossFileCallEdges rfl
  · exact hmark

end Own

/-! ## Rows that are written -/

namespace CodeDb

/-- There is a row of `file_hashes` of the root. -/
def HasHash (db : CodeDb φ χ δ) (root : φ) : Prop := ∃ h ∈ db.fileHashes, h.root = root

theorem hasHash_upsertHashes {root : φ} {us : List (HashUpdate δ)} (h : us ≠ [] ∨ db.HasHash root) :
    (db.upsertHashes root us).HasHash root := by
  rcases eq_nil_or_concat us with rfl | ⟨us, u, rfl⟩
  · exact h.resolve_left fun h => h rfl
  · rw [upsertHashes, concat_eq_append, foldl_append]
    exact ⟨u.row root, mem_append_right _ (mem_singleton_self _), rfl⟩

theorem hasHash_writeFiles {incremental : Bool} {root : φ} (h : us ≠ []) :
    (us.foldl (writeFile X incremental root) db).HasHash root := by
  rcases eq_nil_or_concat us with rfl | ⟨us, u, rfl⟩
  · exact absurd rfl h
  · rw [concat_eq_append, foldl_append]
    exact ⟨u.row root, mem_append_right _ (mem_singleton_self _), rfl⟩

theorem resolveCrossFile_fileHashes (incremental initialized : Bool) (scope : Option (List RelPath)) :
    (db.resolveCrossFile X incremental initialized scope).1.fileHashes = db.fileHashes := by
  unfold resolveCrossFile
  split
  · split
    · rfl
    · split
      · rfl
      · split <;> rfl
  · rfl

theorem not_oneRoot_of_hasHash {r published : φ} (hhash : db.HasHash r)
    (hfp : db.fingerprint = some published) (hne : published ≠ r) : ¬db.OneRoot := by
  intro h
  exact hne (h.identity published hfp r (.inr (.inl hhash))).symm

end CodeDb

/-- The same for the workers. -/
theorem streamingTx_oneRoot_iff {root : φ} : (db.streamingTx X false root us hs initialized scope).1.OneRoot ↔
      KeepsRoot (.write (.streamingTx false root us hs initialized scope)) db := by
  refine ⟨fun hone => ?_, fun hkeeps => (Own.streamingTx_full hkeeps).oneRoot⟩
  have htrust : (db.streamingTx X false root us hs initialized scope).1.fingerprint = db.fingerprint :=
    (CodeDb.SameTrust.streamingTx _ _ _ _ _ _).fingerprint
  by_contra hnot
  rw [KeepsRoot, not_or, not_or] at hnot
  obtain ⟨hus, hnone, hother⟩ := hnot
  obtain ⟨published, hpublished⟩ := ne_none_iff_exists'.mp hnone
  refine CodeDb.not_oneRoot_of_hasHash (r := root) ?_ (htrust.trans hpublished) ?_ hone
  · rw [CodeDb.HasHash, CodeDb.streamingTx, CodeDb.resolveCrossFile_fileHashes, if_neg hus]
    exact CodeDb.hasHash_upsertHashes (.inr (CodeDb.hasHash_writeFiles hus))
  · rintro rfl
    exact hother hpublished

section

variable [DecidableEq φ]

/-- **The step lemma.** -/
theorem IndexOp.OfRoot.exec {incremental : Bool} {root : φ} {o : IndexOp φ χ δ}
    (ho : o.OfRoot incremental root) (ch : IndexChoice χ) {w : IndexWorld φ χ δ}
    (hkeeps : KeepsRoot o w.db) (h : Own incremental root w.db) : Own incremental root (o.exec X ch w).2.db := by
  by_cases hreads : o.Reads
  · rw [(hreads.exec ch w).1]
    exact h
  unfold IndexOp.exec
  split
  · exact h
  · cases o with
    | write u =>
      cases u with
      | markStale guard =>
        simp only [IndexOp.run, DbWrite.run]
        split
        · exact h
        · split
          · exact h.addsNone CodeDb.SameRows.markStale.addsNone CodeDb.fingerprint_markStale
          · exact h
      | markTx version => exact h.markTx version
      | premark rootPath =>
        exact h.addsNone (CodeDb.SameRows.premark rootPath).addsNone (CodeDb.fingerprint_premark _)
      | clearProjectData =>
        exact h.addsNone
          (fun r hr => absurd hr (CodeDb.no_root_clearProjectData r)) rfl
      | noOpTx => exact h.noOpTx _ _ _ _ _ _
      | cleanupTx =>
        exact h.addsNone (CodeDb.addsNone_cleanupTx _ _ _)
          (CodeDb.SameTrust.cleanupTx _ _ _).fingerprint
      | extractionTx =>
        obtain ⟨rfl, rfl⟩ := ho
        exact h.extractionTx hkeeps
      | metadataTx =>
        obtain ⟨rfl, rfl⟩ := ho
        exact h.metadataTx
      | streamingTx =>
        obtain ⟨rfl, rfl⟩ := ho
        exact h.streamingTx hkeeps
      | deleteTx =>
        exact h.addsNone (CodeDb.addsNone_deleteTx _ _)
          (CodeDb.SameTrust.deleteTx _ _).fingerprint
      | updateProjectStats =>
        exact h.addsNone
          (CodeDb.SameRows.updateProjectStats _ _ _ _ _ _ _ _).addsNone
          (CodeDb.fingerprint_updateProjectStats _ _ _ _ _ _ _)
      | commitAliasStateAtomically =>
        obtain rfl := ho
        exact .of_rows (h.rows.addsNone
          (CodeDb.SameRows.commitAliasStateAtomically _ _ _ _ _ _ _).addsNone) (.inr rfl)
    | publishGenerationSnapshot => exact h
    | _ => exact absurd trivial hreads

/-! ## One run -/

variable {v : Survey φ} {w : IndexWorld φ χ δ}

/-- A run is allowed what keeps the root. -/
abbrev rootKept (o : IndexOp φ χ δ) (_ : IndexChoice χ) (w : IndexWorld φ χ δ) : Prop :=
  KeepsRoot o w.db

theorem IndexM.Only.holds_own {m : IndexM φ χ δ α} {incremental : Bool} {root : φ}
    (h : m.Only (IndexOp.OfRoot incremental root)) (hw : Own incremental root w.db) :
    m.Holds X rootKept (fun w => w.db.OneRoot) (fun _ w => Own incremental root w.db)
      (fun w => Own incremental root w.db) w :=
  Prog.Throughout.weaken (h.holds (A := rootKept) (J := fun w => Own incremental root w.db)
    (fun _ ch _ ho hJ hA => ho.exec ch hA hJ) hw) fun _ h => h.oneRoot

/-- The operation touches the row of the project at most, and not the fingerprint. -/
def IndexOp.Marks : IndexOp φ χ δ → Prop
  | .write (.markStale _) => True
  | .write (.markTx _) => True
  | .write (.premark _) => True
  | .write _ => False
  | .publishGenerationSnapshot => False
  | _ => True

omit [DecidableEq φ] in
theorem IndexOp.Reads.marks {o : IndexOp φ χ δ} (h : o.Reads) : o.Marks := by
  cases o with
  | write u => exact h.elim
  | publishGenerationSnapshot => exact h.elim
  | _ => trivial

omit [DecidableEq φ] in
theorem CodeDb.OneRoot.addsNone (h : db.OneRoot) (hadd : CodeDb.AddsNone db db')
    (hfp : db'.fingerprint = db.fingerprint) : db'.OneRoot where
  unmixed := fun r r' hr hr' => h.unmixed r r' (hadd r hr) (hadd r' hr')
  identity := fun root hroot => (h.identity root (hfp.symm.trans hroot)).addsNone hadd

theorem IndexOp.Marks.exec {o : IndexOp φ χ δ} (ho : o.Marks) (ch : IndexChoice χ)
    (h : w.db.OneRoot) : (o.exec X ch w).2.db.OneRoot := by
  by_cases hreads : o.Reads
  · rw [(hreads.exec ch w).1]
    exact h
  have hmark : w.db.markStale.OneRoot :=
    h.addsNone CodeDb.SameRows.markStale.addsNone CodeDb.fingerprint_markStale
  unfold IndexOp.exec
  split
  · exact h
  · cases o with
    | write u =>
      cases u with
      | markStale guard =>
        simp only [IndexOp.run, DbWrite.run]
        split
        · exact h
        · split
          · exact hmark
          · exact h
      | markTx version =>
        simp only [IndexOp.run, DbWrite.run, CodeDb.markTx]
        split
        · exact hmark.addsNone CodeDb.addsNone_clearCrossFileCallEdges rfl
        · exact hmark
      | premark rootPath =>
        exact h.addsNone (CodeDb.SameRows.premark rootPath).addsNone (CodeDb.fingerprint_premark _)
      | _ => exact ho.elim
    | publishGenerationSnapshot => exact ho.elim
    | _ => exact absurd trivial hreads

/-- The procedure keeps the invariant. -/
abbrev IndexM.KeepsRoot (X : Extractor φ χ δ) (m : IndexM φ χ δ α) (w : IndexWorld φ χ δ) : Prop :=
  m.Holds X rootKept (fun w => w.db.OneRoot) (fun _ w => w.db.OneRoot) (fun w => w.db.OneRoot) w

theorem IndexM.Only.holds_marks {m : IndexM φ χ δ α} (h : m.Only IndexOp.Marks) (hw : w.db.OneRoot) :
    m.KeepsRoot X w :=
  h.holds (fun _ ch _ ho hJ _ => ho.exec ch hJ) hw

omit [DecidableEq φ] in
theorem Survey.runKind_ofRoot : v.RunKind
    (IndexOp.OfRoot (χ := χ) (δ := δ) v.opts.incremental v.opts.root.fingerprint) where
  reads := by
    intro o ho
    cases o with
    | write u => exact ho.elim
    | _ => trivial
  markStale := fun _ => trivial
  premark := trivial
  noOpTx := fun _ _ _ _ _ => trivial
  cleanupTx := fun _ _ _ => trivial
  updateProjectStats := fun _ _ _ => trivial
  commit := fun _ _ => rfl
  clearProjectData := trivial
  extractionTx := fun _ _ => ⟨rfl, rfl⟩
  streamingTx := fun _ _ _ _ => ⟨rfl, rfl⟩
  deleteTx := fun _ _ => trivial
  publish := trivial

/-- **An incremental run** that was not refused finds rows of its own root. -/
theorem own_of_accepted {opts : IndexOptions φ} {discovery : Discovery}
    (hinc : opts.incremental = true) (h : db.OneRoot) (hchanged : (survey opts discovery db).rootChanged = false)
    (hknown : (survey opts discovery db).publishedRootFingerprint = none →
      (survey opts discovery db).rootIdentityUnknown = false) : Own true opts.root.fingerprint db := by
  have hpublished : (survey opts discovery db).publishedRootFingerprint = db.fingerprint := by
    simp [Survey.publishedRootFingerprint, survey, hinc, CodeDb.fingerprint]
  cases hfp : db.fingerprint with
  | some published =>
    simp only [Survey.rootChanged, hpublished, hfp, isSome_some, Bool.and_true] at hchanged
    have hsame : published = opts.root.fingerprint := by
      simpa [survey, hinc] using hchanged
    rw [hsame] at hfp
    exact .of_rows (h.identity _ hfp) (.inr hfp)
  | none =>
    rw [hfp] at hpublished
    have hunknown := hknown hpublished
    simp only [Survey.rootIdentityUnknown, hpublished, isNone_none, Bool.and_true] at hunknown
    have hdata : db.hasGraphData = false := by
      simpa [survey, hinc] using hunknown
    refine .of_rows (fun r hr => absurd hr (db.no_root_of_empty hdata r)) (.inl hfp)

variable [DecidableEq δ]

/-- The workers of a full run get every file. -/
theorem Survey.holds_indexParallel_full (hfull : v.opts.incremental = false)
    (hfiles : v.discovery.files ≠ []) (hw : w.db.OneRoot) : (v.indexParallel X).Holds X rootKept (fun w => w.db.OneRoot)
      (fun _ w => Own false v.opts.root.fingerprint w.db) (fun w => w.db.OneRoot) w := by
  have hskip : ∀ f, v.skipPass X ([] : List (FileHash φ δ)) f = Pure.pure (.index f none) := by
    intro f
    simp [Survey.skipPass, hfull]
  have hindex : ∀ fs : List AbsPath, SkipOutcome.toIndex (fs.map fun f =>
      (.index f none : SkipOutcome δ)) = fs.map fun f => (f, none) := by
    intro fs
    rw [SkipOutcome.toIndex, filterMap_map]
    exact congrFun (filterMap_eq_map (f := fun f : AbsPath => (f, none))) fs
  unfold Survey.indexParallel
  rw [show v.bulkMeta = (Pure.pure [] : IndexM φ χ δ _) by simp [Survey.bulkMeta, hfull]]
  refine Holds.bind (Holds.pure ?_)
  rw [forEach_pure hskip]
  refine Holds.bind (Holds.pure ?_)
  rw [hindex, if_neg (by simpa using hfiles)]
  rw [show scopedFiles v.opts.incremental _ = (Pure.pure none : IndexM φ χ δ _) by
    simp [scopedFiles, hfull]]
  refine Holds.bind (Holds.pure ?_)
  have hreads : ∀ o : IndexOp φ χ δ, o.Reads → o.Marks := fun _ h => h.marks
  refine Holds.bind ((IndexM.Only.query hreads _).holds_marks hw |>.mono ?_ fun _ h => h)
  intro row w hw
  refine Holds.bind ((IndexM.Only.forEach _ fun x => v.only_workerFile hreads X x).holds_marks hw
    |>.mono ?_ fun _ h => h)
  intro rs w hw
  refine Holds.bind (Holds.execute hw (fun _ _ _ => hw) fun ch hA _ => Holds.pure ?_)
  rw [hfull] at hA ⊢
  exact Own.streamingTx_full hA

/-- **A full run** keeps the invariant: the old rows are gone before rows of its root are written. -/
theorem Survey.oneRoot_index_full (hfull : v.opts.incremental = false) (hw : w.db.OneRoot) :
    (v.index X).KeepsRoot X w := by
  have hkind := v.runKind_ofRoot (χ := χ) (δ := δ)
  rw [hfull] at hkind
  have hextracted : ∀ deleted result (w : IndexWorld φ χ δ), Own false v.opts.root.fingerprint w.db →
      IndexM.Holds X rootKept (fun w => w.db.OneRoot)
        (tryCatch (v.afterExtraction deleted result) fun _ => v.crashed .DB_ERROR)
        (fun _ w => w.db.OneRoot) (fun w => w.db.OneRoot) w :=
    fun deleted r w hw => ((only_extracted hkind.toEndKind deleted r).holds_own hw).mono
      (fun _ _ h => h.oneRoot) fun _ h => h.oneRoot
  have hcrashed : ∀ w : IndexWorld φ χ δ, w.db.OneRoot →
      IndexM.Holds X rootKept (fun w => w.db.OneRoot) (v.crashed .EXTRACTION_CRASH)
        (fun _ w => w.db.OneRoot) (fun w => w.db.OneRoot) w :=
    fun w hw => (only_crashed (fun _ => trivial) _ : (v.crashed _).Only IndexOp.Marks).holds_marks hw
  have hpremark : (execute (.premark v.rootPath) : IndexM φ χ δ Bool).Only IndexOp.Marks :=
    .perform trivial
  refine Holds.bind ((hpremark.holds_marks hw).mono ?_ fun _ h => h)
  intro _ w hw
  rw [show v.estimatedFilesToIndex = (Pure.pure v.discovery.files.length : IndexM φ χ δ ℕ) by
    simp [Survey.estimatedFilesToIndex, hfull]]
  refine Holds.bind (Holds.pure ?_)
  rw [show v.readDeletedRelPaths = (Pure.pure [] : IndexM φ χ δ _) by
    simp [Survey.readDeletedRelPaths, hfull]]
  by_cases hparallel : 1 < v.opts.workers ∧ 20 < v.discovery.files.length
  · -- the workers' transaction clears the project itself
    simp only [hparallel, hfull, and_self, decide_true, Bool.not_true, Bool.and_false, executeIf,
      Bool.false_eq_true, if_false, Bool.false_and]
    refine Holds.bind (Holds.pure (Holds.bind (Holds.pure ?_)))
    have hfiles : v.discovery.files ≠ [] := by
      intro h
      rw [h] at hparallel
      exact absurd hparallel.2 (by simp)
    refine Holds.bind (Holds.attempt ((v.holds_indexParallel_full hfull hfiles hw).mono ?_ ?_))
    · exact fun result w hw => hextracted _ result w hw
    · exact fun w hw => hcrashed w hw
  · simp only [hparallel, hfull, decide_false, Bool.not_false, Bool.and_self, executeIf, if_true,
      Bool.false_eq_true, if_false, Bool.false_and]
    refine Holds.bind (Holds.bind (Holds.execute hw (fun _ _ _ => hw) fun _ _ _ => Holds.pure ?_))
    refine Holds.bind (Holds.pure ?_)
    have hclear : Own false v.opts.root.fingerprint w.db.clearProjectData := Own.clear w.db
    refine Holds.bind (Holds.attempt ((Only.holds_own ?_ hclear).mono ?_ ?_))
    · have hextract := only_extractFromFilesWasm v.runKind_ofRoot X
      rwa [hfull] at hextract
    · exact fun result w hw => hextracted _ result w hw
    · exact fun w hw => hcrashed w hw.oneRoot

theorem Survey.oneRoot_admitted {opts : IndexOptions φ} {discovery : Discovery} {w₀ : IndexWorld φ χ δ}
    (hw₀ : SameDb w₀ w) (h : w₀.db.OneRoot) :
    ((survey opts discovery w₀.db).admitted X).KeepsRoot X w := by
  have hw : w.db.OneRoot := by
    rw [hw₀.db]
    exact h
  have hreads : ∀ o : IndexOp φ χ δ, o.Reads → o.Marks := fun _ h => h.marks
  have hindex : (survey opts discovery w₀.db).rootChanged = false →
      ((survey opts discovery w₀.db).publishedRootFingerprint = none →
        (survey opts discovery w₀.db).rootIdentityUnknown = false) →
      ((survey opts discovery w₀.db).index X).KeepsRoot X w := by
    intro hchanged hknown
    cases hinc : opts.incremental with
    | false => exact (survey opts discovery w₀.db).oneRoot_index_full hinc hw
    | true =>
      have hown := own_of_accepted hinc h hchanged hknown
      rw [← hw₀.db] at hown
      have hkind := (survey opts discovery w₀.db).runKind_ofRoot (χ := χ) (δ := δ)
      rw [show (survey opts discovery w₀.db).opts.incremental = true from hinc] at hkind
      exact ((only_index hkind (fun _ => ⟨rfl, rfl⟩) X).holds_own hown).mono
        (fun _ _ h => h.oneRoot) fun _ h => h.oneRoot
  unfold Survey.admitted
  split
  · rename_i published hpublished
    split
    · exact ((survey opts discovery w₀.db).only_rootChangedRefusal hreads (fun _ => trivial)
        published).holds_marks hw
    · rename_i hchanged
      exact hindex (Bool.eq_false_iff.mpr hchanged) fun hnone => by cases hpublished.symm.trans hnone
  · rename_i hpublished
    split
    · exact ((survey opts discovery w₀.db).only_rootIdentityUnknownRefusal hreads
        fun _ => trivial).holds_marks hw
    · rename_i hknown
      refine hindex ?_ fun _ => Bool.eq_false_iff.mpr hknown
      simp [Survey.rootChanged, hpublished]

theorem oneRoot_indexProjectWasm (opts : IndexOptions φ) (hw : w.db.OneRoot) :
    (indexProjectWasm X opts).KeepsRoot X w := by
  have hsame : ∀ w' : IndexWorld φ χ δ, SameDb w w' → w'.db.OneRoot := by
    intro w' hw'
    rw [hw'.db]
    exact hw
  refine holds_indexProjectWasm_of hsame hsame (fun r w' hw' _ => ?_)
    fun discovery w' hw' _ _ => Survey.oneRoot_admitted hw' hw
  exact IndexM.Only.holds_marks (.bind (only_markProjectStalePreservingGraph (fun _ h => h.marks)
    fun _ => trivial) fun _ => .pure _) (hsame w' hw')

/-! ## Run after run -/

/-- **Root identity over all runs**: as long as no full run writes rows where another root is stored, in
every state, between runs and wherever a run is killed, the rows are of one root, and a stored
fingerprint is that root's. -/
theorem rootIdentity {w₀ : IndexWorld φ χ δ}
    {runs : List (IndexOptions φ × Option (Except IndexFault IndexResult × PUnit))} (h₀ : w₀.db.OneRoot)
    (h : Sequence (indexMachine X) 0 (fun opts => indexProjectWasm X opts ⟨⟩) (fun _ => rootKept)
      SameDb w₀ runs w) : w.db.OneRoot := by
  refine h.invariant (I := fun w => w.db.OneRoot) h₀ (fun opts w hw => ?_) (fun w w' hw hchange => ?_)
    fun _ hw => hw
  · refine Prog.Throughout.mono (oneRoot_indexProjectWasm opts hw) ?_
    rintro ⟨e | r, l⟩ w' hw'
    · exact hw'
    · exact hw'
  · rw [hchange.db]
    exact hw

end

/-! ## Two roots -/

/-- A full run of a root, whose final commit may be refused. -/
def fullRun (fingerprint : ℕ) (refused : Bool) (w : IndexWorld ℕ ℕ ℕ) :
    (Except IndexFault IndexResult × PUnit) × IndexWorld ℕ ℕ ℕ :=
  followed (wholeRoot false false fingerprint) (fun o _ =>
    ⟨match o with
      | .write (.commitAliasStateAtomically _ _ _ _ _ _ _) => refused
      | _ => false, [], shown true, 2⟩) w

/-- The first root is indexed; the second one replaces it, and its commit is refused. -/
def replacedWorld : IndexWorld ℕ ℕ ℕ := (fullRun 2 true (fullRun 1 false unindexedWorld).2).2

/-- **Rows of one root under the fingerprint of another.** -/
theorem replaced_not_identified : ¬∀ (runs : List (IndexOptions ℕ × Option (Except IndexFault IndexResult × PUnit)))
      (w : IndexWorld ℕ ℕ ℕ),
      Sequence (indexMachine plainExtractor) 0 (fun opts => indexProjectWasm plainExtractor opts ⟨⟩)
        (fun _ _ _ _ => True) SameDb unindexedWorld runs w → w.db.OneRoot := by
  intro h
  have hone : replacedWorld.db.OneRoot := h _ _
    (.run (c := wholeRoot false false 2) (.run (c := wholeRoot false false 1) .start
      (Prog.follow_leads _ _ _ (fun _ _ => trivial) _ _))
      (Prog.follow_leads _ _ _ (fun _ _ => trivial) _ _))
  have hfp : replacedWorld.db.fingerprint = some 1 := by decide +kernel
  have hrow : (replacedWorld.db.table .nodes).map ExtractedRows.root = [2] := by decide +kernel
  obtain ⟨rows, hrows, hroot⟩ := mem_map.mp (hrow ▸ mem_singleton_self 2)
  exact absurd (hone.identity 1 hfp 2 (.inl ⟨.nodes, rows, hrows, hroot⟩)) (by decide)

/-- The first root is indexed, and indexed again. -/
theorem rootIdentity_indexed : (fullRun 1 false (fullRun 1 false unindexedWorld).2).2.db.OneRoot := by
  have hallowed : ∀ w, (indexProjectWasm plainExtractor (wholeRoot false false 1) ⟨⟩).allows
      (indexMachine plainExtractor) 0 (fun o _ => ⟨match o with
        | .write (.commitAliasStateAtomically _ _ _ _ _ _ _) => false
        | _ => false, [], shown true, 2⟩) rootKept w = true →
      (indexProjectWasm plainExtractor (wholeRoot false false 1) ⟨⟩).Leads
        (indexMachine plainExtractor) 0 rootKept w (some (fullRun 1 false w).1)
        (fullRun 1 false w).2 := fun w h => Prog.follow_leads_of_allows _ _ _ _ _ h
  have hempty : unindexedWorld.db.OneRoot :=
    (CodeDb.AllRows.oneRoot (r := 1) (fun r hr => absurd hr (CodeDb.no_root_of_empty rfl r)) (.inl rfl))
  exact rootIdentity hempty (.run (c := wholeRoot false false 1) (.run (c := wholeRoot false false 1)
    .start (hallowed _ (by decide +kernel))) (hallowed _ (by decide +kernel)))

end Ariad
