import Ariad.Store.World

/-!
# The methods of `CasStore`

The programs that the handle returned by `openCasStore` offers
(`internal/generation-cas-store.ts`), made of single statements. All of them run on one connection:
inside a transaction they see and change its own copy of the tables, outside of one they see the
committed tables, and a statement that changes the tables fails there.
-/

namespace Ariad

/-- A procedure of the store: its exceptions are system errors and `GenerationStoreError`s. -/
abbrev StoreM (σ α : Type) := Proc Op Op.Val Errno Err σ α

variable {σ α : Type}

/-- Perform one operation. -/
def op (o : Op) : StoreM σ o.Val := Proc.perform Err.errno o

/-- Raise a `GenerationStoreError`. -/
def fail (c : ErrorCode) : StoreM σ α := throw (Err.store c)

/-- Replace whatever `m` raises by one `GenerationStoreError`. -/
def orFail (m : StoreM σ α) (c : ErrorCode) : StoreM σ α := tryCatch m fun _ => fail c

/-- Replace system errors by one `GenerationStoreError`; those already structured pass through. -/
def wrapErrno (m : StoreM σ α) (c : ErrorCode) : StoreM σ α :=
  tryCatch m fun
    | .errno _ => fail c
    | .store c' => fail c'

/-- Run `m` and forget its outcome. -/
def bestEffort (m : StoreM σ α) : StoreM σ Unit := do
  let _ ← m.attempt
  pure ()

namespace CasStore

def beginImmediate : StoreM σ Unit := orFail (op .casBegin) .publicationCasBusy

/-- A failing `COMMIT` is followed by a rollback, so that no transaction is left dangling. -/
def commit : StoreM σ Unit := do
  match ← (op .casCommit).attempt with
  | .ok _ => pure ()
  | .error _ => do
    bestEffort (op .casRollback)
    fail .publicationCasStateCorrupt

def rollback : StoreM σ Unit := bestEffort (op .casRollback)

def close : StoreM σ Unit := op .casClose

def getActiveGenerationId : StoreM σ (Option GenerationId) := do
  let c : Cas ← op .casRead
  pure c.activeGenerationId

def getRevision : StoreM σ ℕ := do
  let c : Cas ← op .casRead
  pure c.revision

def getGenerationCatalogEntry (g : GenerationId) :
    StoreM σ (Option CasGenerationCatalogEntry) := do
  let c : Cas ← op .casRead
  pure (c.getGenerationCatalogEntry g)

def listCatalogEntriesByStatus (st : CatalogStatus) :
    StoreM σ (List CasGenerationCatalogEntry) := do
  let c : Cas ← op .casRead
  pure (c.listCatalogEntriesByStatus st)

def findDedupCandidate (m : GenerationManifestV1) : StoreM σ (Option CasGenerationCatalogEntry) := do
  let c : Cas ← op .casRead
  pure (c.findDedupCandidate m.sha256 m.sizeBytes m.rootFingerprint m.extractorSemanticsVersion
    m.discoveryPolicyVersion)

def listPublicationHistory (project : String) : StoreM σ (List CasPublicationHistoryEntry) := do
  let c : Cas ← op .casRead
  pure (c.listPublicationHistory project)

def setActiveGenerationId (g : Option GenerationId) : StoreM σ Unit := do
  let _ : ℕ ← op (.casExec (.updateActive g))
  pure ()

/-- Status changes that `upsertGenerationCatalog` accepts. -/
def upsertAllowed : CatalogStatus → CatalogStatus → Bool
  | .active, .active | .active, .deleting => true
  | .deleting, .deleting | .deleting, .deleted => true
  | .deleted, .deleted => true
  | _, _ => false

/-- Status changes that `setCatalogStatus` accepts. -/
def statusAllowed : CatalogStatus → CatalogStatus → Bool
  | .active, .deleting | .deleting, .deleted => true
  | _, _ => false

/-- Insert a row, or update the mutable columns of one whose immutable columns are the same. -/
def upsertGenerationCatalog (entry : CasGenerationCatalogEntry) : StoreM σ Unit := do
  match ← getGenerationCatalogEntry entry.generationId with
  | none => do
    let _ : ℕ ← op (.casExec (.insertCatalog entry))
    pure ()
  | some existing =>
    if existing.toCasImmutableColumns ≠ entry.toCasImmutableColumns then
      fail .publicationCasStateCorrupt
    else if upsertAllowed existing.status entry.status = false then
      fail .publicationCasStateCorrupt
    else do
      let _ : ℕ ← op (.casExec (.updateCatalog entry.generationId entry.toCasMutableColumns))
      pure ()

/-- The revision is incremented first, so that the row carries the new one. -/
def appendPublicationHistory (g : GenerationId) (project : String) (action : HistoryAction)
    (previousActiveGenerationId : Option GenerationId) : StoreM σ Unit := do
  let now : Timestamp ← op .now
  let _ : ℕ ← op (.casExec .bumpRevision)
  let newRev ← getRevision
  let _ : ℕ ← op (.casExec (.insertHistory g project now action previousActiveGenerationId newRev))
  pure ()

def setCatalogStatus (g : GenerationId) (st : CatalogStatus) : StoreM σ Unit := do
  match ← getGenerationCatalogEntry g with
  | none => fail .publicationCasStateCorrupt
  | some cur =>
    if statusAllowed cur.status st = false then
      fail .publicationCasStateCorrupt
    else do
      let changes : ℕ ← op (.casExec (.updateStatus g st))
      if changes ≠ 1 then fail .publicationCasStateCorrupt else pure ()

def setCatalogPinned (g : GenerationId) (pinned : Bool) : StoreM σ Unit := do
  let changes : ℕ ← op (.casExec (.updatePinned g pinned))
  if changes ≠ 1 then fail .publicationCasStateCorrupt else pure ()

/-- Read a sidecar within the size limit and validate it; an incomplete one does not parse. -/
def readMetadata (P : Platform) (n : GenName) : StoreM σ GenerationMetadataV1 := do
  let data : FileData ← op (.readFile n)
  if maxMetadataSidecarBytes < (P.content data).length then
    fail .publicationCasStateCorrupt
  else
    match P.parseMetadata data with
    | none => fail .publicationCasStateCorrupt
    | some md =>
      if md.manifest.project ≠ P.project then fail .publicationCasStateCorrupt else pure md

/-- The pinned flag of a generation whose catalog row is missing, from its sidecar. -/
def readRecoveredPinnedFlag (P : Platform) (m : GenerationManifestV1) : StoreM σ Bool := do
  let st : Stat ← op (.lstat (.json m.generationId))
  if maxMetadataSidecarBytes < st.size then
    fail .publicationCasStateCorrupt
  else do
    let md ← readMetadata P (.json m.generationId)
    if md.manifest ≠ m then fail .publicationCasStateCorrupt else pure md.pinned

/-- The catalog row that reconciliation rebuilds from the manifest. -/
def recoveredEntry (m : GenerationManifestV1) (now : Timestamp) (pinned : Bool) :
    CasGenerationCatalogEntry where
  generationId := m.generationId
  project := m.project
  sha256 := m.sha256
  sizeBytes := m.sizeBytes
  rootFingerprint := m.rootFingerprint
  extractorSemanticsVersion := m.extractorSemanticsVersion
  discoveryPolicyVersion := m.discoveryPolicyVersion
  firstPublishedAt := m.createdAt
  lastSeenAt := now
  pinned := pinned
  status := .active

/-- The part of `reconcileFromManifest` that rebuilds a missing catalog row. -/
def rebuildCatalogEntry (P : Platform) (m : GenerationManifestV1) (now : Timestamp) :
    StoreM σ Unit := do
  match ← getGenerationCatalogEntry m.generationId with
  | some _ => pure ()
  | none => do
    let recoveredPinned ← readRecoveredPinnedFlag P m
    let _ : ℕ ← op (.casExec (.insertCatalog (recoveredEntry m now recoveredPinned)))
    pure ()

/-- The generation of the manifest, if there is one, gets its row back. -/
def rebuildFromManifest (P : Platform) (manifest : Option GenerationManifestV1) (now : Timestamp) :
    StoreM σ Unit :=
  match manifest with
  | some m => rebuildCatalogEntry P m now
  | none => pure ()

/-- The history row of a reconciliation: the generation recovered, or the one that lost its
manifest. -/
def recordReconcile (P : Platform) (manifestActive previousActive : Option GenerationId)
    (now : Timestamp) (newRev : ℕ) : StoreM σ Unit :=
  match manifestActive <|> previousActive with
  | some g => do
    let action := if manifestActive = none then .unpublish else .recover
    let _ : ℕ ← op (.casExec (.insertHistory g P.project now action previousActive newRev))
    pure ()
  | none => pure ()

/-- The tables name another active generation than the manifest: the manifest wins. -/
def reconcileActive (P : Platform) (manifest : Option GenerationManifestV1) (row : Cas) :
    StoreM σ CasReconcileResult := do
  let manifestActive := manifest.map (·.generationId)
  let now : Timestamp ← op .now
  let _ : ℕ ← op (.casExec (.updateActiveAndBump manifestActive))
  let newRev ← getRevision
  rebuildFromManifest P manifest now
  recordReconcile P manifestActive row.activeGenerationId now newRev
  pure ⟨manifestActive, newRev, true⟩

/-- Bring the tables in line with the active manifest, which is the ground truth. The caller has an
open transaction. -/
def reconcileFromManifest (P : Platform) (manifest : Option GenerationManifestV1) :
    StoreM σ CasReconcileResult :=
  wrapErrno (do
    let row : Cas ← op .casRead
    if row.activeGenerationId = manifest.map (·.generationId) then
      pure ⟨row.activeGenerationId, row.revision, false⟩
    else reconcileActive P manifest row) .publicationCasStateCorrupt

end CasStore

end Ariad
