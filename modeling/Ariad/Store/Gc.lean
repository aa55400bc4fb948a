import Ariad.Store.Publish

/-!
# Garbage collection of generations

The planner, the applier and the two-transaction deletion protocol of `generation-gc.ts`. A plan is
computed without the CAS lock from the manifest, the catalog and the publication history; the
applier compares the CAS revision with the plan's once, and then deletes one generation at a time,
each deletion re-checking under the lock that the generation is not active and not pinned.
-/

namespace Ariad

variable (P : Platform) {σ : Type}

/-- Options of the planner. -/
structure GenerationGcOptions where
  retainCount : ℕ
  pin : List GenerationId
  tmpMaxAgeMs : ℕ
  promotionTempGraceMs : ℕ
  deriving DecidableEq, Repr

/-- `DEFAULT_RETAIN_COUNT`, `DEFAULT_TMP_MAX_AGE_MS`, `PROMOTION_TEMP_GRACE_MS`. -/
def GenerationGcOptions.default : GenerationGcOptions :=
  ⟨2, [], 24 * 60 * 60 * 1000, 15 * 60 * 1000⟩

/-! ## The retain set -/

/-- Walk the history, newest row first, and collect up to `room` distinct generations that were
published and are neither active nor already seen. -/
def collectPrevious (active : Option GenerationId) :
    (room : ℕ) → (seen : List GenerationId) → List CasPublicationHistoryEntry → List GenerationId
  | _, _, [] => []
  | 0, _, _ :: _ => []
  | room + 1, seen, row :: rows =>
    if row.action ≠ .publish then collectPrevious active (room + 1) seen rows
    else if active = some row.generationId then collectPrevious active (room + 1) seen rows
    else if row.generationId ∈ seen then collectPrevious active (room + 1) seen rows
    else row.generationId :: collectPrevious active room (row.generationId :: seen) rows

/-- The `retainCount` previous generations the plan keeps. -/
def distinctPrevious (active : Option GenerationId) (retainCount : ℕ)
    (history : List CasPublicationHistoryEntry) : List GenerationId :=
  collectPrevious active retainCount active.toList history

/-- Generations that the plan keeps: the active one, the previous ones, the pinned ones. -/
def retainIds (active : Option GenerationId) (retainCount : ℕ)
    (activeEntries : List CasGenerationCatalogEntry) (history : List CasPublicationHistoryEntry)
    (extraPinned : List GenerationId) : List GenerationId :=
  active.toList ++ distinctPrevious active retainCount history ++
    (activeEntries.filter fun e => e.pinned).map (fun e => e.generationId) ++ extraPinned

/-- The retain, delete and recovery lists. -/
def buildGcPlan (active : Option GenerationId) (casRevision : ℕ)
    (activeEntries deletingEntries : List CasGenerationCatalogEntry)
    (history : List CasPublicationHistoryEntry) (options : GenerationGcOptions)
    (sweepTmp : List GenerationGcTmpEntry) : GenerationGcPlan :=
  let keep := retainIds active options.retainCount activeEntries history options.pin
  let entry := fun e : CasGenerationCatalogEntry =>
    (⟨e.generationId, e.pinned || options.pin.contains e.generationId⟩ : GenerationGcPlanEntry)
  { activeGenerationId := active
    casRevision := casRevision
    retain := (activeEntries.filter fun e => e.generationId ∈ keep).map entry
    delete := (activeEntries.filter fun e => e.generationId ∉ keep).map entry
    recovery := deletingEntries.map fun e => ⟨e.generationId, e.pinned⟩
    sweepTmp := sweepTmp }

/-! ## Planning -/

/-- Staging files old enough to be swept, each with its identity. -/
def planSweepTmp (now : Timestamp) (maxAgeMs : ℕ) :
    List GenerationId → StoreM σ (List GenerationGcTmpEntry)
  | [] => pure []
  | g :: gs => do
    match ← (op (.lstatStaging g)).attempt with
    | .error _ => planSweepTmp now maxAgeMs gs
    | .ok (st : Stat) =>
      if now < st.mtimeMs + maxAgeMs then planSweepTmp now maxAgeMs gs
      else do
        let rest ← planSweepTmp now maxAgeMs gs
        pure (⟨g, st⟩ :: rest)

/-- Plan a collection; the plan is registered as authentic and named by its handle. -/
def planGenerationGc (options : GenerationGcOptions) : StoreM σ ℕ := do
  orFail (op .io) .pathTraversalRejected
  let activeManifest : Option GenerationManifestV1 ← orFail (op .readManifest) .gcSafetyRefusal
  orFail (op .io) .publicationCasStateCorrupt
  let casRevision ← CasStore.getRevision
  let activeEntries ← CasStore.listCatalogEntriesByStatus .active
  let deletingEntries ← CasStore.listCatalogEntriesByStatus .deleting
  let history ← CasStore.listPublicationHistory P.project
  CasStore.close
  orFail (op .io) .gcSafetyRefusal
  let tmpEntries : List GenerationId ← orFail (op .readdirTmp) .gcSafetyRefusal
  let now : Timestamp ← op .now
  let sweepTmp ← planSweepTmp now options.tmpMaxAgeMs tmpEntries
  let handle : ℕ ← op (.registerGcPlan (buildGcPlan (activeManifest.map (·.generationId)) casRevision
    activeEntries deletingEntries history options sweepTmp))
  pure handle

/-! ## Safety checks -/

/-- What the safety check saw of the two files, to be compared again under the lock. -/
structure GenerationDeletionProof where
  db : FileIdentity
  dbSha256 : Sha256
  metadata : FileIdentity
  deriving DecidableEq, Repr

/-- The sidecar of a generation describes what its catalog row says. -/
def matchesCatalog (m : GenerationManifestV1) (g : GenerationId) (cat : CasGenerationCatalogEntry) :
    Bool :=
  m.generationId = g && m.project = P.project && m.sha256 = cat.sha256 &&
    m.sizeBytes = cat.sizeBytes && m.rootFingerprint = cat.rootFingerprint &&
    m.extractorSemanticsVersion = cat.extractorSemanticsVersion &&
    m.discoveryPolicyVersion = cat.discoveryPolicyVersion

/-- Both files of a generation are there and match its catalog row; the outcome is the proof, or
`none` when the generation must be kept. -/
def verifyGenerationSafety (g : GenerationId) (cat : CasGenerationCatalogEntry) :
    StoreM σ (Option GenerationDeletionProof) := do
  match ← (op (.lstat (.db g))).attempt with
  | .error _ => pure none
  | .ok (dbStat : Stat) => do
    match ← (op (.lstat (.json g))).attempt with
    | .error _ => pure none
    | .ok (metaStat : Stat) => do
      match ← (CasStore.readMetadata P (.json g)).attempt with
      | .error _ => pure none
      | .ok md =>
        if matchesCatalog P md.manifest g cat = false ∨ dbStat.size ≠ md.manifest.sizeBytes ∨
            cat.project ≠ P.project then pure none
        else do
          let actualHash : Sha256 ← op (.hashFile (.db g))
          if actualHash ≠ cat.sha256 then pure none
          else pure (some ⟨⟨dbStat.ino, dbStat.size⟩, actualHash, ⟨metaStat.ino, metaStat.size⟩⟩)

/-- The sidecar of a half-deleted generation still describes its catalog row. -/
def validateRecoveryMetadataForCatalog (g : GenerationId) (cat : CasGenerationCatalogEntry) :
    StoreM σ Unit := do
  let before : Stat ← op (.lstat (.json g))
  let md ← CasStore.readMetadata P (.json g)
  if matchesCatalog P md.manifest g cat = false then fail .publicationCasStateCorrupt
  else do
    let after : Stat ← op (.lstat (.json g))
    if after ≠ before then fail .publicationCasStateCorrupt else pure ()

/-! ## Deletion -/

/-- Leave the transaction and refuse. -/
def refuse : StoreM σ Bool := do
  CasStore.rollback
  pure false

/-- First transaction: re-check everything under the lock and record the intent to delete. For a
recovery the intent is already recorded. -/
def markDeletionIntent (g : GenerationId) (currentActiveId : Option GenerationId)
    (isRecovery : Bool) : StoreM σ Bool := do
  let casActive ← CasStore.getActiveGenerationId
  if casActive = some g then refuse
  else do
    match ← (op .readManifest).attempt with
    | .error _ => refuse
    | .ok (lockedManifest : Option GenerationManifestV1) =>
      if lockedManifest.map (·.generationId) = some g then refuse
      else if currentActiveId = some g then refuse
      else do
        match ← CasStore.getGenerationCatalogEntry g with
        | none => refuse
        | some initialCat =>
          if initialCat.pinned then refuse
          else if isRecovery then
            if initialCat.status ≠ .deleting then refuse else pure true
          else if initialCat.status ≠ .active then refuse
          else do
            CasStore.setCatalogStatus g .deleting
            CasStore.appendPublicationHistory g P.project .markDeleting none
            pure true

/-- Second transaction: nothing has made the generation live again; `none` refuses. -/
def revalidateDeletion (g : GenerationId) (currentActiveId : Option GenerationId) :
    StoreM σ (Option CasGenerationCatalogEntry) := do
  let deletionCasActive ← CasStore.getActiveGenerationId
  match ← (op .readManifest).attempt with
  | .error _ => pure none
  | .ok (deletionManifest : Option GenerationManifestV1) => do
    match ← CasStore.getGenerationCatalogEntry g with
    | none => pure none
    | some cat =>
      if cat.status ≠ .deleting ∨ cat.pinned = true ∨ deletionCasActive = some g ∨
          deletionManifest.map (·.generationId) = some g ∨ currentActiveId = some g then pure none
      else pure (some cat)

/-- Under the lock, the files are the ones the safety check saw. -/
def checkDeletionProof (g : GenerationId) (cat : CasGenerationCatalogEntry)
    (proof : GenerationDeletionProof) : StoreM σ Unit := do
  let dbStat : Stat ← op (.lstat (.db g))
  if (⟨dbStat.ino, dbStat.size⟩ : FileIdentity) ≠ proof.db then fail .gcSafetyRefusal
  else do
    let proofHash : Sha256 ← op (.hashFile (.db g))
    if proofHash ≠ cat.sha256 ∨ proofHash ≠ proof.dbSha256 then fail .gcSafetyRefusal
    else do
      let metaStat : Stat ← op (.lstat (.json g))
      if (⟨metaStat.ino, metaStat.size⟩ : FileIdentity) ≠ proof.metadata then fail .gcSafetyRefusal
      else pure ()

/-- The outcome of a removal: done, or already gone. -/
def removedOrGone {α : Type} : Except Err α → Bool
  | .ok _ => true
  | .error (.errno .enoent) => true
  | .error _ => false

/-- `lstat` says that the file is not there. -/
def confirmAbsent (n : GenName) : StoreM σ Bool := do
  match ← (op (.lstat n)).attempt with
  | .error (.errno .enoent) => pure true
  | _ => pure false

/-- A recovery checks the database again before it removes it. -/
def checkRecoveryHash (g : GenerationId) (cat : CasGenerationCatalogEntry) (isRecovery : Bool) :
    StoreM σ Unit :=
  if isRecovery then do
    let recoveryHash : Sha256 ← op (.hashFile (.db g))
    if recoveryHash ≠ cat.sha256 then fail .gcSafetyRefusal else pure ()
  else pure ()

def removeDatabase (g : GenerationId) (cat : CasGenerationCatalogEntry) (isRecovery : Bool) :
    StoreM σ Unit := do
  let _ : Stat ← op (.lstat (.db g))
  checkRecoveryHash g cat isRecovery
  op (.unlink (.db g))

/-- A recovery checks the sidecar again before it removes it. -/
def checkRecoveryMetadata (g : GenerationId) (cat : CasGenerationCatalogEntry)
    (isRecovery : Bool) : StoreM σ Unit :=
  if isRecovery then validateRecoveryMetadataForCatalog P g cat else pure ()

/-- The sidecar is removed only when the removal of the database is durable. -/
def removeMetadata (g : GenerationId) (cat : CasGenerationCatalogEntry) (isRecovery : Bool)
    (dbRemoved : Bool) : StoreM σ Unit :=
  if dbRemoved then do
    let _ : Stat ← op (.lstat (.json g))
    checkRecoveryMetadata P g cat isRecovery
    op (.unlink (.json g))
  else fail .gcSafetyRefusal

/-- Remove the database and then the sidecar, and confirm that both are gone. -/
def removeGenerationFiles (g : GenerationId) (cat : CasGenerationCatalogEntry)
    (isRecovery : Bool) : StoreM σ Bool := do
  let dbRes ← (removeDatabase g cat isRecovery).attempt
  let dirFsync1 ← (op .io).attempt
  let metadataRes ←
    (removeMetadata P g cat isRecovery (removedOrGone dbRes && dirFsync1.isOk)).attempt
  let dirFsync2 ← (op .io).attempt
  let dbConfirmedAbsent ← confirmAbsent (.db g)
  let metadataConfirmedAbsent ← confirmAbsent (.json g)
  pure (removedOrGone dbRes && removedOrGone metadataRes && dirFsync1.isOk && dirFsync2.isOk &&
    dbConfirmedAbsent && metadataConfirmedAbsent)

/-- What must hold of the files before they are removed: for a recovery a sidecar that is still
there is valid, for a fresh deletion the proof still holds. -/
def checkBeforeRemoval (g : GenerationId) (cat : CasGenerationCatalogEntry) (isRecovery : Bool)
    (proof : GenerationDeletionProof) : StoreM σ Bool := do
  if isRecovery then do
    let r ← (validateRecoveryMetadataForCatalog P g cat).attempt
    pure (removedOrGone r)
  else do
    let r ← (checkDeletionProof g cat proof).attempt
    pure r.isOk

/-- The second transaction of a deletion. -/
def finishDeletion (g : GenerationId) (currentActiveId : Option GenerationId) (isRecovery : Bool)
    (proof : GenerationDeletionProof) : StoreM σ Bool := do
  match ← revalidateDeletion g currentActiveId with
  | none => refuse
  | some cat => do
    let ready ← checkBeforeRemoval P g cat isRecovery proof
    if ready = false then refuse
    else do
      let complete ← removeGenerationFiles P g cat isRecovery
      if complete = false then refuse
      else do
        CasStore.setCatalogStatus g .deleted
        CasStore.appendPublicationHistory g P.project .delete none
        CasStore.commit
        pure true

/-- Both transactions of a deletion, in order. -/
def deletionProtocol (g : GenerationId) (currentActiveId : Option GenerationId) (isRecovery : Bool)
    (proof : GenerationDeletionProof) : StoreM σ Bool := do
  CasStore.beginImmediate
  let intent ← markDeletionIntent P g currentActiveId isRecovery
  if intent = false then pure false
  else do
    CasStore.commit
    CasStore.beginImmediate
    finishDeletion P g currentActiveId isRecovery proof

/-- Delete one generation. Whatever fails, the transaction is rolled back and nothing is raised. -/
def deleteGenerationUnderCasLock (g : GenerationId) (currentActiveId : Option GenerationId)
    (isRecovery : Bool) (proof : GenerationDeletionProof) : StoreM σ Bool := do
  orFail (op .io) .publicationCasStateCorrupt
  let deleted ← tryCatch (deletionProtocol P g currentActiveId isRecovery proof) fun _ => refuse
  CasStore.close
  pure deleted

/-! ## Applying a plan -/

/-- What applying a plan returns. -/
structure GenerationGcResult where
  applied : Bool
  deletedGenerations : List GenerationId
  deletedTmp : List GenerationId
  deriving DecidableEq, Repr

/-- No files are looked at before a recovery, so there is nothing to prove about them. -/
def GenerationDeletionProof.none : GenerationDeletionProof := ⟨⟨0, 0⟩, 0, ⟨0, 0⟩⟩

/-- Delete again what an earlier collection left half deleted. -/
def applyRecovery (currentActiveId : Option GenerationId) :
    List GenerationGcPlanEntry → StoreM σ (List GenerationId)
  | [] => pure []
  | entry :: rest => do
    match ← (op .io).attempt with
    | .error _ => applyRecovery currentActiveId rest
    | .ok _ => do
      let deleted ← deleteGenerationUnderCasLock P entry.generationId currentActiveId true .none
      let more ← applyRecovery currentActiveId rest
      pure (if deleted then entry.generationId :: more else more)

/-- One entry of the delete list. -/
def applyDeleteEntry (currentActiveId : Option GenerationId) (g : GenerationId) :
    StoreM σ Bool := do
  match ← (op .io).attempt with
  | .error _ => pure false
  | .ok _ =>
    if currentActiveId = some g then pure false
    else do
      orFail (op .io) .publicationCasStateCorrupt
      let safetyCatEntry ← CasStore.getGenerationCatalogEntry g
      match safetyCatEntry with
      | none => pure false
      | some cat => do
        match ← verifyGenerationSafety P g cat with
        | none => pure false
        | some proof => deleteGenerationUnderCasLock P g currentActiveId false proof

/-- The delete list. -/
def applyDelete (currentActiveId : Option GenerationId) :
    List GenerationGcPlanEntry → StoreM σ (List GenerationId)
  | [] => pure []
  | entry :: rest => do
    let deleted ← applyDeleteEntry P currentActiveId entry.generationId
    let more ← applyDelete currentActiveId rest
    pure (if deleted then entry.generationId :: more else more)

/-- Sweep one staging file, if it is still the one the plan saw. -/
def sweepTmpEntry (ent : GenerationGcTmpEntry) : StoreM σ Bool := do
  match ← (do op .io; op (.lstatStaging ent.path) : StoreM σ Stat).attempt with
  | .error _ => pure false
  | .ok (st : Stat) =>
    if st ≠ ent.identity then pure false
    else do
      match ← (op (.unlinkStaging ent.path)).attempt with
      | .error _ => pure false
      | .ok _ => pure true

/-- Sweep the staging files of the plan. -/
def applySweepTmp : List GenerationGcTmpEntry → StoreM σ (List GenerationId)
  | [] => pure []
  | ent :: rest => do
    let swept ← sweepTmpEntry ent
    let more ← applySweepTmp rest
    pure (if swept then ent.path :: more else more)

/-- Apply a plan, unless the CAS revision has changed since it was made. -/
def applyGenerationGcPlan (handle : ℕ) : StoreM σ GenerationGcResult := do
  match ← op (.gcPlan handle) with
  | none => fail .gcPlanUnauthenticated
  | some (plan : GenerationGcPlan) => do
    orFail (op .io) .pathTraversalRejected
    let activeManifest : Option GenerationManifestV1 ← orFail (op .readManifest) .gcSafetyRefusal
    let currentActiveId := activeManifest.map (·.generationId)
    orFail (op .io) .publicationCasStateCorrupt
    let currentRevision ← CasStore.getRevision
    CasStore.close
    if currentRevision ≠ plan.casRevision then pure ⟨false, [], []⟩
    else do
      let recovered ← applyRecovery P currentActiveId plan.recovery
      let deleted ← applyDelete P currentActiveId plan.delete
      let deletedTmp ← applySweepTmp plan.sweepTmp
      bestEffort (if deletedTmp = [] then pure () else op .io)
      pure ⟨true, recovered ++ deleted, deletedTmp⟩

end Ariad
