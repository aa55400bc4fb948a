import Ariad.Store.CasStore

/-!
# Reserving, preparing and publishing a generation

The programs of `generation-publisher.ts`. A database is backed up into a reserved staging file,
validated and hashed (`prepareGenerationForPublication`), and then published
(`publishPreparedGeneration`): under the CAS write lock the database is promoted to its final name
(or an identical catalogued generation is reused), its sidecar is written, the manifest is replaced,
and the CAS tables record the activation.

The long body of `publishPreparedGeneration` is cut at its own numbered steps; each part is a
definition here, in the order of the source. What the body has changed so far is kept in the locals
(`PublicationMutationState`), because the final handler decides by it whether the token goes back
to `PREPARED`.
-/

namespace Ariad

variable (P : Platform) {σ α : Type}

/-! ## Mutation state -/

/-- What an attempt to publish has changed so far. -/
structure PublicationMutationState where
  stagingRemoved : Bool
  finalDbCreated : Bool
  finalDbIdentity : Option FileIdentity
  finalDbDurable : Bool
  metadataCreated : Bool
  metadataPreexisted : Bool
  metadataDurable : Bool
  manifestVisible : Bool
  casCommitted : Bool
  deriving DecidableEq, Repr

namespace PublicationMutationState

def initial : PublicationMutationState :=
  ⟨false, false, none, false, false, false, false, false, false⟩

/-- The attempt has changed nothing visible. -/
def noMutation (s : PublicationMutationState) : Bool :=
  !s.stagingRemoved && !s.finalDbCreated && !s.metadataCreated && !s.manifestVisible &&
    !s.casCommitted

end PublicationMutationState

/-- A procedure inside the body of `publishPreparedGeneration`. -/
abbrev PublishM (α : Type) := StoreM PublicationMutationState α

/-- Options of a publication. -/
structure PublishOptions where
  expectedActiveGenerationId : Option GenerationId
  pin : Bool
  deriving DecidableEq, Repr

/-- What a successful publication returns. -/
structure PublicationResult where
  generationId : GenerationId
  manifest : GenerationManifestV1
  casRevision : ℕ
  deduped : Bool
  previousActiveGenerationId : Option GenerationId
  deriving DecidableEq, Repr

/-! ## Files -/

def computeSha256WithIdentityChecks (n : GenName) : StoreM σ Sha256 :=
  orFail (op (.hashFile n)) .generationHashFailed

/-- What became of a staging file. -/
structure StagingCleanupResult where
  removed : Bool
  confirmedAbsent : Bool
  deriving DecidableEq, Repr

/-- The end of `unlinkStagingDurably`: make the removal durable and confirm it. -/
def confirmStagingAbsent (g : GenerationId) : StoreM σ StagingCleanupResult := do
  bestEffort (op .io)
  match ← (op (.lstatStaging g)).attempt with
  | .error (.errno .enoent) => pure ⟨true, true⟩
  | _ => pure ⟨true, false⟩

/-- Unlink a staging file if it is the one expected. It never raises. -/
def unlinkStagingDurably (g : GenerationId) (expectedIno : ℕ) : StoreM σ StagingCleanupResult := do
  match ← (op (.lstatStaging g)).attempt with
  | .error (.errno .enoent) => confirmStagingAbsent g
  | .error _ => pure ⟨false, false⟩
  | .ok (st : Stat) =>
    if st.ino ≠ expectedIno then pure ⟨false, false⟩
    else do
      match ← (op (.unlinkStaging g)).attempt with
      | .error _ => pure ⟨false, false⟩
      | .ok _ => confirmStagingAbsent g

/-- The staging file is still the one that was prepared. -/
def revalidateStagingContent (g : GenerationId) (tok : PreparedToken) : StoreM σ Unit := do
  let st : Stat ← orFail (op (.lstatStaging g)) .publicationStagingMutated
  if (⟨st.ino, st.size⟩ : FileIdentity) ≠ tok.preStat then
    fail .publicationStagingMutated
  else do
    let recomputedHash : Sha256 ← orFail (op (.hashStaging g)) .generationHashFailed
    if recomputedHash ≠ tok.manifest.sha256 then fail .publicationStagingMutated else pure ()

/-! ## Promotion of a fresh generation -/

/-- Remove a promotion temp if it is ours; it is gone when it was removed or not there. -/
def removeOwnTemp (temp : GenName) (identity : FileIdentity) : StoreM σ Bool := do
  match ← (op (.lstat temp)).attempt with
  | .ok (cs : Stat) =>
    if cs.ino ≠ identity.ino then pure false
    else do
      match ← (op (.unlink temp)).attempt with
      | .ok _ => pure true
      | .error _ => pure false
  | .error (.errno .enoent) => pure true
  | .error _ => pure false

/-- The absence of a temp is durable: the directory is synced and `lstat` finds nothing. -/
def certifyAbsent (temp : GenName) : StoreM σ Bool := do
  match ← (op .io).attempt with
  | .error _ => pure false
  | .ok _ => do
    match ← (op (.lstat temp)).attempt with
    | .error (.errno .enoent) => pure true
    | _ => pure false

/-- The authenticated cleanup of a promotion temp: certified when the temp was ours, is gone, and
its absence is durable. -/
def cleanupTemp (temp : GenName) (identity : FileIdentity) : StoreM σ Bool := do
  let removed ← removeOwnTemp temp identity
  if removed = false then pure false else certifyAbsent temp

/-- Abandon a promotion before the link: clean the temp up, and if that is certified forget that
anything was created. -/
def abandonPromotion (temp : GenName) (identity : FileIdentity) (code : ErrorCode) : PublishM α := do
  let certified ← cleanupTemp temp identity
  if certified then do
    Proc.modifyLocals fun s => { s with finalDbCreated := false, finalDbIdentity := none }
    fail code
  else fail code

/-- Abandon a promotion after the link: the final name exists, so the attempt stays visible. -/
def abandonAfterLink (temp : GenName) (identity : FileIdentity) (code : ErrorCode) : PublishM α := do
  let _ ← cleanupTemp temp identity
  fail code

/-- Write all bytes of a chunk; `false` on an error or a write without progress. -/
def writeChunk (temp : GenName) : (fuel : ℕ) → Bytes → StoreM σ Bool
  | 0, b => pure b.isEmpty
  | fuel + 1, b =>
    if b.isEmpty then pure true
    else do
      match ← (op (.writeBytes temp b)).attempt with
      | .error _ => pure false
      | .ok (n : ℕ) => if n = 0 then pure false else writeChunk temp fuel (b.drop n)

/-- What the copy loop found: everything it read, or that a read or write failed. -/
inductive CopyOutcome where
  | copied (b : Bytes)
  | failed (totalWritten : ℕ)
  deriving DecidableEq

/-- Bytes of the chunks that were written completely. -/
def CopyOutcome.totalWritten : CopyOutcome → ℕ
  | .copied b => b.length
  | .failed n => n

/-- Copy the open staging file to the temp, chunk by chunk, until a read returns nothing. The source
loops without a bound; after more reads than the file has bytes the total already differs from its
size, which is reported as a short copy either way. -/
def copyLoop (source : File) (temp : GenName) : (fuel : ℕ) → Bytes → StoreM σ CopyOutcome
  | 0, acc => pure (.copied acc)
  | fuel + 1, acc => do
    match ← (op (.readStaging source acc.length)).attempt with
    | .error _ => pure (.failed acc.length)
    | .ok (chunk : Bytes) =>
      if chunk.isEmpty then pure (.copied acc)
      else do
        let written ← writeChunk temp chunk.length chunk
        if written then copyLoop source temp fuel (acc ++ chunk)
        else pure (.failed acc.length)

/-- The error of the copy, if any: a mutated, shortened or differing source is a staging mutation,
anything else a failed promotion. -/
def copyError (manifest : GenerationManifestV1) (sourceSize : ℕ) :
    CopyOutcome → Except Err Unit → Option ErrorCode
  | .failed _, _ => some .generationPromotionFailed
  | .copied _, .error _ => some .generationPromotionFailed
  | .copied b, .ok _ =>
    if P.sha256 b ≠ manifest.sha256 ∨ b.length ≠ sourceSize then some .publicationStagingMutated
    else none

/-- Steps after the link: check the final name, make it durable, drop the temp and the staging
file. -/
def finishPromotion (g : GenerationId) (tok : PreparedToken) (temp : GenName)
    (identity : FileIdentity) : PublishM Unit := do
  match ← (op (.lstat (.db g))).attempt with
  | .error _ => abandonAfterLink temp identity .generationPromotionFailed
  | .ok (finalStat : Stat) =>
    if finalStat.ino ≠ identity.ino ∨ finalStat.size ≠ tok.manifest.sizeBytes then
      abandonAfterLink temp identity .generationPromotionFailed
    else do
      match ← (op .io).attempt with
      | .error _ => abandonAfterLink temp identity .generationPromotionDurabilityUnknown
      | .ok _ => do
        Proc.modifyLocals fun s => { s with finalDbDurable := true }
        bestEffort (do
          let preUnlink : Stat ← op (.lstat temp)
          if preUnlink.ino = identity.ino then op (.unlink temp) else pure ())
        bestEffort (op .io)
        let res ← unlinkStagingDurably g tok.preStat.ino
        if res.removed && res.confirmedAbsent then
          Proc.modifyLocals fun s => { s with stagingRemoved := true }
        else pure ()

/-- Check the complete temp and link it under its final name. -/
def linkPromoted (g : GenerationId) (tok : PreparedToken) (temp : GenName)
    (identity : FileIdentity) : PublishM Unit := do
  match ← (op (.lstat temp)).attempt with
  | .error _ => abandonPromotion temp identity .generationPromotionFailed
  | .ok (pre : Stat) =>
    if pre.ino ≠ identity.ino then abandonPromotion temp identity .generationPromotionFailed
    else do
      match ← (op (.link temp (.db g))).attempt with
      | .error (.errno .eexist) => abandonPromotion temp identity .generationPromotionConflict
      | .error _ => abandonPromotion temp identity .generationPromotionFailed
      | .ok _ => finishPromotion g tok temp identity

/-- After the copy: check the temp, make it durable, and see what the copy reports. -/
def finishCopy (g : GenerationId) (tok : PreparedToken) (source : File) (temp : GenName)
    (identity : FileIdentity) (outcome : CopyOutcome) (sourceAfter : Except Err Unit) :
    PublishM Unit := do
  match ← (op (.lstat temp)).attempt with
  | .error _ => abandonPromotion temp identity .generationPromotionFailed
  | .ok (tempAfter : Stat) =>
    if tempAfter.ino ≠ identity.ino ∨ tempAfter.size ≠ outcome.totalWritten ∨
        tempAfter.size ≠ tok.manifest.sizeBytes then
      abandonPromotion temp identity .generationPromotionFailed
    else do
      -- `fchmod` and the `fstat` that verifies it.
      match ← (do op .io; op .io : PublishM Unit).attempt with
      | .error _ => abandonPromotion temp identity .generationPromotionFailed
      | .ok _ => do
        match ← (op .io).attempt with
        | .error _ => abandonPromotion temp identity .generationPromotionDurabilityUnknown
        | .ok _ =>
          match copyError P tok.manifest (P.stat source).size outcome sourceAfter with
          | some code => abandonPromotion temp identity code
          | none => linkPromoted g tok temp identity

/-- Copy the staging file to the temp and make the temp durable. -/
def fillTemp (g : GenerationId) (tok : PreparedToken) (source : File) (temp : GenName)
    (identity : FileIdentity) : PublishM Unit := do
  let outcome ← copyLoop source temp ((P.stat source).size + 1) []
  -- `fstat` of the source after the copy: an open staging file does not change.
  let sourceAfter ← (op .io).attempt
  finishCopy P g tok source temp identity outcome sourceAfter

/-- Promote the staging file of a fresh generation to its final name. -/
def promoteFresh (g : GenerationId) (tok : PreparedToken) : PublishM Unit := do
  let source : File ← orFail (op (.openStaging g)) .generationPromotionFailed
  orFail (op .io) .generationPromotionFailed
  if (⟨(P.stat source).ino, (P.stat source).size⟩ : FileIdentity) ≠ tok.preStat then
    fail .publicationStagingMutated
  else do
    let nonce : ℕ ← op .randomUUID
    let temp := GenName.publishTemp g nonce
    orFail (op (.createExclusive temp)) .generationPromotionFailed
    match ← (op (.lstat temp)).attempt with
    | .error _ => do
      bestEffort (op (.unlink temp))
      fail .generationPromotionFailed
    | .ok (ts : Stat) => do
      let identity : FileIdentity := ⟨ts.ino, ts.size⟩
      Proc.modifyLocals fun s =>
        { s with finalDbCreated := true, finalDbIdentity := some identity }
      fillTemp P g tok source temp identity

/-! ## Reuse of an identical generation -/

/-- The sidecar's manifest describes the same content as the prepared one. -/
def sameContent (dm m : GenerationManifestV1) : Bool :=
  dm.project = m.project && dm.sha256 = m.sha256 && dm.sizeBytes = m.sizeBytes &&
    dm.rootFingerprint = m.rootFingerprint &&
    dm.extractorSemanticsVersion = m.extractorSemanticsVersion &&
    dm.discoveryPolicyVersion = m.discoveryPolicyVersion

/-- Validate the files of a dedup candidate; its own manifest is the authority from here on. -/
def validateDedupCandidate (manifest : GenerationManifestV1) (dedupGenId : GenerationId) :
    StoreM σ GenerationManifestV1 := do
  let dbStat : Stat ← op (.lstat (.db dedupGenId))
  if dbStat.size ≠ manifest.sizeBytes then fail .publicationCasStateCorrupt
  else do
    let dedupHash ← computeSha256WithIdentityChecks (.db dedupGenId)
    if dedupHash ≠ manifest.sha256 then fail .publicationCasStateCorrupt
    else do
      let _ : Stat ← orFail (op (.lstat (.json dedupGenId))) .publicationCasStateCorrupt
      let md ← orFail (CasStore.readMetadata P (.json dedupGenId)) .publicationCasStateCorrupt
      if sameContent md.manifest manifest = false ∨ md.manifest.generationId ≠ dedupGenId then
        fail .publicationCasStateCorrupt
      else pure md.manifest

/-- The dedup branch: validate the candidate and drop the staging file. -/
def reuseGeneration (g : GenerationId) (tok : PreparedToken) (dedupGenId : GenerationId) :
    PublishM GenerationManifestV1 := do
  let effectiveManifest ← validateDedupCandidate P tok.manifest dedupGenId
  let res ← unlinkStagingDurably g tok.preStat.ino
  if res.removed && res.confirmedAbsent then
    Proc.modifyLocals fun s => { s with stagingRemoved := true, metadataPreexisted := true }
  else
    Proc.modifyLocals fun s => { s with metadataPreexisted := true }
  pure effectiveManifest

/-! ## Sidecar and manifest -/

/-- Write the text of a sidecar from an offset on, raising when a write makes no progress. -/
def writeText (temp : GenName) (md : GenerationMetadataV1) : (fuel : ℕ) → ℕ → StoreM σ Unit
  | 0, _ => pure ()
  | fuel + 1, offset =>
    if (P.metadataText md).length ≤ offset then pure ()
    else do
      let n : ℕ ← op (.writeMetadata temp md offset)
      if n = 0 then fail .generationMetadataInvalid else writeText temp md fuel (offset + n)

/-- Fill the temporary of a sidecar, set and verify its mode, and sync it. -/
def fillSidecar (temp : GenName) (md : GenerationMetadataV1) : StoreM σ Unit := do
  writeText P temp md (P.metadataText md).length 0
  -- `fchmod` and the `fstat` that verifies it
  tryCatch (do op .io; op .io) fun _ => do
    bestEffort (op (.unlink temp))
    fail .generationMetadataInvalid
  op .io

/-- The final name of the sidecar exists already: its content must be the same. -/
def compareSidecar (g : GenerationId) (temp : GenName) (md : GenerationMetadataV1) :
    StoreM σ Unit := do
  match ← (op (.readFile (.json g))).attempt with
  | .error _ => do
    bestEffort (op (.unlink temp))
    fail .generationMetadataInvalid
  | .ok (existing : FileData) => do
    bestEffort (op (.unlink temp))
    if P.content existing ≠ P.metadataText md then fail .generationMetadataInvalid else pure ()

/-- Link the complete temporary of a sidecar under its final name. -/
def linkSidecar (g : GenerationId) (temp : GenName) (md : GenerationMetadataV1) :
    StoreM σ Unit := do
  match ← (op (.link temp (.json g))).attempt with
  | .error (.errno .eexist) => compareSidecar P g temp md
  | .error _ => do
    bestEffort (op (.unlink temp))
    fail .generationMetadataInvalid
  | .ok _ => do
    orFail (op .io) .generationMetadataInvalid
    bestEffort (op (.unlink temp))
    bestEffort (op .io)

/-- Write the sidecar under its final name, which is never replaced: an existing one must be
identical. -/
def writeMetadataSidecarAtomically (g : GenerationId) (md : GenerationMetadataV1) :
    StoreM σ Unit := do
  let nonce : ℕ ← op .randomUUID
  let temp := GenName.metadataTemp g nonce
  orFail (op (.createExclusive temp)) .generationMetadataInvalid
  match ← (fillSidecar P temp md).attempt with
  | .error _ => do
    bestEffort (op (.unlink temp))
    fail .generationMetadataInvalid
  | .ok _ => linkSidecar P g temp md

/-- Replace `active-generation.json`: temp file, `fsync`, `rename`, `fsync` of the directory. After
the rename the new manifest is in place even when the call fails. -/
def writeJsonAtomically (m : GenerationManifestV1) : StoreM σ Unit := do
  -- open the directory; then create, write, `fsync` and close the temp, and `lstat` the directory
  orFail (op .io) .atomicWriteFailed
  tryCatch (do
      orFail (op .io) .atomicWriteFailed
      orFail (op .io) .atomicWriteFailed
      orFail (op .io) .atomicFsyncFailed
      orFail (op .io) .atomicWriteFailed
      orFail (op .io) .pathTraversalRejected
      orFail (op (.renameManifest m)) .atomicRenameFailed)
    fun e => do
      bestEffort (op .io)
      throw e
  orFail (op .io) .atomicDurabilityUnknown

/-- The sidecar and the database of a generation match a manifest exactly. -/
def verifyGenerationFiles (m : GenerationManifestV1) (identity : Option FileIdentity) :
    StoreM σ Unit := do
  let dbStat : Stat ← op (.lstat (.db m.generationId))
  if dbStat.size ≠ m.sizeBytes then fail .publicationVerifyFailed
  else if identity.any (fun i => i.ino ≠ dbStat.ino) then fail .publicationVerifyFailed
  else do
    let hash ← computeSha256WithIdentityChecks (.db m.generationId)
    if hash ≠ m.sha256 then fail .publicationVerifyFailed
    else do
      let metaStat : Stat ← op (.lstat (.json m.generationId))
      if maxMetadataSidecarBytes < metaStat.size then fail .publicationVerifyFailed
      else do
        let md ← orFail (CasStore.readMetadata P (.json m.generationId)) .publicationVerifyFailed
        if md.manifest ≠ m then fail .publicationVerifyFailed else pure ()

/-- The identity that a fresh database must still have. -/
def expectedIdentity (deduped : Bool) : PublishM (Option FileIdentity) := do
  let s : PublicationMutationState ← Proc.getLocals
  pure (if deduped then none else s.finalDbIdentity)

/-- Check the candidate before readers can see it. -/
def verifyPublicationCandidate (m : GenerationManifestV1) (deduped : Bool) : PublishM Unit := do
  let identity ← expectedIdentity deduped
  wrapErrno (verifyGenerationFiles P m identity) .publicationVerifyFailed

/-- Re-read the manifest and check the published generation once more. -/
def verifyPublishedGeneration (m : GenerationManifestV1) (deduped : Bool) : PublishM Unit := do
  let verified : Option GenerationManifestV1 ← orFail (op .readManifest) .publicationVerifyFailed
  if verified ≠ some m then fail .publicationVerifyFailed
  else do
    let identity ← expectedIdentity deduped
    wrapErrno (verifyGenerationFiles P m identity) .publicationVerifyFailed

/-! ## Activation in the CAS -/

/-- The catalog row that an activation writes. -/
def activatedEntry (m effective : GenerationManifestV1) (now : Timestamp)
    (existing : Option CasGenerationCatalogEntry) (pin : Bool) : CasGenerationCatalogEntry where
  generationId := effective.generationId
  project := P.project
  sha256 := m.sha256
  sizeBytes := m.sizeBytes
  rootFingerprint := m.rootFingerprint
  extractorSemanticsVersion := m.extractorSemanticsVersion
  discoveryPolicyVersion := m.discoveryPolicyVersion
  firstPublishedAt := (existing.map (·.firstPublishedAt)).getD now
  lastSeenAt := now
  pinned := (existing.map (·.pinned)).getD false || pin
  status := .active

/-- Pin the activated generation when the caller asked for it. -/
def pinActivated (g : GenerationId) (pin : Bool) : StoreM σ Unit :=
  if pin then do
    CasStore.setCatalogPinned g true
    CasStore.appendPublicationHistory g P.project .pin none
  else pure ()

/-- Record the activation in the CAS tables and commit; returns the new revision. -/
def activate (m effective : GenerationManifestV1) (previousActiveId : Option GenerationId)
    (pin : Bool) : PublishM ℕ := do
  let now : Timestamp ← op .now
  let existing ← CasStore.getGenerationCatalogEntry effective.generationId
  CasStore.upsertGenerationCatalog (activatedEntry P m effective now existing pin)
  CasStore.setActiveGenerationId (some effective.generationId)
  CasStore.appendPublicationHistory effective.generationId P.project .publish previousActiveId
  pinActivated P effective.generationId pin
  let newRevision ← CasStore.getRevision
  CasStore.commit
  Proc.modifyLocals fun s => { s with casCommitted := true }
  pure newRevision

/-! ## Publishing -/

/-- Compare, under the lock, the active generation with the expected one; returns it. -/
def reconcileAndCompare (expectedActive : Option GenerationId) :
    StoreM σ (Option GenerationId) := do
  CasStore.beginImmediate
  let activeManifest : Option GenerationManifestV1 ←
    orFail (op .readManifest) .publicationVerifyFailed
  let reconcile ← CasStore.reconcileFromManifest P activeManifest
  if expectedActive ≠ reconcile.activeGenerationId then fail .publicationCasMismatch
  else pure reconcile.activeGenerationId

/-- Put the files of the generation in place; returns the manifest to publish and whether an
existing generation is reused. -/
def placeFiles (g : GenerationId) (tok : PreparedToken) (previousActiveId : Option GenerationId)
    (pin : Bool) : PublishM (GenerationManifestV1 × Bool) := do
  match ← CasStore.findDedupCandidate tok.manifest with
  | some dedup => do
    let effective ← reuseGeneration P g tok dedup.generationId
    pure (effective, true)
  | none => do
    promoteFresh P g tok
    let publishedAt : Timestamp ← op .now
    writeMetadataSidecarAtomically P g
      ⟨1, tok.manifest, publishedAt, false, none, previousActiveId, pin⟩
    Proc.modifyLocals fun s => { s with metadataCreated := true, metadataDurable := true }
    pure (tok.manifest, false)

/-- The body of `publishPreparedGeneration`, from opening the CAS on. -/
def publishBody (g : GenerationId) (tok : PreparedToken) (options : PublishOptions) :
    PublishM PublicationResult := do
  orFail (op .io) .publicationCasStateCorrupt
  let previousActiveId ← reconcileAndCompare P options.expectedActiveGenerationId
  let (effective, deduped) ← placeFiles P g tok previousActiveId options.pin
  verifyPublicationCandidate P effective deduped
  writeJsonAtomically effective
  Proc.modifyLocals fun s => { s with manifestVisible := true }
  verifyPublishedGeneration P effective deduped
  let newRevision ← activate P tok.manifest effective previousActiveId options.pin
  op (.setTokenState g .consumed)
  pure ⟨effective.generationId, effective, newRevision, deduped, previousActiveId⟩

/-- Roll back what was not committed. -/
def rollbackUncommitted (s : PublicationMutationState) : PublishM Unit :=
  if s.casCommitted = false then CasStore.rollback else pure ()

/-- The handler of `publishPreparedGeneration`: roll back, and decide the state of the token. -/
def publishHandler (g : GenerationId) (e : Err) : PublishM α := do
  let s : PublicationMutationState ← Proc.getLocals
  rollbackUncommitted s
  op (.setTokenState g (if s.noMutation then .prepared else .consumed))
  match e with
  | .store c => fail c
  | .errno _ => fail .publicationVerifyFailed

/-- Steps before the CAS is opened; a failure gives the token back. -/
def publishPrelude (g : GenerationId) (tok : PreparedToken) : StoreM σ Unit :=
  -- `assertTrustedRootNoSymlinks` and `assertPathInsideNoSymlinks` of the two final paths
  tryCatch (do
      orFail (op .io) .pathTraversalRejected
      orFail (op .io) .pathTraversalRejected
      revalidateStagingContent g tok)
    fun e => do
      op (.setTokenState g .prepared)
      throw e

/-- Publish a prepared generation. -/
def publishPreparedGeneration (g : GenerationId) (options : PublishOptions) :
    StoreM σ PublicationResult := do
  match ← op (.takeToken g true) with
  | none => fail .publicationTokenInvalid
  | some (tok : PreparedToken) =>
    if tok.state ≠ .prepared then fail .publicationTokenConsumed
    else do
      publishPrelude g tok
      match ← (Proc.withLocals .initial
          (tryCatch (publishBody P g tok options) (publishHandler g))).attempt with
      | .ok res => do
        CasStore.close
        pure res
      | .error e => do
        CasStore.close
        throw e

/-! ## Reserving, preparing, discarding -/

/-- Reserve a staging file under a fresh generation id. -/
def reserveGenerationStaging : StoreM σ GenerationId := do
  orFail (op .io) .pathTraversalRejected
  let g : GenerationId ← op .randomUUID
  orFail (op (.createStaging g)) .stagingCreateFailed
  match ← (do op .io; op .io; op .io : StoreM σ Unit).attempt with
  | .error _ => do
    bestEffort (op (.unlinkStaging g))
    bestEffort (op .io)
    fail .stagingCreateFailed
  | .ok _ => do
    let st : Stat ← orFail (op (.lstatStaging g)) .stagingTargetInvalid
    op (.setReservation g ⟨.reserved, st.ino⟩)
    pure g

/-- Validate and hash a staging database and register its token. -/
def prepareBody (g : GenerationId) (rootFingerprint : Option String) : StoreM σ Unit := do
  let source : File ← orFail (op (.openStaging g)) .stagingDbInvalid
  match P.inspectDatabase (P.content source.data) with
  | none => fail .stagingDbInvalid
  | some facts =>
    if rootFingerprint.any (fun f => f ≠ facts.rootFingerprint) then fail .stagingDbInvalid
    else do
      let sha256 : Sha256 ← orFail (op (.hashStaging g)) .generationHashFailed
      let preStat : Stat ← op (.lstatStaging g)
      let createdAt : Timestamp ← op .now
      let manifest : GenerationManifestV1 :=
        { formatVersion := 1, project := P.project, generationId := g, createdAt := createdAt,
          rootFingerprint := facts.rootFingerprint,
          extractorSemanticsVersion := facts.extractorSemanticsVersion,
          discoveryPolicyVersion := facts.discoveryPolicyVersion,
          nodeCount := facts.nodeCount, edgeCount := facts.edgeCount,
          fileCount := facts.fileCount, sizeBytes := preStat.size, sha256 := sha256 }
      op (.registerToken g ⟨.prepared, ⟨preStat.ino, preStat.size⟩, manifest⟩)

/-- Prepare a reserved generation. A reservation is used once: after SQLite has opened the staging
file a failure discards it. -/
def prepareGenerationForPublication (g : GenerationId) (rootFingerprint : Option String) :
    StoreM σ Unit := do
  match ← op (.takeReservation g) with
  | none => fail .publicationReservationInvalid
  | some (r : ReservationToken) =>
    if r.state ≠ .reserved then fail .publicationReservationInvalid
    else do
      match ← (op .io).attempt with
      | .error _ => do
        op (.setReservation g { r with state := .reserved })
        fail .pathTraversalRejected
      | .ok _ => do
        tryCatch (prepareBody P g rootFingerprint) fun e => do
          op (.setReservation g { r with state := .discarded })
          throw e

/-- Give a prepared generation up; its staging file is removed if it is still the same. -/
def discardPreparedGeneration (g : GenerationId) : StoreM σ Bool := do
  match ← op (.takeToken g false) with
  | none => fail .publicationTokenInvalid
  | some (tok : PreparedToken) =>
    if tok.state ≠ .prepared then fail .publicationTokenConsumed
    else do
      match ← (op (.lstatStaging g)).attempt with
      | .error _ => pure false
      | .ok (st : Stat) =>
        if (⟨st.ino, st.size⟩ : FileIdentity) ≠ tok.preStat then pure false
        else do
          let res ← unlinkStagingDurably g tok.preStat.ino
          pure (res.removed && res.confirmedAbsent)

/-- Give up a reservation that was never prepared. -/
def discardGenerationReservation (g : GenerationId) : StoreM σ Bool := do
  match ← op (.dropReservation g) with
  | none => fail .publicationReservationInvalid
  | some (r : ReservationToken) =>
    if ¬(r.state = .reserved ∨ r.state = .discarded) then fail .publicationReservationInvalid
    else do
      let res ← unlinkStagingDurably g r.identity
      pure (res.removed && res.confirmedAbsent)

end Ariad
