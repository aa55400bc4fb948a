import Ariad.Store.Gc

/-!
# Orphan recovery

The planner and the applier that remove files a publication left behind, and that re-enter an
active generation missing from the catalog (`generation-gc.ts`). The plan is computed without the
lock and records an identity for every file it may remove; the applier checks the revision and the
manifest once, and then re-checks every file under the CAS lock before it unlinks it.
-/

namespace Ariad

variable (P : Platform) {σ : Type}

/-! ## Planning -/

/-- What the planner knows of the CAS: revision, catalogued generations, protected generations. -/
structure OrphanView where
  catalogIds : List GenerationId
  protectedIds : List GenerationId
  deriving DecidableEq, Repr

/-- A temporary old enough to be an orphan. -/
def planTemp (kind : OrphanKind) (n : GenName) (graceMs : ℕ) :
    StoreM σ (List GenerationOrphanEntry) := do
  match ← (op (.lstat n)).attempt with
  | .error _ => pure []
  | .ok (st : Stat) => do
    let now : Timestamp ← op .now
    if now < st.mtimeMs + graceMs then pure []
    else pure [⟨some n, kind, none, some st⟩]

/-- A final database that is not catalogued, or whose sidecar is missing. -/
def planDb (view : OrphanView) (g : GenerationId) : StoreM σ (List GenerationOrphanEntry) := do
  if g ∉ view.catalogIds ∧ g ∉ view.protectedIds then do
    let st : Stat ← op (.lstat (.db g))
    pure [⟨some (.db g), .notInCatalog, some g, some st⟩]
  else do
    match ← (op (.lstat (.json g))).attempt with
    | .error (.errno .enoent) => do
      let st : Stat ← op (.lstat (.db g))
      pure [⟨some (.db g), .dbOnly, some g, some st⟩]
    | _ => pure []

/-- A sidecar whose database is missing. -/
def planJson (view : OrphanView) (g : GenerationId) : StoreM σ (List GenerationOrphanEntry) := do
  match ← (op (.lstat (.db g))).attempt with
  | .error (.errno .enoent) =>
    if g ∈ view.protectedIds then pure []
    else do
      let st : Stat ← op (.lstat (.json g))
      pure [⟨some (.json g), .metadataOnly, some g, some st⟩]
  | _ => pure []

/-- Classify one file of `generations/`. -/
def planOrphan (view : OrphanView) (graceMs : ℕ) (n : GenName) :
    StoreM σ (List GenerationOrphanEntry) :=
  match n with
  | .publishTemp _ _ => planTemp .promotionTemp n graceMs
  | .metadataTemp _ _ => planTemp .metadataTemp n graceMs
  | .db g => planDb view g
  | .json g => planJson view g

/-- Classify every file of `generations/`. -/
def planOrphans (view : OrphanView) (graceMs : ℕ) :
    List GenName → StoreM σ (List GenerationOrphanEntry)
  | [] => pure []
  | n :: ns => do
    let here ← planOrphan view graceMs n
    let rest ← planOrphans view graceMs ns
    pure (here ++ rest)

/-- The active generation, when the catalog has lost it. -/
def planRecover (view : OrphanView) (active : Option GenerationId) : List GenerationOrphanEntry :=
  match active with
  | some g => if g ∈ view.catalogIds then [] else [⟨none, .activeNotInCatalog, some g, none⟩]
  | none => []

/-- Plan a recovery; the plan is registered as authentic and named by its handle. -/
def planGenerationOrphanRecovery (options : GenerationGcOptions) : StoreM σ ℕ := do
  orFail (op .io) .pathTraversalRejected
  let activeManifest : Option GenerationManifestV1 ← orFail (op .readManifest) .gcSafetyRefusal
  let activeGenerationId := activeManifest.map (·.generationId)
  orFail (op .io) .publicationCasStateCorrupt
  let casRevision ← CasStore.getRevision
  let active ← CasStore.listCatalogEntriesByStatus .active
  let deleting ← CasStore.listCatalogEntriesByStatus .deleting
  CasStore.close
  let pinnedIds := (active.filter fun e => e.pinned).map fun e => e.generationId
  let view : OrphanView :=
    ⟨(active ++ deleting).map fun e => e.generationId, activeGenerationId.toList ++ pinnedIds⟩
  orFail (op .io) .gcSafetyRefusal
  let entries : List GenName ← orFail (op .readdirGenerations) .gcSafetyRefusal
  let files ← planOrphans view options.promotionTempGraceMs entries
  let handle : ℕ ← op (.registerOrphanPlan
    ⟨files ++ planRecover view activeGenerationId, activeGenerationId, casRevision⟩)
  pure handle

/-! ## Applying a plan -/

/-- What became of one entry. -/
inductive OrphanOutcome where
  | deletedTemp
  | deletedFinal
  | casRecovered
  | retained
  deriving DecidableEq, Repr

/-- Roll back and keep the entry. -/
def retain : StoreM σ OrphanOutcome := do
  CasStore.rollback
  pure .retained

/-- The transaction that removes a temporary, if it is still the file that was planned. -/
def removeTempTransaction (n : GenName) (identity : Option Stat) : StoreM σ OrphanOutcome := do
  CasStore.beginImmediate
  let stLocked : Stat ← op (.lstat n)
  if identity.any (fun i => i ≠ stLocked) then retain
  else do
    op (.unlink n)
    CasStore.commit
    pure .deletedTemp

/-- Remove a temporary under the CAS lock. -/
def removeTempUnderLock (n : GenName) (identity : Option Stat) : StoreM σ OrphanOutcome := do
  orFail (op .io) .publicationCasStateCorrupt
  let outcome ← tryCatch (removeTempTransaction n identity) fun _ => retain
  CasStore.close
  pure outcome

/-- A promotion temp is also compared before the lock is taken. -/
def applyPromotionTemp (n : GenName) (identity : Option Stat) : StoreM σ OrphanOutcome :=
  tryCatch (do
      op .io
      let st : Stat ← op (.lstat n)
      if identity.any (fun i => i ≠ st) then pure .retained
      else removeTempUnderLock n identity)
    fun _ => pure .retained

def applyMetadataTemp (n : GenName) (identity : Option Stat) : StoreM σ OrphanOutcome :=
  tryCatch (do
      op .io
      removeTempUnderLock n identity)
    fun _ => pure .retained

/-- Remove a final file under the lock. Only a generation that is not active, not pinned, and
without a catalog row or already `DELETED`, may lose a file. -/
def removeFinalUnderLock (n : GenName) (g : GenerationId) (identity : Stat) :
    StoreM σ OrphanOutcome := do
  CasStore.beginImmediate
  op .io
  let lockedManifest : Option GenerationManifestV1 ← op .readManifest
  let catalogEntry ← CasStore.getGenerationCatalogEntry g
  let casActive ← CasStore.getActiveGenerationId
  if lockedManifest.map (·.generationId) = some g ∨ casActive = some g ∨
      catalogEntry.any (fun e => e.pinned) ∨ catalogEntry.any (fun e => e.status ≠ .deleted) then
    retain
  else do
    let st : Stat ← op (.lstat n)
    if st ≠ identity then retain
    else do
      op (.unlink n)
      op .io
      CasStore.commit
      pure .deletedFinal

/-- An orphaned final file, once its grace period is over. -/
def applyFinal (kind : OrphanKind) (g : GenerationId) (identity : Stat) (graceMs : ℕ) :
    StoreM σ OrphanOutcome := do
  let n := if kind = .metadataOnly then GenName.json g else GenName.db g
  let now : Timestamp ← op .now
  if now < identity.mtimeMs + graceMs then pure .retained
  else do
    orFail (op .io) .publicationCasStateCorrupt
    let outcome ← tryCatch (removeFinalUnderLock n g identity) fun _ => retain
    CasStore.close
    pure outcome

/-- The catalog row of an active generation that the catalog has lost. -/
def recoveredActiveEntry (g : GenerationId) (md : GenerationMetadataV1) (now : Timestamp) :
    CasGenerationCatalogEntry where
  generationId := g
  project := P.project
  sha256 := md.manifest.sha256
  sizeBytes := md.manifest.sizeBytes
  rootFingerprint := md.manifest.rootFingerprint
  extractorSemanticsVersion := md.manifest.extractorSemanticsVersion
  discoveryPolicyVersion := md.manifest.discoveryPolicyVersion
  firstPublishedAt := md.manifest.createdAt
  lastSeenAt := now
  pinned := md.pinned
  status := .active

/-- A row for the active generation, unless it has one. -/
def reenterCatalog (g : GenerationId) (md : GenerationMetadataV1) (now : Timestamp) :
    StoreM σ Unit := do
  match ← CasStore.getGenerationCatalogEntry g with
  | none => CasStore.upsertGenerationCatalog (recoveredActiveEntry P g md now)
  | some _ => pure ()

/-- Re-enter the active generation under the lock, if its files are still the verified ones. -/
def recoverActiveUnderLock (g : GenerationId) (md : GenerationMetadataV1)
    (dbIdentity metaIdentity : FileIdentity) : StoreM σ OrphanOutcome := do
  CasStore.beginImmediate
  match ← (op .readManifest).attempt with
  | .error _ => retain
  | .ok (lockedManifest : Option GenerationManifestV1) =>
    if lockedManifest.map (·.generationId) ≠ some g then retain
    else do
      let lockedDbStat : Stat ← op (.lstat (.db g))
      if (⟨lockedDbStat.ino, lockedDbStat.size⟩ : FileIdentity) ≠ dbIdentity then retain
      else do
        let lockedMetaStat : Stat ← op (.lstat (.json g))
        if (⟨lockedMetaStat.ino, lockedMetaStat.size⟩ : FileIdentity) ≠ metaIdentity then retain
        else do
          let now : Timestamp ← op .now
          reenterCatalog P g md now
          CasStore.setActiveGenerationId (some g)
          CasStore.appendPublicationHistory g P.project .recover none
          CasStore.commit
          pure .casRecovered

/-- The active manifest describes the content that the sidecar describes. -/
def activeMatches (am m : GenerationManifestV1) : Bool :=
  am.sha256 = m.sha256 && am.sizeBytes = m.sizeBytes && am.rootFingerprint = m.rootFingerprint &&
    am.extractorSemanticsVersion = m.extractorSemanticsVersion &&
    am.discoveryPolicyVersion = m.discoveryPolicyVersion

/-- Verify the files of the active generation and re-enter it into the CAS tables. -/
def recoverActive (g : GenerationId) : StoreM σ OrphanOutcome := do
  let dbStat : Stat ← op (.lstat (.db g))
  let metaStat : Stat ← op (.lstat (.json g))
  let md ← CasStore.readMetadata P (.json g)
  if dbStat.size ≠ md.manifest.sizeBytes then pure .retained
  else do
    let actualHash : Sha256 ← op (.hashFile (.db g))
    if actualHash ≠ md.manifest.sha256 ∨ md.manifest.generationId ≠ g then pure .retained
    else do
      match ← (op .readManifest).attempt with
      | .error _ => pure .retained
      | .ok none => pure .retained
      | .ok (some am : Option GenerationManifestV1) =>
        if am.generationId ≠ g ∨ activeMatches am md.manifest = false then pure .retained
        else do
          orFail (op .io) .publicationCasStateCorrupt
          let outcome ← tryCatch
            (recoverActiveUnderLock P g md ⟨dbStat.ino, dbStat.size⟩ ⟨metaStat.ino, metaStat.size⟩)
            fun _ => retain
          CasStore.close
          pure outcome

/-- Whatever fails before the transaction, the entry is kept. -/
def applyActiveNotInCatalog (g : GenerationId) : StoreM σ OrphanOutcome :=
  tryCatch (recoverActive P g) fun _ => pure .retained

/-- One entry of the plan. -/
def applyOrphan (graceMs : ℕ) (o : GenerationOrphanEntry) : StoreM σ OrphanOutcome :=
  match o.kind, o.path, o.generationId, o.identity with
  | .promotionTemp, some n, _, identity => applyPromotionTemp n identity
  | .metadataTemp, some n, _, identity => applyMetadataTemp n identity
  | .activeNotInCatalog, _, some g, _ => applyActiveNotInCatalog P g
  | .notInCatalog, _, some g, some identity => applyFinal .notInCatalog g identity graceMs
  | .dbOnly, _, some g, some identity => applyFinal .dbOnly g identity graceMs
  | .metadataOnly, _, some g, some identity => applyFinal .metadataOnly g identity graceMs
  | _, _, _, _ => pure .retained

def applyOrphans (graceMs : ℕ) :
    List GenerationOrphanEntry → StoreM σ (List (GenerationOrphanEntry × OrphanOutcome))
  | [] => pure []
  | o :: os => do
    let outcome ← applyOrphan P graceMs o
    let rest ← applyOrphans graceMs os
    pure ((o, outcome) :: rest)

/-- Apply a recovery plan, unless the CAS revision or the active manifest has changed since. Returns
what became of each entry; `none` when the plan is stale. -/
def applyGenerationOrphanRecovery (handle : ℕ) (options : GenerationGcOptions) :
    StoreM σ (Option (List (GenerationOrphanEntry × OrphanOutcome))) := do
  match ← op (.orphanPlan handle) with
  | none => fail .gcPlanUnauthenticated
  | some (plan : GenerationOrphanPlan) => do
    orFail (op .io) .publicationCasStateCorrupt
    let currentCasRevision ← CasStore.getRevision
    CasStore.close
    if currentCasRevision ≠ plan.casRevision then pure none
    else do
      match ← (op .readManifest).attempt with
      | .error _ => pure none
      | .ok (m : Option GenerationManifestV1) =>
        if m.map (·.generationId) ≠ plan.activeGenerationId then pure none
        else do
          orFail (op .io) .pathTraversalRejected
          let outcomes ← applyOrphans P options.promotionTempGraceMs plan.orphans
          bestEffort (op .io)
          pure (some outcomes)

end Ariad
