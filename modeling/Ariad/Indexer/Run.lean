import Ariad.Indexer.Operations

/-!
# One run of the indexer

`indexProjectWasm` as a program over the operations.

* `markProjectStalePreservingGraph`, `rootChangedRefusal`, `rootIdentityUnknownRefusal` — the refusals.
* `extractFromFilesWasm`, `indexParallel` — the extraction.
* `noOpPath`, `deletionOnlyPath`, `mainPath` — the ways a run can end that was not refused.
* `indexProjectWasm` — the whole run.
-/

namespace Ariad

variable {φ χ δ : Type}

/-- The program of a run. -/
abbrev IndexM (φ χ δ : Type) := Proc (IndexOp φ χ δ) IndexOp.Val IndexFault IndexFault PUnit

/-- One operation; it raises when it fails. -/
def IndexM.perform (o : IndexOp φ χ δ) : IndexM φ χ δ o.Val := Proc.perform id o

def IndexM.query (r : DbRead φ) : IndexM φ χ δ (r.Val φ δ) := IndexM.perform (.read r)

def IndexM.execute (w : DbWrite φ χ δ) : IndexM φ χ δ Bool := IndexM.perform (.write w)

namespace IndexM

def loadAliasHistory (fingerprint : φ) : IndexM φ χ δ (List AliasHistoryEntry) :=
  query (.loadAliasHistory fingerprint)

def selectProject : IndexM φ χ δ (Option (ProjectRow φ)) := query .selectProject

def existsRows (t : StructuralTable) : IndexM φ χ δ Bool := query (.existsRows t)

def loadBulkHashMeta : IndexM φ χ δ (List (FileHash φ δ)) := query .loadBulkHashMeta

def selectHash (p : RelPath) : IndexM φ χ δ (Option (FileHash φ δ)) := query (.selectHash p)

def selectIndexedPaths : IndexM φ χ δ (List RelPath) := query .selectIndexedPaths

def selectCallers (paths : List RelPath) : IndexM φ χ δ (List RelPath) := query (.selectCallers paths)

def statFile (p : AbsPath) : IndexM φ χ δ FileMeta := perform (.statFile p)

def readFile (p : AbsPath) : IndexM φ χ δ χ := perform (.readFile p)

/-- Write under a condition. -/
def executeIf (b : Bool) (w : DbWrite φ χ δ) : IndexM φ χ δ PUnit :=
  if b then do
    let _ ← execute w
    pure ⟨⟩
  else pure ⟨⟩

/-- Do something for every element, in order. -/
def forEach {α β : Type} (f : α → IndexM φ χ δ β) : List α → IndexM φ χ δ (List β)
  | [] => pure []
  | a :: as => do
    let b ← f a
    let bs ← forEach f as
    pure (b :: bs)

end IndexM

open IndexM

/-! ## Options and results -/

/-- The root, as `assertDiscoveryRoot` resolves it, with its fingerprint. -/
structure Root (φ : Type) where
  path : AbsPath
  fingerprint : φ

structure IndexOptions (φ : Type) where
  incremental : Bool
  root : Root φ
  cfg : DiscoveryConfig
  workers : ℕ
  runId : ℕ
  /-- The platform is certified and publication is not disabled by the environment. -/
  publication : Bool

inductive IndexOutcome where
  | SUCCESS
  | SUCCESS_WITH_WARNINGS
  | STALE
  | PARTIAL
  | FAILED
  deriving DecidableEq, Repr

inductive StaleCode where
  | DISCOVERY_UNCERTAIN
  | HISTORICAL_ALIAS_BROKEN
  | COLD_START_LOCK
  | SEMANTICS_MISMATCH
  | PREVIOUSLY_STALE
  | PERSIST_FAILURE
  | ROOT_CHANGED
  | ROOT_IDENTITY_UNKNOWN
  deriving DecidableEq, Repr

inductive Recovery where
  | retry_incremental
  | fix_filesystem
  | full_reindex
  | none
  deriving DecidableEq, Repr

inductive FailureCode where
  | ROOT_ERROR
  | DISCOVERY_ERROR
  | DISCOVERY_PARTIAL
  | PERSIST_FAILURE
  | EXTRACTION_CRASH
  | DB_ERROR
  deriving DecidableEq, Repr

inductive PublicationStatus where
  | published
  | skipped
  | failed
  deriving DecidableEq, Repr

/-- The result of a run, less its counts and texts. -/
structure IndexResult where
  crossFileCallsStale : Bool
  outcome : IndexOutcome
  errors : List RelPath := []
  staleReason : Option StaleCode := none
  recovery : Option Recovery := none
  failure : Option FailureCode := none
  preservedSnapshot : Option Bool := none
  publishedSnapshotPreserved : Option Bool := none
  generationPublication : Option PublicationStatus := none

def computeOutcome (hasErrors crossFileCallsStale hasWarnings aborted : Bool) : IndexOutcome :=
  if hasErrors then
    if aborted then .FAILED else .PARTIAL
  else if crossFileCallsStale then .STALE
  else if hasWarnings then .SUCCESS_WITH_WARNINGS
  else .SUCCESS

/-- The reason for a stale graph and the advice, by priority. -/
def classifyStaleReason (semanticsStale hasEffectiveHistoricalBrokenAliases coldStartLock
    hasUncertainty existingStale hasExtractionErrors callSitesInitialized : Bool) :
    Option (StaleCode × Recovery) :=
  if coldStartLock then some (.COLD_START_LOCK, .fix_filesystem)
  else if hasEffectiveHistoricalBrokenAliases then some (.HISTORICAL_ALIAS_BROKEN, .fix_filesystem)
  else if semanticsStale then some (.SEMANTICS_MISMATCH, .full_reindex)
  else if hasUncertainty then some (.DISCOVERY_UNCERTAIN, .retry_incremental)
  else if hasExtractionErrors then none
  else if !callSitesInitialized then some (.PREVIOUSLY_STALE, .full_reindex)
  else if existingStale then some (.PREVIOUSLY_STALE, .full_reindex)
  else none

/-! ## What a run knows after discovery -/

/-- `detectLanguage`, by the name of the file. -/
def languageOfName (cfg : DiscoveryConfig) (name : String) : Option String :=
  let ext := cfg.toLowerCase (extname name)
  if ext = ".dockerfile" ∨ cfg.toLowerCase name = "dockerfile" then some "dockerfile"
  else EXT_TO_LANG.lookup ext

/-- What the run has learned before it writes: the discovery, and what it read of the project. -/
structure Survey (φ : Type) where
  opts : IndexOptions φ
  discovery : Discovery
  input : DeletionInput
  /-- Read by an incremental run only. -/
  projectState : Option (ProjectRow φ)

namespace Survey

variable (v : Survey φ)

def rootPath : AbsPath := v.opts.root.path

def relPath (f : AbsPath) : RelPath := relative v.rootPath f

/-- Broken aliases whose old target is protected. -/
def effectiveHistoricalBrokenAliases : List AliasHistoryEntry :=
  (v.discovery.historicalBrokenAliases v.input).filter fun a =>
    match a.targetKind with
    | .directory =>
      (v.discovery.protectedSubtrees v.rootPath v.input).contains a.canonicalTarget
    | .file => (v.discovery.protectedPaths v.rootPath v.input).contains a.canonicalTarget

def hasEffectiveHistoricalBrokenAliases : Bool := !v.effectiveHistoricalBrokenAliases.isEmpty

def hasUncertainty : Bool :=
  !v.discovery.uncertainPaths.isEmpty || !v.discovery.uncertainSubtrees.isEmpty ||
    v.discovery.effectiveGlobalDeletionUncertainty v.input || v.hasEffectiveHistoricalBrokenAliases

def existingStale : Bool := (v.projectState.bind ProjectRow.crossFileCallsStale) = some 1

def existingInitialized : Bool := (v.projectState.bind ProjectRow.callSitesInitialized) = some 1

def existingSemanticsVersion : ℤ :=
  (v.projectState.bind ProjectRow.extractorSemanticsVersion).getD 0

def publishedRootFingerprint : Option φ := v.projectState.bind ProjectRow.rootFingerprint

def semanticsStale : Bool :=
  v.opts.incremental && v.existingSemanticsVersion ≠ CURRENT_EXTRACTOR_SEMANTICS_VERSION

def rootChanged [DecidableEq φ] : Bool :=
  v.opts.incremental && v.publishedRootFingerprint.isSome &&
    v.publishedRootFingerprint ≠ some v.opts.root.fingerprint

def rootIdentityUnknown : Bool :=
  v.opts.incremental && v.publishedRootFingerprint.isNone && v.input.hasExistingGraphData

def hasWarnings : Bool := !v.discovery.warnings.isEmpty

/-- The resolved aliases that stand for a file that is indexed, or for a directory with one. -/
def contributiveAliases : List ResolvedAlias :=
  v.discovery.resolvedAliases.filter fun a =>
    match a.targetKind with
    | .file => (languageOfName v.opts.cfg (a.canonicalTarget.getLast?.getD "")).isSome
    | .directory => v.discovery.files.any fun f => atOrUnder a.canonicalTarget (v.relPath f)

def liveAliasPaths : List RelPath :=
  v.contributiveAliases.map ResolvedAlias.aliasPath ++ v.discovery.brokenAliases.map Prod.fst

/-- The reason and the advice of a run that ends stale. -/
def classify (hasExtractionErrors callSitesInitialized : Bool) : Option (StaleCode × Recovery) :=
  classifyStaleReason v.semanticsStale v.hasEffectiveHistoricalBrokenAliases
    (v.discovery.coldStartLock v.input) v.hasUncertainty v.existingStale hasExtractionErrors
    callSitesInitialized

end Survey

/-! ## Refusals -/

/-- Mark the project stale and keep its rows. Every error is swallowed. -/
def markProjectStalePreservingGraph : IndexM φ χ δ PUnit := do
  let _ ← Proc.attempt do
    match ← selectProject with
    | none => pure ()
    | some existing =>
      let _ ← execute (.markTx (existing.extractorSemanticsVersion.getD 0))
      pure ()
  pure ⟨⟩

def refusedFor (code : FailureCode) (recovery : Recovery) : IndexResult where
  crossFileCallsStale := true
  outcome := .FAILED
  failure := some code
  recovery := some recovery

/-- A full run that cannot tell what is absent. -/
def Survey.uncertainRefusal (v : Survey φ) : IndexResult where
  crossFileCallsStale := true
  outcome := .STALE
  staleReason := some <|
    if v.discovery.coldStartLock v.input then .COLD_START_LOCK
    else if v.hasEffectiveHistoricalBrokenAliases then .HISTORICAL_ALIAS_BROKEN
    else .DISCOVERY_UNCERTAIN
  recovery := some <|
    if v.discovery.coldStartLock v.input || v.hasEffectiveHistoricalBrokenAliases then .fix_filesystem
    else .retry_incremental

/-- The stored row was certified, and there are nodes and hashes. -/
def Survey.hasPublishedSnapshot (v : Survey φ) : IndexM φ χ δ Bool :=
  match v.projectState with
  | none => pure false
  | some row =>
    if row.hasLastSuccessfulIndexAt && row.crossFileCallsStale = some 0 then do
      if ← existsRows (.rows .nodes) then existsRows .fileHashes
      else pure false
    else pure false

/-- How the attempt to mark the project stale ended. -/
inductive Persisted where
  | stalePersisted
  | persistFailure
  | concurrentUpdate
  | concurrentPublishedCurrentRoot
  deriving DecidableEq, Repr

/-- The stored fingerprint is that of another root. -/
def Survey.persistRootChanged [DecidableEq φ] (v : Survey φ) (published : φ) :
    IndexM φ χ δ Persisted := do
  let r ← Proc.attempt do
    if ← execute (.markStale (.fingerprintIs published)) then pure Persisted.stalePersisted
    else
      match ← selectProject with
      | none => pure .persistFailure
      | some row =>
        if row.rootFingerprint = some v.opts.root.fingerprint then
          pure .concurrentPublishedCurrentRoot
        else pure .concurrentUpdate
  match r with
  | .ok p => pure p
  | .error _ => pure .persistFailure

def Survey.rootChangedResult (v : Survey φ) (hasPublishedSnapshot : Bool) : Persisted → IndexResult
  | .persistFailure =>
    { crossFileCallsStale := true
      outcome := .FAILED
      failure := some .PERSIST_FAILURE
      preservedSnapshot := some v.input.hasExistingGraphData
      publishedSnapshotPreserved := some hasPublishedSnapshot
      staleReason := some .ROOT_CHANGED
      recovery := some .none }
  | .concurrentPublishedCurrentRoot =>
    { crossFileCallsStale := false
      outcome := .STALE
      preservedSnapshot := some v.input.hasExistingGraphData
      publishedSnapshotPreserved := some (hasPublishedSnapshot || v.input.hasExistingGraphData)
      staleReason := some .ROOT_CHANGED
      recovery := some .none }
  | _ =>
    { crossFileCallsStale := true
      outcome := .STALE
      preservedSnapshot := some v.input.hasExistingGraphData
      publishedSnapshotPreserved := some hasPublishedSnapshot
      staleReason := some .ROOT_CHANGED
      recovery := some .full_reindex }

def Survey.rootChangedRefusal [DecidableEq φ] (v : Survey φ) (published : φ) :
    IndexM φ χ δ IndexResult := do
  let hasPublishedSnapshot ← v.hasPublishedSnapshot
  let p ← v.persistRootChanged published
  pure (v.rootChangedResult hasPublishedSnapshot p)

/-- There are rows, and no fingerprint says of which root. -/
def persistRootIdentityUnknown : IndexM φ χ δ Persisted := do
  let r ← Proc.attempt do
    if ← execute (.markStale .fingerprintIsNull) then pure Persisted.stalePersisted
    else
      match ← selectProject with
      | none => pure .persistFailure
      | some row =>
        if row.rootFingerprint.isSome && row.crossFileCallsStale = some 0 then
          pure .concurrentPublishedCurrentRoot
        else pure .persistFailure
  match r with
  | .ok p => pure p
  | .error _ => pure .persistFailure

def Survey.rootIdentityUnknownResult (v : Survey φ) (hasPublishedSnapshot : Bool) :
    Persisted → IndexResult
  | .concurrentPublishedCurrentRoot =>
    { crossFileCallsStale := false
      outcome := .STALE
      preservedSnapshot := some v.input.hasExistingGraphData
      publishedSnapshotPreserved := some true
      staleReason := some .ROOT_IDENTITY_UNKNOWN
      recovery := some .none }
  | .stalePersisted =>
    { crossFileCallsStale := true
      outcome := .STALE
      preservedSnapshot := some v.input.hasExistingGraphData
      publishedSnapshotPreserved := some hasPublishedSnapshot
      staleReason := some .ROOT_IDENTITY_UNKNOWN
      recovery := some .full_reindex }
  | _ =>
    { crossFileCallsStale := true
      outcome := .FAILED
      failure := some .PERSIST_FAILURE
      preservedSnapshot := some v.input.hasExistingGraphData
      publishedSnapshotPreserved := some hasPublishedSnapshot
      staleReason := some .ROOT_IDENTITY_UNKNOWN
      recovery := some .none }

def Survey.rootIdentityUnknownRefusal (v : Survey φ) : IndexM φ χ δ IndexResult := do
  let hasPublishedSnapshot ← v.hasPublishedSnapshot
  let p ← persistRootIdentityUnknown
  pure (v.rootIdentityUnknownResult hasPublishedSnapshot p)

/-! ## Extraction -/

/-- What becomes of one file. -/
inductive FileOutcome (χ δ : Type) where
  | skipped
  /-- The content is as stored; only the row of `file_hashes` is written. -/
  | metadataOnly (u : HashUpdate δ)
  | extracted (u : FileUpdate χ δ)
  | failed (p : RelPath)

namespace FileOutcome

def updates (os : List (FileOutcome χ δ)) : List (FileUpdate χ δ) :=
  os.filterMap fun
    | .extracted u => some u
    | _ => none

def hashUpdates (os : List (FileOutcome χ δ)) : List (HashUpdate δ) :=
  os.filterMap fun
    | .metadataOnly u => some u
    | _ => none

def errors (os : List (FileOutcome χ δ)) : List RelPath :=
  os.filterMap fun
    | .failed p => some p
    | _ => none

end FileOutcome

/-- What an extraction returns. -/
structure ExtractionResult where
  files : ℕ
  errors : List RelPath
  crossFileCallsResolved : Bool

/-- The stored metadata vouches for the content. -/
def fastSkippable (stored : Option (FileHash φ δ)) (m : FileMeta) : Bool :=
  match stored with
  | some h => h.mtimeNs = some m.mtimeNs && h.size = m.size
  | none => false

section

variable [DecidableEq φ] [DecidableEq δ] (X : Extractor φ χ δ)

/-- A file whose text has been read. -/
def extractContent (u : FileUpdate χ δ) : FileOutcome χ δ :=
  if X.extracts u.path u.content then .extracted u else .failed u.path

def readHash (rel : RelPath) (m : FileMeta) (content : χ) : HashUpdate δ :=
  ⟨rel, X.sha256 content, m.mtimeNs, m.size⟩

/-- One file of `extractFromFilesWasm`; `cache` is what a full run has read before. -/
def Survey.extractFile (v : Survey φ) (cache : List (AbsPath × χ)) (f : AbsPath) :
    IndexM φ χ δ (FileOutcome χ δ) :=
  let rel := v.relPath f
  tryCatch (do
    let m ← statFile f
    if v.opts.incremental then
      match ← selectHash rel with
      | some existing =>
        if fastSkippable (some existing) m then pure .skipped
        else do
          let content ← readFile f
          let h := readHash X rel m content
          if existing.contentHash = h.hash then pure (.metadataOnly h)
          else pure (extractContent X ⟨h, content⟩)
      | none =>
        let content ← readFile f
        pure (extractContent X ⟨readHash X rel m content, content⟩)
    else
      match cache.lookup f with
      | some content => pure (extractContent X ⟨readHash X rel m content, content⟩)
      | none => pure (.failed rel)) fun _ => pure (.failed rel)

/-- A full run reads every file before it looks at any. -/
def prefetch (files : List AbsPath) : IndexM φ χ δ (List (AbsPath × χ)) := do
  let contents ← forEach (fun f => do
    let r ← Proc.attempt (readFile f)
    pure (r.toOption.map fun content => (f, content))) files
  pure (contents.filterMap id)

/-- What is in memory when the files are looked at. -/
def Survey.fileContents (v : Survey φ) : IndexM φ χ δ (List (AbsPath × χ)) :=
  if v.opts.incremental then pure [] else prefetch v.discovery.files

def Survey.extractFromFilesWasm (v : Survey φ) : IndexM φ χ δ ExtractionResult := do
  if v.discovery.files.isEmpty then pure ⟨0, [], false⟩
  else
    let cache ← v.fileContents
    let os ← forEach (v.extractFile X cache) v.discovery.files
    let resolved ← execute (.extractionTx v.opts.incremental v.opts.root.fingerprint
      (FileOutcome.updates os) (FileOutcome.hashUpdates os))
    pure ⟨(FileOutcome.updates os).length, FileOutcome.errors os, resolved⟩

/-- `resolveFileStat`: what discovery saw, or else `stat`. -/
def Survey.resolveFileStat (v : Survey φ) (f : AbsPath) : IndexM φ χ δ FileMeta :=
  match v.discovery.fileStats.lookup f with
  | some st => pure ⟨st.mtimeNs, st.size⟩
  | none => statFile f

/-- What the main thread makes of a file before the workers start. -/
inductive SkipOutcome (δ : Type) where
  | skipped
  | metadataOnly (u : HashUpdate δ)
  /-- A worker is to extract the file; an incremental run has the row of `file_hashes` ready. -/
  | index (f : AbsPath) (pending : Option (HashUpdate δ))

/-- One file in the skip pass of `indexParallel`. -/
def Survey.skipPass (v : Survey φ) (bulkMeta : List (FileHash φ δ)) (f : AbsPath) :
    IndexM φ χ δ (SkipOutcome δ) :=
  let rel := v.relPath f
  if v.opts.incremental then do
    let m ← v.resolveFileStat f
    if fastSkippable (bulkMeta.find? fun h => h.path = rel) m then pure .skipped
    else
      let existing ← selectHash rel
      let content ← readFile f
      let h := readHash X rel m content
      match existing with
      | some row => if row.contentHash = h.hash then pure (.metadataOnly h) else pure (.index f (some h))
      | none => pure (.index f (some h))
  else pure (.index f none)

namespace SkipOutcome

def toIndex (os : List (SkipOutcome δ)) : List (AbsPath × Option (HashUpdate δ)) :=
  os.filterMap fun
    | .index f pending => some (f, pending)
    | _ => none

def hashUpdates (os : List (SkipOutcome δ)) : List (HashUpdate δ) :=
  os.filterMap fun
    | .metadataOnly u => some u
    | _ => none

/-- `allPendingChangedRelPaths`. -/
def changed (os : List (SkipOutcome δ)) : List RelPath :=
  (toIndex os).filterMap fun x => x.2.map HashUpdate.path

end SkipOutcome

/-- One file in a worker: it is read, and then `stat` is asked. -/
def Survey.workerFile (v : Survey φ) (x : AbsPath × Option (HashUpdate δ)) :
    IndexM φ χ δ (FileOutcome χ δ) :=
  let rel := v.relPath x.1
  tryCatch (do
    let content ← readFile x.1
    let m ← statFile x.1
    pure (extractContent X ⟨x.2.getD (readHash X rel m content), content⟩)) fun _ => pure (.failed rel)

/-- The files that are resolved anew: those that changed, and the callers of these. -/
def scopedFiles (incremental : Bool) (changed : List RelPath) :
    IndexM φ χ δ (Option (List RelPath)) :=
  if incremental && !changed.isEmpty && changed.length ≤ 2000 then do
    let callers ← selectCallers changed
    pure (some (changed ++ callers).dedup)
  else pure none

/-- The stored metadata of every file, for an incremental run. -/
def Survey.bulkMeta (v : Survey φ) : IndexM φ χ δ (List (FileHash φ δ)) :=
  if v.opts.incremental then loadBulkHashMeta else pure []

def Survey.indexParallel (v : Survey φ) : IndexM φ χ δ ExtractionResult := do
  let root := v.opts.root.fingerprint
  let incremental := v.opts.incremental
  let bulkMeta ← v.bulkMeta
  let os ← forEach (v.skipPass X bulkMeta) v.discovery.files
  let metadataOnly := SkipOutcome.hashUpdates os
  if (SkipOutcome.toIndex os).isEmpty then
    executeIf (!metadataOnly.isEmpty) (.metadataTx root metadataOnly)
    pure ⟨0, [], false⟩
  else
    let scope ← scopedFiles incremental (SkipOutcome.changed os)
    let row ← selectProject
    let initialized := (row.bind ProjectRow.callSitesInitialized) = some 1
    let rs ← forEach (v.workerFile X) (SkipOutcome.toIndex os)
    let resolved ← execute (.streamingTx incremental root (FileOutcome.updates rs) metadataOnly
      initialized scope)
    pure ⟨(FileOutcome.updates rs).length, FileOutcome.errors rs, resolved⟩

end

/-! ## The ways to end -/

section

variable [DecidableEq φ] [DecidableEq δ] (X : Extractor φ χ δ)

/-- Write the final trust state of a certified run. -/
def Survey.commit (v : Survey φ) (callSitesInitialized : Bool) (extractorSemanticsVersion : ℤ) :
    IndexM φ χ δ Bool :=
  execute (.commitAliasStateAtomically v.rootPath callSitesInitialized extractorSemanticsVersion
    v.opts.root.fingerprint v.opts.runId v.contributiveAliases v.liveAliasPaths)

/-- Mark the project stale as far as that goes. -/
def bestEffortStale : IndexM φ χ δ PUnit := do
  let _ ← Proc.attempt (execute (.markStale .always))
  pure ⟨⟩

def publicationFailed (errors : List RelPath) : IndexResult where
  crossFileCallsStale := true
  outcome := .FAILED
  errors := errors
  staleReason := some .PERSIST_FAILURE
  recovery := some .retry_incremental
  failure := some .PERSIST_FAILURE

/-- The result of a run that wrote its trust state. -/
def Survey.finished (v : Survey φ) (stale : Bool) (callSitesInitialized : Bool) : IndexResult :=
  let classified := if stale then v.classify false callSitesInitialized else none
  { crossFileCallsStale := stale
    outcome := computeOutcome false stale v.hasWarnings false
    staleReason := classified.map Prod.fst
    recovery := classified.map Prod.snd }

/-- Every file is as stored and nothing was deleted. -/
def Survey.noOpPath (v : Survey φ) : IndexM φ χ δ IndexResult := do
  let noOpStale := v.existingStale || v.semanticsStale || v.hasUncertainty
  let _ ← execute (.noOpTx v.semanticsStale noOpStale v.rootPath v.existingInitialized
    v.existingSemanticsVersion noOpStale)
  if noOpStale then pure (v.finished true v.existingInitialized)
  else
    match ← Proc.attempt (v.commit v.existingInitialized v.existingSemanticsVersion) with
    | .ok _ => pure (v.finished false v.existingInitialized)
    | .error _ =>
      bestEffortStale
      pure (publicationFailed [])

/-- Whether a run of the deletion-only path ends stale. -/
def Survey.deletionStale (v : Survey φ) (callSitesInitialized crossFileResolved : Bool) : Bool :=
  if v.semanticsStale || v.hasUncertainty then true
  else if crossFileResolved then false
  else if callSitesInitialized then v.existingStale
  else true

/-- Every file is as stored and some were deleted. -/
def Survey.deletionOnlyPath (v : Survey φ) (deletedRelPaths : List RelPath) :
    IndexM φ χ δ IndexResult := do
  let _ ← execute (.premark v.rootPath)
  let row ← selectProject
  let callSitesInitialized := (row.bind ProjectRow.callSitesInitialized) = some 1
  let crossFileResolved ← execute (.cleanupTx deletedRelPaths v.semanticsStale callSitesInitialized)
  if v.deletionStale callSitesInitialized crossFileResolved then
    let _ ← execute (.updateProjectStats v.rootPath true callSitesInitialized
      v.existingSemanticsVersion (v.semanticsStale || v.hasUncertainty))
    pure (v.finished true callSitesInitialized)
  else
    match ← Proc.attempt (v.commit callSitesInitialized v.existingSemanticsVersion) with
    | .ok _ => pure (v.finished false callSitesInitialized)
    | .error _ =>
      bestEffortStale
      pure (publicationFailed [])

/-- Whether a run of the main path ends stale. -/
def Survey.mainStale (v : Survey φ) (deletedRelPaths : List RelPath) (result : ExtractionResult) :
    Bool :=
  if v.opts.incremental then
    if v.semanticsStale || !result.errors.isEmpty || v.hasUncertainty then true
    else if result.crossFileCallsResolved then false
    else v.existingStale || 0 < result.files || !deletedRelPaths.isEmpty
  else !result.errors.isEmpty

/-- `generationPublicationDecision`, then the publication. A failure is a warning. -/
def Survey.publish (v : Survey φ) (hasErrors crossFileStale : Bool) :
    IndexM φ χ δ PublicationStatus :=
  if v.opts.publication && !hasErrors && !crossFileStale then do
    match ← Proc.attempt (perform .publishGenerationSnapshot) with
    | .ok _ => pure .published
    | .error _ => pure .failed
  else pure .skipped

/-- The end of the main path, once the trust state is written. -/
def Survey.conclude (v : Survey φ) (result : ExtractionResult) (crossFileStale : Bool)
    (callSitesInitialized : Bool) : IndexM φ χ δ IndexResult := do
  let classified :=
    if crossFileStale then v.classify (!result.errors.isEmpty) callSitesInitialized else none
  let publication ← v.publish (!result.errors.isEmpty) crossFileStale
  let hasWarnings := v.hasWarnings || publication = .failed
  pure
    { crossFileCallsStale := crossFileStale
      outcome := computeOutcome (!result.errors.isEmpty) crossFileStale hasWarnings false
      errors := result.errors
      staleReason := classified.map Prod.fst
      recovery := (classified.map Prod.snd) <|>
        if crossFileStale then some .retry_incremental else none
      generationPublication := some publication }

/-- The main path behind the extraction. -/
def Survey.afterExtraction (v : Survey φ) (deletedRelPaths : List RelPath)
    (result : ExtractionResult) : IndexM φ χ δ IndexResult := do
  executeIf (v.opts.incremental && !deletedRelPaths.isEmpty)
    (.deleteTx deletedRelPaths v.semanticsStale)
  let crossFileStale := v.mainStale deletedRelPaths result
  let callSitesInitialized :=
    if v.opts.incremental then v.existingInitialized else result.errors.isEmpty
  let semanticsVersion :=
    if v.opts.incremental then v.existingSemanticsVersion
    else if result.errors.isEmpty then CURRENT_EXTRACTOR_SEMANTICS_VERSION
    else 0
  if crossFileStale then
    let hasIndexError := !result.errors.isEmpty || v.hasUncertainty || v.semanticsStale
    let _ ← execute (.updateProjectStats v.rootPath true callSitesInitialized semanticsVersion
      hasIndexError)
    v.conclude result true callSitesInitialized
  else
    match ← Proc.attempt (v.commit callSitesInitialized semanticsVersion) with
    | .ok _ => v.conclude result false callSitesInitialized
    | .error _ =>
      bestEffortStale
      pure (publicationFailed result.errors)

/-- What a run of the main path ends with when something was raised. -/
def Survey.crashed (v : Survey φ) (code : FailureCode) : IndexM φ χ δ IndexResult := do
  bestEffortStale
  pure (refusedFor code (if v.opts.incremental then .retry_incremental else .full_reindex))

def Survey.extract (v : Survey φ) (useParallel : Bool) : IndexM φ χ δ ExtractionResult :=
  if useParallel then v.indexParallel X else v.extractFromFilesWasm X

def Survey.mainPath (v : Survey φ) (useParallel : Bool) (deletedRelPaths : List RelPath) :
    IndexM φ χ δ IndexResult := do
  match ← Proc.attempt (v.extract X useParallel) with
  | .error _ => v.crashed .EXTRACTION_CRASH
  | .ok result =>
    tryCatch (v.afterExtraction deletedRelPaths result) fun _ => v.crashed .DB_ERROR

/-- The number of files that are not as stored, by their metadata. -/
def Survey.estimatedFilesToIndex (v : Survey φ) : IndexM φ χ δ ℕ :=
  if v.opts.incremental then do
    let bulkMeta ← loadBulkHashMeta
    let skips ← forEach (fun f => do
      let m ← v.resolveFileStat f
      pure (fastSkippable (bulkMeta.find? fun h => h.path = v.relPath f) m)) v.discovery.files
    pure (skips.count false)
  else pure v.discovery.files.length

def Survey.readDeletedRelPaths (v : Survey φ) : IndexM φ χ δ (List RelPath) :=
  if v.opts.incremental then do
    let indexedPaths ← selectIndexedPaths
    pure (v.discovery.deletedRelPaths v.rootPath { v.input with indexedPaths := indexedPaths })
  else pure []

/-- A run that was not refused. -/
def Survey.index (v : Survey φ) : IndexM φ χ δ IndexResult := do
  let _ ← execute (.premark v.rootPath)
  let estimated ← v.estimatedFilesToIndex
  let useParallel := decide (1 < v.opts.workers ∧ 20 < estimated)
  executeIf (!v.opts.incremental && !useParallel) .clearProjectData
  let deletedRelPaths ← v.readDeletedRelPaths
  if v.opts.incremental && estimated = 0 then
    if deletedRelPaths.isEmpty then v.noOpPath
    else v.deletionOnlyPath deletedRelPaths
  else v.mainPath X useParallel deletedRelPaths

/-! ## The whole run -/

/-- The row says that the alias history is initialised under the current policy. -/
def bootstrapComplete (row : Option (ProjectRow φ)) : Bool :=
  (row.bind ProjectRow.aliasHistoryInitialized) = some 1 &&
    CURRENT_DISCOVERY_POLICY_VERSION ≤ (row.bind ProjectRow.discoveryPolicyVersion).getD 0

/-- Whether one of the tables has a row; the first one found settles it. -/
def existsAny : List StructuralTable → IndexM φ χ δ Bool
  | [] => pure false
  | t :: ts => do
    if ← existsRows t then pure true else existsAny ts

def structuralTables : List StructuralTable :=
  [.rows .nodes, .fileHashes, .rows .edges, .rows .callSites, .rows .imports, .rows .exports]

/-- The run behind the gates on the root: refuse, or index. -/
def Survey.admitted (v : Survey φ) : IndexM φ χ δ IndexResult :=
  match v.publishedRootFingerprint with
  | some published =>
    if v.rootChanged then v.rootChangedRefusal published else v.index X
  | none => if v.rootIdentityUnknown then v.rootIdentityUnknownRefusal else v.index X

def IndexOptions.readProjectState (opts : IndexOptions φ) : IndexM φ χ δ (Option (ProjectRow φ)) :=
  if opts.incremental then selectProject else pure none

/-- A run with a complete discovery. -/
def surveyAndIndex (opts : IndexOptions φ) (discovery : Discovery)
    (aliasHistory : List AliasHistoryEntry) : IndexM φ χ δ IndexResult := do
  let bootstrap ← selectProject
  let hasExistingGraphData ← existsAny structuralTables
  let v : Survey φ := ⟨opts, discovery,
    ⟨[], aliasHistory, bootstrapComplete bootstrap, hasExistingGraphData⟩, none⟩
  if !opts.incremental && v.hasUncertainty && !opts.cfg.tolerant then
    markProjectStalePreservingGraph
    pure v.uncertainRefusal
  else
    let projectState ← opts.readProjectState
    { v with projectState := projectState }.admitted X

def indexProjectWasm (opts : IndexOptions φ) : IndexM φ χ δ IndexResult := do
  match ← Proc.attempt (perform (.assertDiscoveryRoot opts.root.path)) with
  | .error _ =>
    markProjectStalePreservingGraph
    pure (refusedFor .ROOT_ERROR .fix_filesystem)
  | .ok _ =>
    match ← Proc.attempt (perform (.discoverSourceFiles opts.cfg opts.root.path)) with
    | .error _ =>
      markProjectStalePreservingGraph
      pure (refusedFor .DISCOVERY_ERROR .fix_filesystem)
    | .ok discovery =>
      let aliasHistory ← loadAliasHistory opts.root.fingerprint
      if !discovery.complete then
        markProjectStalePreservingGraph
        pure (refusedFor .DISCOVERY_PARTIAL .retry_incremental)
      else surveyAndIndex X opts discovery aliasHistory

end

end Ariad
