import Mathlib.Data.Nat.Notation

/-!
# The data of the generation store

The records that the generation store reads and writes (`generation-types.ts`), for one project
store. A generation is an immutable database file `generations/generation-<id>.db` with a metadata
sidecar `generations/generation-<id>.json`; `active-generation.json` (the **manifest**) names the
generation that readers use.

* Generation ids and temp-file nonces are random UUIDs in the source. They are numbers here, and
  the only thing relied on is that `randomUUID` never returns the same one twice.
* Timestamps are ISO strings in the source, always in the same format, so that comparing them as
  strings is comparing the instants. They are numbers of milliseconds here.
* `dbFile` of a validated manifest is `generations/generation-<generationId>.db`, and nothing else
  is accepted; it is not a field here.
-/

namespace Ariad

/-- A canonical UUID. -/
abbrev GenerationId := ℕ

/-- Milliseconds since the epoch. -/
abbrev Timestamp := ℕ

/-- A SHA-256 digest (64 hex digits in the source). -/
abbrev Sha256 := BitVec 256

abbrev Bytes := List UInt8

/-- The active manifest: what `active-generation.json` says about the generation it names. -/
structure GenerationManifestV1 where
  formatVersion : ℕ
  project : String
  generationId : GenerationId
  createdAt : Timestamp
  rootFingerprint : String
  extractorSemanticsVersion : ℕ
  discoveryPolicyVersion : ℕ
  nodeCount : ℕ
  edgeCount : ℕ
  fileCount : ℕ
  sizeBytes : ℕ
  sha256 : Sha256
  deriving DecidableEq, Repr

/-- The metadata sidecar, written once for each generation and never overwritten. -/
structure GenerationMetadataV1 where
  formatVersion : ℕ
  manifest : GenerationManifestV1
  publishedAt : Timestamp
  deduped : Bool
  dedupSourceGenerationId : Option GenerationId
  previousActiveGenerationId : Option GenerationId
  pinned : Bool
  deriving DecidableEq, Repr

/-- Status of a catalogued generation. -/
inductive CatalogStatus where
  | active
  | deleting
  | deleted
  deriving DecidableEq, Repr

/-- The act a history row records. -/
inductive HistoryAction where
  | publish
  | unpublish
  | delete
  | pin
  | unpin
  | markDeleting
  | recover
  deriving DecidableEq, Repr

/-- Columns of `generation_catalog` that never change once the row is there. -/
structure CasImmutableColumns where
  generationId : GenerationId
  project : String
  sha256 : Sha256
  sizeBytes : ℕ
  rootFingerprint : String
  extractorSemanticsVersion : ℕ
  discoveryPolicyVersion : ℕ
  firstPublishedAt : Timestamp
  deriving DecidableEq, Repr

/-- Columns of `generation_catalog` that may be updated. -/
structure CasMutableColumns where
  lastSeenAt : Timestamp
  pinned : Bool
  status : CatalogStatus
  deriving DecidableEq, Repr

/-- A row of `generation_catalog`. -/
structure CasGenerationCatalogEntry extends CasImmutableColumns, CasMutableColumns where
  deriving DecidableEq, Repr

/-- A row of `publication_history`. -/
structure CasPublicationHistoryEntry where
  historyId : ℕ
  generationId : GenerationId
  project : String
  publishedAt : Timestamp
  action : HistoryAction
  previousActiveGenerationId : Option GenerationId
  casRevision : ℕ
  deriving DecidableEq, Repr

/-- What `reconcileFromManifest` returns. -/
structure CasReconcileResult where
  activeGenerationId : Option GenerationId
  revision : ℕ
  reconciled : Bool
  deriving DecidableEq, Repr

/-- Error codes of the generation store that the modelled code raises. -/
inductive ErrorCode where
  | publicationTokenInvalid
  | publicationTokenConsumed
  | publicationReservationInvalid
  | publicationStagingMutated
  | publicationCasBusy
  | publicationCasMismatch
  | publicationCasStateCorrupt
  | publicationVerifyFailed
  | stagingCreateFailed
  | stagingTargetInvalid
  | stagingDbInvalid
  | generationHashFailed
  | generationPromotionFailed
  | generationPromotionConflict
  | generationPromotionDurabilityUnknown
  | generationMetadataInvalid
  | atomicWriteFailed
  | atomicFsyncFailed
  | atomicRenameFailed
  | atomicDurabilityUnknown
  | pathTraversalRejected
  | manifestParseError
  | manifestTargetMissing
  | gcPlanUnauthenticated
  | gcSafetyRefusal
  deriving DecidableEq, Repr

/-- What a failing system call reports. -/
inductive Errno where
  | enoent
  | eexist
  | sqlite
  | eio
  deriving DecidableEq, Repr

/-- An exception: a raw system error, or a `GenerationStoreError` with its code. -/
inductive Err where
  | errno (e : Errno)
  | store (c : ErrorCode)
  deriving DecidableEq, Repr

/-- Largest sidecar a reader accepts (256 KiB). -/
def maxMetadataSidecarBytes : ℕ := 256 * 1024

/-- What `prepareGenerationForPublication` reads out of a staging database that passes its checks
(integrity, schema, project row, counts). -/
structure DatabaseFacts where
  rootFingerprint : String
  extractorSemanticsVersion : ℕ
  discoveryPolicyVersion : ℕ
  nodeCount : ℕ
  edgeCount : ℕ
  fileCount : ℕ
  deriving DecidableEq, Repr

/-- What the store depends on without computing it itself: the hash function, the text that
`JSON.stringify` makes of a sidecar, and the checks that SQLite makes on a staging database. -/
structure Platform where
  /-- The project whose store this is. -/
  project : String
  sha256 : Bytes → Sha256
  /-- The facts of a database that passes all checks for a publication. -/
  inspectDatabase : Bytes → Option DatabaseFacts
  metadataText : GenerationMetadataV1 → Bytes
  /-- A sidecar is never empty, and its bounded fields keep it under the readers' limit. -/
  metadataText_pos : ∀ m, 0 < (metadataText m).length
  metadataText_le : ∀ m, (metadataText m).length ≤ maxMetadataSidecarBytes

end Ariad
