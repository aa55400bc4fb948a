import Ariad.Concurrency.Pool
import Ariad.Indexer.CodeDb

/-!
# The operations of an index run

What a run asks of the file system and the database. Every statement or transaction outside a
transaction is one operation; any operation may fail, and between two operations files may be written
and other runs may act.

* `IndexWorld` — the files, the database, and the generation that is active for readers.
* `DbRead`, `DbWrite` — the statements and transactions.
* `IndexOp`, `IndexOp.exec` — the operations, and what they do to the world.
-/

namespace Ariad

variable {φ χ δ : Type}

/-! ## The world -/

/-- A file: its text and what `stat` says of it. -/
structure SourceFile (χ : Type) where
  content : χ
  mtimeNs : ℤ
  size : ℕ
  deriving DecidableEq

/-- The files, the database, and the generation that is active for readers. -/
structure IndexWorld (φ χ δ : Type) where
  disk : AbsPath → Option (SourceFile χ)
  db : CodeDb φ χ δ
  active : Option (CodeDb φ χ δ)

/-- What is not up to the run: whether the operation fails, which files are written before it, and what
a discovery gets to see. -/
structure IndexChoice (χ : Type) where
  fails : Bool
  writes : List (AbsPath × Option (SourceFile χ))
  fs : FileSystem
  fuel : ℕ

/-- What `stat` says of a file. -/
structure FileMeta where
  mtimeNs : ℤ
  size : ℕ
  deriving DecidableEq, Repr

/-- The tables that are asked for any row. -/
inductive StructuralTable where
  | rows (t : FileTable)
  | fileHashes
  deriving DecidableEq, Repr

/-- Whether the project has a row in the table. -/
def CodeDb.existsRows (db : CodeDb φ χ δ) : StructuralTable → Bool
  | .rows .edges => !(db.table .edges).isEmpty || !db.crossFileEdges.isEmpty
  | .rows t => !(db.table t).isEmpty
  | .fileHashes => !db.fileHashes.isEmpty

/-- `WHERE` of the updates that mark the project stale. -/
inductive MarkGuard (φ : Type) where
  | always
  | fingerprintIs (fingerprint : φ)
  | fingerprintIsNull
  deriving DecidableEq

/-- Statements that read. -/
inductive DbRead (φ : Type) where
  | loadAliasHistory (fingerprint : φ)
  | selectProject
  | existsRows (t : StructuralTable)
  | loadBulkHashMeta
  | selectHash (p : RelPath)
  | selectIndexedPaths
  /-- The files with a cross-file call into one of these. -/
  | selectCallers (paths : List RelPath)

def DbRead.Val (φ δ : Type) : DbRead φ → Type
  | .loadAliasHistory _ => List AliasHistoryEntry
  | .selectProject => Option (ProjectRow φ)
  | .existsRows _ => Bool
  | .loadBulkHashMeta => List (FileHash φ δ)
  | .selectHash _ => Option (FileHash φ δ)
  | .selectIndexedPaths => List RelPath
  | .selectCallers _ => List RelPath

/-- Statements and transactions that write. -/
inductive DbWrite (φ χ δ : Type) where
  | markStale (guard : MarkGuard φ)
  | markTx (storedVersion : ℤ)
  | premark (rootPath : AbsPath)
  | clearProjectData
  | noOpTx (semanticsStale noOpStale : Bool) (rootPath : AbsPath) (existingInitialized : Bool)
      (existingSemanticsVersion : ℤ) (hasIndexError : Bool)
  | cleanupTx (deletedRelPaths : List RelPath) (semanticsStale callSitesInitialized : Bool)
  | extractionTx (incremental : Bool) (root : φ) (updates : List (FileUpdate χ δ))
      (metadataOnly : List (HashUpdate δ))
  | metadataTx (root : φ) (metadataOnly : List (HashUpdate δ))
  | streamingTx (incremental : Bool) (root : φ) (updates : List (FileUpdate χ δ))
      (metadataOnly : List (HashUpdate δ)) (callSitesInitialized : Bool)
      (scope : Option (List RelPath))
  | deleteTx (deletedRelPaths : List RelPath) (semanticsStale : Bool)
  | updateProjectStats (rootPath : AbsPath) (crossFileCallsStale callSitesInitialized : Bool)
      (extractorSemanticsVersion : ℤ) (hasIndexError : Bool)
  | commitAliasStateAtomically (rootPath : AbsPath) (callSitesInitialized : Bool)
      (extractorSemanticsVersion : ℤ) (fingerprint : φ) (runId : ℕ)
      (resolvedAliases : List ResolvedAlias) (liveAliasPaths : List RelPath)

/-- The operations of a run, and the writes of an editor. -/
inductive IndexOp (φ χ δ : Type) where
  | assertDiscoveryRoot (rootPath : AbsPath)
  | discoverSourceFiles (cfg : DiscoveryConfig) (rootPath : AbsPath)
  | statFile (p : AbsPath)
  | readFile (p : AbsPath)
  | read (r : DbRead φ)
  | write (w : DbWrite φ χ δ)
  | publishGenerationSnapshot

def IndexOp.Val : IndexOp φ χ δ → Type
  | .assertDiscoveryRoot _ => Unit
  | .discoverSourceFiles _ _ => Discovery
  | .statFile _ => FileMeta
  | .readFile _ => χ
  | .read r => r.Val φ δ
  | .write _ => Bool
  | .publishGenerationSnapshot => Unit

/-- What an operation raises when it fails. -/
inductive IndexFault where
  | failed
  deriving DecidableEq, Repr

/-! ## What the operations do -/

section

variable [DecidableEq φ]

def MarkGuard.admits : MarkGuard φ → Option φ → Bool
  | .always, _ => true
  | .fingerprintIs fingerprint, fp => fp = some fingerprint
  | .fingerprintIsNull, fp => fp.isNone

def DbRead.run (db : CodeDb φ χ δ) : (r : DbRead φ) → r.Val φ δ
  | .loadAliasHistory fingerprint => db.loadAliasHistory fingerprint
  | .selectProject => db.project
  | .existsRows t => db.existsRows t
  | .loadBulkHashMeta => db.fileHashes
  | .selectHash p => db.hashOf p
  | .selectIndexedPaths => db.indexedPaths
  | .selectCallers paths =>
    ((db.crossFileEdges.filter fun e => e.type = .CALLS && paths.contains e.target).map
      CrossFileEdge.source).dedup

/-- The database afterwards, and what the run learns: whether a row was changed, or whether the
cross-file edges are resolved. -/
def DbWrite.run (X : Extractor φ χ δ) (db : CodeDb φ χ δ) : DbWrite φ χ δ → CodeDb φ χ δ × Bool
  | .markStale guard =>
    match db.project with
    | none => (db, false)
    | some row =>
      if guard.admits row.rootFingerprint then (db.markStale, true) else (db, false)
  | .markTx storedVersion => (db.markTx storedVersion, true)
  | .premark rootPath => (db.premark rootPath, true)
  | .clearProjectData => (db.clearProjectData, true)
  | .noOpTx semanticsStale noOpStale rootPath initialized version hasIndexError =>
    (db.noOpTx semanticsStale noOpStale rootPath initialized version hasIndexError, true)
  | .cleanupTx deleted semanticsStale initialized => db.cleanupTx X deleted semanticsStale initialized
  | .extractionTx incremental root updates metadataOnly =>
    db.extractionTx X incremental root updates metadataOnly
  | .metadataTx root metadataOnly => (db.upsertHashes root metadataOnly, true)
  | .streamingTx incremental root updates metadataOnly initialized scope =>
    db.streamingTx X incremental root updates metadataOnly initialized scope
  | .deleteTx deleted semanticsStale => (db.deleteTx X deleted semanticsStale, true)
  | .updateProjectStats rootPath stale initialized version hasIndexError =>
    (db.updateProjectStats rootPath stale initialized version hasIndexError none none none, true)
  | .commitAliasStateAtomically rootPath initialized version fingerprint runId resolved live =>
    (db.commitAliasStateAtomically rootPath initialized version fingerprint runId resolved live, true)

namespace IndexWorld

/-- The files after some writes. -/
def edited (w : IndexWorld φ χ δ) (writes : List (AbsPath × Option (SourceFile χ))) :
    IndexWorld φ χ δ :=
  { w with disk := writes.foldl (fun disk x => Function.update disk x.1 x.2) w.disk }

end IndexWorld

/-- What an operation that does not fail returns, and the world afterwards. -/
def IndexOp.run (X : Extractor φ χ δ) (ch : IndexChoice χ) (w : IndexWorld φ χ δ) :
    (o : IndexOp φ χ δ) → Except IndexFault o.Val × IndexWorld φ χ δ
  | .assertDiscoveryRoot _ => (.ok (), w)
  | .discoverSourceFiles cfg rootPath =>
    match Discovery.discover cfg ch.fs rootPath ch.fuel with
    | some s => (.ok s, w)
    | none => (.error .failed, w)
  | .statFile p =>
    match w.disk p with
    | some f => (.ok ⟨f.mtimeNs, f.size⟩, w)
    | none => (.error .failed, w)
  | .readFile p =>
    match w.disk p with
    | some f => (.ok f.content, w)
    | none => (.error .failed, w)
  | .read r => (.ok (r.run w.db), w)
  | .write u => (.ok (u.run X w.db).2, { w with db := (u.run X w.db).1 })
  -- the online backup of the live database becomes the active generation
  | .publishGenerationSnapshot => (.ok (), { w with active := some w.db })

/-- The files are written, then the operation fails or does what it does. -/
def IndexOp.exec (X : Extractor φ χ δ) (o : IndexOp φ χ δ) (ch : IndexChoice χ)
    (w : IndexWorld φ χ δ) : Except IndexFault o.Val × IndexWorld φ χ δ :=
  if ch.fails then (.error .failed, w.edited ch.writes) else o.run X ch (w.edited ch.writes)

/-- A run that dies leaves nothing of an open transaction. -/
def indexMachine (X : Extractor φ χ δ) :
    Machine (IndexOp φ χ δ) IndexOp.Val IndexFault (IndexWorld φ χ δ) (IndexChoice χ) where
  exec := fun _ o ch w => o.exec X ch w
  kill := fun _ w => w

end

end Ariad
