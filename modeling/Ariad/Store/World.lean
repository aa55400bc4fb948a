import Mathlib.Data.List.AList
import Ariad.Concurrency.Pool
import Ariad.Store.Cas

/-!
# The world of the generation store

The shared state that the calls of the generation store act on, and one operation for each system
call or SQL statement they make: the project store on disk (the active manifest, `generations/`,
`tmp/`), the CAS database with its write lock, and the in-memory registries of authentic handles
(`preparedTokens`, `reservationTokens`, `planTokens`, `orphanPlanTokens`).

Every operation may also fail. The **choice** that comes with each operation decides that, and
stands for everything else the store does not control: the clock, how much of a buffer one `write`
takes, the inode of a new file. A failed operation has no effect, except that a failed `COMMIT` may
have rolled the transaction back.

* A name in a directory is bound to a file; the store never writes a file again once it is linked
  under its final name, so a link is represented by a copy of the file under the new name.
* An open descriptor of a staging file is represented by the file it was opened on: nothing writes
  a staging file once its backup has finished.
* The death of a process loses its open transaction and with it the write lock.
-/

namespace Ariad

/-! ## Files -/

/-- Names in `generations/`: the final names of a generation, and the temporaries that a publish
creates there, each with a nonce of its own. -/
inductive GenName where
  /-- `generation-<g>.db`. -/
  | db (g : GenerationId)
  /-- `generation-<g>.json`. -/
  | json (g : GenerationId)
  /-- `.publish-<g>-<nonce>.db`. -/
  | publishTemp (g : GenerationId) (nonce : ℕ)
  /-- `.metadata-<g>-<nonce>.tmp`. -/
  | metadataTemp (g : GenerationId) (nonce : ℕ)
  deriving DecidableEq, Repr

/-- What is in a file: raw bytes, or the first `written` bytes of the text of a sidecar. -/
inductive FileData where
  | raw (b : Bytes)
  | sidecar (m : GenerationMetadataV1) (written : ℕ)
  deriving DecidableEq, Repr

/-- A regular file. -/
structure File where
  ino : ℕ
  mtimeMs : Timestamp
  data : FileData
  deriving DecidableEq, Repr

/-- What `lstat` says about a file (the fields the store looks at). -/
structure Stat where
  ino : ℕ
  size : ℕ
  mtimeMs : Timestamp
  deriving DecidableEq, Repr

/-- A file identity snapshot. -/
structure FileIdentity where
  ino : ℕ
  size : ℕ
  deriving DecidableEq, Repr

namespace Platform

variable (P : Platform)

/-- The bytes of a file. -/
def content : FileData → Bytes
  | .raw b => b
  | .sidecar m written => (P.metadataText m).take written

def stat (f : File) : Stat := ⟨f.ino, (P.content f.data).length, f.mtimeMs⟩

/-- Parse and validate the text of a sidecar: it is well formed when all of it is there. -/
def parseMetadata : FileData → Option GenerationMetadataV1
  | .raw _ => none
  | .sidecar m written => if (P.metadataText m).length ≤ written then some m else none

end Platform

/-! ## Handles and plans -/

/-- State of a `PreparedGeneration` token. `PUBLISHING` remembers the call that is publishing. -/
inductive TokenState where
  | prepared
  | publishing (t : Tid)
  | consumed
  | discarded
  deriving DecidableEq, Repr

/-- A prepared generation with its token. The handle is named by its generation id. -/
structure PreparedToken where
  state : TokenState
  preStat : FileIdentity
  manifest : GenerationManifestV1
  deriving DecidableEq, Repr

/-- State of a staging reservation. `PREPARING` remembers the call that is preparing. -/
inductive ReservationState where
  | reserved
  | preparing (t : Tid)
  | prepared
  | discarded
  deriving DecidableEq, Repr

structure ReservationToken where
  state : ReservationState
  /-- Inode of the staging file at reserve time. -/
  identity : ℕ
  deriving DecidableEq, Repr

/-- An entry of a GC plan's retain, delete and recovery lists. -/
structure GenerationGcPlanEntry where
  generationId : GenerationId
  pinned : Bool
  deriving DecidableEq, Repr

/-- A staging file the GC may sweep, with its identity at plan time. -/
structure GenerationGcTmpEntry where
  path : GenerationId
  identity : Stat
  deriving DecidableEq, Repr

structure GenerationGcPlan where
  activeGenerationId : Option GenerationId
  casRevision : ℕ
  retain : List GenerationGcPlanEntry
  delete : List GenerationGcPlanEntry
  recovery : List GenerationGcPlanEntry
  sweepTmp : List GenerationGcTmpEntry
  deriving DecidableEq, Repr

inductive OrphanKind where
  | dbOnly
  | metadataOnly
  | notInCatalog
  | promotionTemp
  | metadataTemp
  | activeNotInCatalog
  deriving DecidableEq, Repr

/-- An entry of an orphan plan. `path` is the file in `generations/`, and the manifest itself for
`activeNotInCatalog`. -/
structure GenerationOrphanEntry where
  path : Option GenName
  kind : OrphanKind
  generationId : Option GenerationId
  identity : Option Stat
  deriving DecidableEq, Repr

structure GenerationOrphanPlan where
  orphans : List GenerationOrphanEntry
  activeGenerationId : Option GenerationId
  casRevision : ℕ
  deriving DecidableEq, Repr

/-! ## The world -/

/-- An open `BEGIN IMMEDIATE` transaction: its owner holds the write lock. -/
structure CasTransaction where
  owner : Tid
  /-- The tables at `BEGIN`, which a rollback returns to. -/
  snapshot : Cas
  /-- The tables as the transaction has changed them. -/
  working : Cas
  deriving DecidableEq

structure World where
  /-- `active-generation.json`. -/
  manifest : Option GenerationManifestV1
  /-- `generations/`. -/
  generations : AList fun _ : GenName => File
  /-- `tmp/generation-<g>.db`. -/
  staging : AList fun _ : GenerationId => File
  /-- The committed tables. -/
  cas : Cas
  txn : Option CasTransaction
  tokens : AList fun _ : GenerationId => PreparedToken
  reservations : AList fun _ : GenerationId => ReservationToken
  gcPlans : List GenerationGcPlan
  orphanPlans : List GenerationOrphanPlan
  /-- The party that drew each UUID so far; the next one is the length of the list. -/
  issued : List Tid
  deriving DecidableEq

/-- A fresh project store. -/
def World.initial : World :=
  ⟨none, ∅, ∅, .initial, none, ∅, ∅, [], [], []⟩

namespace World

/-- The party that holds the CAS write lock. -/
def lockOwner (w : World) : Option Tid := w.txn.map (·.owner)

/-- What the connection of `t` sees: its own transaction, or the committed tables. -/
def visibleCas (w : World) (t : Tid) : Cas :=
  match w.txn with
  | some x => if x.owner = t then x.working else w.cas
  | none => w.cas

/-- End the transaction of `t` without its changes. -/
def dropTxn (w : World) (t : Tid) : World :=
  match w.txn with
  | some x => if x.owner = t then { w with txn := none } else w
  | none => w

theorem dropTxn_eq (w : World) (t : Tid) : w.dropTxn t = { w with txn := (w.dropTxn t).txn } := by
  unfold dropTxn
  split
  · split <;> rfl
  · rfl

@[simp] theorem dropTxn_manifest (w : World) (t : Tid) : (w.dropTxn t).manifest = w.manifest := by
  rw [dropTxn_eq]

@[simp] theorem dropTxn_generations (w : World) (t : Tid) :
    (w.dropTxn t).generations = w.generations := by
  rw [dropTxn_eq]

@[simp] theorem dropTxn_staging (w : World) (t : Tid) : (w.dropTxn t).staging = w.staging := by
  rw [dropTxn_eq]

@[simp] theorem dropTxn_cas (w : World) (t : Tid) : (w.dropTxn t).cas = w.cas := by
  rw [dropTxn_eq]

@[simp] theorem dropTxn_orphanPlans (w : World) (t : Tid) :
    (w.dropTxn t).orphanPlans = w.orphanPlans := by
  rw [dropTxn_eq]

@[simp] theorem dropTxn_tokens (w : World) (t : Tid) : (w.dropTxn t).tokens = w.tokens := by
  rw [dropTxn_eq]

end World

/-! ## Operations -/

inductive Op where
  /-- `Date.now()`. -/
  | now
  /-- `randomUUID()`. -/
  | randomUUID
  /-- A system call that may fail and changes nothing modelled: `fsync`, `fchmod`, opening or
  closing a directory, writing the temporary of an atomic manifest write. -/
  | io
  /-- `readOptionalGenerationManifest`. -/
  | readManifest
  /-- `rename` of the written temporary over `active-generation.json`. -/
  | renameManifest (m : GenerationManifestV1)
  /-- `readdir` of `generations/`. -/
  | readdirGenerations
  | lstat (n : GenName)
  /-- Hash a file: open without following links, read to the end. -/
  | hashFile (n : GenName)
  /-- Read a whole file as text. -/
  | readFile (n : GenName)
  /-- `open` with `O_CREAT | O_EXCL`. -/
  | createExclusive (n : GenName)
  /-- One `write` of database bytes; returns how many were taken. -/
  | writeBytes (n : GenName) (b : Bytes)
  /-- One `write` of the text of a sidecar from an offset on; returns how many bytes were taken. -/
  | writeMetadata (n : GenName) (m : GenerationMetadataV1) (offset : ℕ)
  /-- `link`, which never replaces its target. -/
  | link (src dst : GenName)
  | unlink (n : GenName)
  /-- `readdir` of `tmp/`. -/
  | readdirTmp
  | lstatStaging (g : GenerationId)
  | hashStaging (g : GenerationId)
  /-- Open a staging file for reading. -/
  | openStaging (g : GenerationId)
  /-- One `read` of an open staging file from an offset on. -/
  | readStaging (f : File) (offset : ℕ)
  | createStaging (g : GenerationId)
  /-- `db.backup` into a staging file, which its owner writes only while its reservation is
  `RESERVED`. -/
  | backupStaging (g : GenerationId) (b : Bytes)
  | unlinkStaging (g : GenerationId)
  /-- `BEGIN IMMEDIATE`. -/
  | casBegin
  /-- `COMMIT`. -/
  | casCommit
  /-- `ROLLBACK`. -/
  | casRollback
  /-- Close the connection, which ends its transaction. -/
  | casClose
  /-- One `SELECT`. -/
  | casRead
  /-- One statement that changes the tables, inside a transaction. -/
  | casExec (stmt : CasStmt)
  /-- Look a prepared handle up, and if its state is `PREPARED` set it to `PUBLISHING` (or to
  `DISCARDED`); returns the token as it was. A process runs no other call between the check and the
  assignment. -/
  | takeToken (g : GenerationId) (publish : Bool)
  | setTokenState (g : GenerationId) (st : TokenState)
  /-- Look a reservation up, and if its state is `RESERVED` set it to `PREPARING`. -/
  | takeReservation (g : GenerationId)
  /-- Look a reservation up, and unless it is `PREPARING` or `PREPARED` set it to `DISCARDED`. -/
  | dropReservation (g : GenerationId)
  | setReservation (g : GenerationId) (r : ReservationToken)
  /-- Register the token of a prepared generation and set its reservation to `PREPARED`. -/
  | registerToken (g : GenerationId) (tok : PreparedToken)
  | registerGcPlan (p : GenerationGcPlan)
  | gcPlan (handle : ℕ)
  | registerOrphanPlan (p : GenerationOrphanPlan)
  | orphanPlan (handle : ℕ)
  deriving DecidableEq

/-- What an operation returns. -/
def Op.Val : Op → Type
  | .now => Timestamp
  | .randomUUID => ℕ
  | .readManifest => Option GenerationManifestV1
  | .readdirGenerations => List GenName
  | .lstat _ => Stat
  | .hashFile _ => Sha256
  | .readFile _ => FileData
  | .writeBytes _ _ => ℕ
  | .writeMetadata _ _ _ => ℕ
  | .readdirTmp => List GenerationId
  | .lstatStaging _ => Stat
  | .hashStaging _ => Sha256
  | .openStaging _ => File
  | .readStaging _ _ => Bytes
  | .casRead => Cas
  | .casExec _ => ℕ
  | .takeToken _ _ => Option PreparedToken
  | .takeReservation _ => Option ReservationToken
  | .dropReservation _ => Option ReservationToken
  | .registerGcPlan _ => ℕ
  | .gcPlan _ => Option GenerationGcPlan
  | .registerOrphanPlan _ => ℕ
  | .orphanPlan _ => Option GenerationOrphanPlan
  | _ => Unit

/-- What the outside world decides about one operation. -/
structure Choice where
  /-- The operation fails. -/
  fault : Bool
  /-- A failing `COMMIT` has rolled the transaction back. -/
  rolledBack : Bool
  clock : Timestamp
  /-- How many bytes one `read` or `write` takes, at most. -/
  count : ℕ
  /-- Inode of a new file. -/
  ino : ℕ
  deriving DecidableEq, Repr

/-- Operations on the process's own memory, reading the clock and closing a connection do not
fail. -/
def Op.fallible : Op → Bool
  | .now | .randomUUID | .casClose | .takeToken _ _ | .setTokenState _ _ | .registerToken _ _
  | .takeReservation _ | .dropReservation _ | .setReservation _ _ | .registerGcPlan _ | .gcPlan _
  | .registerOrphanPlan _ | .orphanPlan _ => false
  | _ => true

/-- Size of the buffer that hashing and copying read into. -/
def hashChunkBytes : ℕ := 64 * 1024

section Exec

variable (P : Platform) (t : Tid) (ch : Choice) (w : World)

/-- Look a file up and answer from it. -/
def withFile {α : Type} (f : Option File) (k : File → α) : Except Errno α :=
  match f with
  | some f => .ok (k f)
  | none => .error .enoent

/-- The effect of an operation that does not fail by itself. -/
def execOp : (o : Op) → Except Errno o.Val × World
  | .now => (.ok ch.clock, w)
  | .randomUUID => (.ok w.issued.length, { w with issued := w.issued ++ [t] })
  | .io => (.ok (), w)
  | .readManifest => (.ok w.manifest, w)
  | .renameManifest m => (.ok (), { w with manifest := some m })
  | .readdirGenerations => (.ok w.generations.keys, w)
  | .lstat n => (withFile (w.generations.lookup n) P.stat, w)
  | .hashFile n => (withFile (w.generations.lookup n) fun f => P.sha256 (P.content f.data), w)
  | .readFile n => (withFile (w.generations.lookup n) File.data, w)
  | .createExclusive n =>
    match w.generations.lookup n with
    | some _ => (.error .eexist, w)
    | none => (.ok (), { w with generations := w.generations.insert n ⟨ch.ino, ch.clock, .raw []⟩ })
  | .writeBytes n b =>
    match w.generations.lookup n with
    | none => (.error .enoent, w)
    | some f =>
      let k := min ch.count b.length
      let data := .raw (P.content f.data ++ b.take k)
      (.ok k, { w with generations := w.generations.insert n ⟨f.ino, ch.clock, data⟩ })
  | .writeMetadata n m offset =>
    match w.generations.lookup n with
    | none => (.error .enoent, w)
    | some f =>
      let k := min ch.count ((P.metadataText m).length - offset)
      let data := .sidecar m (offset + k)
      (.ok k, { w with generations := w.generations.insert n ⟨f.ino, ch.clock, data⟩ })
  | .link src dst =>
    match w.generations.lookup src, w.generations.lookup dst with
    | none, _ => (.error .enoent, w)
    | some _, some _ => (.error .eexist, w)
    | some f, none => (.ok (), { w with generations := w.generations.insert dst f })
  | .unlink n =>
    match w.generations.lookup n with
    | none => (.error .enoent, w)
    | some _ => (.ok (), { w with generations := w.generations.erase n })
  | .readdirTmp => (.ok w.staging.keys, w)
  | .lstatStaging g => (withFile (w.staging.lookup g) P.stat, w)
  | .hashStaging g => (withFile (w.staging.lookup g) fun f => P.sha256 (P.content f.data), w)
  | .openStaging g => (withFile (w.staging.lookup g) id, w)
  | .readStaging f offset =>
    (.ok (((P.content f.data).drop offset).take (min (max 1 ch.count) hashChunkBytes)), w)
  | .createStaging g =>
    match w.staging.lookup g with
    | some _ => (.error .eexist, w)
    | none => (.ok (), { w with staging := w.staging.insert g ⟨ch.ino, ch.clock, .raw []⟩ })
  | .backupStaging g b =>
    match w.staging.lookup g, w.reservations.lookup g with
    | some f, some r =>
      if r.state = .reserved then
        (.ok (), { w with staging := w.staging.insert g ⟨f.ino, ch.clock, .raw b⟩ })
      else (.error .eio, w)
    | _, _ => (.error .enoent, w)
  | .unlinkStaging g =>
    match w.staging.lookup g with
    | none => (.error .enoent, w)
    | some _ => (.ok (), { w with staging := w.staging.erase g })
  | .casBegin =>
    match w.txn with
    | none => (.ok (), { w with txn := some ⟨t, w.cas, w.cas⟩ })
    | some _ => (.error .sqlite, w)
  | .casCommit =>
    match w.txn with
    | some x => if x.owner = t then (.ok (), { w with cas := x.working, txn := none })
        else (.error .sqlite, w)
    | none => (.error .sqlite, w)
  | .casRollback => (.ok (), w.dropTxn t)
  | .casClose => (.ok (), w.dropTxn t)
  | .casRead => (.ok (w.visibleCas t), w)
  | .casExec stmt =>
    match w.txn with
    | some x =>
      if x.owner = t then
        match stmt.run x.working with
        | some (c, changes) => (.ok changes, { w with txn := some { x with working := c } })
        | none => (.error .sqlite, w)
      else (.error .sqlite, w)
    | none => (.error .sqlite, w)
  | .takeToken g publish =>
    match w.tokens.lookup g with
    | none => (.ok none, w)
    | some tok =>
      if tok.state = .prepared then
        let st := if publish then .publishing t else .discarded
        (.ok (some tok), { w with tokens := w.tokens.insert g { tok with state := st } })
      else (.ok (some tok), w)
  | .setTokenState g st =>
    match w.tokens.lookup g with
    | none => (.ok (), w)
    | some tok => (.ok (), { w with tokens := w.tokens.insert g { tok with state := st } })
  | .takeReservation g =>
    match w.reservations.lookup g with
    | none => (.ok none, w)
    | some r =>
      if r.state = .reserved then
        (.ok (some r), { w with
          reservations := w.reservations.insert g { r with state := .preparing t } })
      else (.ok (some r), w)
  | .dropReservation g =>
    match w.reservations.lookup g with
    | none => (.ok none, w)
    | some r =>
      if r.state = .reserved ∨ r.state = .discarded then
        (.ok (some r), { w with
          reservations := w.reservations.insert g { r with state := .discarded } })
      else (.ok (some r), w)
  | .setReservation g r => (.ok (), { w with reservations := w.reservations.insert g r })
  | .registerToken g tok =>
    match w.reservations.lookup g with
    | none => (.ok (), { w with tokens := w.tokens.insert g tok })
    | some r => (.ok (), { w with
        tokens := w.tokens.insert g tok
        reservations := w.reservations.insert g { r with state := .prepared } })
  | .registerGcPlan p => (.ok w.gcPlans.length, { w with gcPlans := w.gcPlans ++ [p] })
  | .gcPlan h => (.ok w.gcPlans[h]?, w)
  | .registerOrphanPlan p =>
    (.ok w.orphanPlans.length, { w with orphanPlans := w.orphanPlans ++ [p] })
  | .orphanPlan h => (.ok w.orphanPlans[h]?, w)

/-- One operation, failing when the choice says so. -/
def exec (o : Op) : Except Errno o.Val × World :=
  if ch.fault ∧ o.fallible then
    match o with
    | .casCommit => (.error .sqlite, if ch.rolledBack then w.dropTxn t else w)
    | _ => (.error .eio, w)
  else execOp P t ch w o

end Exec

/-- The store as a machine: the death of a process loses its transaction. -/
def storeMachine (P : Platform) : Machine Op Op.Val Errno World Choice where
  exec t o ch w := exec P t ch w o
  kill t w := w.dropTxn t

end Ariad
