import Mathlib.Data.List.AList
import Ariad.Indexer.Paths

/-!
# The streaming writer of a parallel index run

`indexParallel` splits the files to extract into batches, gives one batch at a time to each of
several worker threads, and writes what the workers send back into one SQLite transaction. Files
arrive in any order; the main thread parks them in a **reorder buffer** and writes them in the order
of batch number and file index.

* `Tables` — the rows of each file, table by table, and the statements that one file is written by.
  A statement may fail; the ones before it stay done.
* `Streaming` — the variables of the main thread: the buffer, the two cursors, the tables of the open
  transaction, and the errors to report.
* `tryFlush`, `markBatchFailed` — what the main thread does between two messages.
* `WorkerEvent` — the messages and deaths of the workers. A worker posts the files of its batch in order;
  it may die at any time, and it may reject the batch after any prefix, whereupon it posts an error
  for every file again.

Every callback of the main thread runs to its end before the next message is delivered; so does the
part of `runSlot` that follows an awaited batch.
-/

namespace Ariad

variable {ρ : Type}

/-! ## Rows -/

/-- The tables that hold rows of single files. -/
inductive Table where
  | nodes
  | edges
  | fileHashes
  | callSites
  | imports
  | exports
  deriving DecidableEq, Repr

/-- The rows of a file in each table. -/
abbrev FileRows (ρ : Type) := Table → Option ρ

/-- The rows of all files. -/
abbrev Tables (ρ : Type) := RelPath → FileRows ρ

/-- No rows at all. -/
def Tables.empty : Tables ρ := fun _ _ => none

/-- What one statement of a write does: it deletes the rows of a file from one table, or puts rows
into it. -/
inductive WriteStmt (ρ : Type) where
  | delete (table : Table) (path : RelPath)
  | put (table : Table) (path : RelPath) (rows : ρ)
  deriving DecidableEq

/-- The file a statement is about. -/
def WriteStmt.path : WriteStmt ρ → RelPath
  | .delete _ p => p
  | .put _ p _ => p

/-- The effect of a statement on the rows of its file. -/
def WriteStmt.onRows : WriteStmt ρ → FileRows ρ → FileRows ρ
  | .delete t _, rows => Function.update rows t none
  | .put t _ r, rows => Function.update rows t (some r)

def WriteStmt.run (stmt : WriteStmt ρ) (T : Tables ρ) : Tables ρ :=
  Function.update T stmt.path (stmt.onRows (T stmt.path))

/-- Run statements until one fails; the flag says that one did. -/
def runStmts (fails : WriteStmt ρ → Tables ρ → Bool) :
    List (WriteStmt ρ) → Tables ρ → Tables ρ × Bool
  | [], T => (T, false)
  | stmt :: rest, T => if fails stmt T then (T, true) else runStmts fails rest (stmt.run T)

/-! ## The input of a run -/

/-- What a worker sends back for one file. -/
structure WorkerFileResult (ρ : Type) where
  filePath : RelPath
  error : Option String
  nodes : ρ
  edges : ρ
  hashInfo : Option ρ
  unresolvedCalls : ρ
  imports : ρ
  exports : ρ
  deriving DecidableEq

/-- What `indexParallel` has computed before it starts the workers, and the database it writes to. -/
structure StreamingInput (ρ : Type) where
  batches : List (List RelPath)
  numWorkers : ℕ
  incremental : Bool
  pendingChanged : List RelPath
  pendingHashByPath : RelPath → Option ρ
  allMetadataOnlyHashUpdates : List (RelPath × ρ)
  /-- The database refuses a statement. -/
  fails : WriteStmt ρ → Tables ρ → Bool

variable (I : StreamingInput ρ)

/-- The hash row that is written with a file. -/
def hashStmts (r : WorkerFileResult ρ) : List (WriteStmt ρ) :=
  let h := if I.incremental then I.pendingHashByPath r.filePath else r.hashInfo
  (h.map fun h => .put .fileHashes r.filePath h).toList

/-- The statements that write one extracted file. -/
def writeStmts (r : WorkerFileResult ρ) : List (WriteStmt ρ) :=
  let changed := I.incremental && I.pendingChanged.contains r.filePath
  let old : Table → List (WriteStmt ρ) := fun t => if changed then [.delete t r.filePath] else []
  old .edges ++ old .nodes ++
    [.put .nodes r.filePath r.nodes, .put .edges r.filePath r.edges] ++ hashStmts I r ++
    old .callSites ++ [.put .callSites r.filePath r.unresolvedCalls] ++
    old .imports ++ [.put .imports r.filePath r.imports] ++
    old .exports ++ [.put .exports r.filePath r.exports]

/-- The hash rows of files whose content has not changed, written once with the first file. -/
def metadataStmts : List (WriteStmt ρ) :=
  I.allMetadataOnlyHashUpdates.map fun h => .put .fileHashes h.1 h.2

/-! ## The main thread -/

/-- The entry of a dispatched batch in the reorder buffer. -/
structure BatchSlot (ρ : Type) where
  received : AList fun _ : ℕ => WorkerFileResult ρ
  expected : ℕ
  written : ℕ
  done : Bool
  failed : Bool
  failError : String
  deriving DecidableEq

/-- The entry without the file at an index. -/
def BatchSlot.without (slot : BatchSlot ρ) (i : ℕ) : BatchSlot ρ :=
  { slot with received := slot.received.erase i }

/-- How a file was dealt with. -/
inductive Handling (ρ : Type) where
  | wrote (r : WorkerFileResult ρ)
  | reported (path : RelPath) (error : String)
  deriving DecidableEq

/-- The file that was dealt with. -/
def Handling.path : Handling ρ → RelPath
  | .wrote r => r.filePath
  | .reported p _ => p

/-- The variables of the main thread. -/
structure Streaming (ρ : Type) where
  reorder : AList fun _ : ℕ => BatchSlot ρ
  nextSeq : ℕ
  nextFileIndex : ℕ
  fullCleared : Bool
  metaApplied : Bool
  /-- The tables as the open transaction sees them. -/
  tables : Tables ρ
  /-- Everything that was written or reported so far, in order. -/
  log : List (Handling ρ)

namespace Streaming

/-- Before the first write. -/
def initial (T : Tables ρ) : Streaming ρ := ⟨∅, 0, 0, false, false, T, []⟩

/-- The errors that the run reports. -/
def errors (s : Streaming ρ) : List (RelPath × String) :=
  s.log.filterMap fun
    | .wrote _ => none
    | .reported p e => some (p, e)

def setSlot (s : Streaming ρ) (seq : ℕ) (slot : BatchSlot ρ) : Streaming ρ :=
  { s with reorder := s.reorder.insert seq slot }

/-- `errors.push`. -/
def report (s : Streaming ρ) (path : RelPath) (error : String) : Streaming ρ :=
  { s with log := s.log ++ [.reported path error] }

/-- Open the transaction at the first write; a full run clears the project inside it. -/
def beginTxIfNeeded (s : Streaming ρ) : Streaming ρ :=
  if I.incremental || s.fullCleared then s
  else { s with tables := .empty, fullCleared := true }

/-- Write one file, or report its error. The flag says that a statement failed: then the statements
before it stay done, and nothing is recorded. -/
def writeOneFileInTx (r : WorkerFileResult ρ) (s₀ : Streaming ρ) : Streaming ρ × Bool :=
  let s := s₀.beginTxIfNeeded I
  match r.error with
  | some e => (s.report r.filePath e, false)
  | none =>
    let metadata := if I.incremental && !s.metaApplied then metadataStmts I else []
    let out := runStmts I.fails (metadata ++ writeStmts I r) s.tables
    if out.2 then ({ s with tables := out.1 }, true)
    else ({ s with
      tables := out.1
      metaApplied := s.metaApplied || I.incremental
      log := s.log ++ [.wrote r] }, false)

/-- The cursors move past a file of the current batch. -/
def fileWritten (s : Streaming ρ) (slot : BatchSlot ρ) : Streaming ρ :=
  { s.setSlot s.nextSeq { slot with written := slot.written + 1 } with
    nextFileIndex := s.nextFileIndex + 1 }

/-- The inner loop of `tryFlush`: write what has arrived of the current batch, in order. The fuel is
the number of files parked there: each round takes one out. -/
def flushReceived : (fuel : ℕ) → Streaming ρ → Streaming ρ × Bool
  | 0, s => (s, false)
  | fuel + 1, s =>
    match s.reorder.lookup s.nextSeq with
    | none => (s, false)
    | some slot =>
      match slot.received.lookup s.nextFileIndex with
      | none => (s, false)
      | some r =>
        let slot' := slot.without s.nextFileIndex
        match writeOneFileInTx I r (s.setSlot s.nextSeq slot') with
        | (s', true) => (s', true)
        | (s', false) => flushReceived fuel (s'.fileWritten slot')

/-- The files of a failed batch that were not written: those that arrived are written, the others
are reported. -/
def flushFailed (slot : BatchSlot ρ) (files : List RelPath) :
    List ℕ → Streaming ρ → Streaming ρ × Bool
  | [], s => (s, false)
  | i :: rest, s =>
    match slot.received.lookup i with
    | some r =>
      match writeOneFileInTx I r s with
      | (s', true) => (s', true)
      | (s', false) => flushFailed slot files rest s'
    | none =>
      match files[i]? with
      | some path => flushFailed slot files rest (s.report path slot.failError)
      | none => flushFailed slot files rest s

/-- The batch is over: on to the next one. -/
def nextBatch (s : Streaming ρ) : Streaming ρ :=
  { s with reorder := s.reorder.erase s.nextSeq, nextSeq := s.nextSeq + 1, nextFileIndex := 0 }

/-- The outer loop of `tryFlush`; each round takes one batch out of the buffer. -/
def flushLoop : (fuel : ℕ) → Streaming ρ → Streaming ρ × Bool
  | 0, s => (s, false)
  | fuel + 1, s =>
    match s.reorder.lookup s.nextSeq with
    | none => (s, false)
    | some slot =>
      if slot.failed then
        let files := I.batches[s.nextSeq]?.getD []
        let rest := List.range' slot.written (slot.expected - slot.written)
        match flushFailed I slot files rest (s.beginTxIfNeeded I) with
        | (s', true) => (s', true)
        | (s', false) => flushLoop fuel s'.nextBatch
      else
        match flushReceived I slot.received.entries.length s with
        | (s', true) => (s', true)
        | (s', false) =>
          if slot.done ∧ slot.expected ≤ s'.nextFileIndex then flushLoop fuel s'.nextBatch
          else (s', false)

/-- Write everything whose turn has come. -/
def tryFlush (s : Streaming ρ) : Streaming ρ × Bool := flushLoop I s.reorder.entries.length s

/-- Give a batch up. -/
def markBatchFailed (seq : ℕ) (failError : String) (s : Streaming ρ) : Streaming ρ × Bool :=
  match s.reorder.lookup seq with
  | some slot => tryFlush I (s.setSlot seq { slot with failed := true, failError := failError })
  | none => tryFlush I s

/-- What `runSlot` does when its batch has been resolved. An exception of the flush is caught by its
own handler, which gives the batch up; a second one escapes. -/
def batchResolved (seq : ℕ) (s : Streaming ρ) : Streaming ρ × Bool :=
  let s' := match s.reorder.lookup seq with
    | some slot => s.setSlot seq { slot with done := true }
    | none => s
  match tryFlush I s' with
  | (s'', false) => (s'', false)
  | (s'', true) => markBatchFailed I seq "flush failed" s''

/-- A file has arrived. -/
def received (seq i : ℕ) (r : WorkerFileResult ρ) (s : Streaming ρ) : Streaming ρ × Bool :=
  match s.reorder.lookup seq with
  | some slot => tryFlush I (s.setSlot seq { slot with received := slot.received.insert i r })
  | none => (s, false)

end Streaming

/-! ## The workers -/

/-- What a worker has posted of its batch: the first files; or, after it has rejected the batch, an
error for the first files again. -/
inductive Posting where
  | files (posted : ℕ)
  | rejecting (error : String) (posted : ℕ)
  deriving DecidableEq, Repr

/-- A run of `runSlot`. -/
inductive SlotState where
  | notStarted
  | running (seq : ℕ) (posting : Posting)
  | finished
  deriving DecidableEq, Repr

/-- The whole run: the main thread, the next batch to dispatch, and the slots. -/
structure StreamingRun (ρ : Type) where
  main : Streaming ρ
  batchIndex : ℕ
  slots : ℕ → SlotState
  /-- An exception has escaped: the run is over, and its transaction rolled back. -/
  crashed : Bool

/-- A message, a death, or the start of a slot. -/
inductive WorkerEvent (ρ : Type) where
  | start (w : ℕ)
  | file (w : ℕ) (r : WorkerFileResult ρ)
  | reject (w : ℕ) (error : String)
  | rejectFile (w : ℕ)
  | done (w : ℕ)
  | doneError (w : ℕ)
  | die (w : ℕ) (error : String)

namespace StreamingRun

def initial (T : Tables ρ) : StreamingRun ρ := ⟨.initial T, 0, fun _ => .notStarted, false⟩

def setSlot (c : StreamingRun ρ) (w : ℕ) (st : SlotState) : StreamingRun ρ :=
  { c with slots := Function.update c.slots w st }

/-- Replace the main thread's variables by the outcome of a callback. -/
def settle (c : StreamingRun ρ) (out : Streaming ρ × Bool) : StreamingRun ρ :=
  { c with main := out.1, crashed := out.2 }

/-- The head of the loop of `runSlot`: take the next batch, if there is one. -/
def takeBatch (c : StreamingRun ρ) (w : ℕ) : StreamingRun ρ :=
  match I.batches[c.batchIndex]? with
  | none => { c.setSlot w .finished with batchIndex := c.batchIndex + 1 }
  | some batch =>
    { c.setSlot w (.running c.batchIndex (.files 0)) with
      batchIndex := c.batchIndex + 1
      main := c.main.setSlot c.batchIndex ⟨∅, batch.length, 0, false, false, ""⟩ }

/-- The batch of a slot is over; unless an exception escaped the slot takes the next one. -/
def endBatch (c : StreamingRun ρ) (w : ℕ) (out : Streaming ρ × Bool) : StreamingRun ρ :=
  if out.2 then c.settle out else (c.settle out).takeBatch I w

/-- The error result that a worker posts for a file of a batch it rejects. -/
def errorResult [Inhabited ρ] (path : RelPath) (error : String) : WorkerFileResult ρ :=
  ⟨path, some error, default, default, none, default, default, default⟩

variable [Inhabited ρ]

/-- The next file that the worker of a batch posts. -/
def nextFile (seq posted : ℕ) : Option RelPath := (I.batches[seq]?.getD [])[posted]?

/-- What an event leads to; `none` when it cannot happen. -/
def next (e : WorkerEvent ρ) (c : StreamingRun ρ) : Option (StreamingRun ρ) :=
  if c.crashed then none
  else
    match e with
    | .start w =>
      if w < min I.numWorkers I.batches.length ∧ c.slots w = .notStarted then some (c.takeBatch I w)
      else none
    | .file w r =>
      match c.slots w with
      | .running seq (.files posted) =>
        if nextFile I seq posted = some r.filePath then
          some ((c.setSlot w (.running seq (.files (posted + 1)))).settle
            (c.main.received I seq posted r))
        else none
      | _ => none
    | .reject w error =>
      match c.slots w with
      | .running seq (.files _) => some (c.setSlot w (.running seq (.rejecting error 0)))
      | _ => none
    | .rejectFile w =>
      match c.slots w with
      | .running seq (.rejecting error posted) =>
        match nextFile I seq posted with
        | some path =>
          some ((c.setSlot w (.running seq (.rejecting error (posted + 1)))).settle
            (c.main.received I seq posted (errorResult path error)))
        | none => none
      | _ => none
    | .done w =>
      match c.slots w with
      | .running seq (.files posted) =>
        if posted = (I.batches[seq]?.getD []).length then
          some (c.endBatch I w (c.main.batchResolved I seq))
        else none
      | _ => none
    | .doneError w =>
      match c.slots w with
      | .running seq (.rejecting error _) =>
        some (c.endBatch I w (c.main.markBatchFailed I seq error))
      | _ => none
    | .die w error =>
      match c.slots w with
      | .running seq _ => some (c.endBatch I w (c.main.markBatchFailed I seq error))
      | _ => none

/-- The states that some order of events leads to. -/
inductive Reachable (T : Tables ρ) : StreamingRun ρ → Prop where
  | initial : Reachable T (initial T)
  | step {c c' : StreamingRun ρ} {e : WorkerEvent ρ} :
    Reachable T c → c.next I e = some c' → Reachable T c'

/-- Follow a list of events; those that cannot happen are passed over. -/
def follow (c : StreamingRun ρ) (es : List (WorkerEvent ρ)) : StreamingRun ρ :=
  es.foldl (fun c e => (c.next I e).getD c) c

theorem Reachable.follow {T : Tables ρ} {c : StreamingRun ρ} (h : Reachable I T c)
    (es : List (WorkerEvent ρ)) : Reachable I T (c.follow I es) := by
  induction es generalizing c with
  | nil => exact h
  | cons e es ih =>
    refine ih (c := (c.next I e).getD c) ?_
    cases hnext : c.next I e with
    | none => exact h
    | some c' => exact h.step hnext

/-- Every slot has run out of batches. -/
def Finished (c : StreamingRun ρ) : Prop :=
  ∀ w, w < min I.numWorkers I.batches.length → c.slots w = .finished

/-- The main thread when all slots have finished: one more flush. -/
def final (c : StreamingRun ρ) : Streaming ρ := (c.main.tryFlush I).1

end StreamingRun

end Ariad
