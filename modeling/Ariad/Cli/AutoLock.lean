import Mathlib.Algebra.Order.Ring.Int
import Mathlib.Logic.Function.Basic
import Ariad.Concurrency.Transitions

/-!
# The overlap lock of `index-auto`

Processes of the `index-auto` command, and the lock file next to the project database.

* `LockFile` — what a file holds, as far as `acquireAutoLock` can tell: its length, and what its text parses to.
* `Phase` — where a run is between two steps on the lock file.
* `System` — the clock, the file that the lock path names, the files, and the live processes by pid.
* `runStep` — the next step of a run: `acquireAutoLock`, then the run itself, then `releaseAutoLock`.
* `after` — one event: a step, the passing of time, a process that starts, a process that dies.
* `Orderly` — the steps that do not meet another run's step in the middle.
-/

namespace Ariad.Cli

def STALE_LOCK_MS : ℤ := 3 * 60 * 60 * 1000

/-- A file at the lock path. `reads` is the pid and the start time that its text parses to, `none` for a text
that does not parse; a start time that is no date is `none`. -/
structure LockFile where
  length : ℕ
  reads : Option (ℤ × Option ℤ)

namespace LockFile

def empty : LockFile := ⟨0, none⟩

/-- The length of `{"pid":…,"startedAt":"…"}`. -/
def recordLength (pid : ℕ) : ℕ := 47 + (Nat.toDigits 10 pid).length

/-- Writing a record at the start of a file. Of a longer text the end stays, and the whole does not parse. -/
def write (f : LockFile) (pid : ℕ) (now : ℤ) : LockFile where
  length := max f.length (recordLength pid)
  reads := if f.length ≤ recordLength pid then some (pid, some now) else none

@[simp]
theorem reads_write_empty (pid : ℕ) (now : ℤ) : (empty.write pid now).reads = some (↑pid, some now) := by
  simp [write, empty]

end LockFile

/-- What a run does next to the lock file. -/
inductive Phase where
  /-- `existsSync` -/
  | testing
  /-- `readFileSync` opens the file … -/
  | opening
  /-- … and reads it. -/
  | reading (file : ℕ)
  /-- The pid and the age of what was read are looked at. -/
  | judging (seen : Option (ℤ × Option ℤ))
  /-- `writeFileSync` opens the file, which creates or empties it … -/
  | creating
  /-- … and writes the record. -/
  | filling (file : ℕ)
  /-- The run has the lock; `rmSync` is what it does next. -/
  | holding
  /-- Skipped or released. -/
  | done

/-- The run is between its test of the lock file and the end of its write. -/
def Phase.acquiring : Phase → Bool
  | opening | reading _ | judging _ | creating | filling _ => true
  | testing | holding | done => false

/-- A process. `now` is the time that `acquireAutoLock` was called with. -/
structure Run where
  now : ℤ
  phase : Phase

structure System where
  clock : ℤ
  /-- The file that the lock path names. -/
  lock : Option ℕ
  files : ℕ → LockFile
  nextFile : ℕ
  /-- The live processes, by pid. -/
  procs : ℕ → Option Run

namespace System

variable (s : System)

/-- What a read of the lock path gives. -/
def lockReads : Option (ℤ × Option ℤ) := s.lock.bind fun file => (s.files file).reads

/-- `process.kill(pid, 0)` for a process of the same user. -/
def pidAlive (pid : ℤ) : Bool := (s.procs pid.toNat).isSome

/-- The lock file that was seen blocks a run: its pid is alive and it is young. -/
def blocks (now : ℤ) : Option (ℤ × Option ℤ) → Bool
  | none => false
  | some (pid, startedAt) =>
    let holderAlive := decide (0 < pid) && s.pidAlive pid
    holderAlive && match startedAt with
      | some started => decide (now - started < STALE_LOCK_MS)
      | none => false

def moves (pid : ℕ) (r : Run) (phase : Phase) : System :=
  { s with procs := Function.update s.procs pid (some { r with phase }) }

/-- The next step of a run on the lock file. -/
def runStep (pid : ℕ) (r : Run) : Option System :=
  match r.phase with
  | .testing =>
    match s.lock with
    | some _ => some (s.moves pid r .opening)
    | none => some (s.moves pid r .creating)
  | .opening =>
    match s.lock with
    | some file => some (s.moves pid r (.reading file))
    -- The file was removed since the test; what cannot be read is stale.
    | none => some (s.moves pid r (.judging none))
  | .reading file => some (s.moves pid r (.judging (s.files file).reads))
  | .judging seen => some (s.moves pid r (if s.blocks r.now seen then .done else .creating))
  | .creating =>
    match s.lock with
    | some file => some ({ s with files := Function.update s.files file .empty }.moves pid r (.filling file))
    | none =>
      let file := s.nextFile
      let files := Function.update s.files file .empty
      some ({ s with lock := some file, files, nextFile := file + 1 }.moves pid r (.filling file))
  | .filling file =>
    let files := Function.update s.files file ((s.files file).write pid r.now)
    some ({ s with files }.moves pid r .holding)
  | .holding => some ({ s with lock := none }.moves pid r .done)
  | .done => none

end System

inductive Event where
  | tick (ms : ℕ)
  /-- An `index-auto` run starts under a pid that is free. -/
  | start (pid : ℕ)
  /-- Another program starts. -/
  | other (pid : ℕ)
  | step (pid : ℕ)
  /-- A crash, a kill, the runtime cap, or the end of the program. -/
  | die (pid : ℕ)

namespace System

def spawn (s : System) (pid : ℕ) (phase : Phase) : Option System :=
  if 0 < pid ∧ (s.procs pid).isNone then
    some { s with procs := Function.update s.procs pid (some ⟨s.clock, phase⟩) }
  else none

def after (s : System) : Event → Option System
  | .tick ms => some { s with clock := s.clock + ms }
  | .start pid => s.spawn pid .testing
  | .other pid => s.spawn pid .done
  | .step pid => (s.procs pid).bind fun r => s.runStep pid r
  | .die pid => (s.procs pid).map fun _ => { s with procs := Function.update s.procs pid none }

def Step (s : System) (e : Event) (s' : System) : Prop := s.after e = some s'

/-- Before the first run: whatever the lock path names, every process is of another program. -/
def Initial (s : System) : Prop := ∀ pid r, s.procs pid = some r → r.phase = .done

/-- A live run that acquired the lock and did not release it. -/
def Holder (s : System) (pid : ℕ) (r : Run) : Prop := s.procs pid = some r ∧ r.phase = .holding

def Holds (s : System) (pid : ℕ) : Prop := ∃ r, s.Holder pid r

/-- A run holds the lock and is younger than the staleness limit. -/
def HoldsYoung (s : System) (pid : ℕ) : Prop := ∃ r, s.Holder pid r ∧ s.clock - r.now < STALE_LOCK_MS

/-- A run holds the lock, and the lock file is its own. -/
def Owns (s : System) (pid : ℕ) : Prop := ∃ r, s.Holder pid r ∧ s.lockReads = some (↑pid, some r.now)

/-- A run that starts now under a pid gets the lock when no other process steps in between. -/
def Obtains (s : System) (pid : ℕ) : Prop :=
  ∃ n s', Runs Step s (.start pid :: List.replicate n (.step pid)) s' ∧ s'.Owns pid

/-- A step on the lock file finds no other run between its test and its write; and a run that outlived the
staleness limit does not come to its removal after its lock was replaced. -/
def Orderly (s : System) : Event → Prop
  | .step pid =>
    (∀ q r, q ≠ pid → s.procs q = some r → r.phase.acquiring = false) ∧
    ∀ r, s.Holder pid r → s.clock - r.now < STALE_LOCK_MS ∨ s.lockReads = some (↑pid, some r.now)
  | _ => True

end System

end Ariad.Cli
