import Mathlib.Data.List.Basic
import Ariad.Concurrency.Transitions
import Ariad.Javascript.Text

/-!
# Index jobs of the UI server

The server owns one child process for each index job. Requests, timers, events of the child and the shutdown of the
server may come in any order.

* `ChildProcess` — the child and the other processes of its group, and which of its events were delivered.
* `IndexJob` — a job with its timers.
* `finishJob`, `requestIndexJobTermination`, `forceIndexJobTermination`, `finalizeExitedChild` — what callbacks do.
* `UiServer`, `routeIndex`, `beginSweep` — the jobs of a server, a start request, and the shutdown.
* `after` — one event.

Pruning of retained jobs removes terminal jobs from the server's map only; here they stay.
-/

namespace Ariad.Ui

/-! ## Jobs -/

inductive IndexJobStatus where
  | pending
  | running
  | terminating
  | completed
  | failed
  | cancelled
  | timed_out
  deriving DecidableEq

/-- `TERMINAL_STATUSES` -/
def IndexJobStatus.terminal : IndexJobStatus → Bool
  | completed | failed | cancelled | timed_out => true
  | pending | running | terminating => false

inductive TerminationReason where
  | requested
  | timeout
  | shutdown
  deriving DecidableEq

/-- The texts that jobs fail or end with. -/
inductive JobError where
  | failedToStart
  | exited (code : Option ℤ)
  | readerUnopened
  | timeout
  | shuttingDown
  | unconfirmed
  | notOwned
  | tree (detail : String)
  deriving DecidableEq

def JobError.text : JobError → String
  | failedToStart => "Indexer process failed to start"
  | exited (some code) => "Indexer exited with code " ++ toString code
  | exited none => "Indexer exited with signal"
  | readerUnopened => "Index completed, but the code graph could not be opened"
  | timeout => "Indexer exceeded the configured timeout"
  | shuttingDown => "UI server is shutting down"
  | unconfirmed => "UI server shut down before the indexer confirmed exit"
  | notOwned => "Indexer termination completed without an owned termination request"
  | tree detail => "Unable to terminate indexer process tree: " ++ detail

/-- A timer: not set, pending, or past. -/
inductive Timer where
  | unset
  | armed
  | fired
  deriving DecidableEq

/-- How the child ended: its exit code, `none` for a signal, and whether no termination had been requested. -/
structure ExitInfo where
  code : Option ℤ
  unasked : Bool
  deriving DecidableEq

/-- The child of a job. -/
structure ChildProcess where
  /-- It was started, and leads its own process group on POSIX. -/
  pid : Bool
  exited : Option ExitInfo
  /-- The other live processes of its group. -/
  others : ℕ
  errorEmitted : Bool
  exitEmitted : Bool
  closeEmitted : Bool
  deriving DecidableEq

structure IndexJob where
  project : Text
  rootPath : Text
  status : IndexJobStatus
  error : Option JobError
  /-- `job.child` is set. -/
  child : Bool
  process : ChildProcess
  timeoutTimer : Timer
  forceKillTimer : Timer
  exitDrainTimer : Timer
  treeKillTimeout : Timer
  terminationReason : Option TerminationReason
  treeKillInProgress : Bool
  /-- `ctx.refreshCodeReader` returned. -/
  refreshed : Bool
  deriving DecidableEq

/-- How the system calls that end processes go. -/
structure Signals where
  /-- `process.kill` of a group that is there throws. -/
  denied : Bool
  /-- `spawn` of `taskkill` throws. -/
  taskkillThrows : Bool

inductive KillResult where
  | delivered
  | noSuchProcess
  | denied

namespace ChildProcess

variable (p : ChildProcess)

/-- A process of the group runs. -/
def alive : Bool := (p.pid && p.exited.isNone) || decide (0 < p.others)

/-- No process of the group is left, not even the child waiting to be reaped. -/
def gone : Bool := p.exitEmitted && decide (p.others = 0)

/-- `process.kill(-pid, …)` -/
def groupKill (k : Signals) : KillResult :=
  if p.gone then .noSuchProcess else if k.denied then .denied else .delivered

/-- The child ends by a signal. -/
def killLeader (unasked : Bool) : ChildProcess :=
  { p with exited := if p.pid then p.exited.or (some ⟨none, unasked⟩) else p.exited }

/-- `SIGKILL` to the group. -/
def killGroup (unasked : Bool) : ChildProcess := { p.killLeader unasked with others := 0 }

end ChildProcess

namespace IndexJob

variable (win32 : Bool) (j : IndexJob) (k : Signals)

/-- `isActiveIndexJob` -/
def active : Bool := !j.status.terminal

def clearJobTimers : IndexJob :=
  { j with timeoutTimer := .unset, forceKillTimer := .unset, exitDrainTimer := .unset, treeKillTimeout := .unset }

def finishJob (status : IndexJobStatus) (error : Option JobError) : IndexJob :=
  if j.status.terminal then j else { j.clearJobTimers with status, error, child := false }

def finishTerminatedJob : IndexJob :=
  match j.terminationReason with
  | some .timeout => j.finishJob .timed_out (some .timeout)
  | some .requested | some .shutdown => j.finishJob .cancelled j.error
  | none => j.finishJob .failed (some .notOwned)

def failTreeTermination (detail : String) : IndexJob :=
  let killed := if j.child then j.process.killLeader j.terminationReason.isNone else j.process
  { j with process := killed }.finishJob .failed (some (.tree detail))

/-- `taskkill` ended, could not be started, or took too long. -/
def settleTreeKill (failure : Option String) : IndexJob :=
  let settled := { j with treeKillInProgress := false, treeKillTimeout := .unset }
  if settled.status.terminal then settled
  else match failure with
    | some detail => settled.failTreeTermination detail
    | none => settled.finishTerminatedJob

def forceWindowsProcessTreeTermination : IndexJob :=
  if j.treeKillInProgress then j
  else if !j.process.pid then j.failTreeTermination "owned child has no process ID"
  else if k.taskkillThrows then { j with treeKillInProgress := true }.settleTreeKill (some "taskkill")
  else { j with treeKillInProgress := true, treeKillTimeout := .armed }

def forceIndexJobTermination : IndexJob :=
  if j.status.terminal || !j.child then j
  else
    let j := { j with forceKillTimer := .unset }
    if win32 then j.forceWindowsProcessTreeTermination k
    else if !j.process.pid then j.failTreeTermination "owned child has no process ID"
    else match j.process.groupKill k with
      | .denied => j.failTreeTermination "kill"
      | .noSuchProcess => j.finishTerminatedJob
      | .delivered => { j with process := j.process.killGroup j.terminationReason.isNone }.finishTerminatedJob

def requestIndexJobTermination (reason : TerminationReason) : IndexJob :=
  if j.status.terminal || !j.child || decide (j.status = .terminating) then j
  else
    let error := match reason with
      | .timeout => some .timeout
      | .shutdown => some .shuttingDown
      | .requested => j.error
    let j := { j with terminationReason := some reason, status := .terminating, error }
    if win32 then j.forceWindowsProcessTreeTermination k
    else if !j.process.pid then j.failTreeTermination "owned child has no process ID"
    else match j.process.groupKill k with
      | .noSuchProcess => j.finishTerminatedJob
      | .denied => j.failTreeTermination "kill"
      | .delivered => { j with forceKillTimer := .armed }

/-- `opens`: the refresh of the reader does not throw. -/
def finalizeExitedChild (opens : Bool) : IndexJob :=
  if j.status.terminal then j
  else if j.terminationReason.isSome then
    if j.treeKillInProgress then j
    else if !win32 && decide (j.forceKillTimer ≠ .unset) && j.process.pid && !j.process.gone then j
    else j.finishTerminatedJob
  else
    let code := j.process.exited.bind ExitInfo.code
    if code ≠ some 0 then j.finishJob .failed (some (.exited code))
    else if opens then { j with refreshed := true }.finishJob .completed none
    else j.finishJob .failed (some .readerUnopened)

/-! ## Timers and events of the child -/

/-- The timeout of the job. -/
def onTimeout : IndexJob := { j with timeoutTimer := .fired }.requestIndexJobTermination win32 k .timeout

def onForceKill : IndexJob := { j with forceKillTimer := .fired }.forceIndexJobTermination win32 k

def onExitDrain (opens : Bool) : IndexJob := { j with exitDrainTimer := .unset }.finalizeExitedChild win32 opens

def onError : IndexJob :=
  { j with process := { j.process with errorEmitted := true } }.finishJob .failed (some .failedToStart)

def onExit : IndexJob :=
  let j := { j with process := { j.process with exitEmitted := true } }
  if j.status.terminal || decide (j.exitDrainTimer ≠ .unset) then j else { j with exitDrainTimer := .armed }

def onClose (opens : Bool) : IndexJob :=
  { j with process := { j.process with closeEmitted := true } }.finalizeExitedChild win32 opens

/-- The last loop of a shutdown sweep. -/
def giveUp : IndexJob :=
  let j := { j with timeoutTimer := .unset, forceKillTimer := .unset, treeKillTimeout := .unset }
  if j.child && j.active then { j with status := .cancelled, error := some .unconfirmed, child := false } else j

end IndexJob

/-! ## The server -/

structure UiOptions where
  win32 : Bool
  maxConcurrentIndexJobs : ℕ
  maxConcurrentIndexJobsPerProject : ℕ
  /-- The identity of the file at `defaultCodeDbPath` of a project, by which `pathsReferToSameStore` compares. -/
  store : Text → ℕ

inductive SweepPhase where
  | grace
  | deadline
  | done
  deriving DecidableEq

/-- A run of `terminateOwnedIndexJobsForShutdown`, and what it waits for. -/
structure Sweep where
  jobs : List ℕ
  phase : SweepPhase

structure UiServer where
  jobs : List IndexJob
  stopping : Bool
  /-- `stopInternal` sweeps twice. -/
  first : Option Sweep
  second : Option Sweep
  /-- The promise of `stop()` is settled. -/
  settled : Bool

/-- How the start of a child goes. -/
inductive Launch where
  /-- `getIndexerLaunch` throws. -/
  | unprepared
  /-- `spawn` throws. -/
  | throws
  /-- There is no such program: the child has no pid and will emit `error`. -/
  | noProcess
  | spawned

inductive UiEvent where
  | index (project rootPath : Text) (launch : Launch)
  | terminate (job : ℕ) (k : Signals)
  | timeout (job : ℕ) (k : Signals)
  | forceKill (job : ℕ) (k : Signals)
  | exitDrain (job : ℕ) (opens : Bool)
  | treeKillTimeout (job : ℕ)
  | treeKilled (job : ℕ) (failure : Option String)
  /-- The child ends, by itself or after a signal. -/
  | exits (job : ℕ) (code : Option ℤ)
  | forks (job : ℕ)
  | memberExits (job : ℕ)
  | error (job : ℕ)
  | exit (job : ℕ)
  | close (job : ℕ) (opens : Bool)
  /-- `stderr` data, which extends the diagnostic tail only. -/
  | stderr (job : ℕ)
  | stop (k : ℕ → Signals)
  | grace (second : Bool) (k : ℕ → Signals)
  | deadline (second : Bool)
  | sweepAgain (k : ℕ → Signals)
  | settle

namespace UiServer

variable (opts : UiOptions) (s : UiServer)

def new : UiServer := ⟨[], false, none, none, false⟩

def startedJob (project rootPath : Text) (pid : Bool) : IndexJob where
  project
  rootPath
  status := .running
  error := none
  child := true
  process := ⟨pid, none, 0, false, false, false⟩
  timeoutTimer := .armed
  forceKillTimer := .unset
  exitDrainTimer := .unset
  treeKillTimeout := .unset
  terminationReason := none
  treeKillInProgress := false
  refreshed := false

/-- The job of a `spawn` that throws. -/
def unstartedJob (project rootPath : Text) : IndexJob :=
  { startedJob project rootPath false with
    status := .pending, child := false, timeoutTimer := .unset }.finishJob .failed (some .failedToStart)

/-- The part of `routeIndex` after the body was read, with a resolved project name and root, and its HTTP status. -/
def routeIndex (project rootPath : Text) (launch : Launch) : UiServer × ℕ :=
  if s.stopping then (s, 503)
  else
    let activeJobs := s.jobs.filter IndexJob.active
    let activeForProject := activeJobs.filter fun j => opts.store j.project = opts.store project
    if opts.maxConcurrentIndexJobs ≤ activeJobs.length then (s, 429)
    else if activeForProject.any fun j => j.rootPath = rootPath then (s, 409)
    else if opts.maxConcurrentIndexJobsPerProject ≤ activeForProject.length then (s, 429)
    else match launch with
      | .unprepared => (s, 500)
      | .throws => ({ s with jobs := s.jobs ++ [unstartedJob project rootPath] }, 500)
      | .noProcess => ({ s with jobs := s.jobs ++ [startedJob project rootPath false] }, 202)
      | .spawned => ({ s with jobs := s.jobs ++ [startedJob project rootPath true] }, 202)

/-- One callback on one job. -/
def onJob (i : ℕ) (f : IndexJob → IndexJob) : UiServer :=
  { s with jobs := s.jobs.mapIdx fun k j => if k = i then f j else j }

/-- A loop of the shutdown over the jobs of a sweep. -/
def onJobs (jobs : List ℕ) (f : ℕ → IndexJob → IndexJob) : UiServer :=
  { s with jobs := s.jobs.mapIdx fun k j => if k ∈ jobs then f k j else j }

/-- The jobs that are active and have a child. -/
def ownedJobs : List ℕ :=
  (List.range s.jobs.length).filter fun i => (s.jobs[i]?).any fun j => j.active && j.child

/-- The start of `terminateOwnedIndexJobsForShutdown`, up to its first wait. -/
def beginSweep (k : ℕ → Signals) : UiServer × Sweep :=
  let jobs := s.ownedJobs
  (s.onJobs jobs fun i j => j.requestIndexJobTermination opts.win32 (k i) .shutdown,
    ⟨jobs, if jobs = [] then .done else .grace⟩)

def sweep (second : Bool) : Option Sweep := if second then s.second else s.first

def setSweep (second : Bool) (w : Sweep) : UiServer :=
  if second then { s with second := some w } else { s with first := some w }

/-- A callback that may come only under a condition on its job. -/
def whenJob (i : ℕ) (ready : IndexJob → Bool) (f : IndexJob → IndexJob) : Option UiServer :=
  if (s.jobs[i]?).any ready then some (s.onJob i f) else none

def after (s : UiServer) : UiEvent → Option UiServer
  | .index project rootPath launch => some (s.routeIndex opts project rootPath launch).1
  -- `routeIndexJobTerminate` answers 409 to any other job.
  | .terminate i k =>
    s.whenJob i (fun j => j.child && decide (j.status = .running)) fun j =>
      j.requestIndexJobTermination opts.win32 k .requested
  | .timeout i k => s.whenJob i (fun j => decide (j.timeoutTimer = .armed)) fun j => j.onTimeout opts.win32 k
  | .forceKill i k => s.whenJob i (fun j => decide (j.forceKillTimer = .armed)) fun j => j.onForceKill opts.win32 k
  | .exitDrain i opens =>
    s.whenJob i (fun j => decide (j.exitDrainTimer = .armed)) fun j => j.onExitDrain opts.win32 opens
  | .treeKillTimeout i =>
    s.whenJob i (fun j => decide (j.treeKillTimeout = .armed)) fun j => j.settleTreeKill (some "taskkill timed out")
  | .treeKilled i failure => s.whenJob i (fun j => j.treeKillInProgress) fun j => j.settleTreeKill failure
  | .exits i code =>
    s.whenJob i (fun j => j.process.pid && j.process.exited.isNone) fun j =>
      { j with process := { j.process with exited := some ⟨code, j.terminationReason.isNone⟩ } }
  | .forks i =>
    s.whenJob i (fun j => j.process.alive) fun j => { j with process := { j.process with others := j.process.others + 1 } }
  | .memberExits i =>
    s.whenJob i (fun j => decide (0 < j.process.others)) fun j =>
      { j with process := { j.process with others := j.process.others - 1 } }
  | .error i => s.whenJob i (fun j => !j.process.pid && !j.process.errorEmitted) IndexJob.onError
  | .exit i => s.whenJob i (fun j => j.process.exited.isSome && !j.process.exitEmitted) IndexJob.onExit
  | .close i opens =>
    s.whenJob i (fun j => (j.process.exitEmitted || j.process.errorEmitted) && !j.process.closeEmitted) fun j =>
      j.onClose opts.win32 opens
  | .stderr _ => some s
  | .stop k =>
    if s.stopping then some s
    else
      let (t, w) := s.beginSweep opts k
      some { t with stopping := true, first := some w }
  | .grace second k =>
    match s.sweep second with
    | some ⟨jobs, .grace⟩ =>
      some ((s.onJobs jobs fun i j => j.forceIndexJobTermination opts.win32 (k i)).setSweep second ⟨jobs, .deadline⟩)
    | _ => none
  | .deadline second =>
    match s.sweep second with
    | some ⟨jobs, .deadline⟩ => some ((s.onJobs jobs fun _ j => j.giveUp).setSweep second ⟨jobs, .done⟩)
    | _ => none
  -- The waits of `stopInternal` before its second sweep are bounded, so that the first may still be going.
  | .sweepAgain k =>
    if s.stopping && s.second.isNone then
      let (t, w) := s.beginSweep opts k
      some { t with second := some w }
    else none
  | .settle =>
    match s.second with
    | some ⟨_, .done⟩ => some { s with settled := true }
    | _ => none

def Step (s : UiServer) (e : UiEvent) (s' : UiServer) : Prop := s.after opts e = some s'

end UiServer

end Ariad.Ui
