import Ariad.Ui.IndexJobs

/-!
# What one callback does to a job

* `ChildProcess.Ok`, `IndexJob.Ok` — what holds of every job between two callbacks.
* `Stopping` — a job whose termination was requested, in the middle of a callback.
* `Later` — a callback leaves the job's project, a terminal status, and never takes a job back to `running`.
* `Ok.request`, `Ok.force`, `Ok.finalize`, … — every callback keeps `Ok`.
-/

namespace Ariad.Ui

variable {win32 : Bool} {j j' j'' : IndexJob} {k : Signals} {status : IndexJobStatus} {error : Option JobError}
  {detail : String} {opens : Bool}

/-! ## The invariant of a job -/

structure ChildProcess.Ok (p : ChildProcess) : Prop where
  noPid : p.pid = false → p.exited = none ∧ p.others = 0
  emitted : p.exitEmitted = true → p.exited.isSome = true
  failed : p.errorEmitted = true → p.pid = false

namespace IndexJob

/-- The child ended with code 0 before a termination was requested. -/
def EndedWell (j : IndexJob) : Prop := j.process.exited = some ⟨some 0, true⟩

structure Ok (win32 : Bool) (j : IndexJob) : Prop where
  process : j.process.Ok
  owned : j.active = true → j.child = true
  working : j.active = true → j.status = .running ∨ j.status = .terminating
  calm : j.status = .running → j.terminationReason = none
  asked : j.status = .terminating → j.terminationReason.isSome = true
  killing : j.active = true →
    (j.forceKillTimer = .armed ∨ j.treeKillTimeout = .armed ∨ j.treeKillInProgress = true) → j.status = .terminating
  /-- On POSIX the timer that will kill the group is there. -/
  force : win32 = false → j.status = .terminating → j.forceKillTimer ≠ .unset
  posix : win32 = false → j.treeKillInProgress = false ∧ j.treeKillTimeout ≠ .armed
  timers : j.active = false →
    j.timeoutTimer ≠ .armed ∧ j.forceKillTimer ≠ .armed ∧ j.exitDrainTimer ≠ .armed ∧ j.treeKillTimeout ≠ .armed
  completed : j.status = .completed → (∃ unasked, j.process.exited = some ⟨some 0, unasked⟩) ∧ j.refreshed = true
  ended : (j.status = .cancelled ∨ j.status = .timed_out) → j.terminationReason.isSome = true
  /-- On POSIX a termination that left a process says so. -/
  alone : win32 = false → j.active = false → j.terminationReason.isSome = true → j.process.alive = true →
    j.status = .failed ∧ ∃ detail, j.error = some (.tree detail)
  well : j.EndedWell → j.status = .running ∨ j.status = .completed ∨
    (j.status = .failed ∧ j.error = some .readerUnopened)
  /-- A job that ended without its child was asked to. -/
  left : j.active = false → j.process.pid = true → j.process.exited = none → j.terminationReason.isSome = true
  drain : j.status = .running → j.process.exitEmitted = true → j.exitDrainTimer = .armed
  drained : j.exitDrainTimer = .armed → j.process.exitEmitted = true
  unfired : j.exitDrainTimer ≠ .fired

/-- What every callback leaves. -/
structure Later (j j' : IndexJob) : Prop where
  project : j'.project = j.project
  terminal : j.active = false → j'.status = j.status
  running : j'.status = .running → j.status = .running

variable {p : ChildProcess}

variable {unasked : Bool}

theorem Later.refl (j : IndexJob) : Later j j := ⟨rfl, fun _ => rfl, id⟩

theorem active_eq_false_iff : j.active = false ↔ j.status.terminal = true := by simp [active]

theorem active_iff : j.active = true ↔ j.status.terminal = false := by simp [active]

theorem Later.active (h : Later j j') (ha : j'.active = true) : j.active = true := by
  rw [← Bool.not_eq_false]
  intro hf
  rw [active_iff, h.terminal hf] at ha
  rw [active_eq_false_iff, ha] at hf
  cases hf

theorem Later.trans (h : Later j j') (h' : Later j' j'') : Later j j'' where
  project := h'.project.trans h.project
  terminal hf := by
    have hs := h.terminal hf
    have hf' : j'.active = false := by
      rw [active_eq_false_iff, hs]
      exact active_eq_false_iff.mp hf
    exact (h'.terminal hf').trans hs
  running hr := h.running (h'.running hr)

/-- From an active job only the project and `running` are at stake. -/
theorem Later.of_active (ha : j.active = true) (hproject : j'.project = j.project)
    (hrunning : j'.status = .running → j.status = .running) : Later j j' :=
  ⟨hproject, fun hf => absurd ha (by simp [hf]), hrunning⟩

/-! ## Finishing -/

theorem finishJob_of_active (ha : j.active = true) :
    j.finishJob status error = { j.clearJobTimers with status, error, child := false } := by
  rw [finishJob, if_neg (by simp [active_iff.mp ha])]

theorem finishJob_of_terminal (ha : j.active = false) : j.finishJob status error = j := by
  rw [finishJob, if_pos (active_eq_false_iff.mp ha)]

theorem Ok.finishJob (ha : j.active = true) (hprocess : j.process.Ok) (hstatus : status.terminal = true)
    (hposix : win32 = false → j.treeKillInProgress = false ∧ j.treeKillTimeout ≠ .armed)
    (hcompleted : status = .completed → (∃ unasked, j.process.exited = some ⟨some 0, unasked⟩) ∧ j.refreshed = true)
    (hended : (status = .cancelled ∨ status = .timed_out) → j.terminationReason.isSome = true)
    (halone : win32 = false → j.terminationReason.isSome = true → j.process.alive = true →
      status = .failed ∧ ∃ detail, error = some (.tree detail))
    (hwell : j.EndedWell → status = .completed ∨ (status = .failed ∧ error = some .readerUnopened))
    (hleft : j.process.pid = true → j.process.exited = none → j.terminationReason.isSome = true) :
    (j.finishJob status error).Ok win32 := by
  rw [finishJob_of_active ha]
  have hterm : ∀ st : IndexJobStatus, st.terminal = false → status ≠ st := by
    rintro st hst rfl
    rw [hstatus] at hst
    cases hst
  constructor
  · exact hprocess
  · intro h
    simp [active, hstatus] at h
  · intro h
    simp [active, hstatus] at h
  · exact fun h => absurd h (hterm _ rfl)
  · exact fun h => absurd h (hterm _ rfl)
  · intro h
    simp [active, hstatus] at h
  · exact fun _ h => absurd h (hterm _ rfl)
  · exact fun hw => ⟨(hposix hw).1, nofun⟩
  · simp [clearJobTimers]
  · exact hcompleted
  · exact hended
  · exact fun hw _ => halone hw
  · exact fun h => .inr (hwell h)
  · exact fun _ => hleft
  · exact fun h => absurd h (hterm _ rfl)
  · exact nofun
  · exact nofun

theorem Later.finishJob (hstatus : status.terminal = true) : Later j (j.finishJob status error) := by
  by_cases ha : j.active = true
  · rw [finishJob_of_active ha]
    refine .of_active ha rfl ?_
    rintro rfl
    cases hstatus
  · rw [finishJob_of_terminal (by simpa using ha)]
    exact .refl j

/-! ## A job that is being terminated -/

/-- A job in the middle of its termination. -/
structure Stopping (win32 : Bool) (j : IndexJob) : Prop where
  process : j.process.Ok
  status : j.status = .terminating
  child : j.child = true
  asked : j.terminationReason.isSome = true
  posix : win32 = false → j.treeKillInProgress = false ∧ j.treeKillTimeout ≠ .armed
  well : ¬ j.EndedWell
  drained : j.exitDrainTimer = .armed → j.process.exitEmitted = true
  unfired : j.exitDrainTimer ≠ .fired

theorem Stopping.active (h : Stopping win32 j) : j.active = true := by simp [IndexJob.active, h.status, IndexJobStatus.terminal]

/-- A job that goes on being terminated. -/
theorem Stopping.ok (h : Stopping win32 j) (hforce : win32 = false → j.forceKillTimer ≠ .unset) : j.Ok win32 where
  process := h.process
  owned _ := h.child
  working _ := .inr h.status
  calm hr := by simp [h.status] at hr
  asked _ := h.asked
  killing _ _ := h.status
  force hw _ := hforce hw
  posix := h.posix
  timers hf := by simp [h.active] at hf
  completed hc := by simp [h.status] at hc
  ended hc := by simp [h.status] at hc
  alone _ hf := by simp [h.active] at hf
  well hw := absurd hw h.well
  left hf := by simp [h.active] at hf
  drain hr := by simp [h.status] at hr
  drained := h.drained
  unfired := h.unfired

theorem Ok.stopping (h : j.Ok win32) (hs : j.status = .terminating) : Stopping win32 j where
  process := h.process
  status := hs
  child := h.owned (by simp [active, hs, IndexJobStatus.terminal])
  asked := h.asked hs
  posix := h.posix
  well hw := by
    obtain hr | hr | ⟨hr, _⟩ := h.well hw
    all_goals
      rw [hs] at hr
      cases hr
  drained := h.drained
  unfired := h.unfired

theorem Stopping.finishTerminatedJob (h : Stopping win32 j) (halone : win32 = false → j.process.alive = false) :
    j.finishTerminatedJob.Ok win32 := by
  obtain ⟨reason, hreason⟩ := Option.isSome_iff_exists.mp h.asked
  have hfinish : ∀ status error, status.terminal = true → status ≠ .completed → (j.finishJob status error).Ok win32 := by
    intro status error hterminal hne
    refine .finishJob h.active h.process hterminal h.posix (fun hc => absurd hc hne) (fun _ => h.asked) ?_
      (fun hw => absurd hw h.well) fun _ _ => h.asked
    intro hw _ halive
    simp [halone hw] at halive
  rw [IndexJob.finishTerminatedJob, hreason]
  cases reason with
  | requested => exact hfinish _ _ rfl (by simp)
  | timeout => exact hfinish _ _ rfl (by simp)
  | shutdown => exact hfinish _ _ rfl (by simp)

theorem Later.finishTerminatedJob : Later j j.finishTerminatedJob := by
  rw [IndexJob.finishTerminatedJob]
  split
  all_goals exact .finishJob rfl

theorem ok_killLeader (h : p.Ok) : (p.killLeader unasked).Ok where
  noPid hp := by
    have hp' : p.pid = false := hp
    obtain ⟨hexited, hothers⟩ := h.noPid hp'
    simp [ChildProcess.killLeader, hp', hexited, hothers]
  emitted he := by
    have := h.emitted he
    simp only [ChildProcess.killLeader]
    split
    · cases hx : p.exited <;> simp [hx] at this ⊢
    · exact this
  failed := h.failed

theorem ok_killGroup (h : p.Ok) : (p.killGroup unasked).Ok :=
  have hk : (p.killLeader unasked).Ok := ok_killLeader h
  ⟨fun hp => ⟨(hk.noPid hp).1, rfl⟩, hk.emitted, hk.failed⟩

theorem exited_killLeader
    (h : (p.killLeader unasked).exited = some ⟨some 0, true⟩) : p.exited = some ⟨some 0, true⟩ := by
  simp only [ChildProcess.killLeader] at h
  split at h
  · cases hx : p.exited with
    | none => simp [hx] at h
    | some x => simpa [hx] using h
  · exact h

/-- After `SIGKILL` nothing of the group runs. -/
theorem alive_killGroup : (p.killGroup unasked).alive = false := by
  cases hp : p.pid <;> cases hx : p.exited <;>
    simp [ChildProcess.alive, ChildProcess.killGroup, ChildProcess.killLeader, hp, hx]

/-- Where no process of the group is left, nothing of it runs. -/
theorem alive_of_gone (h : p.Ok) (hgone : p.gone = true) : p.alive = false := by
  simp only [ChildProcess.gone, Bool.and_eq_true, decide_eq_true_eq] at hgone
  obtain ⟨x, hx⟩ := Option.isSome_iff_exists.mp (h.emitted hgone.1)
  simp [ChildProcess.alive, hx, hgone.2]

theorem alive_of_noPid (h : p.Ok) (hp : p.pid = false) : p.alive = false := by
  simp [ChildProcess.alive, hp, (h.noPid hp).2]

theorem Stopping.failTreeTermination (h : Stopping win32 j) : (j.failTreeTermination detail).Ok win32 := by
  have hkilled : Stopping win32 { j with process := j.process.killLeader j.terminationReason.isNone } :=
    ⟨ok_killLeader h.process, h.status, h.child, h.asked, h.posix, fun hw => h.well (exited_killLeader hw), h.drained,
      h.unfired⟩
  have heq : j.failTreeTermination detail =
      { j with process := j.process.killLeader j.terminationReason.isNone }.finishJob .failed (some (.tree detail)) := by
    simp [IndexJob.failTreeTermination, h.child]
  rw [heq]
  exact .finishJob hkilled.active hkilled.process rfl hkilled.posix nofun (fun _ => hkilled.asked)
    (fun _ _ _ => ⟨rfl, _, rfl⟩) (fun hw => absurd hw hkilled.well) fun _ _ => hkilled.asked

theorem Later.failTreeTermination : Later j (j.failTreeTermination detail) := by
  have hkill : Later j { j with
      process := if j.child then j.process.killLeader j.terminationReason.isNone else j.process } :=
    ⟨rfl, fun _ => rfl, id⟩
  exact hkill.trans (.finishJob rfl)

/-- A taskkill that settles, with the job still being terminated. -/
theorem Stopping.settleTreeKill (h : Stopping true j) (failure : Option String) :
    (j.settleTreeKill failure).Ok true := by
  have hsettled : Stopping true { j with treeKillInProgress := false, treeKillTimeout := .unset } :=
    ⟨h.process, h.status, h.child, h.asked, nofun, h.well, h.drained, h.unfired⟩
  simp only [IndexJob.settleTreeKill, active_iff.mp h.active, Bool.false_eq_true, if_false]
  cases failure with
  | none => exact hsettled.finishTerminatedJob nofun
  | some detail => exact hsettled.failTreeTermination

theorem Later.settleTreeKill (failure : Option String) : Later j (j.settleTreeKill failure) := by
  have hsettled : Later j { j with treeKillInProgress := false, treeKillTimeout := .unset } :=
    ⟨rfl, fun _ => rfl, id⟩
  simp only [IndexJob.settleTreeKill]
  split
  · exact hsettled
  · cases failure with
    | none => exact hsettled.trans .finishTerminatedJob
    | some detail => exact hsettled.trans .failTreeTermination

theorem Stopping.forceWindows (h : Stopping true j) : (j.forceWindowsProcessTreeTermination k).Ok true := by
  rw [IndexJob.forceWindowsProcessTreeTermination]
  split
  · exact h.ok nofun
  split
  · exact h.failTreeTermination
  split
  · have hkilling : Stopping true { j with treeKillInProgress := true } :=
      ⟨h.process, h.status, h.child, h.asked, nofun, h.well, h.drained, h.unfired⟩
    exact hkilling.settleTreeKill _
  · have hkilling : Stopping true { j with treeKillInProgress := true, treeKillTimeout := .armed } :=
      ⟨h.process, h.status, h.child, h.asked, nofun, h.well, h.drained, h.unfired⟩
    exact hkilling.ok nofun

theorem Later.forceWindows : Later j (j.forceWindowsProcessTreeTermination k) := by
  have hkilling : Later j { j with treeKillInProgress := true } := ⟨rfl, fun _ => rfl, id⟩
  rw [IndexJob.forceWindowsProcessTreeTermination]
  split
  · exact .refl j
  split
  · exact .failTreeTermination
  split
  · exact hkilling.trans (.settleTreeKill _)
  · exact ⟨rfl, fun _ => rfl, id⟩

/-! ## Terminating -/

/-- The group got its signal, and the timer that will kill it is set. -/
theorem Stopping.armed (h : Stopping win32 j) : ({ j with forceKillTimer := .armed } : IndexJob).Ok win32 :=
  have harmed : Stopping win32 { j with forceKillTimer := .armed } :=
    ⟨h.process, h.status, h.child, h.asked, h.posix, h.well, h.drained, h.unfired⟩
  harmed.ok fun _ => by simp

theorem Stopping.killGroup (h : Stopping win32 j) (unasked : Bool) :
    Stopping win32 { j with process := j.process.killGroup unasked } :=
  ⟨ok_killGroup h.process, h.status, h.child, h.asked, h.posix, fun hw => h.well (exited_killLeader hw), h.drained,
    h.unfired⟩

theorem groupKill_noSuchProcess (h : p.groupKill k = .noSuchProcess) : p.gone = true := by
  rw [ChildProcess.groupKill] at h
  split at h
  · assumption
  · split at h <;> cases h

theorem Ok.requestIndexJobTermination (h : j.Ok win32) (reason : TerminationReason)
    (hwell : j.active = true → ¬ j.EndedWell) : (j.requestIndexJobTermination win32 k reason).Ok win32 := by
  simp only [IndexJob.requestIndexJobTermination]
  split
  · exact h
  rename_i hcond
  simp only [Bool.or_eq_true, Bool.not_eq_true', decide_eq_true_eq, not_or] at hcond
  obtain ⟨⟨hterminal, hchild⟩, _⟩ := hcond
  have ha : j.active = true := active_iff.mpr (by simpa using hterminal)
  -- The job with its reason, before the first signal.
  have hstop : ∀ error, Stopping win32 { j with terminationReason := some reason, status := .terminating, error } :=
    fun error => ⟨h.process, rfl, by simpa using hchild, rfl, h.posix, hwell ha, h.drained, h.unfired⟩
  split
  · rename_i hwin
    subst hwin
    exact (hstop _).forceWindows
  split
  · exact (hstop _).failTreeTermination
  split
  · rename_i hgone
    exact (hstop _).finishTerminatedJob fun _ => alive_of_gone h.process (groupKill_noSuchProcess hgone)
  · exact (hstop _).failTreeTermination
  · exact (hstop _).armed

theorem Later.requestIndexJobTermination (reason : TerminationReason) :
    Later j (j.requestIndexJobTermination win32 k reason) := by
  simp only [IndexJob.requestIndexJobTermination]
  split
  · exact .refl j
  rename_i hcond
  simp only [Bool.or_eq_true, Bool.not_eq_true', decide_eq_true_eq, not_or] at hcond
  have ha : j.active = true := active_iff.mpr (by simpa using hcond.1.1)
  have hmid : ∀ error, Later j { j with terminationReason := some reason, status := .terminating, error } :=
    fun error => .of_active ha rfl nofun
  split
  · exact (hmid _).trans .forceWindows
  split
  · exact (hmid _).trans .failTreeTermination
  split
  · exact (hmid _).trans .finishTerminatedJob
  · exact (hmid _).trans .failTreeTermination
  · exact .of_active ha rfl nofun

/-- A job that is terminating or terminal is forced. -/
theorem Ok.forceIndexJobTermination (h : j.Ok win32) (hs : j.status ≠ .running) :
    (j.forceIndexJobTermination win32 k).Ok win32 := by
  rw [IndexJob.forceIndexJobTermination]
  split
  · exact h
  rename_i hcond
  simp only [Bool.or_eq_true, Bool.not_eq_true', not_or] at hcond
  have ha : j.active = true := active_iff.mpr (by simpa using hcond.1)
  have hst := h.stopping ((h.working ha).resolve_left hs)
  have hstop : Stopping win32 { j with forceKillTimer := .unset } :=
    ⟨hst.process, hst.status, hst.child, hst.asked, hst.posix, hst.well, hst.drained, hst.unfired⟩
  simp only
  split
  · rename_i hwin
    subst hwin
    exact hstop.forceWindows
  split
  · exact hstop.failTreeTermination
  split
  · exact hstop.failTreeTermination
  · rename_i hgone
    exact hstop.finishTerminatedJob fun _ => alive_of_gone h.process (groupKill_noSuchProcess hgone)
  · exact (hstop.killGroup _).finishTerminatedJob fun _ => alive_killGroup

theorem Later.forceIndexJobTermination : Later j (j.forceIndexJobTermination win32 k) := by
  have hmid : ∀ process, Later j { j with forceKillTimer := .unset, process } := fun _ => ⟨rfl, fun _ => rfl, id⟩
  rw [IndexJob.forceIndexJobTermination]
  split
  · exact .refl j
  simp only
  split
  · exact (hmid _).trans .forceWindows
  iterate 2
    split
    · exact (hmid _).trans .failTreeTermination
  · exact (hmid _).trans .finishTerminatedJob
  · exact (hmid _).trans .finishTerminatedJob

/-- On POSIX a forced job is terminal. -/
theorem terminal_forceIndexJobTermination (h : j.Ok false) : (j.forceIndexJobTermination false k).active = false := by
  have hfinish : ∀ (j : IndexJob) status error, status.terminal = true → (j.finishJob status error).active = false := by
    intro j status error hstatus
    rw [finishJob]
    split
    · rename_i ht
      exact active_eq_false_iff.mpr ht
    · exact active_eq_false_iff.mpr hstatus
  have hterminated : ∀ j : IndexJob, j.finishTerminatedJob.active = false := by
    intro j
    rw [finishTerminatedJob]
    split
    all_goals exact hfinish _ _ _ rfl
  rw [IndexJob.forceIndexJobTermination]
  split
  · rename_i hcond
    rw [← Bool.not_eq_true]
    intro ha
    simp [active_iff.mp ha, h.owned ha] at hcond
  simp only [Bool.false_eq_true, if_false]
  split
  · exact hfinish _ _ _ rfl
  split
  · exact hfinish _ _ _ rfl
  · exact hterminated _
  · exact hterminated _

/-! ## Finalizing -/

theorem ok_finalizeExitedChild (hterminal : j.active = false → j.Ok win32)
    (hworking : j.active = true → j.status = .running ∨ j.status = .terminating) (hprocess : j.process.Ok)
    (hstop : j.status = .terminating → Stopping win32 j)
    (hforce : win32 = false → j.status = .terminating → j.forceKillTimer ≠ .unset)
    (hcalm : j.status = .running → j.terminationReason = none)
    (hposix : win32 = false → j.treeKillInProgress = false ∧ j.treeKillTimeout ≠ .armed)
    (hended : j.process.pid = true → j.process.exited ≠ none) : (j.finalizeExitedChild win32 opens).Ok win32 := by
  simp only [finalizeExitedChild]
  split
  · rename_i ht
    exact hterminal (active_eq_false_iff.mpr ht)
  rename_i ht
  have ha : j.active = true := active_iff.mpr (by simpa using ht)
  obtain hrunning | hterminating := hworking ha
  · rw [if_neg (by simp [hcalm hrunning])]
    have hunasked : ¬ j.terminationReason.isSome = true := by simp [hcalm hrunning]
    -- The child ended before a termination was requested.
    split
    · rename_i hcode
      refine .finishJob ha hprocess rfl hposix nofun (fun hc => by simp at hc) (fun _ hr => absurd hr hunasked)
        (fun hw => ?_) fun hp hx => absurd hx (hended hp)
      rw [hw] at hcode
      exact absurd rfl hcode
    · rename_i hcode
      rw [not_not, Option.bind_eq_some_iff] at hcode
      obtain ⟨⟨code, unasked⟩, hx, rfl⟩ := hcode
      split
      · exact .finishJob (j := { j with refreshed := true }) ha hprocess rfl hposix (fun _ => ⟨⟨unasked, hx⟩, rfl⟩)
          (fun hc => by simp at hc) (fun _ hr => absurd hr hunasked) (fun _ => .inl rfl)
          fun hp hx => absurd hx (hended hp)
      · exact .finishJob ha hprocess rfl hposix nofun (fun hc => by simp at hc) (fun _ hr => absurd hr hunasked)
          (fun _ => .inr ⟨rfl, rfl⟩) fun hp hx => absurd hx (hended hp)
  · have hst := hstop hterminating
    rw [hst.asked, if_pos rfl]
    iterate 2
      split
      · exact hst.ok fun hw => hforce hw hterminating
    · rename_i hcond
      apply hst.finishTerminatedJob
      rintro rfl
      -- The force timer is set, so that the group has no process left.
      simp only [Bool.not_false, hforce rfl hterminating, ne_eq, not_false_eq_true, decide_true, Bool.true_and,
        Bool.and_eq_true, Bool.not_eq_true', not_and, Bool.not_eq_false] at hcond
      by_cases hp : j.process.pid = true
      · exact alive_of_gone hprocess (hcond hp)
      · exact alive_of_noPid hprocess (by simpa using hp)

theorem Later.finalizeExitedChild : Later j (j.finalizeExitedChild win32 opens) := by
  have hrefreshed : Later j { j with refreshed := true } := ⟨rfl, fun _ => rfl, id⟩
  simp only [IndexJob.finalizeExitedChild]
  split
  · exact .refl j
  split
  · split
    · exact .refl j
    split
    · exact .refl j
    · exact .finishTerminatedJob
  split
  · exact .finishJob rfl
  split
  · exact hrefreshed.trans (.finishJob rfl)
  · exact .finishJob rfl

/-- A job whose child ended well, without a request since, is completed, or fails for its reader. -/
theorem status_finalizeExitedChild (hrunning : j.status = .running) (hcalm : j.terminationReason = none)
    (hwell : j.EndedWell) : (j.finalizeExitedChild win32 opens).status = if opens then .completed else .failed := by
  have ha : j.active = true := by simp [active, hrunning, IndexJobStatus.terminal]
  have hcode : j.process.exited.bind ExitInfo.code = some 0 := by
    rw [hwell]
    rfl
  simp only [finalizeExitedChild, active_iff.mp ha, hcalm, hcode]
  cases opens
  · simp [finishJob_of_active ha]
  · simp [finishJob, active_iff.mp ha]

/-! ## Timers -/

section

variable (h : j.Ok win32)
include h

theorem Ok.onTimeout (hwell : j.active = true → ¬ j.EndedWell) : (j.onTimeout win32 k).Ok win32 := by
  have hfired : ({ j with timeoutTimer := .fired } : IndexJob).Ok win32 :=
    { h with timers := fun hf => ⟨by simp, (h.timers hf).2⟩ }
  exact hfired.requestIndexJobTermination _ hwell

theorem Ok.onForceKill (harmed : j.forceKillTimer = .armed) : (j.onForceKill win32 k).Ok win32 := by
  have ha : j.active = true := by
    rw [← Bool.not_eq_false]
    exact fun hf => (h.timers hf).2.1 harmed
  have hst := h.killing ha (.inl harmed)
  have hfired : ({ j with forceKillTimer := .fired } : IndexJob).Ok win32 :=
    { h with
      timers := fun hf => ⟨(h.timers hf).1, by simp, (h.timers hf).2.2⟩
      killing := fun _ _ => hst
      force := fun _ _ => by simp }
  exact hfired.forceIndexJobTermination (by simp [hst])

theorem Ok.onExitDrain (harmed : j.exitDrainTimer = .armed) : (j.onExitDrain win32 opens).Ok win32 := by
  have ha : j.active = true := by
    rw [← Bool.not_eq_false]
    exact fun hf => (h.timers hf).2.2.1 harmed
  apply ok_finalizeExitedChild
  · intro hf
    exact absurd hf (by simp [active, active_iff.mp ha])
  · exact h.working
  · exact h.process
  · intro hs
    have hst := h.stopping hs
    exact ⟨hst.process, hst.status, hst.child, hst.asked, hst.posix, hst.well, nofun, nofun⟩
  · exact h.force
  · exact h.calm
  · exact h.posix
  · intro _ hx
    have hex := h.process.emitted (h.drained harmed)
    rw [hx] at hex
    cases hex

theorem Ok.settleTreeKill (failure : Option String)
    (hkilling : j.treeKillTimeout = .armed ∨ j.treeKillInProgress = true) (hwin : win32 = true) :
    (j.settleTreeKill failure).Ok win32 := by
  subst hwin
  by_cases ha : j.active = true
  · exact (h.stopping (h.killing ha (.inr hkilling))).settleTreeKill failure
  · have hf : j.active = false := by simpa using ha
    simp only [IndexJob.settleTreeKill, active_eq_false_iff.mp hf, if_true]
    exact { h with
      killing := fun ha' _ => absurd ha' ha
      posix := nofun
      timers := fun hf => ⟨(h.timers hf).1, (h.timers hf).2.1, (h.timers hf).2.2.1, by simp⟩ }

/-! ## Events of the child -/

/-- A change of the process alone. -/
theorem Ok.ofProcess (hp : p.Ok) (hpid : p.pid = j.process.pid) (hexited : p.exited = j.process.exited ∨
      (j.process.exited = none ∧ ∃ code, p.exited = some ⟨code, j.terminationReason.isNone⟩ ∧ p.pid = true))
    (halive : j.process.alive = false → p.alive = false) (hemitted : p.exitEmitted = j.process.exitEmitted) :
    ({ j with process := p } : IndexJob).Ok win32 where
  process := hp
  owned := h.owned
  working := h.working
  calm := h.calm
  asked := h.asked
  killing := h.killing
  force := h.force
  posix := h.posix
  timers := h.timers
  completed hc := by
    obtain ⟨⟨unasked, hx⟩, hr⟩ := h.completed hc
    refine ⟨⟨unasked, ?_⟩, hr⟩
    obtain he | ⟨hnone, _⟩ := hexited
    · exact he.trans hx
    · rw [hnone] at hx
      cases hx
  ended := h.ended
  alone hw hf hr hp := by
    apply h.alone hw hf hr
    rw [← Bool.not_eq_false]
    intro hdead
    simp [halive hdead] at hp
  well hw := by
    obtain he | ⟨hnone, code, he, hp⟩ := hexited
    · exact h.well (he.symm.trans hw)
    · -- The child ends now, unasked: a terminal job whose child ran was asked.
      have hunasked : j.terminationReason = none := by
        have hx : some (ExitInfo.mk code j.terminationReason.isNone) = some ⟨some 0, true⟩ := he.symm.trans hw
        simpa using congrArg ExitInfo.unasked (Option.some.inj hx)
      by_cases ha : j.active = true
      · obtain hr | ht := h.working ha
        · exact .inl hr
        · have := h.asked ht
          simp [hunasked] at this
      · have := h.left (by simpa using ha) (hpid ▸ hp) hnone
        simp [hunasked] at this
  left hf hp hx := by
    obtain he | ⟨_, code, he, _⟩ := hexited
    · exact h.left hf (hpid ▸ hp) (he.symm.trans hx)
    · rw [he] at hx
      cases hx
  drain hr he := h.drain hr (hemitted ▸ he)
  drained hd := hemitted ▸ h.drained hd
  unfired := h.unfired

theorem Ok.exits (code : Option ℤ) (hpid : j.process.pid = true) (hnone : j.process.exited = none) :
    ({ j with process := { j.process with exited := some ⟨code, j.terminationReason.isNone⟩ } } : IndexJob).Ok win32 := by
  apply h.ofProcess
  · exact ⟨fun hp => absurd (hpid.symm.trans hp) (by simp), fun _ => rfl, h.process.failed⟩
  · rfl
  · exact .inr ⟨hnone, code, rfl, hpid⟩
  · intro halive
    simp [ChildProcess.alive, hpid, hnone] at halive
  · rfl

theorem Ok.forks (halive : j.process.alive = true) :
    ({ j with process := { j.process with others := j.process.others + 1 } } : IndexJob).Ok win32 := by
  apply h.ofProcess
  · refine ⟨fun hp => ?_, h.process.emitted, h.process.failed⟩
    rw [alive_of_noPid h.process hp] at halive
    cases halive
  · rfl
  · exact .inl rfl
  · intro hf
    rw [hf] at halive
    cases halive
  · rfl

theorem Ok.memberExits :
    ({ j with process := { j.process with others := j.process.others - 1 } } : IndexJob).Ok win32 := by
  apply h.ofProcess
  · refine ⟨fun hp => ?_, h.process.emitted, h.process.failed⟩
    obtain ⟨hx, ho⟩ := h.process.noPid hp
    exact ⟨hx, by simp [ho]⟩
  · rfl
  · exact .inl rfl
  · intro hf
    simp only [ChildProcess.alive, Bool.or_eq_false_iff, decide_eq_false_iff_not] at hf ⊢
    exact ⟨hf.1, by omega⟩
  · rfl

theorem Ok.onError (hpid : j.process.pid = false) : j.onError.Ok win32 := by
  have hp : ({ j.process with errorEmitted := true } : ChildProcess).Ok :=
    ⟨h.process.noPid, h.process.emitted, fun _ => hpid⟩
  have herror : ({ j with process := { j.process with errorEmitted := true } } : IndexJob).Ok win32 :=
    h.ofProcess hp rfl (.inl rfl) id rfl
  rw [IndexJob.onError]
  by_cases ha : j.active = true
  · refine .finishJob ha hp rfl h.posix nofun (fun hc => by simp at hc) ?_ ?_ ?_
    · intro _ _ halive
      have hdead := alive_of_noPid hp hpid
      simp [hdead] at halive
    · intro hw
      have hx : j.process.exited = some ⟨some 0, true⟩ := hw
      rw [(h.process.noPid hpid).1] at hx
      cases hx
    · intro hp' _
      exact absurd (hp'.symm.trans hpid) (by simp)
  · rw [finishJob_of_terminal (by simpa [active] using ha)]
    exact herror

theorem Ok.onExit (hexited : j.process.exited.isSome = true) (hnot : j.process.exitEmitted = false) :
    j.onExit.Ok win32 := by
  have hp : ({ j.process with exitEmitted := true } : ChildProcess).Ok :=
    ⟨h.process.noPid, fun _ => hexited, h.process.failed⟩
  have hunset : j.exitDrainTimer = .unset := by
    cases hd : j.exitDrainTimer with
    | unset => rfl
    | armed =>
      have := h.drained hd
      rw [hnot] at this
      cases this
    | fired => exact absurd hd h.unfired
  by_cases ha : j.active = true
  · have heq : j.onExit =
        { j with process := { j.process with exitEmitted := true }, exitDrainTimer := .armed } := by
      simp [IndexJob.onExit, active_iff.mp ha, hunset]
    rw [heq]
    exact { h with
      process := hp
      timers := fun hf => absurd (ha.symm.trans hf) (by simp)
      drain := fun _ _ => rfl
      drained := fun _ => rfl
      unfired := nofun }
  · have hf : j.active = false := by simpa using ha
    have heq : j.onExit = { j with process := { j.process with exitEmitted := true } } := by
      simp [IndexJob.onExit, active_eq_false_iff.mp hf]
    rw [heq]
    exact { h with
      process := hp
      drain := fun hr _ => by
        have hr' : j.status = .running := hr
        simp [active, hr', IndexJobStatus.terminal] at ha
      drained := fun _ => rfl }

theorem Ok.onClose (hready : (j.process.exitEmitted || j.process.errorEmitted) = true) :
    (j.onClose win32 opens).Ok win32 := by
  have hp : ({ j.process with closeEmitted := true } : ChildProcess).Ok := ⟨h.process.noPid, h.process.emitted, h.process.failed⟩
  have hclosed : ({ j with process := { j.process with closeEmitted := true } } : IndexJob).Ok win32 :=
    h.ofProcess hp rfl (.inl rfl) id rfl
  refine ok_finalizeExitedChild (fun _ => hclosed) hclosed.working hp hclosed.stopping hclosed.force hclosed.calm
    hclosed.posix ?_
  intro hpid hx
  have hpid' : j.process.pid = true := hpid
  have hx' : j.process.exited = none := hx
  simp only [Bool.or_eq_true] at hready
  obtain he | he := hready
  · have := h.process.emitted he
    simp [hx'] at this
  · have := h.process.failed he
    simp [hpid'] at this

/-! ## The end of a shutdown sweep -/

/-- A job that is not running any more, with no exit waiting for its drain. -/
theorem Ok.giveUp (hs : j.status ≠ .running) (hposix : win32 = false → j.active = false)
    (hdrain : j.active = true → j.exitDrainTimer ≠ .armed) : j.giveUp.Ok win32 ∧ j.giveUp.active = false := by
  by_cases ha : j.active = true
  · have hst := h.stopping ((h.working ha).resolve_left hs)
    have hwin : win32 = true := by
      rw [← Bool.not_eq_false]
      intro hw
      exact absurd (hposix hw) (by simp [ha])
    have heq : j.giveUp = { j with
        timeoutTimer := .unset, forceKillTimer := .unset, treeKillTimeout := .unset, status := .cancelled,
        error := some .unconfirmed, child := false } := by
      have ha' := active_iff.mp ha
      simp [IndexJob.giveUp, hst.child, active, ha']
    rw [heq]
    refine ⟨?_, rfl⟩
    subst hwin
    exact {
      process := h.process
      owned := nofun
      working := nofun
      calm := nofun
      asked := nofun
      killing := nofun
      force := nofun
      posix := nofun
      timers := fun _ => ⟨nofun, nofun, hdrain ha, nofun⟩
      completed := nofun
      ended := fun _ => hst.asked
      alone := nofun
      well := fun hw => absurd hw hst.well
      left := fun _ _ _ => hst.asked
      drain := nofun
      drained := h.drained
      unfired := h.unfired }
  · have hf : j.active = false := by simpa using ha
    have heq : j.giveUp = { j with timeoutTimer := .unset, forceKillTimer := .unset, treeKillTimeout := .unset } := by
      simp [IndexJob.giveUp, active, active_eq_false_iff.mp hf]
    rw [heq]
    refine ⟨?_, hf⟩
    exact { h with
      killing := fun ha' _ => absurd ha' ha
      force := fun _ ht => by
        have ht' : j.status = .terminating := ht
        simp [active, ht', IndexJobStatus.terminal] at ha
      posix := fun hw => ⟨(h.posix hw).1, nofun⟩
      timers := fun hf => ⟨nofun, nofun, (h.timers hf).2.2.1, nofun⟩ }

end

theorem Later.giveUp : Later j j.giveUp := by
  simp only [IndexJob.giveUp]
  split
  · rename_i hcond
    simp only [Bool.and_eq_true] at hcond
    exact .of_active hcond.2 rfl nofun
  · exact ⟨rfl, fun _ => rfl, id⟩

end IndexJob

end Ariad.Ui
