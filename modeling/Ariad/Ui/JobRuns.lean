import Mathlib.Data.List.Indexes
import Ariad.Ui.JobLaws

/-!
# Index jobs over whole runs

* `countP_mapIdx_le` — callbacks make no job active.
* `Sweep.Ok` — what the phases of a shutdown sweep have done.
* `UiServer.Inv`, `Inv.step` — the invariant, and what one event leaves.
* `Careful` — the events that the code handles as it should.
* `indexJobs_lifecycle` — the laws of every run of such events.
-/

namespace Ariad.Ui

open IndexJob List

variable {opts : UiOptions} {s s' : UiServer} {e : UiEvent} {i : ℕ} {j j' : IndexJob} {win32 : Bool} {k : Signals}

variable {f : ℕ → IndexJob → IndexJob}

theorem countP_mapIdx_le {α : Type} (p : α → Bool) (l : List α) (f : ℕ → α → α)
    (h : ∀ i a, l[i]? = some a → p (f i a) = true → p a = true) : (l.mapIdx f).countP p ≤ l.countP p := by
  induction l generalizing f with
  | nil => simp
  | cons a l ih =>
    rw [mapIdx_cons, countP_cons, countP_cons]
    have hrest := ih (fun i => f (i + 1)) fun i a ha => h (i + 1) a (by simpa using ha)
    have hhead := h 0 a rfl
    by_cases hp : p (f 0 a) = true
    · rw [if_pos hp, if_pos (hhead hp)]
      omega
    · rw [if_neg hp]
      split <;> omega

/-! ## Callbacks that are compositions -/

namespace IndexJob

theorem Later.onTimeout : Later j (j.onTimeout win32 k) :=
  have h : Later j { j with timeoutTimer := .fired } := ⟨rfl, fun _ => rfl, id⟩
  h.trans (.requestIndexJobTermination _)

theorem Later.onForceKill : Later j (j.onForceKill win32 k) :=
  have h : Later j { j with forceKillTimer := .fired } := ⟨rfl, fun _ => rfl, id⟩
  h.trans .forceIndexJobTermination

theorem Later.onExitDrain {opens : Bool} : Later j (j.onExitDrain win32 opens) :=
  have h : Later j { j with exitDrainTimer := .unset } := ⟨rfl, fun _ => rfl, id⟩
  h.trans .finalizeExitedChild

theorem Later.onClose {opens : Bool} : Later j (j.onClose win32 opens) :=
  have h : Later j { j with process := { j.process with closeEmitted := true } } := ⟨rfl, fun _ => rfl, id⟩
  h.trans .finalizeExitedChild

theorem Later.onError : Later j j.onError :=
  have h : Later j { j with process := { j.process with errorEmitted := true } } := ⟨rfl, fun _ => rfl, id⟩
  h.trans (.finishJob rfl)

theorem Later.onExit : Later j j.onExit := by
  simp only [IndexJob.onExit]
  split
  · exact ⟨rfl, fun _ => rfl, id⟩
  · exact ⟨rfl, fun _ => rfl, id⟩

/-- After a request no job runs on. -/
theorem not_running_request (h : j.Ok win32) (reason : TerminationReason) :
    (j.requestIndexJobTermination win32 k reason).status ≠ .running := by
  intro hr
  have hrunning := (Later.requestIndexJobTermination reason).running hr
  have ha : j.active = true := by simp [active, hrunning, IndexJobStatus.terminal]
  simp only [requestIndexJobTermination] at hr
  split at hr
  · rename_i hcond
    simp [hrunning, h.owned ha, IndexJobStatus.terminal] at hcond
  -- The job is `terminating` before the first signal, and no callback takes it back.
  split at hr
  · cases Later.forceWindows.running hr
  split at hr
  · cases Later.failTreeTermination.running hr
  split at hr
  · cases Later.finishTerminatedJob.running hr
  · cases Later.failTreeTermination.running hr
  · cases hr

theorem ok_startedJob (project rootPath : Text) (pid : Bool) : (UiServer.startedJob project rootPath pid).Ok win32 where
  process := ⟨fun _ => ⟨rfl, rfl⟩, nofun, nofun⟩
  owned _ := rfl
  working _ := .inl rfl
  calm _ := rfl
  asked := nofun
  killing _ h := by simp [UiServer.startedJob] at h
  force _ := nofun
  posix _ := ⟨rfl, nofun⟩
  timers := nofun
  completed := nofun
  ended h := by simp [UiServer.startedJob] at h
  alone _ := nofun
  well := nofun
  left := nofun
  drain _ := nofun
  drained := nofun
  unfired := nofun

theorem ok_unstartedJob (project rootPath : Text) : (UiServer.unstartedJob project rootPath).Ok win32 := by
  refine .finishJob rfl ⟨fun _ => ⟨rfl, rfl⟩, nofun, nofun⟩ rfl (fun _ => ⟨rfl, nofun⟩) nofun (fun h => by simp at h)
    (fun _ => nofun) nofun ?_
  intro hp
  cases hp

theorem active_unstartedJob (project rootPath : Text) : (UiServer.unstartedJob project rootPath).active = false := rfl

end IndexJob

namespace UiServer

/-! ## The invariant -/

/-- What a sweep has done to its jobs. -/
def SweepOk (opts : UiOptions) (jobs : List IndexJob) (w : Sweep) : Prop :=
  ∀ i ∈ w.jobs, ∀ j : IndexJob, jobs[i]? = some j → j.status ≠ .running ∧
    (w.phase = .deadline → opts.win32 = false → j.active = false) ∧ (w.phase = .done → j.active = false)

/-- The jobs of one store that are active. -/
def activeOf (opts : UiOptions) (project : Text) (j : IndexJob) : Bool :=
  j.active && decide (opts.store j.project = opts.store project)

structure Inv (opts : UiOptions) (s : UiServer) : Prop where
  jobs : ∀ (i : ℕ) (j : IndexJob), s.jobs[i]? = some j → j.Ok opts.win32
  total : s.jobs.countP IndexJob.active ≤ opts.maxConcurrentIndexJobs
  perProject : ∀ project, s.jobs.countP (activeOf opts project) ≤ opts.maxConcurrentIndexJobsPerProject
  sweeps : ∀ second w, s.sweep second = some w → SweepOk opts s.jobs w
  stopping : ∀ second w, s.sweep second = some w → s.stopping = true
  /-- The second sweep has every job that is still active. -/
  last : ∀ w, s.second = some w → ∀ (i : ℕ) (j : IndexJob), s.jobs[i]? = some j → j.active = true → i ∈ w.jobs
  settled : s.settled = true → ∃ jobs, s.second = some ⟨jobs, .done⟩

/-- Every job goes on as a later one of itself, and while the server stops there are no new jobs. -/
structure Onward (s s' : UiServer) : Prop where
  jobs : ∀ (i : ℕ) (j : IndexJob), s.jobs[i]? = some j → ∃ j', s'.jobs[i]? = some j' ∧ Later j j'
  stopping : s.stopping = true → s'.stopping = true ∧ s'.jobs.length = s.jobs.length

/-- Callbacks on jobs, one for each job. -/
structure Called (opts : UiOptions) (s : UiServer) (f : ℕ → IndexJob → IndexJob) : Prop where
  ok : ∀ (i : ℕ) (j : IndexJob), s.jobs[i]? = some j → (f i j).Ok opts.win32
  later : ∀ (i : ℕ) (j : IndexJob), s.jobs[i]? = some j → Later j (f i j)

theorem getElem?_called (h : (s.jobs.mapIdx f)[i]? = some j') : ∃ j, s.jobs[i]? = some j ∧ j' = f i j := by
  rw [getElem?_mapIdx] at h
  obtain ⟨j, hj, rfl⟩ := Option.map_eq_some_iff.mp h
  exact ⟨j, hj, rfl⟩

theorem activeOf_later {project : Text} (h : Later j j') (ha : UiServer.activeOf opts project j' = true) :
    UiServer.activeOf opts project j = true := by
  simp only [UiServer.activeOf, Bool.and_eq_true] at ha ⊢
  exact ⟨h.active ha.1, h.project ▸ ha.2⟩

/-- Callbacks keep the invariant where the sweeps stay as they are. -/
theorem Inv.called (h : s.Inv opts) (hf : Called opts s f) :
    Inv opts { s with jobs := s.jobs.mapIdx f } ∧ Onward s { s with jobs := s.jobs.mapIdx f } := by
  refine ⟨?_, ?_⟩
  · constructor
    · intro i j' hj'
      obtain ⟨j, hj, rfl⟩ := getElem?_called hj'
      exact hf.ok i j hj
    · exact (countP_mapIdx_le _ _ f fun i j hj ha => (hf.later i j hj).active ha).trans h.total
    · intro project
      refine (countP_mapIdx_le _ _ f fun i j hj ha => ?_).trans (h.perProject project)
      exact activeOf_later (hf.later i j hj) ha
    · intro second w hw i hi j' hj'
      obtain ⟨j, hj, rfl⟩ := getElem?_called hj'
      obtain ⟨hrunning, hdeadline, hdone⟩ := h.sweeps second w hw i hi j hj
      have hl := hf.later i j hj
      have hstill : j.active = false → (f i j).active = false := by
        intro ha
        rw [active_eq_false_iff, hl.terminal ha]
        exact active_eq_false_iff.mp ha
      exact ⟨fun hr => hrunning (hl.running hr), fun hp hw => hstill (hdeadline hp hw), fun hp => hstill (hdone hp)⟩
    · exact h.stopping
    · intro w hw i j' hj' ha
      obtain ⟨j, hj, rfl⟩ := getElem?_called hj'
      exact h.last w hw i j hj ((hf.later i j hj).active ha)
    · exact h.settled
  · constructor
    · intro i j hj
      exact ⟨f i j, by rw [getElem?_mapIdx, hj]; rfl, hf.later i j hj⟩
    · exact fun hs => ⟨hs, length_mapIdx⟩

/-- One callback, on a job that is ready for it. -/
theorem Inv.whenJob {ready : IndexJob → Bool} {f : IndexJob → IndexJob} (h : s.Inv opts)
    (hstep : s.whenJob i ready f = some s')
    (hf : ∀ j, s.jobs[i]? = some j → ready j = true → (f j).Ok opts.win32 ∧ Later j (f j)) :
    s'.Inv opts ∧ Onward s s' := by
  simp only [UiServer.whenJob] at hstep
  split at hstep
  · rename_i hready
    cases hstep
    have hready' : ∀ j, s.jobs[i]? = some j → ready j = true := by
      intro j hj
      rw [hj] at hready
      exact hready
    apply h.called
    constructor
    · intro k j hj
      by_cases hk : k = i
      · subst hk
        rw [if_pos rfl]
        exact (hf j hj (hready' j hj)).1
      · rw [if_neg hk]
        exact h.jobs k j hj
    · intro k j hj
      by_cases hk : k = i
      · subst hk
        rw [if_pos rfl]
        exact (hf j hj (hready' j hj)).2
      · rw [if_neg hk]
        exact .refl j
  · cases hstep

/-! ## Sweeps -/

theorem mem_ownedJobs (h : s.Inv opts) (hj : s.jobs[i]? = some j) : i ∈ s.ownedJobs ↔ j.active = true := by
  have hi : i < s.jobs.length := (List.getElem?_eq_some_iff.mp hj).1
  simp only [ownedJobs, mem_filter, mem_range, hi, hj, Option.any_some, Bool.and_eq_true, true_and]
  exact ⟨And.left, fun ha => ⟨ha, (h.jobs i j hj).owned ha⟩⟩

/-- Callbacks on the jobs of a sweep. -/
theorem Called.onJobs {jobs : List ℕ} (h : s.Inv opts)
    (hf : ∀ i ∈ jobs, ∀ j, s.jobs[i]? = some j → (f i j).Ok opts.win32 ∧ Later j (f i j)) :
    Called opts s fun i j => if i ∈ jobs then f i j else j := by
  constructor
  · intro i j hj
    by_cases hi : i ∈ jobs
    · rw [if_pos hi]
      exact (hf i hi j hj).1
    · rw [if_neg hi]
      exact h.jobs i j hj
  · intro i j hj
    by_cases hi : i ∈ jobs
    · rw [if_pos hi]
      exact (hf i hi j hj).2
    · rw [if_neg hi]
      exact .refl j

theorem getElem?_onJobs {jobs : List ℕ} (hi : i ∈ jobs)
    (h : (s.onJobs jobs f).jobs[i]? = some j') : ∃ j, s.jobs[i]? = some j ∧ j' = f i j := by
  obtain ⟨j, hj, rfl⟩ := getElem?_called h
  exact ⟨j, hj, if_pos hi⟩

/-- A sweep that goes on to its next phase. -/
theorem Inv.setSweep {second : Bool} {v w : Sweep} (h : s.Inv opts) (hv : s.sweep second = some v)
    (hphase : v.phase ≠ .done) (hjobs : v.jobs = w.jobs) (hw : SweepOk opts s.jobs w) :
    (s.setSweep second w).Inv opts ∧ (s.setSweep second w).jobs = s.jobs ∧
      (s.setSweep second w).stopping = s.stopping := by
  have hstopping := h.stopping second v hv
  have hsweep : ∀ other w', (s.setSweep second w).sweep other = some w' → w' = w ∨ s.sweep other = some w' := by
    intro other w' hw'
    cases second <;> cases other
    · exact .inl (Option.some.inj hw').symm
    · exact .inr hw'
    · exact .inr hw'
    · exact .inl (Option.some.inj hw').symm
  have heq : (s.setSweep second w).jobs = s.jobs ∧ (s.setSweep second w).stopping = s.stopping ∧
      (s.setSweep second w).settled = s.settled := by
    cases second <;> exact ⟨rfl, rfl, rfl⟩
  refine ⟨?_, heq.1, heq.2.1⟩
  constructor
  · rw [heq.1]
    exact h.jobs
  · rw [heq.1]
    exact h.total
  · rw [heq.1]
    exact h.perProject
  · intro other w' hw'
    rw [heq.1]
    obtain rfl | hold := hsweep other w' hw'
    · exact hw
    · exact h.sweeps other w' hold
  · intro other w' _
    rw [heq.2.1, hstopping]
  · intro w' hw' i j hj ha
    rw [heq.1] at hj
    obtain rfl | hold := hsweep true w' hw'
    · cases second with
      | false => exact h.last _ hw' i j hj ha
      | true =>
        rw [← hjobs]
        exact h.last v hv i j hj ha
    · exact h.last w' hold i j hj ha
  · intro hs
    rw [heq.2.2] at hs
    obtain ⟨jobs, hdone⟩ := h.settled hs
    cases second with
    | false => exact ⟨jobs, hdone⟩
    | true =>
      -- A settled server has no sweep to go on with.
      rw [show s.sweep true = s.second from rfl, hdone] at hv
      obtain rfl := Option.some.inj hv
      exact absurd rfl hphase

/-- The start of a sweep: every active job is asked to end, unless one ended well. -/
theorem Inv.beginSweep (h : s.Inv opts) (signals : ℕ → Signals)
    (hwell : ∀ (i : ℕ) (j : IndexJob), s.jobs[i]? = some j → j.active = true → ¬ j.EndedWell) :
    (s.beginSweep opts signals).1.Inv opts ∧ Onward s (s.beginSweep opts signals).1 ∧
      SweepOk opts (s.beginSweep opts signals).1.jobs (s.beginSweep opts signals).2 ∧
      ∀ (i : ℕ) (j : IndexJob), (s.beginSweep opts signals).1.jobs[i]? = some j → j.active = true →
        i ∈ (s.beginSweep opts signals).2.jobs := by
  have hcalled : Called opts s fun i j =>
      if i ∈ s.ownedJobs then j.requestIndexJobTermination opts.win32 (signals i) .shutdown else j :=
    .onJobs h fun i _ j hj =>
      ⟨(h.jobs i j hj).requestIndexJobTermination _ (hwell i j hj), .requestIndexJobTermination _⟩
  obtain ⟨hinv, honward⟩ := h.called hcalled
  refine ⟨hinv, honward, ?_, ?_⟩
  · intro i hi j' hj'
    obtain ⟨j, hj, rfl⟩ := getElem?_onJobs hi hj'
    refine ⟨not_running_request (h.jobs i j hj) _, ?_, ?_⟩
    · intro hp
      simp only [UiServer.beginSweep] at hp
      split at hp <;> cases hp
    · intro hp
      simp only [UiServer.beginSweep] at hp hi
      split at hp
      · rename_i hnil
        simp [hnil] at hi
      · cases hp
  · intro i j' hj' ha
    obtain ⟨j, hj, rfl⟩ := getElem?_called hj'
    exact (mem_ownedJobs h hj).mpr ((hcalled.later i j hj).active ha)

/-! ## Starting a job -/

theorem activeOf_congr {project project' : Text} (h : opts.store project = opts.store project') :
    activeOf opts project = activeOf opts project' := by
  funext j
  simp only [activeOf, h]

/-- A new job, within the limits if it is active. -/
theorem Inv.append {job : IndexJob} (h : s.Inv opts) (hstopping : s.stopping = false) (hok : job.Ok opts.win32)
    (htotal : job.active = true → s.jobs.countP IndexJob.active < opts.maxConcurrentIndexJobs)
    (hproject : job.active = true → s.jobs.countP (activeOf opts job.project) < opts.maxConcurrentIndexJobsPerProject) :
    Inv opts { s with jobs := s.jobs ++ [job] } ∧ Onward s { s with jobs := s.jobs ++ [job] } := by
  -- Before the shutdown there are no sweeps.
  have hnone : ∀ second w, s.sweep second ≠ some w := by
    intro second w hw
    have hs := h.stopping second w hw
    rw [hstopping] at hs
    cases hs
  refine ⟨?_, ?_⟩
  · constructor
    · intro i j hj
      rw [getElem?_append] at hj
      split at hj
      · exact h.jobs i j hj
      · rw [getElem?_singleton] at hj
        split at hj
        · obtain rfl := Option.some.inj hj
          exact hok
        · cases hj
    · rw [countP_append, countP_singleton]
      by_cases ha : job.active = true
      · have hlt := htotal ha
        rw [if_pos ha]
        omega
      · rw [if_neg ha]
        exact h.total
    · intro project
      rw [countP_append, countP_singleton]
      by_cases ha : activeOf opts project job = true
      · simp only [activeOf, Bool.and_eq_true, decide_eq_true_eq] at ha
        have hlt := hproject ha.1
        rw [activeOf_congr ha.2] at hlt
        split <;> omega
      · rw [if_neg ha]
        exact h.perProject project
    · exact fun second w hw => absurd hw (hnone second w)
    · exact h.stopping
    · exact fun w hw => absurd hw (hnone true w)
    · exact h.settled
  · constructor
    · intro i j hj
      refine ⟨j, ?_, .refl j⟩
      rw [getElem?_append_left (List.getElem?_eq_some_iff.mp hj).1, hj]
    · intro hs
      rw [hstopping] at hs
      cases hs

theorem Onward.refl (s : UiServer) : Onward s s := ⟨fun _ j hj => ⟨j, hj, .refl j⟩, fun h => ⟨h, rfl⟩⟩

theorem Inv.routeIndex (h : s.Inv opts) (project rootPath : Text) (launch : Launch) :
    (s.routeIndex opts project rootPath launch).1.Inv opts ∧
      Onward s (s.routeIndex opts project rootPath launch).1 := by
  simp only [UiServer.routeIndex]
  split
  · exact ⟨h, .refl s⟩
  rename_i hstopping
  split
  · exact ⟨h, .refl s⟩
  rename_i htotal
  split
  · exact ⟨h, .refl s⟩
  split
  · exact ⟨h, .refl s⟩
  rename_i hproject
  have hstopping' : s.stopping = false := by simpa using hstopping
  have htotal' : s.jobs.countP IndexJob.active < opts.maxConcurrentIndexJobs := by
    rw [countP_eq_length_filter]
    omega
  have hproject' : s.jobs.countP (activeOf opts project) < opts.maxConcurrentIndexJobsPerProject := by
    have hfilter : ∀ j ∈ s.jobs, activeOf opts project j =
        (decide (opts.store j.project = opts.store project) && j.active) := fun j _ => Bool.and_comm _ _
    rw [countP_eq_length_filter, filter_congr hfilter, ← filter_filter]
    omega
  cases launch with
  | unprepared => exact ⟨h, .refl s⟩
  | throws =>
    refine h.append hstopping' (ok_unstartedJob _ _) ?_ ?_ <;>
      · intro ha
        rw [active_unstartedJob] at ha
        cases ha
  | noProcess => exact h.append hstopping' (ok_startedJob _ _ _) (fun _ => htotal') fun _ => hproject'
  | spawned => exact h.append hstopping' (ok_startedJob _ _ _) (fun _ => htotal') fun _ => hproject'

/-! ## Steps -/

/-- The events that the code handles as it should: no termination overtakes the end of a child that ended with code 0,
and no sweep gives up a job whose drain timer is armed. -/
def Careful (opts : UiOptions) (s : UiServer) : UiEvent → Prop
  | .terminate i _ | .timeout i _ => ∀ j : IndexJob, s.jobs[i]? = some j → j.active = true → ¬ j.EndedWell
  | .stop _ =>
    s.stopping = false → ∀ (i : ℕ) (j : IndexJob), s.jobs[i]? = some j → j.active = true → ¬ j.EndedWell
  | .sweepAgain _ => ∀ (i : ℕ) (j : IndexJob), s.jobs[i]? = some j → j.active = true → ¬ j.EndedWell
  | .deadline second =>
    opts.win32 = true → ∀ w, s.sweep second = some w → ∀ i ∈ w.jobs, ∀ j : IndexJob, s.jobs[i]? = some j →
      j.active = true → j.exitDrainTimer ≠ .armed
  | _ => True

theorem Inv.stop {signals : ℕ → Signals} (h : s.Inv opts) (hstopping : s.stopping = false)
    (hwell : ∀ (i : ℕ) (j : IndexJob), s.jobs[i]? = some j → j.active = true → ¬ j.EndedWell) :
    let (t, w) := s.beginSweep opts signals
    Inv opts { t with stopping := true, first := some w } ∧ Onward s { t with stopping := true, first := some w } := by
  obtain ⟨hinv, honward, hsweep, _⟩ := h.beginSweep signals hwell
  have hnone : ∀ second w, s.sweep second ≠ some w := by
    intro second w hw
    have hs := h.stopping second w hw
    rw [hstopping] at hs
    cases hs
  refine ⟨?_, ⟨honward.jobs, ?_⟩⟩
  · constructor
    · exact hinv.jobs
    · exact hinv.total
    · exact hinv.perProject
    · intro second w hw
      cases second with
      | false =>
        obtain rfl := Option.some.inj hw
        exact hsweep
      | true => exact absurd hw (hnone true w)
    · exact fun _ _ _ => rfl
    · exact fun w hw => absurd hw (hnone true w)
    · exact hinv.settled
  · intro hs
    rw [hstopping] at hs
    cases hs

theorem Inv.sweepAgain {signals : ℕ → Signals} (h : s.Inv opts) (hstopping : s.stopping = true)
    (hsecond : s.second = none)
    (hwell : ∀ (i : ℕ) (j : IndexJob), s.jobs[i]? = some j → j.active = true → ¬ j.EndedWell) :
    let (t, w) := s.beginSweep opts signals
    Inv opts { t with second := some w } ∧ Onward s { t with second := some w } := by
  obtain ⟨hinv, honward, hsweep, hlast⟩ := h.beginSweep signals hwell
  refine ⟨?_, ⟨honward.jobs, honward.stopping⟩⟩
  constructor
  · exact hinv.jobs
  · exact hinv.total
  · exact hinv.perProject
  · intro second w hw
    cases second with
    | false => exact hinv.sweeps false w hw
    | true =>
      obtain rfl := Option.some.inj hw
      exact hsweep
  · exact fun _ _ _ => hstopping
  · intro w hw
    obtain rfl := Option.some.inj hw
    exact hlast
  · intro hs
    obtain ⟨jobs, hdone⟩ := h.settled hs
    rw [hsecond] at hdone
    cases hdone

/-- A loop over the jobs of a sweep, with which it goes on to its next phase. -/
theorem Inv.nextPhase {second : Bool} {jobs : List ℕ} {phase phase' : SweepPhase}
    (h : s.Inv opts) (hv : s.sweep second = some ⟨jobs, phase⟩) (hphase : phase ≠ .done)
    (hf : ∀ i ∈ jobs, ∀ j, s.jobs[i]? = some j → (f i j).Ok opts.win32 ∧ Later j (f i j) ∧
      (phase' = .deadline → opts.win32 = false → (f i j).active = false) ∧ (phase' = .done → (f i j).active = false)) :
    ((s.onJobs jobs f).setSweep second ⟨jobs, phase'⟩).Inv opts ∧
      Onward s ((s.onJobs jobs f).setSweep second ⟨jobs, phase'⟩) := by
  have hcalled : Called opts s fun i j => if i ∈ jobs then f i j else j :=
    .onJobs h fun i hi j hj => ⟨(hf i hi j hj).1, (hf i hi j hj).2.1⟩
  obtain ⟨hinv, honward⟩ := h.called hcalled
  have hv' : (s.onJobs jobs f).sweep second = some ⟨jobs, phase⟩ := by
    cases second <;> exact hv
  have hsweep : SweepOk opts (s.onJobs jobs f).jobs ⟨jobs, phase'⟩ := by
    intro i hi j' hj'
    obtain ⟨j, hj, rfl⟩ := getElem?_onJobs hi hj'
    obtain ⟨_, hlater, hnext⟩ := hf i hi j hj
    exact ⟨fun hr => (h.sweeps second _ hv i hi j hj).1 (hlater.running hr), hnext⟩
  have hinv' : (s.onJobs jobs f).Inv opts := hinv
  obtain ⟨hset, hjobs, hstopping⟩ := hinv'.setSweep hv' hphase rfl hsweep (w := ⟨jobs, phase'⟩)
  refine ⟨hset, ⟨?_, ?_⟩⟩
  · rw [hjobs]
    exact honward.jobs
  · rw [hjobs, hstopping]
    exact honward.stopping

/-- Every event leaves the invariant, and later jobs. -/
theorem Inv.step (h : s.Inv opts) (hstep : Guarded (Careful opts) (Step opts) s e s') : s'.Inv opts ∧ Onward s s' := by
  obtain ⟨hcareful, hafter⟩ := hstep
  simp only [Step] at hafter
  cases e with
  | index project rootPath launch =>
    cases hafter
    exact h.routeIndex project rootPath launch
  | terminate i k =>
    exact h.whenJob hafter fun j hj _ =>
      ⟨(h.jobs i j hj).requestIndexJobTermination _ (hcareful j hj), .requestIndexJobTermination _⟩
  | timeout i k => exact h.whenJob hafter fun j hj _ => ⟨(h.jobs i j hj).onTimeout (hcareful j hj), .onTimeout⟩
  | forceKill i k =>
    exact h.whenJob hafter fun j hj hready => ⟨(h.jobs i j hj).onForceKill (by simpa using hready), .onForceKill⟩
  | exitDrain i opens =>
    exact h.whenJob hafter fun j hj hready => ⟨(h.jobs i j hj).onExitDrain (by simpa using hready), .onExitDrain⟩
  | treeKillTimeout i =>
    refine h.whenJob hafter fun j hj hready => ?_
    have harmed : j.treeKillTimeout = .armed := by simpa using hready
    have hwin : opts.win32 = true := by
      rw [← Bool.not_eq_false]
      exact fun hw => ((h.jobs i j hj).posix hw).2 harmed
    exact ⟨(h.jobs i j hj).settleTreeKill _ (.inl harmed) hwin, .settleTreeKill _⟩
  | treeKilled i failure =>
    refine h.whenJob hafter fun j hj hready => ?_
    have hwin : opts.win32 = true := by
      rw [← Bool.not_eq_false]
      intro hw
      rw [((h.jobs i j hj).posix hw).1] at hready
      cases hready
    exact ⟨(h.jobs i j hj).settleTreeKill _ (.inr hready) hwin, .settleTreeKill _⟩
  | exits i code =>
    refine h.whenJob hafter fun j hj hready => ?_
    simp only [Bool.and_eq_true, Option.isNone_iff_eq_none] at hready
    exact ⟨(h.jobs i j hj).exits code hready.1 hready.2, ⟨rfl, fun _ => rfl, id⟩⟩
  | forks i =>
    exact h.whenJob hafter fun j hj hready => ⟨(h.jobs i j hj).forks hready, ⟨rfl, fun _ => rfl, id⟩⟩
  | memberExits i =>
    exact h.whenJob hafter fun j hj _ => ⟨(h.jobs i j hj).memberExits, ⟨rfl, fun _ => rfl, id⟩⟩
  | error i =>
    refine h.whenJob hafter fun j hj hready => ?_
    simp only [Bool.and_eq_true, Bool.not_eq_true'] at hready
    exact ⟨(h.jobs i j hj).onError hready.1, .onError⟩
  | exit i =>
    refine h.whenJob hafter fun j hj hready => ?_
    simp only [Bool.and_eq_true, Bool.not_eq_true'] at hready
    exact ⟨(h.jobs i j hj).onExit hready.1 hready.2, .onExit⟩
  | close i opens =>
    refine h.whenJob hafter fun j hj hready => ?_
    simp only [Bool.and_eq_true] at hready
    exact ⟨(h.jobs i j hj).onClose hready.1, .onClose⟩
  | stderr i =>
    cases hafter
    exact ⟨h, .refl s⟩
  | stop k =>
    simp only [after] at hafter
    split at hafter
    · cases hafter
      exact ⟨h, .refl s⟩
    · rename_i hstopping
      cases hafter
      have hstopping' : s.stopping = false := by simpa using hstopping
      exact h.stop hstopping' (hcareful hstopping')
  | grace second k =>
    simp only [after] at hafter
    split at hafter
    · rename_i jobs hv
      cases hafter
      refine h.nextPhase hv nofun fun i hi j hj => ?_
      have hrunning := (h.sweeps second _ hv i hi j hj).1
      refine ⟨(h.jobs i j hj).forceIndexJobTermination hrunning, .forceIndexJobTermination, ?_, nofun⟩
      -- On POSIX the second loop ends every job.
      intro _ hposix
      rw [hposix]
      exact terminal_forceIndexJobTermination (hposix ▸ h.jobs i j hj)
    · cases hafter
  | deadline second =>
    simp only [after] at hafter
    split at hafter
    · rename_i jobs hv
      cases hafter
      refine h.nextPhase hv nofun fun i hi j hj => ?_
      obtain ⟨hrunning, hposix, _⟩ := h.sweeps second _ hv i hi j hj
      have hdrain : j.active = true → j.exitDrainTimer ≠ .armed := by
        intro ha
        cases hw : opts.win32 with
        | false => exact absurd (hposix rfl hw) (by simp [ha])
        | true => exact hcareful hw _ hv i hi j hj ha
      obtain ⟨hok, hterminal⟩ := (h.jobs i j hj).giveUp hrunning (hposix rfl) hdrain
      exact ⟨hok, .giveUp, nofun, fun _ => hterminal⟩
    · cases hafter
  | sweepAgain k =>
    simp only [after] at hafter
    split at hafter
    · rename_i hcond
      simp only [Bool.and_eq_true, Option.isNone_iff_eq_none] at hcond
      cases hafter
      exact h.sweepAgain hcond.1 hcond.2 hcareful
    · cases hafter
  | settle =>
    simp only [after] at hafter
    split at hafter
    · rename_i jobs hdone
      cases hafter
      exact ⟨⟨h.jobs, h.total, h.perProject, h.sweeps, h.stopping, h.last, fun _ => ⟨jobs, hdone⟩⟩,
        ⟨fun i j hj => ⟨j, hj, .refl j⟩, fun hs => ⟨hs, rfl⟩⟩⟩
    · cases hafter

theorem inv_new : new.Inv opts where
  jobs _ _ hj := by cases hj
  total := Nat.zero_le _
  perProject _ := Nat.zero_le _
  sweeps second _ hw := by cases second <;> cases hw
  stopping second _ hw := by cases second <;> cases hw
  last _ hw := by cases hw
  settled := nofun

theorem Inv.run {es : List UiEvent} (h : s.Inv opts) (hrun : Runs (Guarded (Careful opts) (Step opts)) s es s') :
    s'.Inv opts := hrun.invariant (fun _ _ _ hs hstep => (hs.step hstep).1) h

/-! ## The laws of a run -/

/-- What a client may rely on of the jobs. -/
structure Lawful (opts : UiOptions) (s : UiServer) : Prop where
  completed : ∀ j ∈ s.jobs, j.status = .completed →
    (∃ unasked, j.process.exited = some ⟨some 0, unasked⟩) ∧ j.refreshed = true
  /-- A child that ended by itself with code 0: its job runs on to its finalisation, which the next callback is. -/
  endedWell : ∀ j ∈ s.jobs, j.EndedWell →
    j.status = .completed ∨ (j.status = .failed ∧ j.error = some .readerUnopened) ∨
      (j.status = .running ∧ (j.process.exitEmitted = true → j.exitDrainTimer = .armed) ∧
        ∀ opens, (j.onExitDrain opts.win32 opens).status = (if opens then .completed else .failed) ∧
          (j.onClose opts.win32 opens).status = if opens then .completed else .failed)
  /-- A job that termination ended leaves no process, or says that it could not be terminated. -/
  alone : opts.win32 = false → ∀ j ∈ s.jobs, j.status.terminal = true →
    (j.terminationReason.isSome = true ∨ j.status = .cancelled ∨ j.status = .timed_out) → j.process.alive = true →
      j.status = .failed ∧ ∃ detail, j.error = some (.tree detail)
  timers : ∀ j ∈ s.jobs, j.status.terminal = true →
    j.timeoutTimer ≠ .armed ∧ j.forceKillTimer ≠ .armed ∧ j.exitDrainTimer ≠ .armed ∧ j.treeKillTimeout ≠ .armed
  total : s.jobs.countP IndexJob.active ≤ opts.maxConcurrentIndexJobs
  perProject : ∀ project, s.jobs.countP (activeOf opts project) ≤ opts.maxConcurrentIndexJobsPerProject
  settled : s.settled = true → ∀ j ∈ s.jobs, j.status.terminal = true

theorem Inv.lawful (h : s.Inv opts) : s.Lawful opts where
  completed j hj hc := by
    obtain ⟨i, hi⟩ := mem_iff_getElem?.mp hj
    exact (h.jobs i j hi).completed hc
  endedWell j hj hwell := by
    obtain ⟨i, hi⟩ := mem_iff_getElem?.mp hj
    have hok := h.jobs i j hi
    obtain hrunning | hcompleted | hfailed := hok.well hwell
    · have hcalm := hok.calm hrunning
      refine .inr (.inr ⟨hrunning, hok.drain hrunning, fun opens => ⟨?_, ?_⟩⟩)
      iterate 2
        · exact status_finalizeExitedChild hrunning hcalm hwell
    · exact .inl hcompleted
    · exact .inr (.inl hfailed)
  alone hposix j hj hterminal hended halive := by
    obtain ⟨i, hi⟩ := mem_iff_getElem?.mp hj
    have hok := h.jobs i j hi
    have hreason : j.terminationReason.isSome = true := by
      obtain hreason | hended := hended
      · exact hreason
      · exact hok.ended hended
    exact hok.alone hposix (active_eq_false_iff.mpr hterminal) hreason halive
  timers j hj hterminal := by
    obtain ⟨i, hi⟩ := mem_iff_getElem?.mp hj
    exact (h.jobs i j hi).timers (active_eq_false_iff.mpr hterminal)
  total := h.total
  perProject := h.perProject
  settled hs j hj := by
    obtain ⟨i, hi⟩ := mem_iff_getElem?.mp hj
    obtain ⟨jobs, hdone⟩ := h.settled hs
    rw [← active_eq_false_iff, ← Bool.not_eq_true]
    intro ha
    -- A job that were active would be one of the second sweep's, which ended them all.
    have hlast := h.last _ hdone i j hi ha
    rw [(h.sweeps true _ hdone i hlast j hi).2.2 rfl] at ha
    cases ha

/-- In every run of careful events: every state is lawful, and from it no event changes a terminal status, nor starts
a job once the server stops. -/
theorem indexJobs_lifecycle {es : List UiEvent} (hrun : Runs (Guarded (Careful opts) (Step opts)) new es s) :
    s.Lawful opts ∧ ∀ e s', Guarded (Careful opts) (Step opts) s e s' →
      (∀ (i : ℕ) (j : IndexJob), s.jobs[i]? = some j → j.status.terminal = true →
        ∃ j', s'.jobs[i]? = some j' ∧ j'.status = j.status) ∧
      (s.stopping = true → s'.stopping = true ∧ s'.jobs.length = s.jobs.length) := by
  have hinv := inv_new.run hrun
  refine ⟨hinv.lawful, fun e s' hstep => ?_⟩
  obtain ⟨_, honward⟩ := hinv.step hstep
  refine ⟨?_, honward.stopping⟩
  intro i j hj hterminal
  obtain ⟨j', hj', hlater⟩ := honward.jobs i j hj
  exact ⟨j', hj', hlater.terminal (active_eq_false_iff.mpr hterminal)⟩

/-- Limits of one job, on POSIX or Windows, where every project has the same store. -/
def oneJob (win32 : Bool) : UiOptions := ⟨win32, 1, 1, fun _ => 0⟩

def signals : Signals := ⟨false, false⟩

/-- A job whose child ends with code 0. -/
def endingWell : List UiEvent := [.index [] [] .spawned, .exits 0 (some 0), .exit 0]

theorem indexJobs_lifecycle_one :
    ∃ s, Runs (Guarded (Careful (oneJob false)) (Step (oneJob false))) new (endingWell ++ [.exitDrain 0 true]) s ∧
      s.Lawful (oneJob false) ∧ s.jobs.map IndexJob.status = [.completed] := by
  have hrun : Runs (Step (oneJob false)) new (endingWell ++ [.exitDrain 0 true]) _ := .of_foldlM rfl
  have hguarded : Runs (Guarded (Careful (oneJob false)) (Step (oneJob false))) new _ _ := hrun.guarded (by
    intro e he s
    simp only [endingWell, cons_append, nil_append, mem_cons, not_mem_nil, or_false] at he
    obtain rfl | rfl | rfl | rfl := he
    all_goals trivial)
  exact ⟨_, hguarded, (indexJobs_lifecycle hguarded).1, rfl⟩

/-- A request between the exit of the child and its drain cancels a job whose child ended well; and the end of a sweep
on Windows leaves a terminal job with its drain timer armed. -/
theorem indexJobs_overtaken : (∃ s, Runs (Step (oneJob false)) new (endingWell ++ [.terminate 0 signals]) s ∧
      ∃ j ∈ s.jobs, j.EndedWell ∧ j.status = .cancelled) ∧ ∃ s, Runs (Step (oneJob true)) new
        [.index [] [] .spawned, .stop fun _ => signals, .exits 0 none, .exit 0, .grace false fun _ => signals,
          .deadline false] s ∧ ∃ j ∈ s.jobs, j.status.terminal = true ∧ j.exitDrainTimer = .armed := by
  refine ⟨⟨_, .of_foldlM rfl, _, mem_singleton.mpr rfl, rfl, rfl⟩, ?_⟩
  exact ⟨_, .of_foldlM rfl, _, mem_singleton.mpr rfl, rfl, rfl⟩

end UiServer

end Ariad.Ui
