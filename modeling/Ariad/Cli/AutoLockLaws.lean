import Ariad.Cli.AutoLock

/-!
# Who has the overlap lock

* `Inv` — the lock file is that of the one young run that holds the lock, and what a run in the middle of its
  acquisition has seen is that file.
* `Inv.moves` — a step of one run while no other is in the middle of an acquisition.
* `obtains_of_stale` — a lock that is dead, old or unreadable is taken over.
* `autoLock_exclusive` — the laws of every orderly run.
-/

namespace Ariad.Cli

open Function

namespace System

variable {s s' t : System} {pid : ℕ} {r : Run} {phase : Phase} {e : Event}

/-! ## Small facts of the operations -/

theorem procs_moves_self : (s.moves pid r phase).procs pid = some { r with phase } := by
  simp [moves]

theorem procs_moves_of_ne {q : ℕ} (h : q ≠ pid) : (s.moves pid r phase).procs q = s.procs q := by
  simp [moves, update_of_ne h]

@[simp]
theorem lockReads_moves : (s.moves pid r phase).lockReads = s.lockReads := rfl

@[simp]
theorem clock_moves : (s.moves pid r phase).clock = s.clock := rfl

theorem lockReads_of_lock {file : ℕ} (h : s.lock = some file) : s.lockReads = (s.files file).reads := by
  simp [lockReads, h]

theorem lockReads_of_none (h : s.lock = none) : s.lockReads = none := by simp [lockReads, h]

/-- The record of a young live process blocks every run that started meanwhile. -/
theorem blocks_of_young {now started : ℤ} (h : s.procs pid = some r) (hpid : 0 < pid)
    (hyoung : now - started < STALE_LOCK_MS) : s.blocks now (some (↑pid, some started)) = true := by
  simp [blocks, pidAlive, h, hpid, hyoung]

/-! ## The invariant -/

/-- What a run in a phase knows of the lock of a young holder. -/
def Saw (s : System) (holder : ℕ) (started : ℤ) : Phase → Prop
  | .reading file => (s.files file).reads = some (↑holder, some started)
  | .judging seen => seen = some (↑holder, some started)
  | .creating | .filling _ => False
  | .testing | .opening | .holding | .done => True

structure Inv (s : System) : Prop where
  pos : ∀ p r, s.procs p = some r → r.phase ≠ .done → 0 < p
  past : ∀ p r, s.procs p = some r → r.phase ≠ .done → r.now ≤ s.clock
  own : ∀ q r, s.Holder q r → s.clock - r.now < STALE_LOCK_MS → s.lockReads = some (↑q, some r.now)
  saw : ∀ p r, s.procs p = some r → ∀ q r', s.Holder q r' → s.clock - r'.now < STALE_LOCK_MS →
    s.Saw q r'.now r.phase
  /-- The file that a run writes its record to is empty, and the lock path names it. -/
  blank : ∀ p r file, s.procs p = some r → r.phase = .filling file →
    s.lock = some file ∧ s.files file = .empty

theorem Initial.inv (h : s.Initial) : s.Inv where
  pos p r hp hne := absurd (h p r hp) hne
  past p r hp hne := absurd (h p r hp) hne
  own q r hq _ := by have := h q r hq.1; simp [hq.2] at this
  saw p r _ q r' hq _ := by have := h q r' hq.1; simp [hq.2] at this
  blank p r file hp hf := by have := h p r hp; simp [hf] at this

section

variable (h : s.Inv)
include h

/-- A step of one run, with every other run outside of its acquisition. -/
theorem Inv.moves (hp : s.procs pid = some r) (hne : r.phase ≠ .done)
    (halone : ∀ q r', q ≠ pid → s.procs q = some r' → r'.phase.acquiring = false)
    (hclock : t.clock = s.clock) (hprocs : t.procs = s.procs)
    (hothers : ∀ q r', q ≠ pid → s.Holder q r' → s.clock - r'.now < STALE_LOCK_MS →
      t.lockReads = some (↑q, some r'.now) ∧ t.Saw q r'.now phase)
    (hself : phase = .holding → t.lockReads = some (↑pid, some r.now))
    (hblank : ∀ file, phase = .filling file → t.lock = some file ∧ t.files file = .empty) :
    (t.moves pid r phase).Inv := by
  -- A process of the new state is the one that moved or one of the old ones.
  have hproc : ∀ p r', (t.moves pid r phase).procs p = some r' →
      (p = pid ∧ r' = { r with phase }) ∨ (p ≠ pid ∧ s.procs p = some r') := by
    intro p r' hr
    by_cases hpp : p = pid
    · subst hpp
      rw [procs_moves_self] at hr
      exact .inl ⟨rfl, (Option.some.inj hr).symm⟩
    · rw [procs_moves_of_ne hpp, hprocs] at hr
      exact .inr ⟨hpp, hr⟩
  constructor
  · intro p r' hr hd
    obtain ⟨rfl, rfl⟩ | ⟨_, hr⟩ := hproc p r' hr
    · exact h.pos p r hp hne
    · exact h.pos p r' hr hd
  · intro p r' hr hd
    rw [clock_moves, hclock]
    obtain ⟨rfl, rfl⟩ | ⟨_, hr⟩ := hproc p r' hr
    · exact h.past p r hp hne
    · exact h.past p r' hr hd
  · intro q r' hq hyoung
    rw [clock_moves, hclock] at hyoung
    rw [lockReads_moves]
    obtain ⟨rfl, rfl⟩ | ⟨hne', hr⟩ := hproc q r' hq.1
    · exact hself hq.2
    · exact (hothers q r' hne' ⟨hr, hq.2⟩ hyoung).1
  · intro p r' hr q r'' hq hyoung
    rw [clock_moves, hclock] at hyoung
    obtain ⟨rfl, rfl⟩ | ⟨hne', hr⟩ := hproc p r' hr
    · obtain ⟨rfl, rfl⟩ | ⟨hqp, hr'⟩ := hproc q r'' hq.1
      · obtain rfl : phase = .holding := hq.2
        exact trivial
      · exact (hothers q r'' hqp ⟨hr', hq.2⟩ hyoung).2
    · -- Another run is not in the middle of an acquisition, so that it has seen nothing.
      have hfree := halone p r' hne' hr
      cases hph : r'.phase <;> simp [hph, Phase.acquiring] at hfree <;> exact trivial
  · intro p r' file hr hf
    obtain ⟨rfl, rfl⟩ | ⟨hne', hr⟩ := hproc p r' hr
    · exact hblank file hf
    · have hfree := halone p r' hne' hr
      simp [hf, Phase.acquiring] at hfree

/-! ## One event -/

/-- The young holder is not the run that moves, unless that one holds the lock. -/
theorem Inv.runStep (hp : s.procs pid = some r) (hgood : s.Orderly (.step pid))
    (hs : s.runStep pid r = some s') : s'.Inv := by
  obtain ⟨halone, hremoval⟩ := hgood
  have hown := h.own
  have hsaw := h.saw pid r hp
  cases hph : r.phase with
  | testing =>
    simp only [System.runStep, hph] at hs
    cases hl : s.lock with
    | some file =>
      simp only [hl, Option.some.injEq] at hs
      subst hs
      exact h.moves hp (by simp [hph]) halone rfl rfl
        (fun q r' _ hq hy => ⟨hown q r' hq hy, trivial⟩) nofun nofun
    | none =>
      simp only [hl, Option.some.injEq] at hs
      subst hs
      -- No file: then no young run holds the lock.
      refine h.moves hp (by simp [hph]) halone rfl rfl ?_ nofun nofun
      intro q r' _ hq hy
      have hfile := hown q r' hq hy
      rw [lockReads_of_none hl] at hfile
      cases hfile
  | opening =>
    simp only [System.runStep, hph] at hs
    cases hl : s.lock with
    | some file =>
      simp only [hl, Option.some.injEq] at hs
      subst hs
      refine h.moves hp (by simp [hph]) halone rfl rfl ?_ nofun nofun
      intro q r' _ hq hy
      have hfile := hown q r' hq hy
      exact ⟨hfile, (lockReads_of_lock hl).symm.trans hfile⟩
    | none =>
      simp only [hl, Option.some.injEq] at hs
      subst hs
      refine h.moves hp (by simp [hph]) halone rfl rfl ?_ nofun nofun
      intro q r' _ hq hy
      have hfile := hown q r' hq hy
      rw [lockReads_of_none hl] at hfile
      cases hfile
  | reading file =>
    simp only [System.runStep, hph, Option.some.injEq] at hs
    subst hs
    refine h.moves hp (by simp [hph]) halone rfl rfl ?_ nofun nofun
    intro q r' _ hq hy
    have hseen := hsaw q r' hq hy
    rw [hph] at hseen
    exact ⟨hown q r' hq hy, hseen⟩
  | judging seen =>
    simp only [System.runStep, hph, Option.some.injEq] at hs
    subst hs
    have hnow := h.past pid r hp (by simp [hph])
    refine h.moves hp (by simp [hph]) halone rfl rfl ?_ (by split <;> simp) (by intro file; split <;> simp)
    intro q r' _ hq hy
    refine ⟨hown q r' hq hy, ?_⟩
    -- What was seen is the lock of the young holder, and it blocks.
    have hseen := hsaw q r' hq hy
    rw [hph] at hseen
    obtain rfl : seen = some (↑q, some r'.now) := hseen
    have hpos := h.pos q r' hq.1 (by simp [hq.2])
    rw [if_pos (blocks_of_young hq.1 hpos (by omega))]
    exact trivial
  | creating =>
    -- Nobody young holds the lock, so that emptying the file takes it from nobody.
    have hnobody : ∀ q r', s.Holder q r' → ¬ s.clock - r'.now < STALE_LOCK_MS := by
      intro q r' hq hy
      have hseen := hsaw q r' hq hy
      rw [hph] at hseen
      exact hseen
    simp only [System.runStep, hph] at hs
    cases hl : s.lock with
    | some file | none =>
      simp only [hl, Option.some.injEq] at hs
      subst hs
      refine h.moves hp (by simp [hph]) halone rfl rfl (fun q r' _ hq hy => absurd hy (hnobody q r' hq)) nofun ?_
      intro f hf
      cases hf
      exact ⟨rfl, by simp⟩
  | filling file =>
    have hnobody : ∀ q r', s.Holder q r' → ¬ s.clock - r'.now < STALE_LOCK_MS := by
      intro q r' hq hy
      have hseen := hsaw q r' hq hy
      rw [hph] at hseen
      exact hseen
    obtain ⟨hl, hempty⟩ := h.blank pid r file hp hph
    simp only [System.runStep, hph, Option.some.injEq] at hs
    subst hs
    refine h.moves hp (by simp [hph]) halone rfl rfl (fun q r' _ hq hy => absurd hy (hnobody q r' hq)) ?_ nofun
    intro _
    simp [lockReads, hl, hempty]
  | holding =>
    simp only [System.runStep, hph, Option.some.injEq] at hs
    subst hs
    refine h.moves hp (by simp [hph]) halone rfl rfl ?_ nofun nofun
    intro q r' hne hq hy
    exfalso
    -- The file that is removed is the run's own, so that no other young run holds the lock.
    have hmine : s.lockReads = some (↑pid, some r.now) := by
      obtain hyoung | hmine := hremoval r ⟨hp, hph⟩
      · exact hown pid r ⟨hp, hph⟩ hyoung
      · exact hmine
    have hfile := hown q r' hq hy
    rw [hmine] at hfile
    simp only [Option.some.injEq, Prod.mk.injEq, Nat.cast_inj] at hfile
    exact hne hfile.1.symm
  | done => simp [System.runStep, hph] at hs

/-- Time, starts and deaths change no lock. -/
theorem Inv.of_procs (hclock : s.clock ≤ t.clock) (hlock : t.lock = s.lock) (hfiles : t.files = s.files)
    (hprocs : ∀ p r, t.procs p = some r → s.procs p = some r ∨
      (0 < p ∧ r.now = s.clock ∧ (r.phase = .testing ∨ r.phase = .done))) : t.Inv := by
  have hreads : t.lockReads = s.lockReads := by simp [lockReads, hlock, hfiles]
  have hholder : ∀ q r, t.Holder q r → s.Holder q r := by
    intro q r hq
    obtain hr | ⟨_, _, hr⟩ := hprocs q r hq.1
    · exact ⟨hr, hq.2⟩
    · simp [hq.2] at hr
  constructor
  · intro p r hr hd
    obtain hr | ⟨hpos, _⟩ := hprocs p r hr
    · exact h.pos p r hr hd
    · exact hpos
  · intro p r hr hd
    obtain hr | ⟨_, hnow, _⟩ := hprocs p r hr
    · have := h.past p r hr hd
      omega
    · omega
  · intro q r hq hy
    rw [hreads]
    exact h.own q r (hholder q r hq) (by omega)
  · intro p r hr q r' hq hy
    obtain hr | ⟨_, _, ht | ht⟩ := hprocs p r hr
    · have hseen := h.saw p r hr q r' (hholder q r' hq) (by omega)
      cases hph : r.phase <;> simp only [hph, Saw, hfiles] at hseen ⊢
      · exact hseen
      · exact hseen
    · simp [ht, Saw]
    · simp [ht, Saw]
  · intro p r file hr hf
    obtain hr | ⟨_, _, ht | ht⟩ := hprocs p r hr
    · rw [hlock, hfiles]
      exact h.blank p r file hr hf
    · simp [ht] at hf
    · simp [ht] at hf

theorem Inv.spawn (hphase : phase = .testing ∨ phase = .done) (hs : s.spawn pid phase = some s') :
    s'.Inv := by
  simp only [System.spawn] at hs
  split at hs
  · rename_i hfree
    simp only [Option.some.injEq] at hs
    subst hs
    refine h.of_procs le_rfl rfl rfl ?_
    intro p r hr
    by_cases hpp : p = pid
    · subst hpp
      simp only [update_self, Option.some.injEq] at hr
      subst hr
      exact .inr ⟨hfree.1, rfl, hphase⟩
    · exact .inl (by simpa [update_of_ne hpp] using hr)
  · cases hs

theorem Inv.step (hs : Guarded Orderly Step s e s') : s'.Inv := by
  obtain ⟨hgood, hs⟩ := hs
  cases e with
  | tick ms =>
    obtain rfl := Option.some.inj hs
    exact h.of_procs (by simp) rfl rfl fun p r hr => .inl hr
  | start pid => exact h.spawn (.inl rfl) hs
  | other pid => exact h.spawn (.inr rfl) hs
  | step pid =>
    obtain ⟨r, hr, hs⟩ := Option.bind_eq_some_iff.mp hs
    exact h.runStep hr hgood hs
  | die pid =>
    obtain ⟨r, _, rfl⟩ := Option.map_eq_some_iff.mp hs
    refine h.of_procs le_rfl rfl rfl ?_
    intro p r' hr
    by_cases hpp : p = pid
    · subst hpp
      simp at hr
    · exact .inl (by simpa [update_of_ne hpp] using hr)

theorem Inv.run {es : List Event} (hrun : Runs (Guarded Orderly Step) s es s') : s'.Inv :=
  hrun.invariant (fun _ _ _ hi hstep => hi.step hstep) h

/-! ## What the invariant says of the holders -/

theorem Inv.unique {p q : ℕ} (hp : s.HoldsYoung p) (hq : s.HoldsYoung q) : p = q := by
  obtain ⟨r, hr, hyoung⟩ := hp
  obtain ⟨r', hr', hyoung'⟩ := hq
  have hfile := h.own p r hr hyoung
  rw [h.own q r' hr' hyoung'] at hfile
  simp only [Option.some.injEq, Prod.mk.injEq, Nat.cast_inj] at hfile
  exact hfile.1.symm

/-- The file that a young holder removes is its own, and so of no other run. -/
theorem Inv.removal {p q : ℕ} (hp : s.HoldsYoung p) (hq : s.Owns q) : q = p := by
  obtain ⟨r, hr, hyoung⟩ := hp
  obtain ⟨r', _, hfile⟩ := hq
  rw [h.own p r hr hyoung] at hfile
  simp only [Option.some.injEq, Prod.mk.injEq, Nat.cast_inj] at hfile
  exact hfile.1.symm

end

/-! ## Taking the lock -/

/-- The lock file does not block a run that starts now: its pid is dead, or it is old. A file that does not
parse is stale too. -/
def Stale (s : System) (pid : ℕ) : Prop :=
  ∀ holder started, s.lockReads = some (holder, some started) →
    (s.procs holder.toNat = none ∧ holder.toNat ≠ pid) ∨ STALE_LOCK_MS ≤ s.clock - started

theorem Stale.blocks_eq_false (h : s.Stale pid) (hprocs : ∀ q, q ≠ pid → t.procs q = s.procs q) :
    t.blocks s.clock s.lockReads = false := by
  cases hl : s.lockReads with
  | none => rfl
  | some x =>
    obtain ⟨holder, _ | started⟩ := x
    · simp [blocks]
    · obtain ⟨hdead, hne⟩ | hold := h holder started hl
      · simp [blocks, pidAlive, hprocs _ hne, hdead]
      · simp [blocks, hold]

theorem step_of_runStep (h : s.procs pid = some r) (hs : s.runStep pid r = some s') : Step s (.step pid) s' := by
  simp [Step, after, h, hs]

/-- `writeFileSync` of the record, from a run that was judged free to write it. -/
theorem runs_write {now : ℤ} (h : s.procs pid = some ⟨now, .creating⟩) :
    ∃ s', Runs Step s [.step pid, .step pid] s' ∧ s'.Owns pid := by
  let r : Run := ⟨now, .creating⟩
  obtain ⟨file, t, hcreate, hlock, hfile⟩ : ∃ (file : ℕ) (t : System),
      Step s (.step pid) (t.moves pid r (.filling file)) ∧ t.lock = some file ∧ t.files file = .empty := by
    obtain hl | ⟨file, hl⟩ := s.lock.eq_none_or_eq_some
    · let files := Function.update s.files s.nextFile .empty
      refine ⟨s.nextFile, { s with lock := some s.nextFile, files, nextFile := s.nextFile + 1 }, ?_, rfl, ?_⟩
      · exact step_of_runStep h (by simp [runStep, hl, r, files])
      · simp [files]
    · let files := Function.update s.files file .empty
      refine ⟨file, { s with files }, ?_, hl, ?_⟩
      · exact step_of_runStep h (by simp [runStep, hl, r, files, moves])
      · simp [files]
  let u := t.moves pid r (.filling file)
  let files := Function.update u.files file ((u.files file).write pid now)
  have hfill : Step u (.step pid) ({ u with files }.moves pid r .holding) :=
    step_of_runStep procs_moves_self rfl
  refine ⟨_, .cons hcreate (.single hfill), _, ⟨procs_moves_self, rfl⟩, ?_⟩
  simp [lockReads, moves, u, files, hlock, hfile, r]

theorem obtains_of_stale (h : s.Stale pid) (hpid : 0 < pid) (hfree : s.procs pid = none) : s.Obtains pid := by
  -- The state after the start.
  obtain ⟨s₁, hs₁, hp₁, hl₁, hf₁, hq₁⟩ : ∃ s₁, Step s (.start pid) s₁ ∧ s₁.procs pid = some ⟨s.clock, .testing⟩ ∧
      s₁.lock = s.lock ∧ s₁.files = s.files ∧ ∀ q, q ≠ pid → s₁.procs q = s.procs q :=
    ⟨{ s with procs := Function.update s.procs pid (some ⟨s.clock, .testing⟩) },
      by simp [Step, after, spawn, hpid, hfree], by simp, rfl, rfl, fun q hq => update_of_ne hq ..⟩
  obtain hl | ⟨file, hl⟩ := s.lock.eq_none_or_eq_some
  · have htest : Step s₁ (.step pid) (s₁.moves pid ⟨s.clock, .testing⟩ .creating) :=
      step_of_runStep hp₁ (by simp [runStep, hl₁, hl])
    obtain ⟨s', hrun, howns⟩ := runs_write (procs_moves_self : (s₁.moves pid _ .creating).procs pid = _)
    exact ⟨3, s', .cons hs₁ (.cons htest hrun), howns⟩
  · -- The file is opened and read, and what it says does not block.
    let r₁ : Run := ⟨s.clock, .testing⟩
    let s₂ := s₁.moves pid r₁ .opening
    let s₃ := s₂.moves pid r₁ (.reading file)
    let s₄ := s₃.moves pid r₁ (.judging s.lockReads)
    have htest : Step s₁ (.step pid) s₂ := step_of_runStep hp₁ (by simp [runStep, hl₁, hl, s₂, r₁])
    have hopen : Step s₂ (.step pid) s₃ :=
      step_of_runStep procs_moves_self (by simp [runStep, hl₁, hl, s₂, s₃, r₁, moves])
    have hread : Step s₃ (.step pid) s₄ :=
      step_of_runStep procs_moves_self (by simp [runStep, hl₁, hl, hf₁, s₂, s₃, s₄, r₁, moves, lockReads])
    have hclear : s₄.blocks s.clock s.lockReads = false := by
      apply h.blocks_eq_false
      intro q hq
      simp only [s₄, s₃, s₂, procs_moves_of_ne hq]
      exact hq₁ q hq
    have hjudge : Step s₄ (.step pid) (s₄.moves pid r₁ .creating) :=
      step_of_runStep procs_moves_self (by simp [runStep, hclear, r₁, moves])
    obtain ⟨s', hrun, howns⟩ := runs_write (procs_moves_self : (s₄.moves pid r₁ .creating).procs pid = _)
    exact ⟨6, s', .cons hs₁ (.cons htest (.cons hopen (.cons hread (.cons hjudge hrun)))), howns⟩

/-- The lock of a holder that died goes to any run under another pid. -/
theorem Owns.obtains_of_die {p q : ℕ} (h : s.Owns p) (hdie : Step s (.die p) t) (hq : 0 < q) (hne : q ≠ p)
    (hfree : t.procs q = none) : t.Obtains q := by
  obtain ⟨r, _, hfile⟩ := h
  obtain ⟨r', _, rfl⟩ := Option.map_eq_some_iff.mp hdie
  apply obtains_of_stale _ hq hfree
  intro holder started hreads
  have hreads' : s.lockReads = some (holder, some started) := hreads
  rw [hfile] at hreads'
  simp only [Option.some.injEq, Prod.mk.injEq] at hreads'
  obtain ⟨rfl, _⟩ := hreads'
  exact .inl ⟨by simp, by simpa using hne.symm⟩

/-- No process and no lock file. -/
def idle : System := ⟨0, none, fun _ => .empty, 0, fun _ => none⟩

end System

end Ariad.Cli
