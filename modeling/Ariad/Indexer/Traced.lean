import Ariad.Indexer.Footprint

/-!
# Runs with their past

What a run did depends on when it did it. Here the rules for index runs are those of the machine that
keeps the trace.

* `IndexState` — the world with the trace.
* `HoldsOn` — the rules, over states.
* `seenTimes`, `versionsRead` — the times that a file was seen with, and its versions that the run has
  read.
* `Fresh`, `Steady` — writes give a file a new `mtime_ns`; a file that was read is not written while the
  run still looks at it.
* `Vouches` — metadata that stands for a text as long as writes are fresh.
-/

namespace Ariad

open List

variable {φ χ δ α β : Type}

/-- The world of an index run, with the trace that led to it. -/
abbrev IndexState (φ χ δ : Type) := State (IndexOp φ χ δ) IndexOp.Val IndexFault (IndexWorld φ χ δ)

abbrev IndexEvent (φ χ δ : Type) := Event (IndexOp φ χ δ) IndexOp.Val IndexFault (IndexWorld φ χ δ)

namespace IndexState

/-- The state after an operation, or after a run was killed. -/
def step (s : IndexState φ χ δ) (a : Action (IndexOp φ χ δ) IndexOp.Val IndexFault)
    (w : IndexWorld φ χ δ) : IndexState φ χ δ := s.push 0 a w

/-- The state after an operation was performed. -/
def after [DecidableEq φ] (X : Extractor φ χ δ) (s : IndexState φ χ δ) (o : IndexOp φ χ δ)
    (ch : IndexChoice χ) : IndexState φ χ δ :=
  s.step (.op o (o.exec X ch s.world).1) (o.exec X ch s.world).2

end IndexState

/-! ## Rules -/

namespace IndexM

section

variable [DecidableEq φ] (X : Extractor φ χ δ)
  (A : IndexOp φ χ δ → IndexChoice χ → IndexState φ χ δ → Prop) (I : IndexState φ χ δ → Prop)

/-- `I` holds before every operation; a value is returned with `Q`, and raised is with `E`. -/
def HoldsOn (m : IndexM φ χ δ α) (Q : α → IndexState φ χ δ → Prop) (E : IndexState φ χ δ → Prop)
    (s : IndexState φ χ δ) : Prop :=
  Proc.Holds (indexMachine X).traced 0 A I m (fun a _ s => Q a s) (fun _ _ s => E s) ⟨⟩ s

end

variable [DecidableEq φ] {X : Extractor φ χ δ}
  {A : IndexOp φ χ δ → IndexChoice χ → IndexState φ χ δ → Prop} {I : IndexState φ χ δ → Prop}
  {m : IndexM φ χ δ α} {f : α → IndexM φ χ δ β} {Q Q' : α → IndexState φ χ δ → Prop}
  {R : β → IndexState φ χ δ → Prop} {E E' : IndexState φ χ δ → Prop} {s : IndexState φ χ δ}

namespace HoldsOn

theorem mono (h : m.HoldsOn X A I Q E s) (hQ : ∀ a s, Q a s → Q' a s) (hE : ∀ s, E s → E' s) :
    m.HoldsOn X A I Q' E' s :=
  Proc.Holds.mono h (fun a _ s => hQ a s) (fun _ _ s => hE s)

theorem pure {a : α} (h : Q a s) : (Pure.pure a : IndexM φ χ δ α).HoldsOn X A I Q E s := h

theorem bind (h : m.HoldsOn X A I (fun a s => (f a).HoldsOn X A I R E s) E s) :
    IndexM.HoldsOn X A I (m >>= f) R E s := Proc.Holds.bind h

theorem attempt {R : Except IndexFault α → IndexState φ χ δ → Prop}
    (h : m.HoldsOn X A I (fun a => R (.ok a)) (R (.error .failed)) s) :
    IndexM.HoldsOn X A I (Proc.attempt m) R E s :=
  Proc.Holds.attempt (Proc.Holds.mono h (fun _ _ _ h => h) (fun e _ _ h => by cases e; exact h))

theorem tryCatch {handler : IndexFault → IndexM φ χ δ α}
    (h : m.HoldsOn X A I Q ((handler .failed).HoldsOn X A I Q E) s) :
    IndexM.HoldsOn X A I (MonadExcept.tryCatch m handler) Q E s :=
  Proc.Holds.tryCatch (Proc.Holds.mono h (fun _ _ _ h => h) (fun e _ _ h => by cases e; exact h))

/-- **The rule for one operation.** -/
theorem perform {o : IndexOp φ χ δ} {Q : o.Val → IndexState φ χ δ → Prop} (hI : I s)
    (hraises : ∀ ch, A o ch s → E (s.after X o ch))
    (hreturns : ∀ ch v, A o ch s → (o.exec X ch s.world).1 = .ok v → Q v (s.after X o ch)) :
    (IndexM.perform o).HoldsOn X A I Q E s := by
  refine Proc.Holds.perform hI fun ch hch => ?_
  have hE := hraises ch hch
  have hQ := hreturns ch
  unfold IndexState.after at hE hQ
  dsimp only [Machine.traced, indexMachine]
  revert hE hQ
  obtain ⟨e | v, w'⟩ := o.exec X ch s.world
  · exact fun hE _ => hE
  · exact fun _ hQ => hQ v hch rfl

/-- What every allowed operation of the kind preserves holds throughout. -/
theorem only {C : IndexOp φ χ δ → Prop} (hm : m.Only C)
    (hstep : ∀ o ch s, C o → I s → A o ch s → I (s.after X o ch)) (hs : I s) :
    m.HoldsOn X A I (fun _ => I) I s :=
  Proc.Holds.uses (I := I) hm hstep hs

theorem weaken {I' : IndexState φ χ δ → Prop} (h : m.HoldsOn X A I Q E s) (hI : ∀ s, I s → I' s) :
    m.HoldsOn X A I' Q E s := Prog.Throughout.weaken h hI

/-- The elements are worked off in order: `J` is about the results so far. -/
theorem forEach {f : α → IndexM φ χ δ β} (J : List β → IndexState φ χ δ → Prop) (as : List α)
    (hstep : ∀ a ∈ as, ∀ bs s, J bs s → (f a).HoldsOn X A I (fun b s => J (bs ++ [b]) s) E s)
    {R : List β → IndexState φ χ δ → Prop} (hstart : J [] s) (hend : ∀ bs s, J bs s → R bs s) :
    (IndexM.forEach f as).HoldsOn X A I R E s := by
  have key : ∀ (as : List α) (bs : List β) (s : IndexState φ χ δ),
      (∀ a ∈ as, ∀ bs s, J bs s → (f a).HoldsOn X A I (fun b s => J (bs ++ [b]) s) E s) → J bs s →
      (IndexM.forEach f as).HoldsOn X A I (fun bs' s => J (bs ++ bs') s) E s := by
    intro as
    induction as with
    | nil =>
      intro bs s _ h
      refine pure ?_
      rwa [append_nil]
    | cons a as ih =>
      intro bs s hstep h
      refine bind ((hstep a mem_cons_self bs s h).mono (fun b s hb => ?_) fun _ h => h)
      refine bind ((ih _ s (fun a' ha' => hstep a' (mem_cons_of_mem _ ha')) hb).mono
        (fun bs' s hbs => ?_) fun _ h => h)
      refine pure ?_
      simpa using hbs
  exact (key as [] s hstep hstart).mono (fun bs s h => hend bs s h) fun _ h => h

end HoldsOn

end IndexM

/-! ## The past -/

/-- The operation with which a run begins. -/
def IndexOp.isStart : IndexOp φ χ δ → Bool
  | .assertDiscoveryRoot _ => true
  | _ => false

/-- The first event of a run. -/
def startsRun (e : IndexEvent φ χ δ) : Bool :=
  match e.act with
  | .op o _ => o.isStart
  | .killed => false

/-- What a discovery reports of the file. -/
def discoveredTimes (e : IndexEvent φ χ δ) (p : AbsPath) : List ℤ :=
  match e.act with
  | .op (.discoverSourceFiles _ _) (.ok d) =>
    ((d : Discovery).fileStats.lookup p).toList.map FileStat.mtimeNs
  | _ => []

/-- The version of the file that the operation has read. -/
def versionRead (e : IndexEvent φ χ δ) (p : AbsPath) : Option (SourceFile χ) :=
  match e.act with
  | .op (.readFile q) (.ok _) => if q = p then e.after.disk p else none
  | _ => none

namespace IndexState

/-- The `mtime_ns` that the file has been seen with: it had it when some operation was performed, or a
discovery reported it. -/
def seenTimes (s : IndexState φ χ δ) (p : AbsPath) : List ℤ :=
  s.trace.flatMap fun e => (e.before.disk p).toList.map SourceFile.mtimeNs ++
    (e.after.disk p).toList.map SourceFile.mtimeNs ++ discoveredTimes e p

/-- The events of the current run. -/
def current (s : IndexState φ χ δ) : List (IndexEvent φ χ δ) := s.trace.takeWhile fun e => !startsRun e

/-- The versions of the file that the current run has read. -/
def versionsRead (s : IndexState φ χ δ) (p : AbsPath) : List (SourceFile χ) :=
  s.current.filterMap fun e => versionRead e p

/-- **Every write gives the file an `mtime_ns`** that it has not been seen with. -/
def Fresh (s : IndexState φ χ δ) (writes : List (AbsPath × Option (SourceFile χ))) : Prop :=
  ∀ x ∈ writes, ∀ f ∈ x.2, f.mtimeNs ∉ s.seenTimes x.1

/-- **A file that the run has read is as it was** when the run reads it again, or when a full run asks for
its metadata. -/
def Steady (incremental : Bool) (s : IndexState φ χ δ) (disk : AbsPath → Option (SourceFile χ)) :
    IndexOp φ χ δ → Prop
  | .readFile p => ∀ f ∈ s.versionsRead p, disk p = some f
  | .statFile p => incremental = false → ∀ f ∈ s.versionsRead p, disk p = some f
  | _ => True

/-- As long as writes are fresh, the file has the text whenever it has the `mtime_ns`. -/
structure Vouches (s : IndexState φ χ δ) (p : AbsPath) (mtimeNs : ℤ) (c : χ) : Prop where
  seen : mtimeNs ∈ s.seenTimes p
  content : ∀ f, s.world.disk p = some f → f.mtimeNs = mtimeNs → f.content = c

/-- What the run has read of a file is one version. -/
def ReadsAgree (s : IndexState φ χ δ) : Prop :=
  ∀ p, ∀ f ∈ s.versionsRead p, ∀ g ∈ s.versionsRead p, f = g

/-- What was known of the past of the run is still known. -/
structure Later (s s' : IndexState φ χ δ) : Prop where
  versionsRead : ∀ p, s.versionsRead p ⊆ s'.versionsRead p
  seenTimes : ∀ p, s.seenTimes p ⊆ s'.seenTimes p
  vouches : ∀ p m c, s.Vouches p m c → s'.Vouches p m c

theorem Later.refl (s : IndexState φ χ δ) : Later s s :=
  ⟨fun _ _ h => h, fun _ _ h => h, fun _ _ _ h => h⟩

theorem Later.trans {s₁ s₂ s₃ : IndexState φ χ δ} (h : Later s₁ s₂) (h' : Later s₂ s₃) : Later s₁ s₃ :=
  ⟨fun p _ hr => h'.versionsRead p (h.versionsRead p hr),
    fun p _ hs => h'.seenTimes p (h.seenTimes p hs), fun p m c hv => h'.vouches p m c (h.vouches p m c hv)⟩

/-! ### One step -/

variable {s : IndexState φ χ δ} {o : IndexOp φ χ δ} {r : Except IndexFault o.Val}
  {a : Action (IndexOp φ χ δ) IndexOp.Val IndexFault} {w : IndexWorld φ χ δ}
  {writes : List (AbsPath × Option (SourceFile χ))} {p : AbsPath}

theorem seenTimes_step : (s.step a w).seenTimes p = (s.world.disk p).toList.map SourceFile.mtimeNs ++
    (w.disk p).toList.map SourceFile.mtimeNs ++ discoveredTimes ⟨0, a, s.world, w⟩ p ++
      s.seenTimes p := rfl

/-- The file is seen with the time that it has. -/
theorem mem_seenTimes_step {f : SourceFile χ} (h : w.disk p = some f) :
    f.mtimeNs ∈ (s.step a w).seenTimes p := by
  rw [seenTimes_step, h]
  simp

/-- After some writes, a file is the one that was there or has a new time. -/
theorem Fresh.edited (h : s.Fresh writes) (f : SourceFile χ)
    (hf : (s.world.edited writes).disk p = some f) :
    s.world.disk p = some f ∨ f.mtimeNs ∉ s.seenTimes p := by
  have key : ∀ (writes : List (AbsPath × Option (SourceFile χ))) (disk : AbsPath → Option (SourceFile χ)),
      s.Fresh writes →
      (writes.foldl (fun disk x => Function.update disk x.1 x.2) disk) p = some f →
      disk p = some f ∨ f.mtimeNs ∉ s.seenTimes p := by
    intro writes
    induction writes with
    | nil => exact fun _ _ h => .inl h
    | cons x writes ih =>
      intro disk hfresh hf
      rcases ih _ (fun y hy => hfresh y (mem_cons_of_mem _ hy)) hf with hold | hnew
      · dsimp only at hold
        by_cases hp : p = x.1
        · subst hp
          rw [Function.update_self] at hold
          exact .inr (hfresh x mem_cons_self f hold)
        · rw [Function.update_of_ne hp] at hold
          exact .inl hold
      · exact .inr hnew
  exact key writes s.world.disk h hf

theorem Vouches.of_edited {s' : IndexState φ χ δ} {m : ℤ} {c : χ} (h : s.Vouches p m c)
    (hfresh : s.Fresh writes) (hdisk : s'.world.disk = (s.world.edited writes).disk)
    (hseen : s.seenTimes p ⊆ s'.seenTimes p) : s'.Vouches p m c where
  seen := hseen h.seen
  content := by
    intro f hf hm
    rw [hdisk] at hf
    rcases hfresh.edited f hf with hold | hnew
    · exact h.content f hold hm
    · exact absurd (hm ▸ h.seen) hnew

theorem Vouches.step {m : ℤ} {c : χ} (h : s.Vouches p m c) (hfresh : s.Fresh writes)
    (hdisk : w.disk = (s.world.edited writes).disk) : (s.step a w).Vouches p m c :=
  h.of_edited hfresh hdisk (by
    rw [seenTimes_step]
    exact subset_append_right _ _)

/-- The text that is there is the one that the time stands for, if the time has been seen. -/
theorem Vouches.now {f : SourceFile χ} {m : ℤ} (hf : s.world.disk p = some f)
    (hseen : m ∈ s.seenTimes p) : s.Vouches p m f.content where
  seen := hseen
  content := by
    intro g hg _
    rw [Option.some.inj (hg.symm.trans hf)]

theorem current_step (ha : startsRun (⟨0, a, s.world, w⟩ : IndexEvent φ χ δ) = false) :
    (s.step a w).current = ⟨0, a, s.world, w⟩ :: s.current := by
  rw [current, step, State.push_trace, takeWhile_cons, if_pos (by rw [ha]; rfl)]
  rfl

theorem current_step_start (ha : startsRun (⟨0, a, s.world, w⟩ : IndexEvent φ χ δ) = true) :
    (s.step a w).current = [] := by
  rw [current, step, State.push_trace, takeWhile_cons, if_neg (by rw [ha]; simp)]

theorem versionsRead_step (ha : startsRun (⟨0, a, s.world, w⟩ : IndexEvent φ χ δ) = false) :
    (s.step a w).versionsRead p =
      (versionRead (⟨0, a, s.world, w⟩ : IndexEvent φ χ δ) p).toList ++ s.versionsRead p := by
  rw [versionsRead, current_step ha, filterMap_cons]
  split
  · rename_i h
    rw [h]
    rfl
  · rename_i f h
    rw [h]
    rfl

theorem Later.step (ha : startsRun (⟨0, a, s.world, w⟩ : IndexEvent φ χ δ) = false)
    (hfresh : s.Fresh writes) (hdisk : w.disk = (s.world.edited writes).disk) :
    Later s (s.step a w) where
  versionsRead := fun p => by
    rw [versionsRead_step ha]
    exact subset_append_right _ _
  seenTimes := fun p => by
    rw [seenTimes_step]
    exact subset_append_right _ _
  vouches := fun _ _ _ h => h.step hfresh hdisk

theorem ReadsAgree.start (ha : startsRun (⟨0, a, s.world, w⟩ : IndexEvent φ χ δ) = true) :
    (s.step a w).ReadsAgree := by
  intro p f hf
  rw [versionsRead, current_step_start ha] at hf
  cases hf

/-- Another version is read only if it is the one that was read before. -/
theorem ReadsAgree.step (h : s.ReadsAgree)
    (ha : startsRun (⟨0, a, s.world, w⟩ : IndexEvent φ χ δ) = false)
    (hread : ∀ p f, versionRead (⟨0, a, s.world, w⟩ : IndexEvent φ χ δ) p = some f →
      ∀ g ∈ s.versionsRead p, f = g) : (s.step a w).ReadsAgree := by
  intro p f hf g hg
  rw [versionsRead_step ha, mem_append, Option.mem_toList] at hf hg
  rcases hf with hf | hf
  · rcases hg with hg | hg
    · exact Option.some.inj (hf.symm.trans hg)
    · exact hread p f hf g hg
  · rcases hg with hg | hg
    · exact (hread p g hg f hf).symm
    · exact h p f hf g hg

end IndexState

/-! ## What the operations return -/

section

variable [DecidableEq φ] (X : Extractor φ χ δ) {ch : IndexChoice χ} {w : IndexWorld φ χ δ}
  {p : AbsPath}

/-- What an operation does to the files: what was written before it. -/
theorem IndexOp.exec_disk (o : IndexOp φ χ δ) (ch : IndexChoice χ) (w : IndexWorld φ χ δ) :
    (o.exec X ch w).2.disk = (w.edited ch.writes).disk := by
  unfold IndexOp.exec
  split
  · rfl
  · cases o with
    | discoverSourceFiles cfg root =>
      simp only [IndexOp.run]
      split <;> rfl
    | statFile p =>
      simp only [IndexOp.run]
      split <;> rfl
    | readFile p =>
      simp only [IndexOp.run]
      split <;> rfl
    | _ => rfl

/-- `stat` says what the file is when it is asked. -/
theorem IndexOp.exec_statFile {m : FileMeta}
    (h : (IndexOp.exec X (.statFile p) ch w).1 = .ok m) :
    ∃ f, (w.edited ch.writes).disk p = some f ∧ m = ⟨f.mtimeNs, f.size⟩ := by
  unfold IndexOp.exec at h
  split at h
  · cases h
  · simp only [IndexOp.run] at h
    split at h
    · rename_i f hf
      cases h
      exact ⟨f, hf, rfl⟩
    · cases h

/-- What is read is what the file is when it is read. -/
theorem IndexOp.exec_readFile {c : χ} (h : (IndexOp.exec X (.readFile p) ch w).1 = .ok c) :
    ∃ f, (w.edited ch.writes).disk p = some f ∧ c = f.content := by
  unfold IndexOp.exec at h
  split at h
  · cases h
  · simp only [IndexOp.run] at h
    split at h
    · rename_i f hf
      cases h
      exact ⟨f, hf, rfl⟩
    · cases h

theorem IndexOp.exec_read {r : DbRead φ} {v : r.Val φ δ}
    (h : (IndexOp.exec X (.read r) ch w).1 = .ok v) : v = r.run w.db := by
  unfold IndexOp.exec at h
  split at h
  · cases h
  · cases h
    rfl

omit [DecidableEq φ] in
/-- A version is read by reading the file. -/
theorem versionRead_op {o : IndexOp φ χ δ} {r : Except IndexFault o.Val} {w' : IndexWorld φ χ δ}
    {f : SourceFile χ} (h : versionRead (⟨0, .op o r, w, w'⟩ : IndexEvent φ χ δ) p = some f) :
    o = .readFile p ∧ w'.disk p = some f := by
  unfold versionRead at h
  split at h
  · rename_i q c hact
    cases hact
    split at h
    · rename_i hq
      subst hq
      exact ⟨rfl, h⟩
    · cases h
  · cases h

/-- What an operation that begins no run leaves known. -/
theorem IndexState.Later.after {s : IndexState φ χ δ} {o : IndexOp φ χ δ} (ho : o.isStart = false)
    (hfresh : s.Fresh ch.writes) : s.Later (s.after X o ch) :=
  .step ho hfresh (o.exec_disk X ch s.world)

/-- A steady file is read as it was before. -/
theorem IndexState.ReadsAgree.after {s : IndexState φ χ δ} {o : IndexOp φ χ δ} {incremental : Bool}
    (h : s.ReadsAgree) (hsteady : s.Steady incremental (s.world.edited ch.writes).disk o) :
    (s.after X o ch).ReadsAgree := by
  by_cases ho : o.isStart = true
  · exact .start ho
  refine h.step (Bool.eq_false_iff.mpr ho) fun p f hf g hg => ?_
  obtain ⟨rfl, hdisk⟩ := versionRead_op hf
  rw [IndexOp.exec_disk] at hdisk
  exact Option.some.inj (hdisk.symm.trans (hsteady g hg))

end

end Ariad
