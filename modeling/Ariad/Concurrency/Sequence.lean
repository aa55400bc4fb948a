import Ariad.Concurrency.Pool

/-!
# One program after another

Programs that run one after the other on one world, where a program may be stopped before any of its
operations, and the world may change between two programs.

* `Prog.Leads` — a run of one program, to its end or to where it was stopped; `Prog.follow` computes one.
* `Prog.Throughout` — an invariant holds before every operation, and a postcondition at the end.
* `Proc.Holds` — the same of a procedure, with one rule for each construct.
* `Sequence` — runs one after another; `Sequence.invariant` is the induction over them.
* `Machine.traced` — the machine with the trace of its operations beside the world, for what depends on
  the past.

What the choices may be is restricted by `A`: an operation is only performed with a choice that is
allowed for it in the world before.
-/

namespace Ariad

variable {Op : Type} {Val : Op → Type} {κ ε World Choice Call Ret σ α β : Type}

/-! ## Programs -/

section

variable (M : Machine Op Val κ World Choice) (t : Tid) (A : Op → Choice → World → Prop)

/-- A run of `p` from a world leads to another, where it has returned a value, or was stopped. -/
inductive Prog.Leads : Prog Op Val κ α → World → Option α → World → Prop where
  | returned (a : α) (w : World) : Leads (.pure a) w (some a) w
  | stopped (o : Op) (k : Except κ (Val o) → Prog Op Val κ α) (w : World) :
    Leads (.call o k) w none (M.kill t w)
  | op {o : Op} {k : Except κ (Val o) → Prog Op Val κ α} {w w' : World} {x : Option α} (ch : Choice) :
    A o ch w → Leads (k (M.exec t o ch w).1) (M.exec t o ch w).2 x w' → Leads (.call o k) w x w'

/-- Whatever choices are made, `I` holds before every operation of `p`, and if `p` returns `a` then
`Q a` holds. -/
def Prog.Throughout (I : World → Prop) : Prog Op Val κ α → (α → World → Prop) → World → Prop
  | .pure a, Q, w => Q a w
  | .call o k, Q, w => I w ∧ ∀ ch, A o ch w →
      Throughout I (k (M.exec t o ch w).1) Q (M.exec t o ch w).2

end

section

variable {M : Machine Op Val κ World Choice} {t : Tid} {A : Op → Choice → World → Prop}
  {I : World → Prop}

theorem Prog.Throughout.mono {p : Prog Op Val κ α} {Q Q' : α → World → Prop} {w : World}
    (h : p.Throughout M t A I Q w) (hQ : ∀ a w, Q a w → Q' a w) : p.Throughout M t A I Q' w := by
  induction p generalizing w with
  | pure a => exact hQ a w h
  | call o k ih => exact ⟨h.1, fun ch hch => ih _ (h.2 ch hch)⟩

theorem Prog.Throughout.weaken {I' : World → Prop} {p : Prog Op Val κ α} {Q : α → World → Prop}
    {w : World} (h : p.Throughout M t A I Q w) (hI : ∀ w, I w → I' w) : p.Throughout M t A I' Q w := by
  induction p generalizing w with
  | pure a => exact h
  | call o k ih => exact ⟨hI w h.1, fun ch hch => ih _ (h.2 ch hch)⟩

theorem Prog.Throughout.and {I' : World → Prop} {p : Prog Op Val κ α} {Q Q' : α → World → Prop}
    {w : World} (h : p.Throughout M t A I Q w) (h' : p.Throughout M t A I' Q' w) :
    p.Throughout M t A (fun w => I w ∧ I' w) (fun a w => Q a w ∧ Q' a w) w := by
  induction p generalizing w with
  | pure a => exact ⟨h, h'⟩
  | call o k ih => exact ⟨⟨h.1, h'.1⟩, fun ch hch => ih _ (h.2 ch hch) (h'.2 ch hch)⟩

/-- What every allowed operation keeps holds throughout. -/
theorem Prog.Throughout.preserved (p : Prog Op Val κ α) {w : World} (hw : I w)
    (hstep : ∀ o ch w, I w → A o ch w → I (M.exec t o ch w).2) : p.Throughout M t A I (fun _ => I) w := by
  induction p generalizing w with
  | pure a => exact hw
  | call o k ih => exact ⟨hw, fun ch hch => ih _ (hstep o ch w hw hch)⟩

/-- A program ends, when some choice is always allowed. -/
theorem Prog.Throughout.exists {p : Prog Op Val κ α} {Q : α → World → Prop} {w : World}
    (h : p.Throughout M t A I Q w) (hA : ∀ o w, ∃ ch, A o ch w) : ∃ a w', Q a w' := by
  induction p generalizing w with
  | pure a => exact ⟨a, w, h⟩
  | call o k ih =>
    obtain ⟨ch, hch⟩ := hA o w
    exact ih _ (h.2 ch hch)

theorem Prog.Throughout.bind {p : Prog Op Val κ α} {f : α → Prog Op Val κ β} {Q : β → World → Prop} {w : World}
    (h : p.Throughout M t A I (fun a w => (f a).Throughout M t A I Q w) w) : (p.bind f).Throughout M t A I Q w := by
  induction p generalizing w with
  | pure a => exact h
  | call o k ih => exact ⟨h.1, fun ch hch => ih _ (h.2 ch hch)⟩

/-- **What holds throughout a program holds of every run of it.** -/
theorem Prog.Throughout.sound {p : Prog Op Val κ α} {Q : α → World → Prop} {w w' : World}
    {x : Option α} (h : p.Throughout M t A I Q w) (hrun : p.Leads M t A w x w') :
    (∃ a, x = some a ∧ Q a w') ∨ x = none ∧ ∃ w₁, I w₁ ∧ w' = M.kill t w₁ := by
  induction hrun with
  | returned a w => exact .inl ⟨a, rfl, h⟩
  | stopped o k w => exact .inr ⟨rfl, w, h.1, rfl⟩
  | op ch hch _ ih => exact ih (h.2 ch hch)

end

section

variable (M : Machine Op Val κ World Choice) (t : Tid) (choose : (o : Op) → World → Choice)

/-- The run of a program in which every choice is made by a function. -/
def Prog.follow : Prog Op Val κ α → World → α × World
  | .pure a, w => (a, w)
  | .call o k, w =>
    (k (M.exec t o (choose o w) w).1).follow (M.exec t o (choose o w) w).2

/-- Every choice that is made on the way is allowed. -/
def Prog.allows (A : Op → Choice → World → Prop) [∀ o ch w, Decidable (A o ch w)] :
    Prog Op Val κ α → World → Bool
  | .pure _, _ => true
  | .call o k, w => decide (A o (choose o w) w) &&
    (k (M.exec t o (choose o w) w).1).allows A (M.exec t o (choose o w) w).2

theorem Prog.follow_leads_of_allows {A : Op → Choice → World → Prop}
    [∀ o ch w, Decidable (A o ch w)] (p : Prog Op Val κ α) (w : World) (h : p.allows M t choose A w = true) :
    p.Leads M t A w (some (p.follow M t choose w).1) (p.follow M t choose w).2 := by
  induction p generalizing w with
  | pure a => exact .returned a w
  | call o k ih =>
    rw [Prog.allows, Bool.and_eq_true, decide_eq_true_eq] at h
    exact .op (choose o w) h.1 (ih _ _ h.2)

theorem Prog.follow_leads {A : Op → Choice → World → Prop} (h : ∀ o w, A o (choose o w) w)
    (p : Prog Op Val κ α) (w : World) : p.Leads M t A w (some (p.follow M t choose w).1) (p.follow M t choose w).2 := by
  induction p generalizing w with
  | pure a => exact .returned a w
  | call o k ih => exact .op (choose o w) (h o w) (ih _ _)

end

/-! ## Procedures -/

namespace Proc

section

variable (M : Machine Op Val κ World Choice) (t : Tid) (A : Op → Choice → World → Prop)
  (I : World → Prop)

/-- `I` holds before every operation; if the procedure returns `a` then `Q a` holds, if it raises `e`
then `E e`. -/
def Holds (m : Proc Op Val κ ε σ α) (Q : α → σ → World → Prop) (E : ε → σ → World → Prop) (l : σ)
    (w : World) : Prop :=
  (m l).Throughout M t A I (fun x w => match x with
    | (.ok a, l') => Q a l' w
    | (.error e, l') => E e l' w) w

end

variable {M : Machine Op Val κ World Choice} {t : Tid} {A : Op → Choice → World → Prop}
  {I : World → Prop} {m : Proc Op Val κ ε σ α} {f : α → Proc Op Val κ ε σ β}
  {Q Q' : α → σ → World → Prop} {R : β → σ → World → Prop} {E E' : ε → σ → World → Prop} {l : σ}
  {w : World}

theorem Holds.mono (h : m.Holds M t A I Q E l w) (hQ : ∀ a l w, Q a l w → Q' a l w)
    (hE : ∀ e l w, E e l w → E' e l w) : m.Holds M t A I Q' E' l w := by
  refine Prog.Throughout.mono h ?_
  rintro ⟨e | a, l'⟩ w' hx
  · exact hE e l' w' hx
  · exact hQ a l' w' hx

theorem Holds.bind (h : m.Holds M t A I (fun a l w => (f a).Holds M t A I R E l w) E l w) :
    (m >>= f).Holds M t A I R E l w := by
  refine Prog.Throughout.bind (Prog.Throughout.mono h ?_)
  rintro ⟨e | a, l'⟩ w' hx
  · exact hx
  · exact hx

theorem Holds.attempt {R : Except ε α → σ → World → Prop}
    (h : m.Holds M t A I (fun a => R (.ok a)) (fun e => R (.error e)) l w) : m.attempt.Holds M t A I R E l w := by
  refine Prog.Throughout.bind (Prog.Throughout.mono h ?_)
  rintro ⟨e | a, l'⟩ w' hx
  · exact hx
  · exact hx

theorem Holds.tryCatch {handler : ε → Proc Op Val κ ε σ α}
    (h : m.Holds M t A I Q (fun e l w => (handler e).Holds M t A I Q E l w) l w) :
    (MonadExcept.tryCatch m handler).Holds M t A I Q E l w := by
  refine Prog.Throughout.bind (Prog.Throughout.mono h ?_)
  rintro ⟨e | a, l'⟩ w' hx
  · exact hx
  · exact hx

/-- **The rule for one operation.** -/
theorem Holds.perform {raise : κ → ε} {o : Op} {Q : Val o → σ → World → Prop} (hI : I w)
    (h : ∀ ch, A o ch w → match M.exec t o ch w with | (.ok v, w') => Q v l w' | (.error e, w') => E (raise e) l w') :
    (Proc.perform raise o).Holds M t A I Q E l w := by
  refine ⟨hI, fun ch hch => ?_⟩
  have hpost := h ch hch
  revert hpost
  obtain ⟨r, w'⟩ := M.exec t o ch w
  cases r with
  | ok v => exact id
  | error e => exact id

/-- **Framing by operations.** What every allowed operation of a kind preserves is preserved by a
procedure that performs no others. -/
theorem Holds.uses {C : Op → Prop} {X : ε → Prop} (h : m.Uses C X)
    (hstep : ∀ o ch w, C o → I w → A o ch w → I (M.exec t o ch w).2) (hw : I w) :
    m.Holds M t A I (fun _ _ w => I w) (fun _ _ w => I w) l w := by
  have key : ∀ (L : Except ε α × σ → Prop) (p : Prog Op Val κ (Except ε α × σ)), p.Uses C L →
      ∀ w, I w → p.Throughout M t A I (fun _ => I) w := by
    intro L p
    induction p with
    | pure a => exact fun _ w hw => hw
    | call o k ih =>
      exact fun hp w hw => ⟨hw, fun ch hch => ih _ (hp.2 _) _ (hstep o ch w hp.1 hw hch)⟩
  refine Prog.Throughout.mono (key _ (m l) (h l) w hw) ?_
  rintro ⟨e | a, l'⟩ w' hw'
  · exact hw'
  · exact hw'

/-- The value and the locals at the end of a run that has not been stopped. -/
theorem Holds.sound {x : Option (Except ε α × σ)} {w' : World} (h : m.Holds M t A I Q E l w)
    (hrun : (m l).Leads M t A w x w') :
    (∃ a l', x = some (.ok a, l') ∧ Q a l' w') ∨ (∃ e l', x = some (.error e, l') ∧ E e l' w') ∨
      x = none ∧ ∃ w₁, I w₁ ∧ w' = M.kill t w₁ := by
  rcases Prog.Throughout.sound h hrun with ⟨⟨e | a, l'⟩, rfl, hx⟩ | hstop
  · exact .inr (.inl ⟨e, l', rfl, hx⟩)
  · exact .inl ⟨a, l', rfl, hx⟩
  · exact .inr (.inr hstop)

end Proc

/-! ## Sequences of runs -/

section

variable (M : Machine Op Val κ World Choice) (t : Tid) (body : Call → Prog Op Val κ Ret)
  (A : Call → Op → Choice → World → Prop) (Env : World → World → Prop)

/-- Runs one after another, newest first, with the world they lead to. -/
inductive Sequence (w₀ : World) : List (Call × Option Ret) → World → Prop where
  | start : Sequence w₀ [] w₀
  | between {runs : List (Call × Option Ret)} {w w' : World} :
    Sequence w₀ runs w → Env w w' → Sequence w₀ runs w'
  | run {runs : List (Call × Option Ret)} {w w' : World} {c : Call} {x : Option Ret} :
    Sequence w₀ runs w → (body c).Leads M t (A c) w x w' →
      Sequence w₀ ((c, x) :: runs) w'

end

section

variable {M : Machine Op Val κ World Choice} {t : Tid} {body : Call → Prog Op Val κ Ret}
  {A : Call → Op → Choice → World → Prop} {Env : World → World → Prop} {I : World → Prop}
  {w₀ w : World} {runs : List (Call × Option Ret)}

/-- **What every run of certain calls keeps throughout, and the world between runs, holds always.** -/
theorem Sequence.invariant_of {C : Call → Prop} (h : Sequence M t body A Env w₀ runs w)
    (hcalls : ∀ run ∈ runs, C run.1) (h₀ : I w₀)
    (hrun : ∀ call w, C call → I w → (body call).Throughout M t (A call) I (fun _ w => I w) w)
    (henv : ∀ w w', I w → Env w w' → I w') (hkill : ∀ w, I w → I (M.kill t w)) : I w := by
  induction h with
  | start => exact h₀
  | between _ he ih => exact henv _ _ (ih hcalls) he
  | run _ hlead ih =>
    have hbefore := ih fun run hr => hcalls run (List.mem_cons_of_mem _ hr)
    rcases (hrun _ _ (hcalls _ List.mem_cons_self) hbefore).sound hlead with ⟨_, -, hw⟩ | ⟨-, w₁, hw₁, rfl⟩
    · exact hw
    · exact hkill _ hw₁

/-- The same of all calls. -/
theorem Sequence.invariant (h : Sequence M t body A Env w₀ runs w) (h₀ : I w₀)
    (hrun : ∀ call w, I w → (body call).Throughout M t (A call) I (fun _ w => I w) w)
    (henv : ∀ w w', I w → Env w w' → I w') (hkill : ∀ w, I w → I (M.kill t w)) : I w :=
  h.invariant_of (C := fun _ => True) (fun _ _ => trivial) h₀ (fun call w _ => hrun call w) henv hkill

end

/-! ## Traces -/

/-- The machine that keeps the trace of its operations beside the world. -/
def Machine.traced (M : Machine Op Val κ World Choice) :
    Machine Op Val κ (State Op Val κ World) Choice where
  exec := fun t o ch s => ((M.exec t o ch s.world).1,
    s.push t (.op o (M.exec t o ch s.world).1) (M.exec t o ch s.world).2)
  kill := fun t s => s.push t .killed (M.kill t s.world)

/-- What holds throughout a program does so with the trace beside the world. -/
theorem Prog.Throughout.traced {M : Machine Op Val κ World Choice} {t : Tid}
    {A : Op → Choice → World → Prop} {A' : Op → Choice → State Op Val κ World → Prop}
    {I : World → Prop} {p : Prog Op Val κ α} {Q : α → World → Prop} {s : State Op Val κ World}
    (h : p.Throughout M t A I Q s.world) (hA : ∀ o ch s, A' o ch s → A o ch s.world) :
    p.Throughout M.traced t A' (fun s => I s.world) (fun a s => Q a s.world) s := by
  induction p generalizing s with
  | pure a => exact h
  | call o k ih => exact ⟨h.1, fun ch hch => ih _ (h.2 ch (hA o ch s hch))⟩

end Ariad
