/-!
# Programs as trees of fallible operations

A program that talks to the outside world is represented by the tree of the operations it may
perform: `Prog.call o k` performs the operation `o` and continues with `k r`, where `r` is the
operation's result or the error it raised. The tree fixes the *order* in which one party performs
its operations and nothing else, so the same tree can be run alone, or interleaved with others
(`Pool.lean`).

A procedure (`Proc`) is a program with exceptions and mutable locals in the usual sense of an
imperative language: an exception propagates to the nearest handler, and the locals keep the values
they had when it was raised.

* `Proc.perform` — perform one operation, raising its error as an exception;
* `Proc.bind`, `Proc.tryCatch`, `Proc.attempt`, `Proc.modifyLocals` — sequencing, handlers, locals;
* `Proc.Uses C X` — every operation the procedure can ever perform satisfies `C`, every exception it
  can raise satisfies `X`, and it leaves the locals alone.
-/

namespace Ariad

variable {Op : Type} {Val : Op → Type} {κ ε σ τ α β : Type}

/-- A tree of operations of the signature `(Op, Val)`, each of which may raise an error in `κ`. -/
inductive Prog (Op : Type) (Val : Op → Type) (κ : Type) (α : Type) : Type where
  /-- The program has returned. -/
  | pure (a : α)
  /-- Perform `o`; what follows depends on its result, errors included. -/
  | call (o : Op) (k : Except κ (Val o) → Prog Op Val κ α)

namespace Prog

/-- Sequencing: graft `f a` at every leaf `a`. -/
def bind : Prog Op Val κ α → (α → Prog Op Val κ β) → Prog Op Val κ β
  | .pure a, f => f a
  | .call o k, f => .call o fun r => (k r).bind f

@[simp] theorem bind_pure (a : α) (f : α → Prog Op Val κ β) :
    (Prog.pure a : Prog Op Val κ α).bind f = f a := rfl

@[simp] theorem bind_call (o : Op) (k : Except κ (Val o) → Prog Op Val κ α)
    (f : α → Prog Op Val κ β) : (Prog.call o k).bind f = .call o fun r => (k r).bind f := rfl

/-- Every operation of the tree satisfies `C` and every leaf satisfies `L`, whatever the operations
return. -/
def Uses (C : Op → Prop) (L : α → Prop) : Prog Op Val κ α → Prop
  | .pure a => L a
  | .call o k => C o ∧ ∀ r, (k r).Uses C L

theorem Uses.bind {C : Op → Prop} {L : α → Prop} {L' : β → Prop} {p : Prog Op Val κ α}
    {f : α → Prog Op Val κ β} (hp : p.Uses C L) (hf : ∀ a, L a → (f a).Uses C L') :
    (p.bind f).Uses C L' := by
  induction p with
  | pure a => exact hf a hp
  | call o k ih => exact ⟨hp.1, fun r => ih r (hp.2 r)⟩

theorem Uses.mono {C D : Op → Prop} {L L' : α → Prop} (h : ∀ o, C o → D o)
    (hL : ∀ a, L a → L' a) {p : Prog Op Val κ α} (hp : p.Uses C L) : p.Uses D L' := by
  induction p with
  | pure a => exact hL a hp
  | call o k ih => exact ⟨h o hp.1, fun r => ih r (hp.2 r)⟩

end Prog

/-! ## Procedures: exceptions and locals -/

/-- A procedure with exceptions in `ε` and locals in `σ`: run from given locals it is a program that
ends with a value or an exception, and with the locals as they were at that moment. -/
def Proc (Op : Type) (Val : Op → Type) (κ ε σ α : Type) : Type :=
  σ → Prog Op Val κ (Except ε α × σ)

namespace Proc

/-- Return a value. -/
def pure (a : α) : Proc Op Val κ ε σ α := fun l => .pure (.ok a, l)

/-- Raise an exception; the locals stay as they are. -/
def throw (e : ε) : Proc Op Val κ ε σ α := fun l => .pure (.error e, l)

/-- Perform one operation; its error is raised as the exception `raise` makes of it. -/
def perform (raise : κ → ε) (o : Op) : Proc Op Val κ ε σ (Val o) := fun l =>
  .call o fun
    | .ok v => .pure (.ok v, l)
    | .error e => .pure (.error (raise e), l)

/-- Sequencing; an exception in the first part skips the second. -/
def bind (m : Proc Op Val κ ε σ α) (f : α → Proc Op Val κ ε σ β) : Proc Op Val κ ε σ β := fun l =>
  (m l).bind fun
    | (.ok a, l') => f a l'
    | (.error e, l') => .pure (.error e, l')

/-- Run `m`; on an exception run the handler, with the locals as `m` left them. -/
def tryCatch (m : Proc Op Val κ ε σ α) (h : ε → Proc Op Val κ ε σ α) : Proc Op Val κ ε σ α :=
  fun l => (m l).bind fun
    | (.ok a, l') => .pure (.ok a, l')
    | (.error e, l') => h e l'

/-- The locals. -/
def getLocals : Proc Op Val κ ε σ σ := fun l => .pure (.ok l, l)

/-- Change the locals. -/
def modifyLocals (f : σ → σ) : Proc Op Val κ ε σ PUnit := fun l => .pure (.ok ⟨⟩, f l)

instance : Monad (Proc Op Val κ ε σ) where
  pure := Proc.pure
  bind := Proc.bind

instance : MonadExceptOf ε (Proc Op Val κ ε σ) where
  throw := Proc.throw
  tryCatch := Proc.tryCatch

/-- `m`, with its exception (if any) handed over as a value. -/
def attempt (m : Proc Op Val κ ε σ α) : Proc Op Val κ ε σ (Except ε α) := fun l =>
  (m l).bind fun
    | (r, l') => .pure (.ok r, l')

/-- Run `m` with locals of its own; what becomes of them is dropped. -/
def withLocals (l₀ : τ) (m : Proc Op Val κ ε τ α) : Proc Op Val κ ε σ α := fun l =>
  (m l₀).bind fun
    | (r, _) => .pure (r, l)

/-- Every operation the procedure may perform satisfies `C`, every exception it may raise satisfies
`X`, and it ends with the locals it started from. -/
def Uses (C : Op → Prop) (X : ε → Prop) (m : Proc Op Val κ ε σ α) : Prop :=
  ∀ l, (m l).Uses C (fun x => x.2 = l ∧ ∀ e, x.1 = .error e → X e)

variable {C : Op → Prop} {X Y : ε → Prop}

theorem Uses.pure (a : α) : Uses C X (Pure.pure a : Proc Op Val κ ε σ α) :=
  fun _ => ⟨rfl, fun _ h => nomatch h⟩

theorem Uses.throw {e : ε} (h : X e) : Uses C X (throw e : Proc Op Val κ ε σ α) :=
  fun _ => ⟨rfl, fun _ h' => by cases h'; exact h⟩

theorem Uses.perform {raise : κ → ε} {o : Op} (h : C o) (hX : ∀ e, X (raise e)) :
    Uses C X (Proc.perform raise o : Proc Op Val κ ε σ (Val o)) := by
  intro l
  refine ⟨h, ?_⟩
  rintro (e | v)
  · exact ⟨rfl, fun _ h' => by cases h'; exact hX e⟩
  · exact ⟨rfl, fun _ h' => nomatch h'⟩

theorem Uses.bind {m : Proc Op Val κ ε σ α} {f : α → Proc Op Val κ ε σ β}
    (hm : Uses C X m) (hf : ∀ a, Uses C X (f a)) : Uses C X (m >>= f) := by
  intro l
  refine Prog.Uses.bind (hm l) ?_
  rintro ⟨e | a, l'⟩ ⟨hl, he⟩
  · exact ⟨hl, fun _ h' => by cases h'; exact he e rfl⟩
  · cases hl
    exact hf a _

theorem Uses.tryCatch {m : Proc Op Val κ ε σ α} {h : ε → Proc Op Val κ ε σ α}
    (hm : Uses C X m) (hh : ∀ e, X e → Uses C Y (h e)) : Uses C Y (MonadExcept.tryCatch m h) := by
  intro l
  refine Prog.Uses.bind (hm l) ?_
  rintro ⟨e | a, l'⟩ ⟨hl, he⟩
  · cases hl
    exact hh e (he e rfl) _
  · exact ⟨hl, fun _ h' => nomatch h'⟩

theorem Uses.attempt {m : Proc Op Val κ ε σ α} (hm : Uses C Y m) : Uses C X m.attempt := by
  intro l
  refine Prog.Uses.bind (hm l) ?_
  rintro ⟨r, l'⟩ ⟨hl, -⟩
  exact ⟨hl, fun _ h' => nomatch h'⟩

theorem Uses.mono {D : Op → Prop} (h : ∀ o, C o → D o) (hX : ∀ e, X e → Y e)
    {m : Proc Op Val κ ε σ α} (hm : Uses C X m) : Uses D Y m :=
  fun l => (hm l).mono h fun _ hx => ⟨hx.1, fun e he => hX e (hx.2 e he)⟩

theorem Uses.ite {c : Prop} [Decidable c] {m m' : Proc Op Val κ ε σ α} (hm : c → Uses C X m)
    (hm' : ¬c → Uses C X m') : Uses C X (if c then m else m') := by
  split
  · exact hm ‹_›
  · exact hm' ‹_›

end Proc

end Ariad
