import Mathlib.Data.Nat.Notation
import Mathlib.Logic.Function.Basic
import Mathlib.Logic.Relation
import Ariad.Concurrency.Program

/-!
# Interleaved runs of a pool of programs

A **machine** says what one operation does to a shared world: `exec t o ch w` performs `o` on behalf
of the party `t`, the choice `ch` standing for everything the party does not control (faults, clock
readings). A **pool** is a world together with any number of calls, each at its own point of its
program. In one step of the pool some call is started, or some running call performs its next
operation, or a running call is killed; nothing else happens, and any order of steps is possible.

The pool also keeps the trace of the operations performed so far, newest first, each with the world
before and after it. No program reads the trace.
-/

namespace Ariad

/-- The party that performs an operation: one running call. -/
abbrev Tid := ℕ

/-- What operations do to the shared world, and what the death of a party does to it. -/
structure Machine (Op : Type) (Val : Op → Type) (κ World Choice : Type) where
  /-- Perform one operation. -/
  exec : Tid → (o : Op) → Choice → World → Except κ (Val o) × World
  /-- What is left of the world when the party dies. -/
  kill : Tid → World → World

/-- What a party did: an operation with its outcome, or dying. -/
inductive Action (Op : Type) (Val : Op → Type) (κ : Type) where
  /-- The party performed `o`, which returned (or raised) `r`. -/
  | op (o : Op) (r : Except κ (Val o))
  /-- The party was killed. -/
  | killed

/-- One step of a run: who did what, and the worlds before and after. -/
structure Event (Op : Type) (Val : Op → Type) (κ World : Type) where
  tid : Tid
  act : Action Op Val κ
  before : World
  after : World

/-- A world with the trace that led to it, newest event first. -/
structure State (Op : Type) (Val : Op → Type) (κ World : Type) where
  world : World
  trace : List (Event Op Val κ World)

/-- A call, and what is left of its program. A call whose program is a leaf has returned. -/
structure Thread (Op : Type) (Val : Op → Type) (κ Call Ret : Type) where
  call : Call
  code : Prog Op Val κ Ret
  alive : Bool

/-- A pool: the shared state, and the calls started so far. -/
structure Pool (Op : Type) (Val : Op → Type) (κ World Call Ret : Type) where
  state : State Op Val κ World
  threads : Tid → Option (Thread Op Val κ Call Ret)

variable {Op : Type} {Val : Op → Type} {κ World Choice Call Ret : Type}

/-- Run by `t` alone from `w` with choices in `G`, the program ends, and then `Q` holds. -/
def Prog.Alone {α : Type} (M : Machine Op Val κ World Choice) (G : Choice → Prop) (t : Tid) :
    Prog Op Val κ α → (α → World → Prop) → World → Prop
  | .pure a, Q, w => Q a w
  | .call o k, Q, w => ∀ ch, G ch → Alone M G t (k (M.exec t o ch w).1) Q (M.exec t o ch w).2

namespace State

/-- The state after one more event. -/
def push (s : State Op Val κ World) (t : Tid) (a : Action Op Val κ) (w : World) :
    State Op Val κ World :=
  ⟨w, ⟨t, a, s.world, w⟩ :: s.trace⟩

@[simp] theorem push_world (s : State Op Val κ World) (t : Tid) (a : Action Op Val κ) (w : World) :
    (s.push t a w).world = w := rfl

@[simp] theorem push_trace (s : State Op Val κ World) (t : Tid) (a : Action Op Val κ) (w : World) :
    (s.push t a w).trace = ⟨t, a, s.world, w⟩ :: s.trace := rfl

/-- The party has done nothing so far. -/
def Silent (t : Tid) (s : State Op Val κ World) : Prop := ∀ e ∈ s.trace, e.tid ≠ t

end State

/-! ## Steps -/

variable (M : Machine Op Val κ World Choice) (body : Call → Prog Op Val κ Ret)

namespace Pool

/-- The pool in which no call has been started. -/
def start (w : World) : Pool Op Val κ World Call Ret := ⟨⟨w, []⟩, fun _ => none⟩

/-- Replace the record of one call. -/
def setThread (c : Pool Op Val κ World Call Ret) (t : Tid) (th : Thread Op Val κ Call Ret) :
    Tid → Option (Thread Op Val κ Call Ret) := Function.update c.threads t (some th)

/-- The call `t`, started as `call`, has returned `r`. -/
def Returned (c : Pool Op Val κ World Call Ret) (t : Tid) (call : Call) (r : Ret) : Prop :=
  c.threads t = some ⟨call, .pure r, true⟩

end Pool

/-- `c'` is `c` after the running call `t` performed its next operation `o` with outcome `r`. -/
def OpStep (t : Tid) (call : Call) (o : Op) (r : Except κ (Val o))
    (c c' : Pool Op Val κ World Call Ret) : Prop :=
  ∃ k ch w', c.threads t = some ⟨call, .call o k, true⟩ ∧
    M.exec t o ch c.state.world = (r, w') ∧
    c' = ⟨c.state.push t (.op o r) w', c.setThread t ⟨call, k r, true⟩⟩

/-- One step of the pool. -/
inductive PoolStep : Pool Op Val κ World Call Ret → Pool Op Val κ World Call Ret → Prop where
  /-- Start a call under a number that was never used. -/
  | spawn {c} (t : Tid) (call : Call) : c.threads t = none →
      PoolStep c ⟨c.state, c.setThread t ⟨call, body call, true⟩⟩
  /-- A running call performs its next operation. -/
  | op {c c'} (t : Tid) (call : Call) (o : Op) (r : Except κ (Val o)) :
      OpStep M t call o r c c' → PoolStep c c'
  /-- A running call is killed before its next operation. -/
  | kill {c} (t : Tid) (call : Call) (o : Op) (k : Except κ (Val o) → Prog Op Val κ Ret) :
      c.threads t = some ⟨call, .call o k, true⟩ →
      PoolStep c ⟨c.state.push t .killed (M.kill t c.state.world),
        c.setThread t ⟨call, .call o k, false⟩⟩

/-- The pools that some run leads to, from a world in which nothing was started. -/
def Reachable (w₀ : World) (c : Pool Op Val κ World Call Ret) : Prop :=
  Relation.ReflTransGen (PoolStep M body) (Pool.start w₀) c

/-! ## Running a schedule

A schedule names the steps of one run, so that a concrete run can be computed. -/

/-- One entry of a schedule. -/
inductive Sched (Call Choice : Type) where
  /-- Start a call. -/
  | spawn (t : Tid) (call : Call)
  /-- Let a call perform its next operation. -/
  | op (t : Tid) (ch : Choice)
  /-- Kill a call. -/
  | kill (t : Tid)

namespace Pool

/-- The step a schedule entry names, if the pool allows it. -/
def sched (c : Pool Op Val κ World Call Ret) :
    Sched Call Choice → Option (Pool Op Val κ World Call Ret)
  | .spawn t call =>
    match c.threads t with
    | none => some ⟨c.state, c.setThread t ⟨call, body call, true⟩⟩
    | some _ => none
  | .op t ch =>
    match c.threads t with
    | some ⟨call, .call o k, true⟩ =>
      let out := M.exec t o ch c.state.world
      some ⟨c.state.push t (.op o out.1) out.2, c.setThread t ⟨call, k out.1, true⟩⟩
    | _ => none
  | .kill t =>
    match c.threads t with
    | some ⟨call, .call o k, true⟩ =>
      some ⟨c.state.push t .killed (M.kill t c.state.world),
        c.setThread t ⟨call, .call o k, false⟩⟩
    | _ => none

/-- Run a whole schedule; entries that the pool does not allow are passed over. -/
def run (c : Pool Op Val κ World Call Ret) :
    List (Sched Call Choice) → Pool Op Val κ World Call Ret
  | [] => c
  | a :: as =>
    match c.sched M body a with
    | some c' => c'.run as
    | none => c.run as

/-- The call that runs under the number `t`, if it has returned, and what it returned. -/
def result (c : Pool Op Val κ World Call Ret) (t : Tid) : Option (Call × Ret) :=
  match c.threads t with
  | some ⟨call, .pure r, true⟩ => some (call, r)
  | _ => none

theorem returned_of_result {c : Pool Op Val κ World Call Ret} {t : Tid} {call : Call} {r : Ret}
    (h : c.result t = some (call, r)) : c.Returned t call r := by
  unfold result at h
  split at h
  · rename_i ht
    cases h
    exact ht
  · cases h

end Pool

theorem Pool.sched_step {c c' : Pool Op Val κ World Call Ret} {a : Sched Call Choice}
    (h : c.sched M body a = some c') : PoolStep M body c c' := by
  cases a with
  | spawn t call =>
    simp only [Pool.sched] at h
    split at h
    · rename_i ht
      cases h
      exact .spawn t call ht
    · cases h
  | op t ch =>
    simp only [Pool.sched] at h
    split at h
    · rename_i call o k ht
      cases h
      exact .op t call o _ ⟨k, ch, _, ht, rfl, rfl⟩
    · cases h
  | kill t =>
    simp only [Pool.sched] at h
    split at h
    · rename_i call o k ht
      cases h
      exact .kill t call o k ht
    · cases h

/-- The call that runs under the number `t`, and the operation it performs next. -/
def Pool.next (c : Pool Op Val κ World Call Ret) (t : Tid) : Option (Call × Op) :=
  match c.threads t with
  | some ⟨call, .call o _, true⟩ => some (call, o)
  | _ => none

/-- The next operation of a call can be performed, with any choice. -/
theorem Pool.opStep_of_next {c : Pool Op Val κ World Call Ret} {t : Tid} {call : Call} {o : Op}
    {r : Except κ (Val o)} (h : c.next t = some (call, o)) (ch : Choice)
    (hr : (M.exec t o ch c.state.world).1 = r) : ∃ c', OpStep M t call o r c c' := by
  unfold Pool.next at h
  split at h
  · rename_i call' o' k ht
    cases h
    exact ⟨_, k, ch, _, ht, Prod.ext hr rfl, rfl⟩
  · cases h

/-- What a schedule computes is a run. -/
theorem Pool.run_steps (as : List (Sched Call Choice)) (c : Pool Op Val κ World Call Ret) :
    Relation.ReflTransGen (PoolStep M body) c (c.run M body as) := by
  induction as generalizing c with
  | nil => exact .refl
  | cons a as ih =>
    simp only [Pool.run]
    split
    · rename_i c' h
      exact .head (Pool.sched_step M body h) (ih c')
    · exact ih c

end Ariad
