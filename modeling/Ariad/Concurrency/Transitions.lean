import Mathlib.Data.List.Basic

/-!
# Runs of a labelled transition system

A system is a relation between a state, the event that happens, and the next state.

* `Runs` — the events of a run, from its first state to its last.
* `Runs.invariant` — what every step keeps holds at the end of a run, and so in every state of it.
* `Guarded` — the steps of a system that meet a condition on the event and the state before it.
-/

namespace Ariad

variable {σ ε : Type} {step : σ → ε → σ → Prop} {I : σ → Prop} {s s' s'' : σ} {e : ε} {es fs : List ε}

/-- A run from one state to another. -/
inductive Runs (step : σ → ε → σ → Prop) : σ → List ε → σ → Prop where
  | nil (s : σ) : Runs step s [] s
  | cons {s s' s'' : σ} {e : ε} {es : List ε} :
    step s e s' → Runs step s' es s'' → Runs step s (e :: es) s''

namespace Runs

theorem single (h : step s e s') : Runs step s [e] s' := .cons h (.nil s')

theorem append (h : Runs step s es s') (h' : Runs step s' fs s'') : Runs step s (es ++ fs) s'' := by
  induction h with
  | nil => exact h'
  | cons he _ ih => exact .cons he (ih h')

/-- What every step keeps, a run keeps. -/
theorem invariant (hstep : ∀ s e s', I s → step s e s' → I s') (h : Runs step s es s') (hs : I s) : I s' := by
  induction h with
  | nil => exact hs
  | cons he _ ih => exact ih (hstep _ _ _ hs he)

/-- A run of a system that computes its next state. -/
theorem of_foldlM {after : σ → ε → Option σ} (h : es.foldlM after s = some s') :
    Runs (fun s e s' => after s e = some s') s es s' := by
  induction es generalizing s with
  | nil =>
    obtain rfl := Option.some.inj h
    exact .nil s
  | cons e es ih =>
    rw [List.foldlM_cons] at h
    obtain ⟨t, ht, hrest⟩ := Option.bind_eq_some_iff.mp h
    exact .cons ht (ih hrest)

end Runs

/-- The steps whose event meets a condition in the state before it. -/
def Guarded (good : σ → ε → Prop) (step : σ → ε → σ → Prop) (s : σ) (e : ε) (s' : σ) : Prop :=
  good s e ∧ step s e s'

/-- A run of events that meet the condition in every state. -/
theorem Runs.guarded {good : σ → ε → Prop} (h : Runs step s es s') (hgood : ∀ e ∈ es, ∀ s, good s e) :
    Runs (Guarded good step) s es s' := by
  induction h with
  | nil => exact .nil _
  | cons he _ ih =>
    exact .cons ⟨hgood _ List.mem_cons_self _, he⟩ (ih fun e hmem => hgood e (List.mem_cons_of_mem _ hmem))

end Ariad
