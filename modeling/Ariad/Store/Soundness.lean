import Ariad.Store.Handles

/-!
# Every call keeps the contract

The calls of the store, put together: each of them keeps the contract from its start
(`storeSound`), so the contract holds in every run, whatever the interleaving, the faults and the
deaths.

* `reachable_inv` — the invariant holds in every reachable state.
* `step_pre` — every operation of every run meets its precondition `Pre`.
* `reachable_evolves` — what holds across one step holds across any part of a run.
* `returned_outcome` — what a call that has returned says about what it did.
-/

namespace Ariad

variable {P : Platform} {t : Tid} {call : Call} {c c' : StorePool}

/-- What a call that has returned says about what it did. -/
def Outcome.Truthful (t : Tid) (call : Call) (r : Except Err Outcome) (s : StoreState) : Prop :=
  match call, r with
  | .publish _ options, .ok (.published res) => PublishOk t options res s
  | .publish g _, .error e => PublishErr t g e s
  | .resolve, .ok (.resolved (some m)) => Resolved t m s
  | .resolve, .error (.store .manifestTargetMissing) => Overtaken t s
  | _, _ => True

variable {E : Err → Unit → StoreState → Prop}

/-- A procedure that keeps the contract, run to its outcome. -/
theorem ok_toProg {α : Type} {m : StoreM Unit α} {f : α → Outcome} {s : StoreState}
    {A : Unit → StoreState → Prop} {Q : α → Unit → StoreState → Prop} {Post : Except Err Outcome → StoreState → Prop}
    (h : StoreTriple P t call A m Q E) (hinv : Inv P s) (ha : A () s)
    (hQ : ∀ a s, Q a () s → Post (.ok (f a)) s) (hE : ∀ e s, E e () s → Post (.error e) s) :
    (storeDiscipline P).Ok (storeMachine P) t call (m.toProg f) Post s := by
  refine Discipline.Ok.bind ((h () s hinv ha).mono hinv ?_)
  rintro ⟨e | a, l⟩ s' - hx
  · exact hE e s' hx
  · exact hQ a s' hx

/-- A call whose outcome says nothing. -/
theorem ok_quietly {α : Type} {m : StoreM Unit α} {f : α → Outcome} {s : StoreState}
    {A : Unit → StoreState → Prop} {Q : α → Unit → StoreState → Prop} (h : StoreTriple P t call A m Q E) (hinv : Inv P s)
    (ha : A () s) (hcall : ∀ r s, Outcome.Truthful t call r s) :
    (storeDiscipline P).Ok (storeMachine P) t call (m.toProg f) (Outcome.Truthful t call) s :=
  ok_toProg h hinv ha (fun _ _ _ => hcall _ _) fun _ _ _ => hcall _ _

/-- **Every call keeps the contract from its start.** -/
theorem ok_body {s : StoreState} (hinv : Inv P s) (hs : s.Silent t) :
    (storeDiscipline P).Ok (storeMachine P) t call (call.body P) (Outcome.Truthful t call) s := by
  have hfree : Free t (fun _ => True) () s := ⟨free_of_silent hinv hs, trivial⟩
  cases call with
  | reserve => exact ok_quietly any_reserveGenerationStaging hinv trivial fun _ _ => trivial
  | backup g b =>
    refine ok_quietly (any_op (Q := fun _ _ _ => True) (E := fun _ _ _ => True) (fun _ => trivial)
      (fun _ _ _ => trivial) fun _ _ _ => trivial) hinv trivial fun _ _ => trivial
  | prepare g fp =>
    exact ok_quietly any_prepareGenerationForPublication hinv trivial fun _ _ => trivial
  | discardReservation g =>
    exact ok_quietly any_discardGenerationReservation hinv trivial fun _ _ => trivial
  | discardPrepared g =>
    exact ok_quietly any_discardPreparedGeneration hinv trivial fun _ _ => trivial
  | publish g options =>
    exact ok_toProg start_publishPreparedGeneration hinv ⟨rfl, .start hs⟩ (fun _ _ h => h)
      fun _ _ h => h
  | planGc options => exact ok_quietly free_planGenerationGc hinv hfree fun _ _ => trivial
  | applyGc h => exact ok_quietly free_applyGenerationGcPlan hinv hfree fun _ _ => trivial
  | planOrphans options =>
    exact ok_quietly free_planGenerationOrphanRecovery hinv hfree fun _ _ => trivial
  | applyOrphans h options =>
    exact ok_quietly free_applyGenerationOrphanRecovery hinv hfree fun _ _ => trivial
  | setPin g pinned => exact ok_quietly free_pinTransaction hinv hfree fun _ _ => trivial
  | resolve =>
    refine ok_toProg free_resolveActiveCodeDb hinv hfree (fun r s h => ?_) fun e s h => ?_
    · cases r with
      | none => trivial
      | some m => exact h m rfl
    · unfold Outcome.Truthful
      split
      · rename_i heq _
        cases heq
      · rename_i heq _
        cases heq
      · rename_i heq
        cases heq
      · rename_i heq
        cases heq
        exact h rfl
      · trivial

/-- The outcomes of calls stay true. -/
theorem Outcome.Truthful.stable {r : Except Err Outcome} :
    (storeDiscipline P).Stable t (Outcome.Truthful t call r) := by
  intro s s' h hrely hinv
  revert h
  unfold Outcome.Truthful
  split
  · exact fun h => PublishOk.final.stable h hrely hinv
  · exact fun h => PublishErr.final.stable h hrely hinv
  · exact fun h => Resolved.lasting t _ hrely.toEvolves h
  · exact fun h => Overtaken.lasting t hrely.toEvolves h
  · exact fun h => h

/-- **The store keeps its contract.** -/
theorem storeSound : (storeDiscipline P).Sound (storeMachine P) (Call.body P) World.initial
    Outcome.Truthful where
  start := Inv.initial P
  body _ _ _ := ok_body
  post_stable _ _ _ := .stable
  kill _ _ hinv := ⟨(good_dropTxn hinv).inv _, (good_dropTxn hinv).rely _⟩

/-! ## Consequences for runs -/

theorem reachable_inv (h : StoreReachable P c) : Inv P c.state :=
  (Discipline.reachable_ok storeSound h).inv

theorem step_pre {o : Op} {r : Except Errno o.Val} (h : StoreReachable P c)
    (hstep : StoreStep P t call o r c c') : Pre P t call c.state o :=
  (Discipline.step_safe storeSound h hstep).guar.1

theorem returned_outcome {r : Except Err Outcome} (h : StoreReachable P c)
    (hret : c.Returned t call r) : Outcome.Truthful t call r c.state :=
  Discipline.returned_post storeSound h hret

/-- One step of a run. -/
abbrev StorePoolStep (P : Platform) (c c' : StorePool) : Prop :=
  PoolStep (storeMachine P) (Call.body P) c c'

/-- Some part of a run. -/
abbrev StoreRun (P : Platform) (c c' : StorePool) : Prop :=
  Relation.ReflTransGen (StorePoolStep P) c c'

theorem StoreRun.reachable (h : StoreReachable P c) (hrun : StoreRun P c c') :
    StoreReachable P c' := h.trans hrun

theorem step_evolves (h : StoreReachable P c) (hstep : StorePoolStep P c c') :
    Evolves c.state c'.state := by
  cases hstep with
  | spawn t call ht => exact .refl _
  | op t call o r hop => exact (Discipline.step_safe storeSound h hop).guar.2
  | kill t call o k ht => exact (good_dropTxn (reachable_inv h)).evolves _

theorem reachable_evolves (h : StoreReachable P c) (hrun : StoreRun P c c') :
    Evolves c.state c'.state := by
  induction hrun with
  | refl => exact .refl _
  | tail hrun hstep ih => exact ih.trans (step_evolves (StoreRun.reachable h hrun) hstep)

/-- What one step preserves, a run preserves. -/
theorem run_induction {R : StoreState → StoreState → Prop} (hrefl : ∀ s, R s s)
    (htrans : ∀ {s₁ s₂ s₃}, R s₁ s₂ → R s₂ s₃ → R s₁ s₃)
    (hstep : ∀ {c c'}, StoreReachable P c → StorePoolStep P c c' → R c.state c'.state)
    (h : StoreReachable P c) (hrun : StoreRun P c c') : R c.state c'.state := by
  induction hrun with
  | refl => exact hrefl _
  | tail hrun hs ih => exact htrans ih (hstep (StoreRun.reachable h hrun) hs)

end Ariad
