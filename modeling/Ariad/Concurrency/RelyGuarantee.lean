import Ariad.Concurrency.Pool

/-!
# Rely–guarantee reasoning about a pool

A **discipline** is a contract between the parties of a pool: an invariant of the shared state, what
each party relies on about the steps of the others, and what each of its own operations guarantees.
`Ok` says of one program, seen alone, that it keeps its side of the contract from a given state on,
however the others interfere within the rely; `Triple` packages this as a Hoare triple with a normal
and an exceptional postcondition, and one rule for each construct of a procedure.

**Soundness** (`Discipline.reachable_ok`): if every call keeps the contract from its start, then in
every reachable pool the invariant holds and every call still running keeps the contract; hence
every step meets its guarantee (`Discipline.step_safe`), and every call that has returned meets its
postcondition (`Discipline.returned_post`).
-/

namespace Ariad

variable {Op : Type} {Val : Op → Type} {κ ε World Choice Call Ret σ τ α β : Type}

/-- The contract between the parties of a pool. -/
structure Discipline (Op : Type) (Val : Op → Type) (κ World Call : Type) where
  /-- What holds of the shared state between any two steps. -/
  Inv : State Op Val κ World → Prop
  /-- What a party relies on about the steps of all the others. -/
  Rely : Tid → State Op Val κ World → State Op Val κ World → Prop
  /-- What an operation of a call guarantees. -/
  Guar : Tid → Call → (o : Op) → Except κ (Val o) → State Op Val κ World →
    State Op Val κ World → Prop
  rely_refl : ∀ t s, Rely t s s
  rely_trans : ∀ {t s₁ s₂ s₃}, Rely t s₁ s₂ → Rely t s₂ s₃ → Rely t s₁ s₃

namespace Discipline

variable (M : Machine Op Val κ World Choice) (D : Discipline Op Val κ World Call)

/-- The operation keeps the invariant, meets the guarantee, and is interference that every other
party relies on. -/
structure Safe (t : Tid) (call : Call) (o : Op) (r : Except κ (Val o))
    (s s' : State Op Val κ World) : Prop where
  inv : D.Inv s'
  guar : D.Guar t call o r s s'
  rely : ∀ t', t' ≠ t → D.Rely t' s s'

/-- From `s` on, whatever the others do within the rely, the program performs only safe operations,
and if it returns `a` then `Q a` holds at that moment. -/
def Ok (t : Tid) (call : Call) :
    Prog Op Val κ α → (α → State Op Val κ World → Prop) → State Op Val κ World → Prop
  | .pure a, Q, s => Q a s
  | .call o k, Q, s => ∀ s', D.Rely t s s' → D.Inv s' → ∀ ch,
      D.Safe t call o (M.exec t o ch s'.world).1 s'
        (s'.push t (.op o (M.exec t o ch s'.world).1) (M.exec t o ch s'.world).2) ∧
      Ok t call (k (M.exec t o ch s'.world).1) Q
        (s'.push t (.op o (M.exec t o ch s'.world).1) (M.exec t o ch s'.world).2)

variable {M D} {t : Tid} {call : Call}

variable {R : β → σ → State Op Val κ World → Prop} {F : ε → σ → State Op Val κ World → Prop}

theorem Ok.mono {p : Prog Op Val κ α} {Q Q' : α → State Op Val κ World → Prop}
    {s : State Op Val κ World} (h : D.Ok M t call p Q s) (hs : D.Inv s)
    (hQ : ∀ a s, D.Inv s → Q a s → Q' a s) : D.Ok M t call p Q' s := by
  induction p generalizing s with
  | pure a => exact hQ a s hs h
  | call o k ih =>
    intro s' hrely hinv ch
    obtain ⟨hsafe, hk⟩ := h s' hrely hinv ch
    exact ⟨hsafe, ih _ hk hsafe.inv⟩

theorem Ok.bind {p : Prog Op Val κ α} {f : α → Prog Op Val κ β}
    {Q : β → State Op Val κ World → Prop} {s : State Op Val κ World}
    (h : D.Ok M t call p (fun a s => D.Ok M t call (f a) Q s) s) :
    D.Ok M t call (p.bind f) Q s := by
  induction p generalizing s with
  | pure a => exact h
  | call o k ih =>
    intro s' hrely hinv ch
    obtain ⟨hsafe, hk⟩ := h s' hrely hinv ch
    exact ⟨hsafe, ih _ hk⟩

/-- A program that has not returned keeps the contract across interference. -/
theorem Ok.rely {o : Op} {k : Except κ (Val o) → Prog Op Val κ α}
    {Q : α → State Op Val κ World → Prop} {s s' : State Op Val κ World}
    (h : D.Ok M t call (.call o k) Q s) (hrely : D.Rely t s s') :
    D.Ok M t call (.call o k) Q s' := by
  intro s'' hrely' hinv ch
  exact h s'' (D.rely_trans hrely hrely') hinv ch

/-- An assertion that the interference of the others cannot make false. -/
def Stable (D : Discipline Op Val κ World Call) (t : Tid)
    (P : State Op Val κ World → Prop) : Prop :=
  ∀ {s s'}, P s → D.Rely t s s' → D.Inv s' → P s'

theorem Stable.const (p : Prop) : D.Stable t (fun _ => p) := fun h _ _ => h

/-! ## Triples -/

/-- From any locals and state that satisfy `P`, the procedure keeps the contract; if it returns `a`
then `Q a` holds, if it raises `e` then `E e` holds. -/
def Triple (M : Machine Op Val κ World Choice) (D : Discipline Op Val κ World Call) (t : Tid)
    (call : Call) (P : σ → State Op Val κ World → Prop) (m : Proc Op Val κ ε σ α)
    (Q : α → σ → State Op Val κ World → Prop) (E : ε → σ → State Op Val κ World → Prop) : Prop :=
  ∀ l s, D.Inv s → P l s → D.Ok M t call (m l)
    (fun x s => match x with
      | (.ok a, l') => Q a l' s
      | (.error e, l') => E e l' s) s

variable {P P' : σ → State Op Val κ World → Prop} {m : Proc Op Val κ ε σ α}
  {Q Q' : α → σ → State Op Val κ World → Prop} {E E' : ε → σ → State Op Val κ World → Prop}

theorem Triple.conseq (h : D.Triple M t call P m Q E)
    (hP : ∀ l s, D.Inv s → P' l s → P l s) (hQ : ∀ a l s, D.Inv s → Q a l s → Q' a l s)
    (hE : ∀ e l s, D.Inv s → E e l s → E' e l s) : D.Triple M t call P' m Q' E' := by
  intro l s hinv hp
  refine (h l s hinv (hP l s hinv hp)).mono hinv ?_
  rintro ⟨e | a, l'⟩ s' hinv' h'
  · exact hE e l' s' hinv' h'
  · exact hQ a l' s' hinv' h'

theorem Triple.pre (h : D.Triple M t call P m Q E) (hP : ∀ l s, D.Inv s → P' l s → P l s) :
    D.Triple M t call P' m Q E :=
  h.conseq hP (fun _ _ _ _ h => h) (fun _ _ _ _ h => h)

theorem Triple.post (h : D.Triple M t call P m Q E)
    (hQ : ∀ a l s, D.Inv s → Q a l s → Q' a l s) : D.Triple M t call P m Q' E :=
  h.conseq (fun _ _ _ h => h) hQ (fun _ _ _ _ h => h)

theorem Triple.pure {a : α} (h : ∀ l s, D.Inv s → P l s → Q a l s) :
    D.Triple M t call P (Pure.pure a : Proc Op Val κ ε σ α) Q E :=
  fun l s hinv hp => h l s hinv hp

theorem Triple.throw {e : ε} (h : ∀ l s, D.Inv s → P l s → E e l s) :
    D.Triple M t call P (throw e : Proc Op Val κ ε σ α) Q E :=
  fun l s hinv hp => h l s hinv hp

theorem Triple.bind {f : α → Proc Op Val κ ε σ β}
    (hm : D.Triple M t call P m Q E) (hf : ∀ a, D.Triple M t call (Q a) (f a) R E) :
    D.Triple M t call P (m >>= f) R E := by
  intro l s hinv hp
  refine Ok.bind ((hm l s hinv hp).mono hinv ?_)
  rintro ⟨e | a, l'⟩ s' hinv' h'
  · exact h'
  · exact hf a l' s' hinv' h'

theorem Triple.tryCatch {h : ε → Proc Op Val κ ε σ α}
    (hm : D.Triple M t call P m Q F) (hh : ∀ e, D.Triple M t call (F e) (h e) Q E) :
    D.Triple M t call P (MonadExcept.tryCatch m h) Q E := by
  intro l s hinv hp
  refine Ok.bind ((hm l s hinv hp).mono hinv ?_)
  rintro ⟨e | a, l'⟩ s' hinv' h'
  · exact hh e l' s' hinv' h'
  · exact h'

/-- `Triple.bind`, when the first part raises less than the whole may. -/
theorem Triple.seq {f : α → Proc Op Val κ ε σ β} (hm : D.Triple M t call P m Q E)
    (hE : ∀ e l s, D.Inv s → E e l s → F e l s)
    (hf : ∀ a, D.Triple M t call (Q a) (f a) R F) : D.Triple M t call P (m >>= f) R F :=
  (hm.conseq (fun _ _ _ h => h) (fun _ _ _ _ h => h) hE).bind hf

theorem Triple.attempt {R : Except ε α → σ → State Op Val κ World → Prop}
    (hm : D.Triple M t call P m (fun a => R (.ok a)) (fun e => R (.error e))) :
    D.Triple M t call P m.attempt R E := by
  intro l s hinv hp
  refine Ok.bind ((hm l s hinv hp).mono hinv ?_)
  rintro ⟨e | a, l'⟩ s' hinv' h'
  · exact h'
  · exact h'

/-- A match on the outcome of an attempt. -/
theorem Triple.attemptSeq {f : Except ε α → Proc Op Val κ ε σ β}
    (hm : D.Triple M t call P m Q E) (hok : ∀ a, D.Triple M t call (Q a) (f (.ok a)) R F)
    (herror : ∀ e, D.Triple M t call (E e) (f (.error e)) R F) :
    D.Triple M t call P (m.attempt >>= f) R F := by
  refine (Triple.attempt (R := fun r => match r with | .ok a => Q a | .error e => E e) hm).bind ?_
  rintro (e | a)
  · exact herror e
  · exact hok a

theorem Triple.modifyLocals {f : σ → σ} {R : PUnit → σ → State Op Val κ World → Prop}
    (h : ∀ l s, D.Inv s → P l s → R ⟨⟩ (f l) s) : D.Triple M t call P (Proc.modifyLocals f) R E :=
  fun l s hinv hp => h l s hinv hp

theorem Triple.getLocals {R : σ → σ → State Op Val κ World → Prop}
    (h : ∀ l s, D.Inv s → P l s → R l l s) : D.Triple M t call P Proc.getLocals R E :=
  fun l s hinv hp => h l s hinv hp

/-- A procedure with locals of its own leaves the locals around it alone. -/
theorem Triple.withLocals {l₀ : τ} {m : Proc Op Val κ ε τ α}
    (h : ∀ l, D.Triple M t call (fun l' s => l' = l₀ ∧ P l s) m (fun a _ s => Q a l s)
      (fun e _ s => E e l s)) : D.Triple M t call P (Proc.withLocals l₀ m) Q E := by
  intro l s hinv hp
  refine Ok.bind ((h l l₀ s hinv ⟨rfl, hp⟩).mono hinv ?_)
  rintro ⟨e | a, l'⟩ s' hinv' h'
  · exact h'
  · exact h'

/-- **The rule for one operation.** From a stable precondition the operation is safe, and its
outcome meets the postcondition for that outcome. -/
theorem Triple.perform {raise : κ → ε} {o : Op} {Q : Val o → σ → State Op Val κ World → Prop}
    (hP : ∀ l, D.Stable t (P l))
    (h : ∀ l s, D.Inv s → P l s → ∀ ch r w', M.exec t o ch s.world = (r, w') →
      D.Safe t call o r s (s.push t (.op o r) w') ∧ (match r with
        | .ok v => Q v l (s.push t (.op o r) w')
        | .error e => E (raise e) l (s.push t (.op o r) w'))) :
    D.Triple M t call P (Proc.perform raise o) Q E := by
  intro l s hinv hp s' hrely hinv' ch
  have hp' := hP l hp hrely hinv'
  obtain ⟨hsafe, hpost⟩ := h l s' hinv' hp' ch _ _ rfl
  refine ⟨hsafe, ?_⟩
  revert hpost
  cases (M.exec t o ch s'.world).1 with
  | ok v => exact id
  | error e => exact id

/-- Knowledge that neither the others nor the operations of the call itself can take away can be
carried across any procedure. -/
theorem Triple.frame {B : State Op Val κ World → Prop} (h : D.Triple M t call P m Q E)
    (hB : D.Stable t B)
    (hown : ∀ {o : Op} {r : Except κ (Val o)} {s : State Op Val κ World} {w : World},
      D.Safe t call o r s (s.push t (.op o r) w) → B s → B (s.push t (.op o r) w)) :
    D.Triple M t call (fun l s => P l s ∧ B s) m (fun a l s => Q a l s ∧ B s)
      (fun e l s => E e l s ∧ B s) := by
  intro l s hinv hp
  have key : ∀ {γ : Type} {L : γ → State Op Val κ World → Prop} (p : Prog Op Val κ γ) (s),
      D.Ok M t call p L s → B s → D.Ok M t call p (fun a s => L a s ∧ B s) s := by
    intro γ L p
    induction p with
    | pure a => exact fun s hok hb => ⟨hok, hb⟩
    | call o k ih =>
      intro s hok hb s' hrely hinv' ch
      obtain ⟨hsafe, hk⟩ := hok s' hrely hinv' ch
      exact ⟨hsafe, ih _ _ hk (hown hsafe (hB hb hrely hinv'))⟩
  refine (key _ s (h l s hinv hp.1) hp.2).mono hinv ?_
  rintro ⟨e | a, l'⟩ s' - h'
  · exact h'
  · exact h'

/-- Facts about parameters can be taken out of the precondition. -/
theorem Triple.assume {p : Prop} (h : p → D.Triple M t call P m Q E) :
    D.Triple M t call (fun l s => p ∧ P l s) m Q E :=
  fun l s hinv hp => h hp.1 l s hinv hp.2

/-- An existential in the precondition can be opened first. -/
theorem Triple.exists {ι : Type*} {P : ι → σ → State Op Val κ World → Prop}
    (h : ∀ i, D.Triple M t call (P i) m Q E) :
    D.Triple M t call (fun l s => ∃ i, P i l s) m Q E := by
  rintro l s hinv ⟨i, hp⟩
  exact h i l s hinv hp

/-- **Framing by operations.** If every operation the procedure may perform keeps `P`, then so does
the procedure, with any outcome. -/
theorem Triple.uses {C : Op → Prop} {X : ε → Prop} {raise : κ → ε} (hm : m.Uses C X)
    (h : ∀ o, C o → D.Triple M t call P (Proc.perform raise o) (fun _ => P) (fun _ => P)) :
    D.Triple M t call P m (fun _ => P) (fun e l s => P l s ∧ X e) := by
  intro l s hinv hp
  have key : ∀ {γ : Type} (L : γ → Prop) (p : Prog Op Val κ γ), p.Uses C L → ∀ s, D.Inv s → P l s →
      D.Ok M t call p (fun a s => P l s ∧ L a) s := by
    intro γ L p
    induction p with
    | pure a => exact fun hu s _ hp => ⟨hp, hu⟩
    | call o k ih =>
      intro hu s hinv hp s' hrely hinv' ch
      obtain ⟨hsafe, hpost⟩ := h o hu.1 l s hinv hp s' hrely hinv' ch
      refine ⟨hsafe, ih _ (hu.2 _) _ hsafe.inv ?_⟩
      revert hpost
      cases (M.exec t o ch s'.world).1 with
      | ok v => exact id
      | error e => exact id
  refine (key _ (m l) (hm l) s hinv hp).mono hinv ?_
  rintro ⟨e | a, l'⟩ s' - ⟨hp', hl, he⟩
  · cases hl
    exact ⟨hp', he e rfl⟩
  · cases hl
    exact hp'

/-! ## Soundness -/

/-- Every call keeps the contract from its start and ends in a stable postcondition, the start world
satisfies the invariant, and the death of a party is harmless to the others. -/
structure Sound (M : Machine Op Val κ World Choice) (D : Discipline Op Val κ World Call)
    (body : Call → Prog Op Val κ Ret) (w₀ : World)
    (Post : Tid → Call → Ret → State Op Val κ World → Prop) : Prop where
  start : D.Inv ⟨w₀, []⟩
  body : ∀ t call s, D.Inv s → s.Silent t → D.Ok M t call (body call) (Post t call) s
  post_stable : ∀ t call r, D.Stable t (Post t call r)
  kill : ∀ t s, D.Inv s → D.Inv (s.push t .killed (M.kill t s.world)) ∧
    ∀ t', t' ≠ t → D.Rely t' s (s.push t .killed (M.kill t s.world))

/-- What soundness maintains: the invariant, the contract of every call that is still running, and
that a call not yet started has done nothing. -/
structure PoolOk (M : Machine Op Val κ World Choice) (D : Discipline Op Val κ World Call)
    (Post : Tid → Call → Ret → State Op Val κ World → Prop)
    (c : Pool Op Val κ World Call Ret) : Prop where
  inv : D.Inv c.state
  fresh : ∀ t, c.threads t = none → c.state.Silent t
  running : ∀ t call code, c.threads t = some ⟨call, code, true⟩ →
    D.Ok M t call code (Post t call) c.state

variable {body : Call → Prog Op Val κ Ret} {w₀ : World}
  {Post : Tid → Call → Ret → State Op Val κ World → Prop}
  {c c' : Pool Op Val κ World Call Ret}

theorem Ok.interfere (hpost : ∀ r, D.Stable t (Post t call r)) {code : Prog Op Val κ Ret}
    {s s' : State Op Val κ World} (h : D.Ok M t call code (Post t call) s)
    (hrely : D.Rely t s s') (hinv : D.Inv s') : D.Ok M t call code (Post t call) s' := by
  cases code with
  | pure r => exact hpost r h hrely hinv
  | call o k => exact h.rely hrely

section

variable (h : D.Sound M body w₀ Post)
include h

theorem PoolOk.start : D.PoolOk M Post (Pool.start w₀ : Pool Op Val κ World Call Ret) where
  inv := h.start
  fresh := by
    intro t _ e he
    cases he
  running := by
    intro t call code ht
    cases ht

theorem PoolOk.spawn (hc : D.PoolOk M Post c) (t : Tid) (call : Call) (ht : c.threads t = none) :
    D.PoolOk M Post ⟨c.state, c.setThread t ⟨call, body call, true⟩⟩ where
  inv := hc.inv
  fresh := by
    intro t' ht'
    by_cases heq : t' = t
    · subst heq
      exact hc.fresh t' ht
    · exact hc.fresh t' (by simpa [Pool.setThread, heq] using ht')
  running := by
    intro t' call' code ht'
    by_cases heq : t' = t
    · subst heq
      simp only [Pool.setThread, Function.update_self, Option.some.injEq, Thread.mk.injEq] at ht'
      obtain ⟨rfl, rfl, -⟩ := ht'
      exact h.body t' call c.state hc.inv (hc.fresh t' ht)
    · exact hc.running t' call' code (by simpa [Pool.setThread, heq] using ht')

/-- An entry of one thread's trace leaves the others in order. -/
theorem PoolOk.push (hc : D.PoolOk M Post c) {act : Action Op Val κ} {w : World} {th : Thread Op Val κ Call Ret}
    (hinv : D.Inv (c.state.push t act w)) (hrely : ∀ t' ≠ t, D.Rely t' c.state (c.state.push t act w))
    (hown : ∀ call code, th = ⟨call, code, true⟩ → D.Ok M t call code (Post t call) (c.state.push t act w)) :
    D.PoolOk M Post ⟨c.state.push t act w, c.setThread t th⟩ := by
  refine ⟨hinv, ?_, ?_⟩
  · intro t' ht' e he
    have hne : t' ≠ t := by
      rintro rfl
      simp [Pool.setThread] at ht'
    rcases List.mem_cons.mp he with rfl | he
    · exact fun heq => hne heq.symm
    · exact hc.fresh t' (by simpa [Pool.setThread, hne] using ht') e he
  · intro t' call' code ht'
    by_cases heq : t' = t
    · subst heq
      exact hown call' code (by simpa [Pool.setThread] using ht')
    · have hrun := hc.running t' call' code (by simpa [Pool.setThread, heq] using ht')
      exact hrun.interfere (h.post_stable t' call') (hrely t' heq) hinv

/-- **The step lemma for operations**: a safe operation of one call leaves every call in order. -/
theorem PoolOk.op (hc : D.PoolOk M Post c) {o : Op}
    {r : Except κ (Val o)} (hstep : OpStep M t call o r c c') :
    D.PoolOk M Post c' ∧ D.Safe t call o r c.state c'.state := by
  obtain ⟨k, ch, w', hth, hexec, rfl⟩ := hstep
  obtain ⟨hsafe, hok⟩ := hc.running t call _ hth c.state (D.rely_refl t _) hc.inv ch
  simp only [hexec] at hsafe hok
  refine ⟨hc.push h hsafe.inv hsafe.rely ?_, hsafe⟩
  rintro call' code ⟨rfl, rfl, -⟩
  exact hok

theorem PoolOk.kill (hc : D.PoolOk M Post c) {o : Op}
    {k : Except κ (Val o) → Prog Op Val κ Ret} (_hth : c.threads t = some ⟨call, .call o k, true⟩) :
    D.PoolOk M Post ⟨c.state.push t .killed (M.kill t c.state.world),
      c.setThread t ⟨call, .call o k, false⟩⟩ :=
  hc.push h (h.kill t c.state hc.inv).1 (h.kill t c.state hc.inv).2 nofun

/-- **Soundness**: in every reachable pool the contract holds. -/
theorem reachable_ok (hc : Reachable M body w₀ c) : D.PoolOk M Post c := by
  induction hc with
  | refl => exact .start h
  | tail _ hstep ih =>
    cases hstep with
    | spawn t call ht => exact ih.spawn h t call ht
    | op t call o r hop => exact (ih.op h hop).1
    | kill t call o k hth => exact ih.kill h hth

/-- Every operation of every run meets its guarantee. -/
theorem step_safe (hc : Reachable M body w₀ c) {o : Op}
    {r : Except κ (Val o)} (hstep : OpStep M t call o r c c') :
    D.Safe t call o r c.state c'.state :=
  ((reachable_ok h hc).op h hstep).2

/-- Every call that has returned meets its postcondition, at that moment and from then on. -/
theorem returned_post (hc : Reachable M body w₀ c) {r : Ret}
    (hret : c.Returned t call r) : Post t call r c.state :=
  (reachable_ok h hc).running t call _ hret

end

end Discipline

end Ariad
