import Mathlib.Data.List.Pairwise

/-!
# Programs on a durable store

A program reads its store and changes it by actions, each of which becomes durable at once and as a whole. The
process may die between any two of them, and the program is run again on what it left.

* `Script` — such a program; `run` its result, `Dies` what a process that dies leaves, `Ends` a whole run.
* `Phase` — a program together with what holds once it has done its work: it does nothing where that holds, and
  after a death in its midst it still comes to the same result.
* `Phase.seqs` — phases in a row are a phase if the later ones keep what the earlier ones have done.
-/

namespace Ariad.Durable

open List

/-- A program that reads its store, and that changes it by one durable action after another. -/
inductive Script (σ κ : Type) where
  | done
  | exec (a : κ) (next : Script σ κ)
  | ask (f : σ → Script σ κ)

namespace Script

variable {σ κ ε : Type}

def seq : Script σ κ → Script σ κ → Script σ κ
  | done, q => q
  | exec a p, q => exec a (p.seq q)
  | ask f, q => ask fun s => (f s).seq q

/-- Actions in a row. -/
def execs (as : List κ) : Script σ κ := as.foldr exec done

/-- Programs in a row. -/
def seqs (ps : List (Script σ κ)) : Script σ κ := ps.foldr seq done

/-- An action behind a test. -/
def when (test : σ → Bool) (a : κ) : Script σ κ := ask fun s => if test s then exec a done else done

variable {test : σ → Bool}

@[simp] theorem seqs_nil : seqs ([] : List (Script σ κ)) = done := rfl

@[simp] theorem seqs_cons (p : Script σ κ) (ps : List (Script σ κ)) : seqs (p :: ps) = p.seq (seqs ps) := rfl

theorem seq_done (p : Script σ κ) : p.seq done = p := by
  induction p with
  | done => rfl
  | exec a p ih => exact congrArg (exec a) ih
  | ask f ih => exact congrArg ask (funext ih)

theorem seq_assoc (p q r : Script σ κ) : (p.seq q).seq r = p.seq (q.seq r) := by
  induction p with
  | done => rfl
  | exec a p ih => exact congrArg (exec a) ih
  | ask f ih => exact congrArg ask (funext ih)

theorem seqs_concat (ps : List (Script σ κ)) (q : Script σ κ) : seqs (ps ++ [q]) = (seqs ps).seq q := by
  induction ps with
  | nil => exact seq_done q
  | cons p ps ih =>
    rw [cons_append, seqs_cons, seqs_cons, ih, seq_assoc]

theorem execs_eq_seqs (as : List κ) : (execs as : Script σ κ) = seqs (as.map fun a => exec a done) := by
  induction as with
  | nil => rfl
  | cons a as ih => exact congrArg (exec a) ih

/-- Every action of the program has the property. -/
def Only (P : κ → Prop) : Script σ κ → Prop
  | done => True
  | exec a p => P a ∧ p.Only P
  | ask f => ∀ s, (f s).Only P

theorem Only.execs {P : κ → Prop} {as : List κ} (h : ∀ a ∈ as, P a) : (execs as : Script σ κ).Only P := by
  induction as with
  | nil => exact trivial
  | cons a as ih => exact ⟨h a mem_cons_self, ih fun b hb => h b (mem_cons_of_mem a hb)⟩

theorem Only.seq {P : κ → Prop} {p q : Script σ κ} (hp : p.Only P) (hq : q.Only P) : (p.seq q).Only P := by
  induction p with
  | done => exact hq
  | exec a p ih => exact ⟨hp.1, ih hp.2⟩
  | ask f ih => exact fun s => ih s (hp s)

section

variable (apply : κ → σ → Except ε σ)

/-- The store after the program; an action that fails ends it. -/
def run : Script σ κ → σ → Except ε σ
  | done, s => .ok s
  | exec a p, s =>
    match apply a s with
    | .error e => .error e
    | .ok t => p.run t
  | ask f, s => (f s).run s

/-- A process that runs the program has done these actions, and dies there. -/
inductive Dies : Script σ κ → σ → List κ → σ → Prop where
  | here (p : Script σ κ) (s : σ) : Dies p s [] s
  | exec {a : κ} {p : Script σ κ} {s t s' : σ} {l : List κ} (h : apply a s = .ok t) (hp : Dies p t l s') :
    Dies (exec a p) s (a :: l) s'
  | ask {f : σ → Script σ κ} {s s' : σ} {l : List κ} (h : Dies (f s) s l s') : Dies (ask f) s l s'

/-- A process runs the program to its end with these actions. -/
inductive Ends : Script σ κ → σ → List κ → σ → Prop where
  | done (s : σ) : Ends done s [] s
  | exec {a : κ} {p : Script σ κ} {s t s' : σ} {l : List κ} (h : apply a s = .ok t) (hp : Ends p t l s') :
    Ends (exec a p) s (a :: l) s'
  | ask {f : σ → Script σ κ} {s s' : σ} {l : List κ} (h : Ends (f s) s l s') : Ends (ask f) s l s'

/-- The first actions of a process, and what they leave. -/
def after : ℕ → Script σ κ → σ → Option (List κ × σ)
  | 0, _, s => some ([], s)
  | _ + 1, done, _ => none
  | k + 1, exec a p, s =>
    match apply a s with
    | .error _ => none
    | .ok t => (after k p t).map fun x => (a :: x.1, x.2)
  | k + 1, ask f, s => after (k + 1) (f s) s

end

variable {apply : κ → σ → Except ε σ} {p q : Script σ κ} {s t s' : σ} {a : κ} {l : List κ}

/-! ## Runs and deaths -/

theorem run_exec (h : apply a s = .ok t) : (exec a p).run apply s = p.run apply t := by
  rw [run, h]

theorem run_ask (f : σ → Script σ κ) : (ask f).run apply s = (f s).run apply s := rfl

theorem Ends.dies (h : Ends apply p s l t) : Dies apply p s l t := by
  induction h with
  | done s => exact .here _ _
  | exec h _ ih => exact .exec h ih
  | ask _ ih => exact .ask ih

theorem dies_of_after {k : ℕ} {x : List κ × σ} (h : after apply k p s = some x) : Dies apply p s x.1 x.2 := by
  induction p generalizing k s x with
  | done =>
    cases k with
    | zero =>
      obtain rfl := Option.some.inj h
      exact .here _ _
    | succ k => exact absurd h (by simp [after])
  | exec a p ih =>
    cases k with
    | zero =>
      obtain rfl := Option.some.inj h
      exact .here _ _
    | succ k =>
      rw [after] at h
      cases ha : apply a s with
      | error e => simp only [ha, reduceCtorEq] at h
      | ok t =>
        simp only [ha] at h
        obtain ⟨y, hy, rfl⟩ := Option.map_eq_some_iff.mp h
        exact .exec ha (ih hy)
  | ask f ih =>
    cases k with
    | zero =>
      obtain rfl := Option.some.inj h
      exact .here _ _
    | succ k =>
      rw [after] at h
      exact .ask (ih s h)

theorem Ends.run_eq (h : Ends apply p s l t) : p.run apply s = .ok t := by
  induction h with
  | done s => rfl
  | exec h _ ih => exact (run_exec h).trans ih
  | ask _ ih => exact ih

theorem exists_ends (h : p.run apply s = .ok t) : ∃ l, Ends apply p s l t := by
  induction p generalizing s with
  | done =>
    obtain rfl := Except.ok.inj h
    exact ⟨[], .done _⟩
  | exec a p ih =>
    rw [run] at h
    cases ha : apply a s with
    | error e => simp only [ha, reduceCtorEq] at h
    | ok u =>
      simp only [ha] at h
      obtain ⟨l, hl⟩ := ih h
      exact ⟨a :: l, .exec ha hl⟩
  | ask f ih =>
    obtain ⟨l, hl⟩ := ih s h
    exact ⟨l, .ask hl⟩

/-- In two programs in a row, the second one goes on from the end of the first one. -/
theorem run_seq (p q : Script σ κ) (s : σ) :
    (p.seq q).run apply s = match p.run apply s with | .error e => .error e | .ok t => q.run apply t := by
  induction p generalizing s with
  | done => rfl
  | exec a p ih =>
    rw [seq, run, run]
    cases apply a s with
    | error e => rfl
    | ok t => exact ih t
  | ask f ih => exact ih s s

theorem run_seq_of_ok (h : p.run apply s = .ok t) : (p.seq q).run apply s = q.run apply t := by
  rw [run_seq, h]

/-- Death in two programs in a row is in the first one, or behind its end in the second one. -/
theorem Dies.of_seq (h : Dies apply (p.seq q) s l s') :
    Dies apply p s l s' ∨ ∃ t l₁ l₂, Ends apply p s l₁ t ∧ Dies apply q t l₂ s' ∧ l = l₁ ++ l₂ := by
  induction p generalizing s l with
  | done => exact .inr ⟨s, [], l, .done s, h, rfl⟩
  | exec a p ih =>
    cases h with
    | here => exact .inl (.here _ _)
    | exec ha hp =>
      rcases ih hp with hp | ⟨t, l₁, l₂, hend, hq, rfl⟩
      · exact .inl (.exec ha hp)
      · exact .inr ⟨t, a :: l₁, l₂, .exec ha hend, hq, rfl⟩
  | ask f ih =>
    cases h with
    | here => exact .inl (.here _ _)
    | ask h =>
      rcases ih s h with hp | ⟨t, l₁, l₂, hend, hq, rfl⟩
      · exact .inl (.ask hp)
      · exact .inr ⟨t, l₁, l₂, .ask hend, hq, rfl⟩

theorem Ends.of_seq (h : Ends apply (p.seq q) s l s') :
    ∃ t l₁ l₂, Ends apply p s l₁ t ∧ Ends apply q t l₂ s' ∧ l = l₁ ++ l₂ := by
  induction p generalizing s l with
  | done => exact ⟨s, [], l, .done s, h, rfl⟩
  | exec a p ih =>
    cases h with
    | exec ha hp =>
      obtain ⟨t, l₁, l₂, hend, hq, rfl⟩ := ih hp
      exact ⟨t, a :: l₁, l₂, .exec ha hend, hq, rfl⟩
  | ask f ih =>
    cases h with
    | ask h =>
      obtain ⟨t, l₁, l₂, hend, hq, rfl⟩ := ih s h
      exact ⟨t, l₁, l₂, .ask hend, hq, rfl⟩

theorem dies_execs_cons_iff {as : List κ} : Dies apply (execs (a :: as)) s l s' ↔
    l = [] ∧ s' = s ∨ ∃ t l', apply a s = .ok t ∧ Dies apply (execs as) t l' s' ∧ l = a :: l' := by
  constructor
  · intro h
    cases h with
    | here => exact .inl ⟨rfl, rfl⟩
    | exec ha h => exact .inr ⟨_, _, ha, h, rfl⟩
  · rintro (⟨rfl, rfl⟩ | ⟨t, l', ha, h, rfl⟩)
    · exact .here _ _
    · exact .exec ha h

theorem Dies.of_when (h : Dies apply (Script.when test a) s l s') : s' = s ∨ test s = true ∧ apply a s = .ok s' := by
  cases h with
  | here => exact .inl rfl
  | ask h =>
    cases htest : test s with
    | true =>
      simp only [htest, if_true] at h
      cases h with
      | here => exact .inl rfl
      | exec ha h =>
        cases h
        exact .inr ⟨rfl, ha⟩
    | false =>
      simp only [htest, Bool.false_eq_true, if_false] at h
      cases h
      exact .inl rfl

theorem Ends.of_when (h : Ends apply (Script.when test a) s l t) :
    test s = false ∧ t = s ∨ test s = true ∧ apply a s = .ok t := by
  cases h with
  | ask h =>
    cases htest : test s with
    | true =>
      simp only [htest, if_true] at h
      cases h with
      | exec ha h =>
        cases h
        exact .inr ⟨rfl, ha⟩
    | false =>
      simp only [htest, Bool.false_eq_true, if_false] at h
      cases h
      exact .inl ⟨rfl, rfl⟩

/-- What every action keeps holds where a process dies. -/
theorem Dies.invariant {P : κ → Prop} {I : σ → Prop} (hkeep : ∀ a s t, P a → I s → apply a s = .ok t → I t)
    (honly : p.Only P) (h : Dies apply p s l s') (hs : I s) : I s' := by
  induction h with
  | here => exact hs
  | exec ha _ ih => exact ih honly.2 (hkeep _ _ _ honly.1 hs ha)
  | ask _ ih => exact ih (honly _) hs

theorem Dies.forall_mem {P : κ → Prop} (honly : p.Only P) (h : Dies apply p s l s') : ∀ a ∈ l, P a := by
  induction h with
  | here => exact fun a ha => absurd ha not_mem_nil
  | exec _ _ ih =>
    intro b hb
    rcases mem_cons.mp hb with rfl | hb
    · exact honly.1
    · exact ih honly.2 b hb
  | ask _ ih => exact ih (honly _)

end Script

/-! ## Phases -/

open Script

variable {σ κ ε : Type} (apply : κ → σ → Except ε σ) (I : σ → Prop)

/-- A program and what holds once its work is done, over the stores of an invariant. -/
structure Phase (p : Script σ κ) (Done : σ → Prop) : Prop where
  inv : ∀ s l s', I s → Dies apply p s l s' → I s'
  settles : ∀ s l t, I s → Ends apply p s l t → Done t
  quiet : ∀ s, Done s → p.run apply s = .ok s
  /-- Death in its midst does not change what it comes to. -/
  resumes : ∀ s l s', I s → Dies apply p s l s' → p.run apply s' = p.run apply s

/-- A program never undoes what holds. -/
def Keeps (Done : σ → Prop) (q : Script σ κ) : Prop := ∀ s l s', I s → Done s → Dies apply q s l s' → Done s'

variable {apply I} {p q : Script σ κ} {P Q : σ → Prop}

theorem Phase.done : Phase apply I done fun _ => True where
  inv s l s' hs h := by
    cases h
    exact hs
  settles _ _ _ _ _ := trivial
  quiet _ _ := rfl
  resumes s l s' _ h := by
    cases h
    rfl

/-- An action that does nothing a second time. -/
theorem Phase.action {a : κ} (hinv : ∀ s t, I s → apply a s = .ok t → I t)
    (hsettles : ∀ s t, I s → apply a s = .ok t → P t) (hquiet : ∀ s, P s → apply a s = .ok s) :
    Phase apply I (.exec a .done) P where
  inv s l s' hs h := by
    cases h with
    | here => exact hs
    | exec ha h =>
      cases h
      exact hinv _ _ hs ha
  settles s l t hs h := by
    cases h with
    | exec ha h =>
      cases h
      exact hsettles _ _ hs ha
  quiet s hs := run_exec (hquiet s hs)
  resumes s l s' hs h := by
    cases h with
    | here => rfl
    | exec ha h =>
      cases h
      rw [run_exec ha]
      exact run_exec (hquiet _ (hsettles _ _ hs ha))

/-- An action behind the test whether it is still to be done. -/
theorem Phase.when {a : κ} (hinv : ∀ s t, I s → apply a s = .ok t → I t)
    (hsettles : ∀ s t, I s → test s = true → apply a s = .ok t → P t) (hskip : ∀ s, I s → test s = false → P s)
    (hdone : ∀ s, P s → test s = false) : Phase apply I (Script.when test a) P := by
  have hquiet (s : σ) (hs : P s) : (Script.when test a).run apply s = .ok s := by
    rw [Script.when, run, if_neg (Bool.eq_false_iff.mp (hdone s hs))]
    rfl
  refine ⟨?_, ?_, hquiet, ?_⟩
  · intro s l s' hs h
    obtain rfl | ⟨-, ha⟩ := h.of_when
    · exact hs
    · exact hinv _ _ hs ha
  · intro s l t hs h
    obtain ⟨htest, rfl⟩ | ⟨htest, ha⟩ := h.of_when
    · exact hskip _ hs htest
    · exact hsettles _ _ hs htest ha
  · intro s l s' hs h
    obtain rfl | ⟨htest, ha⟩ := h.of_when
    · rfl
    · rw [hquiet _ (hsettles _ _ hs htest ha), Script.when, run, if_pos htest, run_exec ha]
      rfl

theorem Phase.seq (hp : Phase apply I p P) (hq : Phase apply I q Q) (hkeeps : Keeps apply I P q) :
    Phase apply I (p.seq q) fun s => P s ∧ Q s where
  inv s l s' hs h := by
    rcases h.of_seq with h | ⟨t, l₁, l₂, hend, h, -⟩
    · exact hp.inv s l s' hs h
    · exact hq.inv t l₂ s' (hp.inv s l₁ t hs hend.dies) h
  settles s l t hs h := by
    obtain ⟨u, l₁, l₂, hend, h, -⟩ := h.of_seq
    have hu : I u := hp.inv s l₁ u hs hend.dies
    exact ⟨hkeeps u l₂ t hu (hp.settles s l₁ u hs hend) h.dies, hq.settles u l₂ t hu h⟩
  quiet s hs := (run_seq_of_ok (hp.quiet s hs.1)).trans (hq.quiet s hs.2)
  resumes s l s' hs h := by
    rcases h.of_seq with h | ⟨t, l₁, l₂, hend, h, -⟩
    · rw [run_seq, run_seq, hp.resumes s l s' hs h]
    · -- the first program has done its work and does nothing now
      have ht : I t := hp.inv s l₁ t hs hend.dies
      have hdone : P s' := hkeeps t l₂ s' ht (hp.settles s l₁ t hs hend) h
      rw [run_seq_of_ok (hp.quiet s' hdone), run_seq_of_ok hend.run_eq]
      exact hq.resumes t l₂ s' ht h

theorem Keeps.seq (hp : Keeps apply I P p) (hq : Keeps apply I P q)
    (hinv : ∀ s l s', I s → Dies apply p s l s' → I s') : Keeps apply I P (p.seq q) := by
  intro s l s' hs hP h
  rcases h.of_seq with h | ⟨t, l₁, l₂, hend, h, -⟩
  · exact hp s l s' hs hP h
  · exact hq t l₂ s' (hinv s l₁ t hs hend.dies) (hp s l₁ t hs hP hend.dies) h

/-- **Phases in a row are a phase**, if what one has done is kept by those behind it. -/
theorem Phase.seqs {ps : List (Script σ κ × (σ → Prop))} (hphase : ∀ x ∈ ps, Phase apply I x.1 x.2)
    (hkeeps : ps.Pairwise fun x y => Keeps apply I x.2 y.1) :
    Phase apply I (Script.seqs (ps.map Prod.fst)) fun s => ∀ x ∈ ps, x.2 s := by
  induction ps with
  | nil =>
    have h : (fun s : σ => ∀ x ∈ ([] : List (Script σ κ × (σ → Prop))), x.2 s) = fun _ => True := by
      funext s
      simp
    exact h ▸ Phase.done
  | cons x ps ih =>
    rw [pairwise_cons] at hkeeps
    have hrest := ih (fun y hy => hphase y (mem_cons_of_mem x hy)) hkeeps.2
    have hinv : ∀ y ∈ ps, ∀ s l s', I s → Dies apply y.1 s l s' → I s' :=
      fun y hy => (hphase y (mem_cons_of_mem x hy)).inv
    -- what the first phase has done is kept by all others
    have hall : Keeps apply I x.2 (Script.seqs (ps.map Prod.fst)) := by
      have hone := hkeeps.1
      clear ih hrest hphase hkeeps
      induction ps with
      | nil =>
        intro s l s' _ hs h
        cases h
        exact hs
      | cons y ps ih =>
        refine Keeps.seq (hone y mem_cons_self) ?_ (hinv y mem_cons_self)
        exact ih (fun z hz => hinv z (mem_cons_of_mem y hz)) fun z hz => hone z (mem_cons_of_mem y hz)
    have h : (fun s => ∀ y ∈ x :: ps, y.2 s) = fun s => x.2 s ∧ ∀ y ∈ ps, y.2 s := by
      funext s
      simp
    rw [h]
    exact (hphase x mem_cons_self).seq hrest hall

end Ariad.Durable
