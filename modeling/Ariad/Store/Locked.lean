import Ariad.Store.Steps

/-!
# Reasoning under the CAS write lock

While a call holds the lock, everything the lock protects stands still, so its code can be followed
step by step: `At t V` says that the call `t` holds the lock and that the store is exactly as the
**view** `V` says. Each operation has one rule, which tells how it turns one view into the next; what
the rule asks for is the precondition `Pre` of the operation, as a fact about the view.

* `At t V` — the lock is held, and `V` is what it protects.
* `After t V` — the part of a view that survives the loss of the lock: the token that the call is
  publishing, the manifests it has written, whether it changed anything.
-/

namespace Ariad

open List

/-! ## Views -/

/-- An event that changed neither the manifest, nor a file, nor the committed tables. -/
structure Event.SameStore (e : Event Op Op.Val Errno World) : Prop where
  manifest : e.after.manifest = e.before.manifest
  generations : e.after.generations = e.before.generations
  staging : e.after.staging = e.before.staging
  cas : e.after.cas = e.before.cas

/-- The call has not changed the store. -/
def Untouched (t : Tid) (s : StoreState) : Prop := ∀ e ∈ s.trace, e.tid = t → e.SameStore

/-- The manifests that the call has put in place, newest first. -/
def ownWrites (t : Tid) (s : StoreState) : List GenerationManifestV1 :=
  (s.trace.filter fun e => e.tid = t).filterMap Event.wrote

/-- What a call knows of the store while it holds the lock. -/
structure View where
  manifest : Option GenerationManifestV1
  generations : GenFiles
  cas : Cas
  working : Cas
  /-- Names that have never been bound. -/
  fresh : GenName → Prop
  /-- The generation that the call is publishing. -/
  token : Option (GenerationId × PreparedToken)
  writes : List GenerationManifestV1
  untouched : Bool
  /-- Lasting knowledge. -/
  know : StoreState → Prop

/-- What is left of a view without the lock. -/
structure After (t : Tid) (V : View) (s : StoreState) : Prop where
  token : ∀ g tok, V.token = some (g, tok) →
    s.world.tokens.lookup g = some { tok with state := .publishing t }
  pristine : ∀ g tok, V.token = some (g, tok) → V.fresh (.db g) → V.fresh (.json g) → Pristine g s
  writes : ownWrites t s = V.writes
  untouched : V.untouched = true → Untouched t s
  know : V.know s
  lasting : Lasting V.know

/-- The call holds the lock, and the store is as the view says. -/
structure At (t : Tid) (V : View) (s : StoreState) : Prop extends After t V s where
  txn : ∃ x, s.world.txn = some x ∧ x.owner = t ∧ x.working = V.working
  manifest : s.world.manifest = V.manifest
  generations : s.world.generations = V.generations
  cas : s.world.cas = V.cas
  fresh : ∀ n, V.fresh n → ¬EverBound n s

/-- `At`, with fixed locals. -/
def AtL {σ : Type} (t : Tid) (l : σ) (V : View) (l' : σ) (s : StoreState) : Prop :=
  l' = l ∧ At t V s

variable {P : Platform} {σ ε α : Type} {t : Tid} {call : Call} {V V' : View} {s s' : StoreState}
  {l : σ}

variable {E : Err → σ → StoreState → Prop} {o : Op} {n : GenName} {A : σ → StoreState → Prop}
  {Q : α → σ → StoreState → Prop} {m : StoreM σ α}

variable {r : Except Errno o.Val} {g : GenerationId}

theorem At.held (h : At t V s) : Held t s.world := by
  obtain ⟨x, hx, hown, -⟩ := h.txn
  exact held_of_txn hx hown

theorem At.visibleCas (h : At t V s) : s.world.visibleCas t = V.working := by
  obtain ⟨x, hx, hown, hw⟩ := h.txn
  simp only [World.visibleCas, hx, if_pos hown, hw]

/-- The transaction of a call that holds the lock. -/
theorem At.working (h : At t V s) {x : CasTransaction} (hx : s.world.txn = some x) :
    x.working = V.working := by
  obtain ⟨y, hy, -, hw⟩ := h.txn
  rw [hx] at hy
  cases hy
  exact hw

theorem At.lookup_of_fresh (h : At t V s) (hn : V.fresh n) :
    V.generations.lookup n = none := by
  rw [← h.generations, ← Option.not_isSome_iff_eq_none]
  exact fun hs => h.fresh n hn (.inl hs)

/-- What the invariant says about a view. -/
structure ViewOk (P : Platform) (V : View) : Prop where
  manifest : ∀ m, V.manifest = some m → Complete P V.generations m
  catalog : CatalogOk P V.manifest V.generations V.cas
  working : CatalogOk P V.manifest V.generations V.working
  advances : Cas.Advances V.cas V.working
  history : V.working.HistoryOk
  active : V.cas.ActiveOk
  revision : V.cas.revision = V.cas.history.length
  fresh : ∀ n, V.fresh n → V.generations.lookup n = none
  catalogued : ∀ g, V.fresh (.db g) → V.cas.entry g = none ∧ V.working.entry g = none
  token : ∀ g tok, V.token = some (g, tok) →
    tok.manifest.generationId = g ∧ tok.manifest.project = P.project

theorem At.viewOk (h : At t V s) (hinv : Inv P s) : ViewOk P V := by
  obtain ⟨x, hx, hown, hw⟩ := h.txn
  obtain ⟨hcat, hadv, hhist⟩ := hinv.core.txn x hx
  have hcore := hinv.core
  rw [h.manifest, h.generations, hw] at hcat
  rw [h.cas, hw] at hadv
  rw [hw] at hhist
  refine ⟨?_, ?_, hcat, hadv, hhist, ?_, ?_, fun n => h.lookup_of_fresh, ?_, ?_⟩
  · rw [← h.manifest, ← h.generations]
    exact hcore.manifest
  · rw [← h.manifest, ← h.generations, ← h.cas]
    exact hcore.catalog
  · rw [← h.cas]
    exact hcore.active
  · rw [← h.cas]
    exact hcore.revision
  · intro g hg
    have hncat : ¬Catalogued g s.world := fun hc => h.fresh _ hg (hinv.names.catalogued g hc)
    constructor
    · rw [← h.cas, ← Option.not_isSome_iff_eq_none]
      exact fun hs => hncat (.inl hs)
    · rw [← hw, ← Option.not_isSome_iff_eq_none]
      exact fun hs => hncat (.inr ⟨x, hx, hs⟩)
  · intro g tok htok
    obtain ⟨-, hid, hproj, -⟩ := hinv.handles.token g _ (h.token g tok htok)
    exact ⟨hid, hproj⟩

/-! ### Stability -/

theorem ownWrites_append {ext : List (Event Op Op.Val Errno World)} {t : Tid}
    (htrace : s'.trace = ext ++ s.trace) (hidle : ∀ e ∈ ext, e.tid = t → e.Idle) :
    ownWrites t s' = ownWrites t s := by
  have hnil : (ext.filter fun e => e.tid = t).filterMap Event.wrote = [] := by
    rw [filterMap_eq_nil_iff]
    intro e he
    simp only [mem_filter, decide_eq_true_eq] at he
    exact (hidle e he.1 he.2).wrote
  rw [ownWrites, ownWrites, htrace, filter_append, filterMap_append, hnil,
    nil_append]

theorem Event.Idle.sameStore {e : Event Op Op.Val Errno World} (h : e.Idle) : e.SameStore := by
  constructor <;> rw [h.world]

theorem Rely.untouched (h : Rely t s s') (hu : Untouched t s) : Untouched t s' := by
  obtain ⟨ext, htrace, hidle⟩ := h.own
  intro e he ht
  rw [htrace] at he
  rcases mem_append.mp he with he | he
  · exact (hidle e he ht).sameStore
  · exact hu e he ht

theorem Rely.ownWrites (h : Rely t s s') : ownWrites t s' = ownWrites t s := by
  obtain ⟨ext, htrace, hidle⟩ := h.own
  exact ownWrites_append htrace hidle

theorem After.publishing (h : After t V s) {tok : PreparedToken}
    (htok : V.token = some (g, tok)) : Publishing t g s.world := ⟨_, h.token g tok htok, rfl⟩

theorem After.rely (h : After t V s) (hrely : Rely t s s') : After t V s' where
  token g tok htok := by
    rw [(hrely.owned g (.inl (h.publishing htok))).token]
    exact h.token g tok htok
  pristine g tok htok hdb hjson :=
    (hrely.owned g (.inl (h.publishing htok))).pristine (h.pristine g tok htok hdb hjson)
  writes := hrely.ownWrites.trans h.writes
  untouched hu := hrely.untouched (h.untouched hu)
  know := h.lasting hrely.toEvolves h.know
  lasting := h.lasting

theorem At.rely (h : At t V s) (hrely : Rely t s s') : At t V s' := by
  have hf := hrely.locked h.held
  refine ⟨h.toAfter.rely hrely, ?_, ?_, ?_, ?_, ?_⟩
  · rw [hf.txn]
    exact h.txn
  · rw [hf.manifest]
    exact h.manifest
  · rw [hf.generations]
    exact h.generations
  · rw [hf.cas]
    exact h.cas
  · intro n hn hb
    exact h.fresh n hn ((hf.bound n).mp hb)

theorem AtL.stable (l' : σ) : (storeDiscipline P).Stable t (AtL t l V l') :=
  fun h hrely _ => ⟨h.1, h.2.rely hrely⟩

/-! ## The rule for one operation -/

/-- A triple of the store. -/
abbrev StoreTriple (P : Platform) (t : Tid) (call : Call) (A : σ → StoreState → Prop)
    (m : StoreM σ α) (Q : α → σ → StoreState → Prop) (E : Err → σ → StoreState → Prop) : Prop :=
  (storeDiscipline P).Triple (storeMachine P) t call A m Q E

/-- A procedure keeps an assertion, whatever its outcome. -/
abbrev StoreKeeps (σ : Type) (P : Platform) (t : Tid) (call : Call) (A : σ → StoreState → Prop) (m : StoreM σ α) :
    Prop :=
  StoreTriple P t call A m (fun _ => A) fun _ => A

/-- A triple of a call that holds the lock. -/
abbrev AtTriple (P : Platform) (t : Tid) (call : Call) (l : σ) (V : View) (m : StoreM σ α)
    (Q : α → σ → StoreState → Prop) (E : Err → σ → StoreState → Prop) : Prop :=
  StoreTriple P t call (AtL t l V) m Q E

/-- The rule for one operation from a stable assertion. -/
theorem triple_op {Q : o.Val → σ → StoreState → Prop} (hA : ∀ l, (storeDiscipline P).Stable t (A l))
    (hpre : ∀ l s, Inv P s → A l s → Pre P t call s o)
    (hpost : ∀ l s ch r w', Inv P s → A l s → exec P t ch s.world o = (r, w') →
      Evolves s (s.push t (.op o r) w') →
      match r with
      | .ok v => Q v l (s.push t (.op o r) w')
      | .error e => E (.errno e) l (s.push t (.op o r) w')) :
    StoreTriple P t call A (op o) Q E := by
  refine Discipline.Triple.perform hA fun l s hinv ha ch r w' hexec => ?_
  have hsafe := safe_of_pre hinv (hpre l s hinv ha) hexec
  have hpost' := hpost l s ch r w' hinv ha hexec hsafe.guar.2
  cases r with
  | ok v => exact ⟨hsafe, hpost'⟩
  | error e => exact ⟨hsafe, hpost'⟩

theorem exec_cases (hc : o ≠ .casCommit) (P : Platform) (t : Tid) (ch : Choice)
    (w : World) :
    exec P t ch w o = (.error .eio, w) ∨ exec P t ch w o = execOp P t ch w o := by
  by_cases hf : ch.fault ∧ o.fallible
  · refine .inl ?_
    unfold exec
    rw [if_pos hf]
    split
    · exact absurd rfl hc
    · rfl
  · exact .inr (exec_eq hf)

/-- Operations that only look. -/
def Op.quiet : Op → Bool
  | .now | .io | .readManifest | .readdirGenerations | .lstat _ | .hashFile _ | .readFile _
  | .readdirTmp | .lstatStaging _ | .hashStaging _ | .openStaging _ | .readStaging _ _ | .casRead
  | .gcPlan _ | .orphanPlan _ => true
  | _ => false

section

variable (h : o.quiet = true)
include h

theorem quiet_pre : Pre P t call s o := by
  cases o <;> trivial

theorem quiet_execOp (P : Platform) (t : Tid) (ch : Choice)
    (w : World) : (execOp P t ch w o).2 = w := by
  cases o <;> first | rfl | cases h

theorem quiet_ne_commit : o ≠ .casCommit := by
  rintro rfl
  cases h

theorem quiet_wrote {w w' : World} :
    Event.wrote ⟨t, .op o r, w, w'⟩ = none := by
  cases o <;> first | rfl | cases h

theorem quiet_exec {ch : Choice} {w w' : World} (hexec : exec P t ch w o = (r, w')) :
    w' = w ∧ (r = .error .eio ∨ r = (Ariad.execOp P t ch w o).1) := by
  rcases exec_cases (quiet_ne_commit h) P t ch w with he | he
  · rw [he] at hexec
    cases hexec
    exact ⟨rfl, .inl rfl⟩
  · rw [he] at hexec
    have hw := quiet_execOp h P t ch w
    rw [hexec] at hw
    exact ⟨hw, .inr (by rw [hexec])⟩

end

/-- An operation that only looks is like a step of someone else. -/
theorem Rely.idle {a : Action Op Op.Val Errno} (hwrote : Event.wrote ⟨t, a, s.world, s.world⟩ = none) :
    Rely t s (s.push t a s.world) where
  toEvolves := Evolves.push prefix_rfl prefix_rfl prefix_rfl (.refl _) fun _ h => h
  own := by
    refine ⟨[⟨t, a, s.world, s.world⟩], rfl, ?_⟩
    intro e he _
    rw [mem_singleton] at he
    subst he
    exact ⟨rfl, hwrote⟩
  locked _ := ⟨rfl, rfl, rfl, rfl, fun _ => everBound_push_of_eq rfl⟩
  unlocked h := h
  owned _ _ := ⟨rfl, rfl, (pristine_push_of_eq rfl).mpr⟩

/-- **The rule for looking.** From any stable assertion `A`, an operation that only looks keeps `A`
and tells something about a world in which `A` holds. -/
theorem triple_quiet (hq : o.quiet = true)
    (hA : ∀ l, (storeDiscipline P).Stable t (A l)) :
    StoreTriple P t call A (op o)
      (fun v l s => (∃ ch, (execOp P t ch s.world o).1 = .ok v) ∧ A l s)
      (fun e l s => (e = .errno .eio ∨ ∃ ch n, e = .errno n ∧
        (execOp P t ch s.world o).1 = .error n) ∧ A l s) := by
  refine triple_op hA (fun _ _ _ _ => quiet_pre hq) ?_
  intro l s ch r w' hinv ha hexec _
  obtain ⟨rfl, hr⟩ := quiet_exec hq hexec
  have ha' : A l (s.push t (.op o r) s.world) := by
    have hrely : Rely t s (s.push t (.op o r) s.world) := .idle (quiet_wrote hq)
    exact hA l ha hrely ((good_quiet hinv).inv _)
  cases r with
  | error e =>
    refine ⟨?_, ha'⟩
    rcases hr with h | h
    · cases h
      exact .inl rfl
    · exact .inr ⟨ch, e, rfl, h.symm⟩
  | ok v =>
    refine ⟨?_, ha'⟩
    rcases hr with h | h
    · cases h
    · exact ⟨ch, h.symm⟩

/-- An attempt whose outcome does not matter. -/
theorem triple_bestEffort {A B : σ → StoreState → Prop} (h : StoreTriple P t call A m (fun _ => B) (fun _ => B)) :
    StoreTriple P t call A (bestEffort m) (fun _ => B) E :=
  h.attemptSeq (fun _ => .pure fun _ _ _ h => h) (fun _ => .pure fun _ _ _ h => h)

theorem triple_orFail {c : ErrorCode}
    (h : StoreTriple P t call A m Q fun _ => E (.store c)) :
    StoreTriple P t call A (orFail m c) Q E :=
  h.tryCatch fun _ => .throw fun _ _ _ h => h

/-- Lasting knowledge can be carried across any procedure. -/
theorem triple_lasting {B : StoreState → Prop} (hB : Lasting B)
    (h : StoreTriple P t call A m Q E) :
    StoreTriple P t call (fun l s => A l s ∧ B s) m (fun a l s => Q a l s ∧ B s)
      (fun e l s => E e l s ∧ B s) :=
  Discipline.Triple.frame h (fun hb hrely _ => hB hrely.toEvolves hb) fun hsafe hb =>
    hB hsafe.guar.2 hb

/-- What the invariant says about the view may be used anywhere. -/
theorem at_viewOk
    (h : ViewOk P V → AtTriple P t call l V m Q E) :
    AtTriple P t call l V m Q E :=
  fun l s hinv hat => h (hat.2.viewOk hinv) l s hinv hat

/-! ## Looking, under the lock -/

theorem withFile_ok {β : Type} {f : Option File} {k : File → β} {v : β}
    (h : withFile f k = .ok v) : ∃ x, f = some x ∧ v = k x := by
  cases f with
  | none => cases h
  | some x =>
    cases h
    exact ⟨x, rfl, rfl⟩

theorem withFile_error {β : Type} {f : Option File} {k : File → β} {e : Errno}
    (h : withFile f k = .error e) : f = none ∧ e = .enoent := by
  cases f with
  | none =>
    cases h
    exact ⟨rfl, rfl⟩
  | some x => cases h

/-- An error that is a system error. -/
def IsErrno (e : Err) : Prop := ∃ n, e = .errno n

/-- A system call failed, with the view as it was. -/
abbrev FailedAt (t : Tid) (l : σ) (V : View) (e : Err) (l' : σ) (s : StoreState) : Prop :=
  IsErrno e ∧ AtL t l V l' s

/-- A system call on a name failed, with `ENOENT` only if nothing has the name. -/
abbrev AbsentAt (t : Tid) (l : σ) (V : View) (n : GenName) (e : Err) (l' : σ) (s : StoreState) : Prop :=
  (IsErrno e ∧ (e = .errno .enoent → V.generations.lookup n = none)) ∧ AtL t l V l' s

/-- What looking tells, under the lock. -/
theorem at_quiet (hq : o.quiet = true) : AtTriple P t call l V (op o)
    (fun v l' s => (∃ ch, (execOp P t ch s.world o).1 = .ok v) ∧ AtL t l V l' s)
    (FailedAt t l V) := by
  refine (triple_quiet hq AtL.stable).conseq (fun _ _ _ h => h) (fun _ _ _ _ h => h) ?_
  rintro e l s - ⟨rfl | ⟨-, n, rfl, -⟩, h⟩
  · exact ⟨⟨_, rfl⟩, h⟩
  · exact ⟨⟨_, rfl⟩, h⟩

/-- Looking at something the lock does not protect. -/
theorem at_idle (hq : o.quiet = true) : AtTriple P t call l V (op o)
    (fun _ => AtL t l V) (FailedAt t l V) :=
  (at_quiet hq).post fun _ _ _ _ h => h.2

theorem at_readManifest : AtTriple P t call l V (op .readManifest)
    (fun m l' s => m = V.manifest ∧ AtL t l V l' s)
    (FailedAt t l V) := by
  refine (at_quiet rfl).post ?_
  rintro m l s - ⟨⟨ch, hm⟩, h⟩
  refine ⟨?_, h⟩
  cases hm
  exact h.2.manifest

theorem at_casRead : AtTriple P t call l V (op .casRead)
    (fun c l' s => c = V.working ∧ AtL t l V l' s)
    (FailedAt t l V) := by
  refine (at_quiet rfl).post ?_
  rintro c l s - ⟨⟨ch, hc⟩, h⟩
  refine ⟨?_, h⟩
  cases hc
  exact h.2.visibleCas

/-- The answer of an operation that looks at one file. -/
theorem at_file {k : File → o.Val} (hq : o.quiet = true)
    (hexec : ∀ ch w, (execOp P t ch w o).1 = withFile (w.generations.lookup n) k) :
    AtTriple P t call l V (op o)
      (fun v l' s => (∃ f, V.generations.lookup n = some f ∧ v = k f) ∧ AtL t l V l' s)
      (AbsentAt t l V n) := by
  refine (triple_quiet hq AtL.stable).conseq (fun _ _ _ h => h) ?_ ?_
  · rintro v l s - ⟨⟨ch, hv⟩, h⟩
    rw [hexec, h.2.generations] at hv
    exact ⟨withFile_ok hv, h⟩
  · rintro e l s - ⟨rfl | ⟨ch, n, rfl, hv⟩, h⟩
    · refine ⟨⟨⟨_, rfl⟩, fun he => ?_⟩, h⟩
      cases he
    · rw [hexec, h.2.generations] at hv
      exact ⟨⟨⟨_, rfl⟩, fun _ => (withFile_error hv).1⟩, h⟩

theorem at_lstat : AtTriple P t call l V (op (.lstat n))
    (fun st l' s => (∃ f, V.generations.lookup n = some f ∧ st = P.stat f) ∧ AtL t l V l' s)
    (AbsentAt t l V n) :=
  at_file rfl fun _ _ => rfl

theorem at_hashFile : AtTriple P t call l V (op (.hashFile n))
    (fun h l' s => (∃ f, V.generations.lookup n = some f ∧ h = P.sha256 (P.content f.data)) ∧
      AtL t l V l' s)
    (AbsentAt t l V n) :=
  at_file rfl fun _ _ => rfl

theorem at_readFile : AtTriple P t call l V (op (.readFile n))
    (fun d l' s => (∃ f, V.generations.lookup n = some f ∧ d = f.data) ∧ AtL t l V l' s)
    (AbsentAt t l V n) :=
  at_file rfl fun _ _ => rfl

/-! ## Acting, under the lock -/

/-- An operation of the lock's holder turns one view into the next. -/
theorem At.push {w' : World} (h : At t V s)
    (hev : Evolves s (s.push t (.op o r) w'))
    (htxn : ∃ x, w'.txn = some x ∧ x.owner = t ∧ x.working = V'.working)
    (hm : w'.manifest = V'.manifest) (hg : w'.generations = V'.generations)
    (hc : w'.cas = V'.cas)
    (hfresh : ∀ n, V'.fresh n → V.fresh n ∧ V'.generations.lookup n = none)
    (htoken : V'.token = V.token) (htok : w'.tokens = s.world.tokens)
    (hwrites : V'.writes = (Event.wrote ⟨t, .op o r, s.world, w'⟩).toList ++ V.writes)
    (huntouched : V'.untouched = true →
      V.untouched = true ∧ Event.SameStore ⟨t, .op o r, s.world, w'⟩)
    (hknow : V'.know = V.know) : At t V' (s.push t (.op o r) w') where
  token g tok := by
    rw [htoken, State.push_world, htok]
    exact h.token g tok
  pristine g tok _ hdb hjson := by
    have step : ∀ n, V'.fresh n → ¬EverBound n (s.push t (.op o r) w') := by
      intro n hn
      obtain ⟨hn', hnone⟩ := hfresh n hn
      rw [everBound_push, hg, hnone]
      simpa using h.fresh n hn'
    exact ⟨step _ hdb, step _ hjson⟩
  writes := by
    rw [hwrites, ← h.writes]
    simp only [ownWrites, State.push_trace, decide_true, filter_cons_of_pos,
      filterMap_cons]
    cases Event.wrote ⟨t, .op o r, s.world, w'⟩ <;> rfl
  untouched hu := by
    obtain ⟨hu', hsame⟩ := huntouched hu
    intro e he ht
    rcases mem_cons.mp he with rfl | he
    · exact hsame
    · exact h.untouched hu' e he ht
  know := by
    rw [hknow]
    exact h.lasting hev h.know
  lasting := by
    rw [hknow]
    exact h.lasting
  txn := htxn
  manifest := hm
  generations := hg
  cas := hc
  fresh n hn := by
    obtain ⟨hn', hnone⟩ := hfresh n hn
    rw [everBound_push, hg, hnone]
    simpa using h.fresh n hn'

/-- A step of the lock's holder that changed nothing. -/
theorem At.same (h : At t V s)
    (hwrote : Event.wrote ⟨t, .op o r, s.world, s.world⟩ = none) :
    At t V (s.push t (.op o r) s.world) := h.rely (.idle hwrote)

/-- **The rule for acting.** A fault leaves the world, so what is to be shown is about the operation itself. -/
theorem at_act {Q : o.Val → σ → StoreState → Prop} {X : Err → Prop} (hc : o ≠ .casCommit)
    (hX : X (.errno .eio)) (hpre : ∀ s, Inv P s → At t V s → Pre P t call s o)
    (hpost : ∀ s ch r w', At t V s → execOp P t ch s.world o = (r, w') → Evolves s (s.push t (.op o r) w') →
      match r with
      | .ok v => Q v l (s.push t (.op o r) w')
      | .error e => X (.errno e) ∧ AtL t l V l (s.push t (.op o r) w')) :
    AtTriple P t call l V (op o) Q (fun e l' s => X e ∧ AtL t l V l' s) := by
  refine triple_op AtL.stable (fun l' s hinv h => hpre s hinv h.2) ?_
  rintro l s ch r w' - ⟨rfl, h⟩ hexec hev
  rcases exec_cases hc P t ch s.world with he | he
  · rw [he] at hexec
    cases hexec
    exact ⟨hX, rfl, h.same (by cases o <;> rfl)⟩
  · rw [he] at hexec
    exact hpost s ch r w' h hexec hev

/-- The view after the files have changed. -/
def View.withFiles (V : View) (gens : GenFiles) : View :=
  { V with
    generations := gens
    fresh := fun n => V.fresh n ∧ gens.lookup n = none
    untouched := false }

/-- The step lemma of the operations that change the files. -/
theorem At.files {gens' : GenFiles} (h : At t V s)
    (hev : Evolves s (s.push t (.op o r) { s.world with generations := gens' }))
    (hwrote : Event.wrote ⟨t, .op o r, s.world, { s.world with generations := gens' }⟩ = none) :
    At t (V.withFiles gens') (s.push t (.op o r) { s.world with generations := gens' }) := by
  refine h.push hev h.txn h.manifest rfl h.cas (fun _ hn => hn) rfl rfl ?_ ?_ rfl
  · rw [hwrote]
    rfl
  · intro hu
    cases hu

theorem at_createExclusive (htemp : n.gen? = none) (hfresh : V.fresh n)
    (hid : ∀ s, V.know s → n.uuid < s.world.issued.length) :
    AtTriple P t call l V (op (.createExclusive n))
      (fun _ l' s => ∃ ino clock,
        AtL t l (V.withFiles (V.generations.insert n ⟨ino, clock, .raw []⟩)) l' s)
      (FailedAt t l V) := by
  refine at_act nofun ⟨_, rfl⟩ ?_ ?_
  · rintro s - h
    exact ⟨h.held, htemp, h.fresh n hfresh, hid s h.know⟩
  · rintro s ch r w' h hexec hev
    simp only [execOp, h.generations, h.lookup_of_fresh hfresh] at hexec
    cases hexec
    exact ⟨ch.ino, ch.clock, rfl, h.files hev rfl⟩

theorem at_writeBytes {b : Bytes} {f : File} {b₀ : Bytes} (htemp : n.gen? = none)
    (hf : V.generations.lookup n = some f) (hraw : f.data = .raw b₀) :
    AtTriple P t call l V (op (.writeBytes n b))
      (fun (k : ℕ) l' s => ∃ clock, k ≤ b.length ∧ AtL t l
        (V.withFiles (V.generations.insert n ⟨f.ino, clock, .raw (b₀ ++ b.take k)⟩)) l' s)
      (FailedAt t l V) := by
  refine at_act nofun ⟨_, rfl⟩ ?_ ?_
  · rintro s - h
    refine ⟨h.held, htemp, fun f' hf' => ?_⟩
    rw [h.generations, hf] at hf'
    cases hf'
    exact ⟨b₀, hraw⟩
  · rintro s ch r w' h hexec hev
    simp only [execOp, h.generations, hf, hraw, Platform.content] at hexec
    cases hexec
    exact ⟨ch.clock, Nat.min_le_right _ _, rfl, h.files hev rfl⟩

theorem at_writeMetadata {m : GenerationMetadataV1} {offset : ℕ} {f : File}
    (htemp : n.gen? = none) (hf : V.generations.lookup n = some f)
    (hdata : f.data = .sidecar m offset ∨ (f.data = .raw [] ∧ offset = 0)) :
    AtTriple P t call l V (op (.writeMetadata n m offset))
      (fun (k : ℕ) l' s => ∃ clock, k ≤ (P.metadataText m).length - offset ∧ AtL t l
        (V.withFiles (V.generations.insert n ⟨f.ino, clock, .sidecar m (offset + k)⟩)) l' s)
      (FailedAt t l V) := by
  refine at_act nofun ⟨_, rfl⟩ ?_ ?_
  · rintro s - h
    refine ⟨h.held, htemp, fun f' hf' => ?_⟩
    rw [h.generations, hf] at hf'
    cases hf'
    exact hdata
  · rintro s ch r w' h hexec hev
    simp only [execOp, h.generations, hf] at hexec
    cases hexec
    exact ⟨ch.clock, Nat.min_le_right _ _, rfl, h.files hev rfl⟩

theorem at_link {src dst : GenName} {tok : PreparedToken}
    (hdst : dst.gen? = some g) (htok : V.token = some (g, tok)) (hfresh : V.fresh dst)
    (hcas : V.cas.entry g = none) (hworking : V.working.entry g = none) :
    AtTriple P t call l V (op (.link src dst))
      (fun _ l' s => ∃ f, V.generations.lookup src = some f ∧
        AtL t l (V.withFiles (V.generations.insert dst f)) l' s)
      (fun e l' s => (IsErrno e ∧ e ≠ .errno .eexist) ∧ AtL t l V l' s) := by
  refine at_act nofun ⟨⟨_, rfl⟩, by simp⟩ ?_ ?_
  · rintro s - h
    refine ⟨h.held, g, hdst, h.publishing htok, h.fresh dst hfresh, ?_⟩
    rintro (hs | ⟨x, hx, hs⟩)
    · rw [h.cas, hcas] at hs
      cases hs
    · rw [h.working hx, hworking] at hs
      cases hs
  · rintro s ch r w' h hexec hev
    simp only [execOp, h.generations, h.lookup_of_fresh hfresh] at hexec
    split at hexec
    · cases hexec
      exact ⟨⟨⟨_, rfl⟩, by simp⟩, rfl, h.same rfl⟩
    · rename_i hnone
      cases hnone
    · rename_i f hf _
      cases hexec
      exact ⟨f, hf, rfl, h.files hev rfl⟩

theorem at_unlink (hok : ∀ s, Inv P s → At t V s → UnlinkOk P call n s) :
    AtTriple P t call l V (op (.unlink n))
      (fun _ => AtL t l (V.withFiles (V.generations.erase n)))
      (AbsentAt t l V n) := by
  refine at_act nofun ⟨⟨_, rfl⟩, nofun⟩ ?_ ?_
  · rintro s hinv h
    exact ⟨h.held, hok s hinv h⟩
  · rintro s ch r w' h hexec hev
    simp only [execOp, h.generations] at hexec
    split at hexec
    · rename_i hnone
      cases hexec
      exact ⟨⟨⟨_, rfl⟩, fun _ => hnone⟩, rfl, h.same rfl⟩
    · cases hexec
      exact ⟨rfl, h.files hev rfl⟩

theorem at_renameManifest {m : GenerationManifestV1}
    (hok : ∀ s, Inv P s → At t V s → RenameOk P t call m s.world) :
    AtTriple P t call l V (op (.renameManifest m))
      (fun _ => AtL t l { V with
        manifest := some m, writes := m :: V.writes, untouched := false })
      (FailedAt t l V) := by
  refine at_act nofun ⟨_, rfl⟩ ?_ ?_
  · rintro s hinv h
    exact ⟨h.held, hok s hinv h⟩
  · rintro s ch r w' h hexec hev
    cases hexec
    refine ⟨rfl, h.push hev h.txn rfl h.generations h.cas ?_ rfl rfl rfl ?_ rfl⟩
    · exact fun n hn => ⟨hn, h.lookup_of_fresh hn⟩
    · intro hu
      cases hu

/-- The view after a step on the staging area. -/
def View.touched (V : View) : View := { V with untouched := false }

theorem At.touched (h : At t V s) : At t V.touched s :=
  ⟨⟨h.token, h.pristine, h.writes, (by intro hu; cases hu), h.know, h.lasting⟩, h.txn, h.manifest,
    h.generations, h.cas, h.fresh⟩

theorem at_unlinkStaging :
    AtTriple P t call l V (op (.unlinkStaging g)) (fun _ => AtL t l V.touched)
      (FailedAt t l V) := by
  refine at_act nofun ⟨_, rfl⟩ (fun _ _ _ => trivial) ?_
  rintro s ch r w' h hexec hev
  simp only [execOp] at hexec
  split at hexec
  · cases hexec
    exact ⟨⟨_, rfl⟩, rfl, h.same rfl⟩
  · cases hexec
    refine ⟨rfl, h.push hev h.txn h.manifest h.generations h.cas ?_ rfl rfl rfl ?_ rfl⟩
    · exact fun n hn => ⟨hn, h.lookup_of_fresh hn⟩
    · intro hu
      cases hu

/-- The view after drawing a UUID: no name with it has ever been bound. -/
def View.drawn (V : View) (nonce : ℕ) : View :=
  { V with
    fresh := fun n => V.fresh n ∨ n.uuid = nonce
    know := fun s => V.know s ∧ nonce < s.world.issued.length }

theorem at_randomUUID : AtTriple P t call l V (op .randomUUID)
    (fun (nonce : ℕ) => AtL t l (V.drawn nonce)) (fun _ _ _ => False) := by
  refine triple_op AtL.stable (fun _ _ _ _ => trivial) ?_
  rintro l s ch r w' hinv ⟨rfl, h⟩ hexec hev
  rw [exec_eq (by simp [Op.fallible])] at hexec
  cases hexec
  have h' : At t V (s.push t (.op .randomUUID (.ok s.world.issued.length))
      { s.world with issued := s.world.issued ++ [t] }) := by
    refine h.push hev h.txn h.manifest h.generations h.cas ?_ rfl rfl rfl ?_ rfl
    · exact fun n hn => ⟨hn, h.lookup_of_fresh hn⟩
    · exact fun hu => ⟨hu, rfl, rfl, rfl, rfl⟩
  have hfresh : ∀ n : GenName, n.uuid = s.world.issued.length →
      ¬EverBound n (s.push t (.op .randomUUID (.ok s.world.issued.length))
        { s.world with issued := s.world.issued ++ [t] }) := by
    intro n hn hb
    have hlt := hinv.names.issued n ((everBound_push.mp hb).elim .inl id)
    omega
  have hdrawn : ∀ n, (V.drawn s.world.issued.length).fresh n →
      ¬EverBound n (s.push t (.op .randomUUID (.ok s.world.issued.length))
        { s.world with issued := s.world.issued ++ [t] }) := by
    rintro n (hn | hn)
    · exact h'.fresh n hn
    · exact hfresh n hn
  refine ⟨rfl, ⟨h'.token, fun _ _ _ hdb hjson => ⟨hdrawn _ hdb, hdrawn _ hjson⟩, h'.writes,
    h'.untouched, ⟨h'.know, ?_⟩, ?_⟩, h'.txn, h'.manifest, h'.generations, h'.cas, hdrawn⟩
  · simp
  · intro s₁ s₂ hev' hk
    exact ⟨h.lasting hev' hk.1, hk.2.trans_le hev'.issued.length_le⟩

/-! ## Statements and the end of a transaction -/

/-- The view after a statement. -/
def View.withTables (V : View) (c : Cas) : View := { V with working := c }

@[simp] theorem View.withTables_working (V : View) (c : Cas) : (V.withTables c).working = c := rfl

@[simp] theorem View.withTables_withTables (V : View) (c c' : Cas) :
    (V.withTables c).withTables c' = V.withTables c' := rfl

theorem at_casExec {stmt : CasStmt}
    (hok : ∀ s x c k, Inv P s → At t V s → stmt.run V.working = some (c, k) →
      x.working = V.working → StmtOk P call stmt x c s.world) :
    AtTriple P t call l V (op (.casExec stmt))
      (fun (k : ℕ) l' s => ∃ c, stmt.run V.working = some (c, k) ∧ AtL t l (V.withTables c) l' s)
      (FailedAt t l V) := by
  refine at_act nofun ⟨_, rfl⟩ ?_ ?_
  · rintro s hinv h x c k hx hown hrun
    rw [h.working hx] at hrun
    exact hok s x c k hinv h hrun (h.working hx)
  · rintro s ch r w' h hexec hev
    obtain ⟨x, hx, hown, hw⟩ := h.txn
    simp only [execOp, hx, if_pos hown, hw] at hexec
    split at hexec
    · rename_i c k hrun
      cases hexec
      refine ⟨c, hrun, rfl, h.push hev ⟨_, rfl, hown, rfl⟩ h.manifest h.generations h.cas ?_ rfl
        rfl rfl ?_ rfl⟩
      · exact fun n hn => ⟨hn, h.lookup_of_fresh hn⟩
      · exact fun hu => ⟨hu, rfl, rfl, rfl, rfl⟩
    · cases hexec
      exact ⟨⟨_, rfl⟩, rfl, h.same rfl⟩

/-- An operation that leaves the files and the handles alone keeps what is left of a view. -/
theorem After.push {w' : World} (h : After t V s)
    (hev : Evolves s (s.push t (.op o r) w')) (hg : w'.generations = s.world.generations)
    (htok : w'.tokens = s.world.tokens)
    (hwrote : Event.wrote ⟨t, .op o r, s.world, w'⟩ = none)
    (hsame : V.untouched = true → Event.SameStore ⟨t, .op o r, s.world, w'⟩) :
    After t V (s.push t (.op o r) w') where
  token g tok ht := by
    rw [State.push_world, htok]
    exact h.token g tok ht
  pristine g tok ht hdb hjson := (pristine_push_of_eq hg).mpr (h.pristine g tok ht hdb hjson)
  writes := by
    rw [← h.writes]
    simp only [ownWrites, State.push_trace, decide_true, filter_cons_of_pos,
      filterMap_cons, hwrote]
  untouched hu := by
    intro e he ht
    rcases mem_cons.mp he with rfl | he
    · exact hsame hu
    · exact h.untouched hu e he ht
  know := h.lasting hev h.know
  lasting := h.lasting

theorem not_held_dropTxn {w : World} : ¬Held t (w.dropTxn t) := by
  unfold World.dropTxn
  split
  · rename_i x hx
    split
    · simp [Held, World.lockOwner]
    · rename_i hne
      simp [Held, World.lockOwner, hx, hne]
  · rename_i hx
    simp [Held, World.lockOwner, hx]

/-- Ending the transaction keeps what is left of a view. -/
theorem After.dropTxn (h : After t V s)
    (hev : Evolves s (s.push t (.op o r) (s.world.dropTxn t)))
    (hwrote : Event.wrote ⟨t, .op o r, s.world, s.world.dropTxn t⟩ = none) :
    After t V (s.push t (.op o r) (s.world.dropTxn t)) := by
  exact h.push hev (by simp) (by simp) hwrote fun _ => ⟨by simp, by simp, by simp, by simp⟩

/-- `After`, with fixed locals. -/
def AfterL (t : Tid) (l : σ) (V : View) (l' : σ) (s : StoreState) : Prop := l' = l ∧ After t V s

theorem AfterL.stable (l' : σ) : (storeDiscipline P).Stable t (AfterL t l V l') :=
  fun h hrely _ => ⟨h.1, h.2.rely hrely⟩

theorem AtL.after {l' : σ} (h : AtL t l V l' s) : AfterL t l V l' s := ⟨h.1, h.2.toAfter⟩

theorem after_casRollback : StoreKeeps σ P t call (AfterL t l V) (op .casRollback) := by
  refine triple_op AfterL.stable (fun _ _ _ _ => trivial) ?_
  rintro l s ch r w' - ⟨rfl, h⟩ hexec hev
  rcases exec_cases (o := .casRollback) (by nofun) P t ch s.world with he | he
  · rw [he] at hexec
    cases hexec
    exact ⟨rfl, h.rely (.idle rfl)⟩
  · rw [he] at hexec
    cases hexec
    exact ⟨rfl, h.dropTxn hev rfl⟩

theorem after_casClose : StoreTriple P t call (AfterL t l V) (op .casClose)
    (fun _ l' s => ¬Held t s.world ∧ AfterL t l V l' s) (fun _ _ _ => False) := by
  refine triple_op AfterL.stable (fun _ _ _ _ => trivial) ?_
  rintro l s ch r w' - ⟨rfl, h⟩ hexec hev
  rw [exec_eq (by simp [Op.fallible])] at hexec
  cases hexec
  exact ⟨not_held_dropTxn, rfl, h.dropTxn hev rfl⟩

/-- A commit makes the rows of the transaction permanent; whatever it reports, the call has written
the same manifests and owns the same token. -/
theorem at_casCommit (hactive : V.working.ActiveOk)
    (hrevision : V.working.revision = V.working.history.length)
    (hrev : Cas.RevSound V.cas V.working) :
    AtTriple P t call l V (op .casCommit)
      (fun _ l' s => (∀ g, (V.working.entry g).isSome → (s.world.cas.entry g).isSome) ∧
        AfterL t l V.touched l' s)
      (fun e l' s => IsErrno e ∧ AfterL t l V l' s) := by
  refine triple_op AtL.stable ?_ ?_
  · rintro l s - ⟨-, h⟩ x hx -
    rw [h.working hx, h.cas]
    exact ⟨hactive, hrevision, hrev⟩
  · rintro l s ch r w' - ⟨rfl, h⟩ hexec hev
    by_cases hf : ch.fault ∧ Op.fallible .casCommit
    · unfold exec at hexec
      rw [if_pos hf] at hexec
      cases hexec
      refine ⟨⟨_, rfl⟩, rfl, ?_⟩
      split
      · exact h.dropTxn (by simpa [*] using hev) rfl
      · exact h.toAfter.rely (.idle rfl)
    · rw [exec_eq hf] at hexec
      obtain ⟨x, hx, hown, hw⟩ := h.txn
      simp only [execOp, hx, if_pos hown] at hexec
      cases hexec
      refine ⟨?_, rfl, ?_⟩
      · intro g hg
        rw [State.push_world]
        simp only [hw]
        exact hg
      · refine h.touched.toAfter.push hev rfl rfl rfl ?_
        intro hu
        cases hu

end Ariad
