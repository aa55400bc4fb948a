import Ariad.Store.Deletion

/-!
# Orphan recovery keeps the contract

The planner looks every file up that it lists, so its plan carries an identity that somebody saw
(`Seen`); the applier unlinks a file under the lock only if it still has that identity. Re-entering
the active generation trusts a sidecar that was read before the lock was taken: it is still the
sidecar of the manifest, because a file only grows and a complete sidecar cannot.
-/

namespace Ariad

open Discipline List

variable {P : Platform} {σ : Type} {t : Tid} {call : Call} {V V' : View} {g : GenerationId} {l : σ}
  {B : StoreState → Prop}

/-! ## What looking tells for good -/

/-- The call performed the operation and got this answer. -/
def Answered (P : Platform) (t : Tid) (o : Op) (v : o.Val) (s : StoreState) : Prop :=
  ∃ e ∈ s.trace, e.tid = t ∧ e.act = .op o (.ok v) ∧ ∃ ch, (execOp P t ch e.before o).1 = .ok v

variable {options : GenerationGcOptions} {o : GenerationOrphanEntry} {n : GenName} {s : StoreState}
  {h : ℕ} {md : GenerationMetadataV1} {view : OrphanView} {graceMs : ℕ}

variable {m : GenerationManifestV1} {E : Err → σ → StoreState → Prop} {kind : OrphanKind}

/-- An operation that looks leaves its answer in the trace. -/
theorem free_answered {o : Op} (hB : Lasting B) (hq : o.quiet = true) :
    StoreTriple P t call (Free t B) (op o)
      (fun (v : o.Val) (l : σ) s => Free t (fun s => B s ∧ Answered P t o v s) l s)
      (fun _ => Free t B) := by
  refine triple_op (Free.stable hB) (fun _ _ _ _ => quiet_pre hq) ?_
  rintro l s ch r w' - ⟨hfree, hb⟩ hexec hev
  obtain ⟨rfl, hr⟩ := quiet_exec hq hexec
  cases r with
  | error e => exact ⟨hfree, hB hev hb⟩
  | ok v =>
    refine ⟨hfree, hB hev hb, _, mem_cons_self, rfl, rfl, ch, ?_⟩
    rcases hr with h | h
    · cases h
    · exact h.symm

theorem Answered.seen {st : Stat}
    (h : Answered P t (.lstat n) st s) : Seen P t n st s := by
  obtain ⟨e, he, ht, hact, ch, hst⟩ := h
  obtain ⟨f, hf, rfl⟩ := withFile_ok hst
  exact ⟨e, he, ht, hact, f, hf, rfl⟩

theorem Seen.lasting (t : Tid) (n : GenName) (st : Stat) : Lasting (Seen P t n st) := by
  rintro s s' hev ⟨e, he, h⟩
  exact ⟨e, hev.trace e he, h⟩

theorem free_lstat (hB : Lasting B) :
    StoreTriple P t call (Free t B) (op (.lstat n))
      (fun (st : Stat) (l : σ) s => Free t (fun s => B s ∧ Seen P t n st s) l s)
      (fun _ => Free t B) :=
  (free_answered hB rfl).post fun _ _ _ _ h => ⟨h.1, h.2.1, h.2.2.seen⟩

/-- The sidecar had this content at some moment. -/
def Read (P : Platform) (n : GenName) (md : GenerationMetadataV1) (s : StoreState) : Prop :=
  ∃ e ∈ s.trace, ∃ f, e.before.generations.lookup n = some f ∧ P.parseMetadata f.data = some md

theorem Read.lasting (n : GenName) (md : GenerationMetadataV1) : Lasting (Read P n md) := by
  rintro s s' hev ⟨e, he, h⟩
  exact ⟨e, hev.trace e he, h⟩

theorem free_readMetadata (hB : Lasting B) :
    StoreTriple P t call (Free t B) (CasStore.readMetadata P n)
      (fun md (l : σ) s => Free t (fun s => B s ∧ Read P n md s) l s) (fun _ => Free t B) := by
  refine (free_answered hB rfl).bind fun data => ?_
  have hfail : StoreTriple P t call (Free t fun s => B s ∧ Answered P t (.readFile n) data s)
      (fail .publicationCasStateCorrupt) (fun md (l : σ) s => Free t (fun s => B s ∧ Read P n md s) l s)
      (fun _ => Free t B) := .throw fun _ _ _ h => ⟨h.1, h.2.1⟩
  split
  · exact hfail
  split
  · exact hfail
  rename_i md hmd
  split
  · exact hfail
  · refine .pure ?_
    rintro l s - ⟨hfree, hb, e, he, -, -, ch, hdata⟩
    obtain ⟨f, hf, rfl⟩ := withFile_ok hdata
    exact ⟨hfree, hb, e, he, f, hf, hmd⟩

/-- **A complete sidecar cannot change.** -/
theorem Read.unique {md md' : GenerationMetadataV1} {f : File}
    (hinv : Inv P s) (h : Read P n md s) (hf : s.world.generations.lookup n = some f)
    (hmd : P.parseMetadata f.data = some md') : md' = md := by
  obtain ⟨e, he, f₀, hf₀, hmd₀⟩ := h
  have hgrows := (hinv.names.grows e he n f₀ f hf₀ hf).data
  revert hgrows hmd hmd₀
  cases f₀.data with
  | raw b => exact fun _ hmd₀ => by cases hmd₀
  | sidecar m k =>
    intro hmd hmd₀ hgrows
    generalize f.data = d at hmd hgrows
    cases hgrows with
    | sidecar _ hk =>
      simp only [Platform.parseMetadata] at hmd hmd₀
      split at hmd <;> cases hmd
      split at hmd₀ <;> cases hmd₀
      rfl

/-! ## Planning -/

/-- Every entry of a list is in order. -/
def EntriesOk (P : Platform) (t : Tid) (os : List GenerationOrphanEntry) (s : StoreState) : Prop :=
  ∀ o ∈ os, OrphanEntryOk P t o s

theorem OrphanEntryOk.lasting (t : Tid) (o : GenerationOrphanEntry) :
    Lasting (OrphanEntryOk P t o) := by
  intro s s' hev h
  refine ⟨h.temp, fun n hn => ?_⟩
  obtain ⟨st, hst, hseen⟩ := h.seen n hn
  exact ⟨st, hst, Seen.lasting t n st hev hseen⟩

theorem EntriesOk.lasting (t : Tid) (os : List GenerationOrphanEntry) : Lasting (EntriesOk P t os) :=
  fun _ _ hev h o ho => OrphanEntryOk.lasting t o hev (h o ho)

theorem EntriesOk.nil : EntriesOk P t [] s := by
  intro o ho
  cases ho

/-- An entry for a file that was looked up. -/
theorem EntriesOk.single {st : Stat}
    (hseen : Seen P t n st s) (htarget : o.target = some n) (hidentity : o.identity = some st)
    (htemp : o.kind = .promotionTemp ∨ o.kind = .metadataTemp → ∀ n, o.path = some n →
      n.gen? = none) : EntriesOk P t [o] s := by
  intro o' ho'
  rw [mem_singleton] at ho'
  subst ho'
  refine ⟨htemp, fun n' hn' => ?_⟩
  rw [htarget] at hn'
  cases hn'
  exact ⟨st, hidentity, hseen⟩

/-- The planner's answer for one file, or for several. -/
abbrev PlansEntries (P : Platform) (σ : Type) (t : Tid) (call : Call) (B : StoreState → Prop)
    (m : StoreM σ (List GenerationOrphanEntry)) : Prop :=
  StoreTriple P t call (Free t B) m
    (fun os (l : σ) s => Free t (fun s => B s ∧ EntriesOk P t os s) l s) (fun _ => Free t B)

theorem plansEntries_nil : PlansEntries P σ t call B (pure []) :=
  .pure fun _ _ _ h => ⟨h.1, h.2, .nil⟩

theorem free_planTemp (hB : Lasting B)
    (hkind : kind = .promotionTemp ∨ kind = .metadataTemp) (htemp : n.gen? = none) :
    PlansEntries P σ t call B (planTemp kind n graceMs) := by
  refine (free_lstat hB).attemptSeq (fun st => ?_) fun _ => plansEntries_nil
  have hseen : Lasting fun s => B s ∧ Seen P t n st s := hB.and (Seen.lasting t n st)
  refine (free_quiet hseen rfl).seq (fun _ _ _ _ h => ⟨h.1, h.2.1⟩) fun now => ?_
  split
  · exact .pure fun _ _ _ h => ⟨h.1, h.2.1, .nil⟩
  · refine .pure fun _ _ _ h => ⟨h.1, h.2.1, .single h.2.2 ?_ rfl ?_⟩
    · rcases hkind with rfl | rfl <;> rfl
    · rintro - n' hn'
      cases hn'
      exact htemp

/-- A final file is looked up and listed. -/
theorem free_listFinal
    (hB : Lasting B) (hkind : ¬(kind = .promotionTemp ∨ kind = .metadataTemp))
    (htarget : ∀ st, (⟨some n, kind, some g, some st⟩ : GenerationOrphanEntry).target = some n) :
    PlansEntries P σ t call B (do
      let st : Stat ← op (.lstat n)
      pure [⟨some n, kind, some g, some st⟩]) :=
  (free_lstat hB).bind fun st => .pure fun _ _ _ h =>
    ⟨h.1, h.2.1, .single h.2.2 (htarget st) rfl fun h' => absurd h' hkind⟩

theorem free_planDb (hB : Lasting B) :
    PlansEntries P σ t call B (planDb view g) := by
  unfold planDb
  split
  · exact free_listFinal hB (by nofun) fun _ => rfl
  · refine (free_quiet hB rfl).attemptSeq (fun st => plansEntries_nil) fun e => ?_
    split
    · exact free_listFinal hB (by nofun) fun _ => rfl
    · exact plansEntries_nil

theorem free_planJson (hB : Lasting B) :
    PlansEntries P σ t call B (planJson view g) := by
  refine (free_quiet hB rfl).attemptSeq (fun st => plansEntries_nil) fun e => ?_
  split
  · split
    · exact plansEntries_nil
    · exact free_listFinal hB (by nofun) fun _ => rfl
  · exact plansEntries_nil

theorem free_planOrphan (hB : Lasting B) :
    PlansEntries P σ t call B (planOrphan view graceMs n) := by
  cases n with
  | db g => exact free_planDb hB
  | json g => exact free_planJson hB
  | publishTemp g nonce => exact free_planTemp hB (.inl rfl) rfl
  | metadataTemp g nonce => exact free_planTemp hB (.inr rfl) rfl

theorem free_planOrphans (ns : List GenName) (hB : Lasting B) :
    PlansEntries P σ t call B (planOrphans view graceMs ns) := by
  induction ns generalizing B with
  | nil => exact plansEntries_nil
  | cons n ns ih =>
    refine (free_planOrphan hB).bind fun here => ?_
    refine (ih (hB.and (EntriesOk.lasting t here))).seq (fun _ _ _ _ h => ⟨h.1, h.2.1⟩) fun rest => ?_
    refine .pure fun _ _ _ h => ⟨h.1, h.2.1.1, fun o ho => ?_⟩
    rcases mem_append.mp ho with ho | ho
    · exact h.2.1.2 o ho
    · exact h.2.2 o ho

/-- The entry for a lost active generation names no file. -/
theorem EntriesOk.recover {active : Option GenerationId} :
    EntriesOk P t (planRecover view active) s := by
  intro o ho
  unfold planRecover at ho
  split at ho
  · split at ho
    · cases ho
    · rw [mem_singleton] at ho
      subst ho
      exact ⟨by nofun, by nofun⟩
  · cases ho

/-- **Planning a recovery keeps the contract.** -/
theorem free_planGenerationOrphanRecovery :
    StoreTriple P t call (Free t fun _ => True) (planGenerationOrphanRecovery options)
      (fun (_ : ℕ) (_ : σ) _ => True) (fun _ _ _ => True) := by
  have hgive : ∀ {B : StoreState → Prop} (e : Err) (l : σ) (s : StoreState), Inv P s →
      Free t B l s → True := fun _ _ _ _ _ => trivial
  have hselect : ∀ {α : Type} {f : Cas → α}, StoreTriple P t call (Free t fun _ => True) (do
      let c : Cas ← op .casRead
      pure (f c)) (fun _ (l : σ) s => Free t (fun _ => True) l s) (fun _ => Free t fun _ => True) :=
    free_select (C := fun _ _ => True) .true fun _ _ h => h
  refine (free_orFail .true rfl).seq hgive fun _ => ?_
  refine (free_orFail .true rfl).seq hgive fun manifest => ?_
  refine (free_orFail .true rfl).seq hgive fun _ => ?_
  refine Triple.seq hselect hgive fun r => ?_
  refine Triple.seq hselect hgive fun active => ?_
  refine Triple.seq hselect hgive fun deleting => ?_
  refine (free_close .true).seq (fun _ _ _ _ h => h.elim) fun _ => ?_
  refine (free_orFail .true rfl).seq hgive fun _ => ?_
  refine (free_orFail .true rfl).seq hgive fun entries => ?_
  refine (free_planOrphans entries .true).seq hgive fun files => ?_
  have hfiles : Lasting fun s => True ∧ EntriesOk P t files s := Lasting.true.and (EntriesOk.lasting t files)
  refine triple_op (Free.stable hfiles) ?_ ?_
  · rintro l s - ⟨-, -, hok⟩ o ho
    rcases mem_append.mp ho with ho | ho
    · exact hok o ho
    · exact EntriesOk.recover o ho
  · intro l s ch r w' _ _ _ _
    cases r <;> trivial

/-! ## Removing a planned file -/

/-- What the applier knows of an entry: it is in the registered plan. -/
def Planned (h : ℕ) (o : GenerationOrphanEntry) (s : StoreState) : Prop :=
  ∃ plan, s.world.orphanPlans[h]? = some plan ∧ o ∈ plan.orphans

theorem Lasting.orphanPlan (h : ℕ) (plan : GenerationOrphanPlan) :
    Lasting fun s => s.world.orphanPlans[h]? = some plan := by
  intro s s' hev hp
  obtain ⟨ext, hext⟩ := hev.orphanPlans
  rw [← hext, getElem?_append_left (List.getElem?_eq_some_iff.mp hp).1]
  exact hp

theorem Planned.lasting (h : ℕ) (o : GenerationOrphanEntry) : Lasting (Planned h o) := by
  rintro s s' hev ⟨plan, hplan, ho⟩
  exact ⟨plan, Lasting.orphanPlan h plan hev hplan, ho⟩

/-- The entry was planned by looking its file up. -/
theorem Planned.entryOk (hinv : Inv P s)
    (hp : Planned h o s) : ∃ t, OrphanEntryOk P t o s := by
  obtain ⟨plan, hplan, ho⟩ := hp
  obtain ⟨t, hok⟩ := hinv.plans.orphan plan (mem_of_getElem? hplan)
  exact ⟨t, hok o ho⟩

/-- The entry of a temporary names a temporary. -/
theorem Planned.temp
    (hinv : Inv P s) (hp : Planned h o s) (hkind : o.kind = .promotionTemp ∨ o.kind = .metadataTemp)
    (hpath : o.path = some n) : n.gen? = none := by
  obtain ⟨t, hok⟩ := hp.entryOk hinv
  exact hok.temp hkind n hpath

/-- A file that still has the planned identity is the planned one. -/
theorem Planned.file {st : Stat} {f : File} (hinv : Inv P s) (hp : Planned h o s) (htarget : o.target = some n)
    (hidentity : ∀ st', o.identity = some st' → st' = st)
    (hf : s.world.generations.lookup n = some f) (hst : st = P.stat f) : PlannedFile P h n s := by
  obtain ⟨t, hok⟩ := hp.entryOk hinv
  obtain ⟨st', hst', hseen⟩ := hok.seen n htarget
  cases hidentity st' hst'
  obtain ⟨plan, hplan, ho⟩ := hp
  exact ⟨plan, o, t, st, f, hplan, ho, htarget, hst', hseen, hf, hst.symm⟩

theorem adrift_retain :
    StoreTriple P t call (Adrift t B) retain (fun (_ : OrphanOutcome) (l : σ) s => Adrift t B l s)
      E :=
  adrift_rollback.bind fun _ => .pure fun _ _ _ h => h

/-- A transaction that has not changed the tables can be committed. -/
theorem at_commitUnchanged (hV : ViewOk P V) (hsame : V.working = V.cas) (htok : V.token = none)
    (hknow : V.know = B) :
    AtTriple P t call l V CasStore.commit (fun _ => Adrift t B) (fun _ => Adrift t B) := by
  have hactive : V.working.ActiveOk := by
    rw [hsame]
    exact hV.active
  have hpending : Pending V.cas V.working := by
    refine ⟨?_, .inl hsame⟩
    rw [hsame]
    exact hV.revision
  exact (at_commit hactive hpending).conseq (fun _ _ _ h => h)
    (fun _ _ _ _ h => h.2.adrift (V := V.touched) htok hknow) fun _ _ _ _ h => h.adrift htok hknow

/-- Removing a temporary that was planned. -/
theorem after_removeTempTransaction (htarget : o.target = some n)
    (hkind : o.kind = .promotionTemp ∨ o.kind = .metadataTemp) (hpath : o.path = some n)
    (htok : V.token = none) (hknow : V.know = Planned h o) :
    StoreTriple P t (.applyOrphans h options) (AfterL t l V) (removeTempTransaction n o.identity)
      (fun _ => Adrift t (Planned h o)) (fun _ => Adrift t (Planned h o)) := by
  refine after_beginImmediate.seq (fun _ _ _ _ h => h.adrift htok hknow) fun _ => ?_
  refine .exists fun V₁ => .assume fun hopen => ?_
  have htok₁ : V₁.token = none := hopen.token.trans htok
  have hknow₁ : V₁.know = Planned h o := hopen.know.trans hknow
  refine at_viewOk fun hV => ?_
  refine at_lstat.seq (fun _ _ _ _ h => h.2.after.adrift htok₁ hknow₁) fun st => .assume ?_
  rintro ⟨f, hf, hst⟩
  split
  · exact adrift_retain.pre fun _ _ _ h => h.after.adrift htok₁ hknow₁
  rename_i hidentity
  have hsame : ∀ st', o.identity = some st' → st' = st := by
    intro st' hst'
    simpa [hst'] using hidentity
  refine Triple.seq (at_unlink fun s hinv hat => ⟨?_, ?_⟩)
    (fun _ _ _ _ h => h.2.after.adrift htok₁ hknow₁) fun _ => ?_
  · intro g hg
    have hp : Planned h o s := by
      rw [← hknow₁]
      exact hat.know
    rw [hp.temp hinv hkind hpath] at hg
    cases hg
  · rintro h' options' heq
    cases heq
    have hp : Planned h o s := by
      rw [← hknow₁]
      exact hat.know
    refine ⟨hp.file hinv htarget hsame (by rw [hat.generations]; exact hf) hst, ?_⟩
    intro g hg
    rw [hp.temp hinv hkind hpath] at hg
    cases hg
  · refine at_viewOk fun hV' => ?_
    exact (at_commitUnchanged hV' hopen.same htok₁ hknow₁).bind fun _ => .pure fun _ _ _ h => h

/-- The answers of the applier keep what it knows. -/
abbrev Applies (P : Platform) (σ : Type) (t : Tid) (h : ℕ) (options : GenerationGcOptions)
    (B : StoreState → Prop) (m : StoreM σ OrphanOutcome) : Prop :=
  StoreTriple P t (.applyOrphans h options) (Free t B) m
    (fun _ (l : σ) s => Free t B l s) (fun _ => Free t B)

theorem applies_retained :
    Applies P σ t h options B (pure .retained) := .pure fun _ _ _ h => h

theorem free_removeTempUnderLock (htarget : o.target = some n)
    (hkind : o.kind = .promotionTemp ∨ o.kind = .metadataTemp) (hpath : o.path = some n) :
    Applies P σ t h options (Planned h o) (removeTempUnderLock n o.identity) := by
  have hB := Planned.lasting h o
  refine (free_orFail hB rfl).bind fun _ => ?_
  exact free_transaction hB
    (adrift_intro fun _ _ htok hknow => after_removeTempTransaction htarget hkind hpath htok hknow)
    fun _ => adrift_retain

theorem free_applyPromotionTemp (htarget : o.target = some n) (hkind : o.kind = .promotionTemp)
    (hpath : o.path = some n) :
    Applies P σ t h options (Planned h o) (applyPromotionTemp n o.identity) := by
  have hB := Planned.lasting h o
  refine Triple.tryCatch (F := fun _ => Free t (Planned h o)) ?_ fun _ => applies_retained
  refine (free_quiet hB rfl).bind fun _ => (free_quiet hB rfl).bind fun st => ?_
  split
  · exact applies_retained
  · exact free_removeTempUnderLock htarget (.inl hkind) hpath

theorem free_applyMetadataTemp (htarget : o.target = some n) (hkind : o.kind = .metadataTemp)
    (hpath : o.path = some n) :
    Applies P σ t h options (Planned h o) (applyMetadataTemp n o.identity) := by
  refine Triple.tryCatch (F := fun _ => Free t (Planned h o)) ?_ fun _ => applies_retained
  exact (free_quiet (Planned.lasting h o) rfl).bind fun _ =>
    free_removeTempUnderLock htarget (.inr hkind) hpath

/-- The checks on a final file, under the lock, allow it to be removed. -/
theorem unlinkOk_final {st : Stat} {f : File} {manifest : Option GenerationManifestV1}
    {entry : Option CasGenerationCatalogEntry}
    (hinv : Inv P s) (hat : At t V s) (hp : Planned h o s) (hn : n.gen? = some g)
    (htarget : o.target = some n) (hidentity : o.identity = some st)
    (hf : V.generations.lookup n = some f) (hst : st = P.stat f)
    (hsame : V.working = V.cas) (hmanifest : manifest = V.manifest)
    (hentry : entry = V.working.entry g)
    (hchecks : ¬(manifest.map (·.generationId) = some g ∨ V.working.activeGenerationId = some g ∨
      entry.any (fun e => e.pinned) ∨ entry.any (fun e => e.status ≠ .deleted))) :
    UnlinkOk P (.applyOrphans h options) n s := by
  simp only [not_or, Bool.not_eq_true] at hchecks
  obtain ⟨hnot, hactive, hpinned, hstatus⟩ := hchecks
  subst hmanifest hentry
  rw [hsame] at hactive hpinned hstatus
  have hdeleted : ∀ e, V.cas.entry g = some e → e.status = .deleted := by
    intro e he
    simpa [he] using hstatus
  refine ⟨fun g' hg' => ?_, ?_⟩
  · rw [hn] at hg'
    cases hg'
    refine ⟨⟨?_, ?_, fun x hx => ?_, ?_, by nofun⟩, ?_, fun x hx => ?_⟩
    · rw [hat.manifest]
      intro m hm hg
      rw [hm] at hnot
      exact hnot (by rw [Option.map_some, hg])
    · rw [hat.cas]
      exact hactive
    · rw [hat.working hx, hsame]
      exact hactive
    · rw [hat.cas]
      intro e he
      simpa [he] using hpinned
    · rw [hat.cas]
      intro e he hact
      rw [hdeleted e he] at hact
      cases hact
    · rw [hat.working hx, hat.cas, hsame]
  · rintro h' options' heq
    cases heq
    refine ⟨hp.file hinv htarget (fun st' hst' => ?_) (by rw [hat.generations]; exact hf) hst, ?_⟩
    · rw [hidentity] at hst'
      cases hst'
      rfl
    · intro g' hg'
      rw [hn] at hg'
      cases hg'
      rw [hat.cas]
      exact hdeleted

theorem after_removeFinalUnderLock {identity : Stat} (hn : n.gen? = some g)
    (htarget : o.target = some n) (hidentity : o.identity = some identity)
    (htok : V.token = none) (hknow : V.know = Planned h o) :
    StoreTriple P t (.applyOrphans h options) (AfterL t l V) (removeFinalUnderLock n g identity)
      (fun _ => Adrift t (Planned h o)) (fun _ => Adrift t (Planned h o)) := by
  refine after_beginImmediate.seq (fun _ _ _ _ h => h.adrift htok hknow) fun _ => ?_
  refine .exists fun V₁ => .assume fun hopen => ?_
  have htok₁ : V₁.token = none := hopen.token.trans htok
  have hknow₁ : V₁.know = Planned h o := hopen.know.trans hknow
  have hgive : ∀ (e : Err) (l' : σ) (s : StoreState), Inv P s → IsErrno e ∧ AtL t l V₁ l' s →
      Adrift t (Planned h o) l' s := fun _ _ _ _ h => h.2.after.adrift htok₁ hknow₁
  have hretain : StoreTriple P t (.applyOrphans h options) (AtL t l V₁) retain
      (fun _ => Adrift t (Planned h o)) (fun _ => Adrift t (Planned h o)) :=
    adrift_retain.pre fun _ _ _ h => h.after.adrift htok₁ hknow₁
  refine (at_idle rfl).seq hgive fun _ => ?_
  refine at_readManifest.seq hgive fun manifest => .assume fun hmanifest => ?_
  refine at_getGenerationCatalogEntry.seq hgive fun entry => .assume fun hentry => ?_
  refine at_getActiveGenerationId.seq hgive fun active => .assume ?_
  rintro rfl
  split
  · exact hretain
  rename_i hchecks
  refine at_lstat.seq (fun _ _ _ _ h => h.2.after.adrift htok₁ hknow₁) fun st => .assume ?_
  rintro ⟨f, hf, hst⟩
  split
  · exact hretain
  rename_i heq
  obtain rfl : st = identity := not_not.mp heq
  refine Triple.seq (at_unlink fun s hinv hat => unlinkOk_final hinv hat
    (by rw [← hknow₁]; exact hat.know) hn htarget hidentity hf hst hopen.same hmanifest hentry
    hchecks) (fun _ _ _ _ h => h.2.after.adrift htok₁ hknow₁) fun _ => ?_
  refine (at_idle rfl).seq (fun _ _ _ _ h => h.2.after.adrift
    (V := V₁.withFiles (V₁.generations.erase n)) htok₁ hknow₁) fun _ => ?_
  refine at_viewOk fun hV' => ?_
  exact (at_commitUnchanged hV' hopen.same htok₁ hknow₁).bind fun _ => .pure fun _ _ _ h => h

/-- The file that the applier removes for an entry of each kind. -/
def finalName (kind : OrphanKind) (g : GenerationId) : GenName :=
  if kind = .metadataOnly then .json g else .db g

theorem free_applyFinal {identity : Stat}
    (htarget : o.target = some (finalName kind g)) (hidentity : o.identity = some identity) :
    Applies P σ t h options (Planned h o) (applyFinal kind g identity graceMs) := by
  have hB := Planned.lasting h o
  have hn : (finalName kind g).gen? = some g := by
    unfold finalName
    split <;> rfl
  refine (free_quiet hB rfl).bind fun now => ?_
  split
  · exact applies_retained
  refine (free_orFail hB rfl).bind fun _ => ?_
  exact free_transaction hB
    (adrift_intro fun _ _ htok hknow =>
      after_removeFinalUnderLock hn htarget hidentity htok hknow)
    fun _ => adrift_retain

/-! ## Re-entering the active generation -/

/-- The row that is entered describes the generation of the manifest. -/
theorem recoveredActiveEntry_ok
    {now : Timestamp} (hinv : Inv P s) (hat : At t V s)
    (hread : Read P (.json m.generationId) md s) (hm : V.manifest = some m) :
    EntryOk P V (recoveredActiveEntry P m.generationId md now) := by
  have hcomplete := (hat.viewOk hinv).manifest m hm
  obtain ⟨f, md', hf, hmd', heq⟩ := hcomplete.json
  rw [← hat.generations] at hf
  cases hread.unique hinv hf hmd'
  refine ⟨rfl, m, rfl, hcomplete, ?_⟩
  refine ⟨hcomplete.project.symm, ?_⟩
  rw [← heq]
  exact ⟨rfl, rfl, rfl, rfl, rfl⟩

/-- The active generation has an `ACTIVE` row afterwards. -/
theorem at_reenterCatalog {now : Timestamp}
    (hm : V.manifest = some m)
    (hentry : EntryOk P V (recoveredActiveEntry P m.generationId md now)) :
    AtTriple P t call l V (reenterCatalog P m.generationId md now)
      (fun _ l' s => ∃ c, (SameBook V.working c ∧
        ∃ e, c.entry m.generationId = some e ∧ e.status = .active) ∧ AtL t l (V.withTables c) l' s)
      (Lost t l V) := by
  refine at_viewOk fun hV => ?_
  refine at_getGenerationCatalogEntry.seq (fun _ _ _ _ => Lost.of_errno) fun existing => .assume ?_
  rintro rfl
  split
  · exact at_upsertGenerationCatalog hentry
  · rename_i e he
    exact .pure fun _ _ _ h => ⟨V.working, ⟨⟨rfl, rfl, rfl⟩, e, he, hV.working.manifest m e hm he⟩, h⟩

/-- The tables name the active generation, and the act is recorded. -/
theorem at_recordRecovery {now : Timestamp}
    (hm : V.manifest = some m) (hsame : V.working = V.cas) (htok : V.token = none)
    (hknow : V.know = B)
    (hentry : EntryOk P V (recoveredActiveEntry P m.generationId md now)) :
    AtTriple P t call l V
      (do
        reenterCatalog P m.generationId md now
        CasStore.setActiveGenerationId (some m.generationId)
        CasStore.appendPublicationHistory m.generationId P.project .recover none
        CasStore.commit
        pure OrphanOutcome.casRecovered)
      (fun _ => Adrift t B) (fun _ => Adrift t B) := by
  refine at_viewOk fun hV => ?_
  refine (at_reenterCatalog hm hentry).seq (fun _ _ _ _ h => h.adrift htok hknow) fun _ => ?_
  refine .exists fun c => .assume ?_
  rintro ⟨hbook, e, he, hst⟩
  refine at_setActiveGenerationId.seq
    (fun _ _ _ _ h => h.adrift (V := V.withTables c) htok hknow) fun _ => ?_
  have hrev : c.revision = c.history.length := by
    rw [hbook.revision, hbook.history, hsame]
    exact hV.revision
  refine (at_appendPublicationHistory hrev).seq
    (fun _ _ _ _ h => h.of_tables.of_tables.adrift htok hknow) fun _ => ?_
  refine .exists fun now' => ?_
  have hlt : V.cas.revision < c.revision + 1 := by
    rw [hbook.revision, hsame]
    exact Nat.lt_succ_self _
  refine Triple.seq (at_commit ?_ ⟨?_, .inr hlt⟩)
    (fun _ _ _ _ h => h.of_tables.of_tables.of_tables.adrift htok hknow) fun _ => ?_
  · intro g hg
    cases hg
    exact ⟨e, he, hst⟩
  · simpa using hrev
  · refine .pure fun _ _ _ h => ⟨_, ?_, ?_, h.2.2⟩
    · exact htok
    · exact hknow

theorem after_recoverActiveUnderLock
    {dbIdentity metaIdentity : FileIdentity} (htok : V.token = none)
    (hknow : V.know = fun s => B s ∧ Read P (.json g) md s) :
    StoreTriple P t call (AfterL t l V) (recoverActiveUnderLock P g md dbIdentity metaIdentity)
      (fun _ => Adrift t fun s => B s ∧ Read P (.json g) md s)
      (fun _ => Adrift t fun s => B s ∧ Read P (.json g) md s) := by
  refine after_beginImmediate.seq (fun _ _ _ _ h => h.adrift htok hknow) fun _ => ?_
  refine .exists fun V₁ => .assume fun hopen => ?_
  have htok₁ : V₁.token = none := hopen.token.trans htok
  have hknow₁ := hopen.know.trans hknow
  have hretain : StoreTriple P t call (AtL t l V₁) retain
      (fun _ => Adrift t fun s => B s ∧ Read P (.json g) md s)
      (fun _ => Adrift t fun s => B s ∧ Read P (.json g) md s) :=
    adrift_retain.pre fun _ _ _ h => h.after.adrift htok₁ hknow₁
  refine at_readManifest.attemptSeq (fun manifest => .assume fun hmanifest => ?_) fun e =>
    hretain.pre fun _ _ _ h => h.2
  dsimp only
  split
  · exact hretain
  rename_i hnot
  obtain ⟨m, hm, rfl⟩ : ∃ m, V₁.manifest = some m ∧ m.generationId = g := by
    rw [hmanifest] at hnot
    simpa [Option.map_eq_some_iff] using hnot
  refine at_lstat.seq (fun _ _ _ _ h => h.2.after.adrift htok₁ hknow₁) fun dbStat => .assume fun _ => ?_
  split
  · exact hretain
  refine at_lstat.seq (fun _ _ _ _ h => h.2.after.adrift htok₁ hknow₁) fun st => .assume fun _ => ?_
  split
  · exact hretain
  refine (at_idle rfl).seq (fun _ _ _ _ h => h.2.after.adrift htok₁ hknow₁) fun now => ?_
  intro l' s hinv hat
  have hread : Read P (.json m.generationId) md s := by
    have hk := hat.2.know
    rw [hknow₁] at hk
    exact hk.2
  exact at_recordRecovery hm hopen.same htok₁ hknow₁ (recoveredActiveEntry_ok hinv hat.2 hread hm)
    l' s hinv hat

theorem free_recoverActive (hB : Lasting B) :
    Applies P σ t h options B (recoverActive P g) := by
  refine (free_quiet hB rfl).bind fun dbStat => (free_quiet hB rfl).bind fun metaStat => ?_
  refine (free_readMetadata hB).bind fun md => ?_
  have hread : Lasting fun s => B s ∧ Read P (.json g) md s := hB.and (Read.lasting _ md)
  have hdrop : ∀ (e : Err) (l : σ) (s : StoreState), Inv P s →
      Free t (fun s => B s ∧ Read P (.json g) md s) l s → Free t B l s :=
    fun _ _ _ _ h => ⟨h.1, h.2.1⟩
  have hretained : StoreTriple P t (.applyOrphans h options)
      (Free t fun s => B s ∧ Read P (.json g) md s) (pure OrphanOutcome.retained)
      (fun _ (l : σ) s => Free t B l s) (fun _ => Free t B) := .pure fun _ _ _ h => ⟨h.1, h.2.1⟩
  split
  · exact hretained
  refine (free_quiet hread rfl).seq hdrop fun hash => ?_
  split
  · exact hretained
  refine (free_quiet hread rfl).attemptSeq (fun manifest => ?_) fun _ => hretained
  split
  · exact hretained
  · exact hretained
  split
  · exact hretained
  refine (free_orFail hread rfl).seq hdrop fun _ => ?_
  refine (free_transaction hread (adrift_intro fun _ _ htok hknow =>
    after_recoverActiveUnderLock htok hknow) fun _ => adrift_retain).conseq (fun _ _ _ h => h)
      (fun _ _ _ _ h => ⟨h.1, h.2.1⟩) hdrop

/-! ## Applying a plan -/

theorem free_applyOrphan : Applies P σ t h options (Planned h o) (applyOrphan P graceMs o) := by
  have hB := Planned.lasting h o
  unfold applyOrphan
  split
  · rename_i n hkind hpath
    exact free_applyPromotionTemp (by simp only [GenerationOrphanEntry.target, hkind, hpath]) hkind
      hpath
  · rename_i n hkind hpath
    exact free_applyMetadataTemp (by simp only [GenerationOrphanEntry.target, hkind, hpath]) hkind
      hpath
  · exact (free_recoverActive hB).tryCatch fun _ => applies_retained
  case h_4 g identity hkind hgen hidentity | h_5 g identity hkind hgen hidentity | h_6 g identity hkind hgen hidentity =>
    exact free_applyFinal (by simp only [GenerationOrphanEntry.target, hkind, hgen]; rfl) hidentity
  · exact applies_retained

theorem free_applyOrphans {plan : GenerationOrphanPlan} (os : List GenerationOrphanEntry) (hos : ∀ o ∈ os, o ∈ plan.orphans) :
    StoreTriple P t (.applyOrphans h options)
      (Free t fun s => s.world.orphanPlans[h]? = some plan) (applyOrphans P graceMs os)
      (fun _ (l : σ) s => Free t (fun s => s.world.orphanPlans[h]? = some plan) l s)
      (fun _ => Free t fun s => s.world.orphanPlans[h]? = some plan) := by
  have hB := Lasting.orphanPlan h plan
  induction os with
  | nil => exact .pure fun _ _ _ h => h
  | cons o os ih =>
    have ih := ih fun o' ho' => hos o' (mem_cons_of_mem _ ho')
    have happlies : Applies P σ t h options (Planned h o) (applyOrphan P graceMs o) :=
      free_applyOrphan
    have hone := triple_lasting hB happlies
    refine Triple.bind
      (Q := fun _ => Free t fun s => s.world.orphanPlans[h]? = some plan) (hone.conseq ?_ ?_ ?_)
      fun outcome => ?_
    · exact fun _ _ _ hf => ⟨⟨hf.1, plan, hf.2, hos o mem_cons_self⟩, hf.2⟩
    · exact fun _ _ _ _ hf => ⟨hf.1.1, hf.2⟩
    · exact fun _ _ _ _ hf => ⟨hf.1.1, hf.2⟩
    · exact ih.bind fun rest => .pure fun _ _ _ h => h

theorem free_orphanPlan :
    StoreTriple P t call (Free t fun _ => True) (op (.orphanPlan h))
      (fun (r : Option GenerationOrphanPlan) (l : σ) s =>
        Free t (fun s => ∀ plan, r = some plan → s.world.orphanPlans[h]? = some plan) l s) E := by
  refine triple_op (Free.stable .true) (fun _ _ _ _ => trivial) ?_
  intro l s ch r w' _ hfree hexec _
  rw [exec_eq (by simp [Op.fallible])] at hexec
  cases hexec
  exact ⟨hfree.1, fun plan hplan => hplan⟩

/-- **Applying a recovery plan keeps the contract.** -/
theorem free_applyGenerationOrphanRecovery :
    StoreTriple P t (.applyOrphans h options) (Free t fun _ => True)
      (applyGenerationOrphanRecovery P h options)
      (fun (_ : Option (List (GenerationOrphanEntry × OrphanOutcome))) (_ : σ) _ => True)
      (fun _ _ _ => True) := by
  refine free_orphanPlan.bind fun r => ?_
  cases r with
  | none => exact .throw fun _ _ _ _ => trivial
  | some plan =>
    have hB := Lasting.orphanPlan h plan
    have hgive : ∀ (e : Err) (l : σ) (s : StoreState), Inv P s →
        Free t (fun s => s.world.orphanPlans[h]? = some plan) l s → True := fun _ _ _ _ _ => trivial
    refine Triple.pre (P := Free t fun s => s.world.orphanPlans[h]? = some plan) ?_
      fun _ _ _ hfree => ⟨hfree.1, hfree.2 plan rfl⟩
    refine (free_orFail hB rfl).seq hgive fun _ => ?_
    refine Triple.seq (free_select
      (C := fun _ s => s.world.orphanPlans[h]? = some plan) hB fun _ _ h => h) hgive fun rev => ?_
    refine (free_close hB).seq (fun _ _ _ _ h => h.elim) fun _ => ?_
    split
    · exact .pure fun _ _ _ _ => trivial
    refine (free_quiet hB rfl).attemptSeq (fun m => ?_) fun _ => .pure fun _ _ _ _ => trivial
    dsimp only
    split
    · exact .pure fun _ _ _ _ => trivial
    refine (free_orFail hB rfl).seq hgive fun _ => ?_
    refine (free_applyOrphans plan.orphans fun _ ho => ho).seq hgive fun outcomes => ?_
    refine Triple.bind (Q := fun _ => Free t fun s => s.world.orphanPlans[h]? = some plan)
      (triple_bestEffort (free_quiet hB rfl)) fun _ => .pure fun _ _ _ _ => trivial

end Ariad
