import Ariad.Store.Publication

/-!
# Garbage collection keeps the contract

The planner reads without the lock, so all it can say of its plan is what the revision tells: as long
as the revision is the one it read first, the tables are those it saw. The applier compares the
revision once, and from then on relies only on what it re-checks under the lock, and on the plan not
retaining what it lists for deletion.
-/

namespace Ariad

open List

variable {P : Platform} {σ : Type} {t : Tid} {call : Call} {V V' : View} {g : GenerationId} {l : σ}

/-! ## Outside a transaction -/

/-- The call holds no lock, and knows `B`. -/
def Free (t : Tid) (B : StoreState → Prop) (_ : σ) (s : StoreState) : Prop :=
  ¬Held t s.world ∧ B s

variable {B : StoreState → Prop}

theorem Free.stable (hB : Lasting B) (l : σ) :
    (storeDiscipline P).Stable t (Free t B l) := fun h hrely _ =>
  ⟨hrely.unlocked h.1, hB hrely.toEvolves h.2⟩

theorem visibleCas_of_free {w : World} (h : ¬Held t w) : w.visibleCas t = w.cas := by
  unfold World.visibleCas
  split
  · rename_i x hx
    split
    · rename_i hown
      exact absurd (held_of_txn hx hown) h
    · rfl
  · rfl

/-- A call that has not started holds no lock. -/
theorem free_of_silent {s : StoreState} (hinv : Inv P s) (h : s.Silent t) : ¬Held t s.world := by
  intro hheld
  obtain ⟨e, he, ht⟩ := hinv.names.locker t hheld
  exact h e he ht

theorem free_quiet (hB : Lasting B) {o : Op} (hq : o.quiet = true) :
    StoreKeeps σ P t call (Free t B) (op o) :=
  (triple_quiet hq (Free.stable hB)).conseq (fun _ _ _ h => h) (fun _ _ _ _ h => h.2)
    fun _ _ _ _ h => h.2

theorem free_look {α : Type} {m : StoreM σ α} {X : Err → Prop}
    (hB : Lasting B) (hm : m.Uses (fun o => o.quiet = true) X) :
    StoreKeeps σ P t call (Free t B) m :=
  (triple_look (Free.stable hB) hm).conseq (fun _ _ _ h => h) (fun _ _ _ _ h => h)
    fun _ _ _ _ h => h.1

/-- A read outside a transaction sees the committed tables of that moment; what it learns can be
kept as far as it lasts. -/
theorem free_casRead {C : Cas → StoreState → Prop} (hB : Lasting B)
    (h : ∀ s, Inv P s → B s → C s.world.cas s) :
    StoreTriple P t call (Free t B) (op .casRead) (fun (c : Cas) (l : σ) s => Free t (C c) l s)
      (fun _ => Free t B) := by
  refine (triple_quiet rfl (Free.stable hB)).conseq (fun _ _ _ h => h) ?_ fun _ _ _ _ h => h.2
  rintro c l s hinv ⟨⟨ch, hc⟩, hfree, hb⟩
  refine ⟨hfree, ?_⟩
  have hv : s.world.visibleCas t = c := by
    cases hc
    rfl
  rw [visibleCas_of_free hfree] at hv
  subst hv
  exact h s hinv hb

theorem free_close (hB : Lasting B) :
    StoreTriple P t call (Free t B) CasStore.close (fun (_ : Unit) (l : σ) s => Free t B l s)
      (fun _ _ _ => False) := by
  refine triple_op (Free.stable hB) (fun _ _ _ _ => trivial) ?_
  intro l s ch r w' _ hb hexec hev
  rw [exec_eq (by simp [Op.fallible])] at hexec
  cases hexec
  exact ⟨not_held_dropTxn, hB hev hb.2⟩

/-! ## Planning -/

/-- While the revision is `r`, the rows `es` have the status `st`. -/
structure Listed (r : ℕ) (st : CatalogStatus) (es : List CasGenerationCatalogEntry)
    (s : StoreState) : Prop where
  le : r ≤ s.world.cas.revision
  rows : s.world.cas.revision = r → ∀ e ∈ es,
    ∃ e', s.world.cas.entry e.generationId = some e' ∧ e'.status = st

theorem Listed.lasting (r : ℕ) (st : CatalogStatus) (es : List CasGenerationCatalogEntry) :
    Lasting (Listed r st es) := by
  intro s s' hev h
  have hle := hev.cas.le
  have hr := h.le
  refine ⟨by omega, fun heq e he => ?_⟩
  obtain ⟨e₁, he₁, hst⟩ := h.rows (by omega) e he
  have hrow := (hev.cas.view (by omega)).row e.generationId
  rw [he₁] at hrow
  simp only [Option.map_some, Option.map_eq_some_iff, Prod.mk.injEq] at hrow
  obtain ⟨e₂, he₂, hst₂, -⟩ := hrow
  exact ⟨e₂, he₂, hst₂.trans hst⟩

theorem Lasting.and {B B' : StoreState → Prop} (h : Lasting B) (h' : Lasting B') :
    Lasting fun s => B s ∧ B' s := fun _ _ hev hb => ⟨h hev hb.1, h' hev hb.2⟩

theorem Lasting.true : Lasting fun _ => True := fun _ _ _ _ => trivial

theorem uses_planSweepTmp {now maxAgeMs : ℕ} {X : Err → Prop} (gs : List GenerationId) :
    (planSweepTmp now maxAgeMs gs : StoreM σ _).Uses (fun o => o.quiet = true) X := by
  induction gs with
  | nil => exact .pure _
  | cons g gs ih =>
    refine .bind (uses_attempt rfl) fun r => ?_
    split
    · exact ih
    · split
      · exact ih
      · exact .bind ih fun _ => .pure _

/-- The generations that a history has as published, the last one first. -/
def publishedIds (history : List CasPublicationHistoryEntry) : List GenerationId :=
  (history.filter fun row => row.action = .publish).map (·.generationId)

/-- The walk collects the first different generations that were published and are not excluded. -/
theorem collectPrevious_eq (active : Option GenerationId) (room : ℕ) (seen : List GenerationId)
    (rows : List CasPublicationHistoryEntry) : collectPrevious active room seen rows =
      ((publishedIds rows).filter fun g => active ≠ some g ∧ g ∉ seen).eraseDups.take room := by
  unfold publishedIds
  induction rows generalizing room seen with
  | nil => simp [collectPrevious]
  | cons row rows ih =>
    cases room with
    | zero => rfl
    | succ room =>
      rw [collectPrevious]
      split
      · rename_i h
        rw [ih, filter_cons_of_neg (by simpa using h)]
      rename_i h
      rw [filter_cons_of_pos (by simpa using h), map_cons]
      split
      · rename_i hactive
        rw [ih, filter_cons_of_neg (by simp [hactive])]
      split
      · rename_i hseen
        rw [ih, filter_cons_of_neg (by simp [hseen])]
      rename_i hactive hseen
      rw [ih, filter_cons_of_pos (by simp [hactive, hseen]), eraseDups_cons, take_succ_cons, filter_filter]
      congr 4
      funext g
      grind

/-- **What a plan lists.** An `ACTIVE` generation is retained or listed for deletion, each row once; it is listed for
deletion if it is neither the active one nor pinned nor among the `retainCount` that the history has as published
last. -/
theorem buildGcPlan_lists (active : Option GenerationId) (r : ℕ)
    (activeEntries deletingEntries : List CasGenerationCatalogEntry)
    (history : List CasPublicationHistoryEntry) (options : GenerationGcOptions)
    (sweepTmp : List GenerationGcTmpEntry) :
    let plan := buildGcPlan active r activeEntries deletingEntries history options sweepTmp
    (planIds (plan.retain ++ plan.delete)).Perm (activeEntries.map fun e => e.generationId) ∧
    ∀ g, g ∈ planIds plan.delete ↔ (∃ e ∈ activeEntries, e.generationId = g) ∧ active ≠ some g ∧ g ∉ options.pin ∧
      (∀ e ∈ activeEntries, e.generationId = g → e.pinned = false) ∧
      g ∉ ((publishedIds history).filter fun g => active ≠ some g).eraseDups.take options.retainCount := by
  constructor
  · simp only [buildGcPlan, planIds, map_append, map_map, decide_not]
    rw [← map_append]
    exact (filter_append_perm _ _).map _
  · intro g
    have hprevious : distinctPrevious active options.retainCount history =
        ((publishedIds history).filter fun g => active ≠ some g).eraseDups.take options.retainCount := by
      rw [distinctPrevious, collectPrevious_eq]
      congr 3
      funext g
      cases active <;> simp [eq_comm]
    simp only [buildGcPlan, planIds, retainIds, hprevious, map_map, mem_map, mem_filter, mem_append]
    grind

/-- A plan lists what it read: the retained rows were `ACTIVE`, the recovered ones `DELETING`, and
nothing is both retained and deleted. -/
theorem buildGcPlan_ok {active : Option GenerationId} {r : ℕ}
    {activeEntries deletingEntries : List CasGenerationCatalogEntry}
    {history : List CasPublicationHistoryEntry} {options : GenerationGcOptions}
    {sweepTmp : List GenerationGcTmpEntry} {s : StoreState}
    (hactive : Listed r .active activeEntries s)
    (hdeleting : Listed r .deleting deletingEntries s) :
    GcPlanOk (buildGcPlan active r activeEntries deletingEntries history options sweepTmp)
      s.world.cas where
  le := hactive.le
  disjoint := by
    intro g hd hr
    simp only [buildGcPlan, planIds, map_map, mem_map, mem_filter,
      decide_eq_true_eq, Function.comp] at hd hr
    obtain ⟨e, ⟨-, hnot⟩, rfl⟩ := hd
    obtain ⟨e', ⟨-, hkeep⟩, heq⟩ := hr
    rw [heq] at hkeep
    exact hnot hkeep
  retain := by
    intro heq g hg
    simp only [buildGcPlan, planIds, map_map, mem_map, mem_filter,
      Function.comp] at hg
    obtain ⟨e, ⟨he, -⟩, rfl⟩ := hg
    exact hactive.rows heq e he
  recovery := by
    intro heq g hg
    simp only [buildGcPlan, planIds, map_map, mem_map, Function.comp] at hg
    obtain ⟨e, he, rfl⟩ := hg
    exact hdeleting.rows heq e he

theorem listed_of_cas {s : StoreState} {r : ℕ} {st : CatalogStatus} (h : r ≤ s.world.cas.revision) :
    Listed r st (s.world.cas.listCatalogEntriesByStatus st) s := by
  refine ⟨h, fun _ e he => ?_⟩
  obtain ⟨hrow, hst⟩ := Cas.mem_listCatalogEntriesByStatus.mp he
  exact ⟨e, hrow, hst⟩

/-- One `SELECT` outside a transaction. -/
theorem free_select {α : Type} {C : α → StoreState → Prop} {f : Cas → α}
    (hB : Lasting B) (h : ∀ s, Inv P s → B s → C (f s.world.cas) s) :
    StoreTriple P t call (Free t B) (do
        let c : Cas ← op .casRead
        pure (f c)) (fun a (l : σ) s => Free t (C a) l s) (fun _ => Free t B) :=
  (free_casRead hB h).bind fun _ => .pure fun _ _ _ h => h

theorem Lasting.revision (r : ℕ) : Lasting fun s => r ≤ s.world.cas.revision :=
  fun _ _ hev h => h.trans hev.cas.le

theorem free_orFail {o : Op} {c : ErrorCode} (hB : Lasting B) (hq : o.quiet = true) :
    StoreKeeps σ P t call (Free t B) (orFail (op o) c) :=
  triple_orFail (free_quiet hB hq)

/-- **Planning a collection keeps the contract.** -/
theorem free_planGenerationGc {options : GenerationGcOptions} :
    StoreTriple P t call (Free t fun _ => True) (planGenerationGc P options)
      (fun (_ : ℕ) (_ : σ) _ => True) (fun _ _ _ => True) := by
  have hgive : ∀ {B : StoreState → Prop} (e : Err) (l : σ) (s : StoreState), Inv P s →
      Free t B l s → True := fun _ _ _ _ _ => trivial
  refine (free_orFail .true rfl).seq hgive fun _ => ?_
  refine (free_orFail .true rfl).seq hgive fun manifest => ?_
  refine (free_orFail .true rfl).seq hgive fun _ => ?_
  refine Discipline.Triple.seq (free_select (C := fun r s => r ≤ s.world.cas.revision) .true
    fun _ _ _ => le_rfl) hgive fun r => ?_
  refine Discipline.Triple.seq (free_select (C := fun es s => Listed r .active es s)
    (.revision r) fun _ _ => listed_of_cas) hgive fun activeEntries => ?_
  have hlisted := Listed.lasting r .active activeEntries
  refine Discipline.Triple.seq (free_select
    (C := fun ds s => Listed r .active activeEntries s ∧ Listed r .deleting ds s) hlisted
    fun _ _ h => ⟨h, listed_of_cas h.le⟩) hgive fun deletingEntries => ?_
  have hboth := hlisted.and (Listed.lasting r .deleting deletingEntries)
  refine Discipline.Triple.seq (free_select
    (C := fun _ s => Listed r .active activeEntries s ∧ Listed r .deleting deletingEntries s) hboth
    fun _ _ h => h) hgive fun history => ?_
  refine (free_close hboth).seq (fun _ _ _ _ _ => trivial) fun _ => ?_
  refine (free_orFail hboth rfl).seq hgive fun _ => ?_
  refine (free_orFail hboth rfl).seq hgive fun tmpEntries => ?_
  refine (free_quiet hboth rfl).seq hgive fun now => ?_
  refine (free_look hboth (uses_planSweepTmp (X := fun _ => True) tmpEntries)).seq hgive
    fun sweepTmp => ?_
  refine triple_op (Free.stable hboth) ?_ ?_
  · rintro l s - ⟨-, hactive, hdeleting⟩
    exact buildGcPlan_ok hactive hdeleting
  · intro l s ch r w' _ _ _ _
    cases r <;> trivial

end Ariad
