import Ariad.Store.Contract

/-!
# Steps that do not need the lock

A step is `Good` if it keeps the invariant, is interference that every other call relies on, and
only moves forward. The frame lemmas carry the groups of the invariant over a step that does not
touch what they speak of; with them, the steps on the registries, the ids and the staging area are
good, as far as they concern generations that no other call owns.
-/

namespace Ariad

open List Option

variable {P : Platform} {t : Tid} {s : StoreState} {w' : World}

/-- A step to `w'` keeps the invariant, is harmless to every other call, and only moves forward. -/
structure Good (P : Platform) (t : Tid) (s : StoreState) (w' : World) : Prop where
  inv : ∀ a, Inv P (s.push t a w')
  rely : ∀ a, ∀ t', t' ≠ t → Rely t' s (s.push t a w')
  evolves : ∀ a, Evolves s (s.push t a w')

/-! ## Frame lemmas -/

variable {a : Action Op Op.Val Errno} {g : GenerationId}

theorem pristine_push_of_eq
    (h : w'.generations = s.world.generations) : Pristine g (s.push t a w') ↔ Pristine g s := by
  simp only [Pristine, everBound_push_of_eq h]

theorem Pristine.push (h : Pristine g s)
    (hg : w'.generations = s.world.generations) : Pristine g (s.push t a w') :=
  (pristine_push_of_eq hg).mpr h

theorem CoreOk.frame (h : CoreOk P s.world) (hm : w'.manifest = s.world.manifest)
    (hg : w'.generations = s.world.generations) (hc : w'.cas = s.world.cas)
    (ht : w'.txn = s.world.txn) : CoreOk P w' where
  manifest := by
    rw [hm, hg]
    exact h.manifest
  catalog := by
    rw [hm, hg, hc]
    exact h.catalog
  active := by
    rw [hc]
    exact h.active
  history := by
    rw [hc]
    exact h.history
  revision := by
    rw [hc]
    exact h.revision
  txn := by
    rw [ht, hm, hg, hc]
    exact h.txn

/-- The rows anyone sees are the ones that someone saw before. -/
theorem Catalogued.frame {w : World} (hc : w'.cas = w.cas)
    (ht : w'.txn = w.txn) : Catalogued g w' ↔ Catalogued g w := by
  simp only [Catalogued, hc, ht]

/-- What a step may do to names, files and rows. -/
theorem NamesOk.push (h : NamesOk s)
    (hissued : s.world.issued <+: w'.issued)
    (hfile : ∀ n f', w'.generations.lookup n = some f' →
      (∃ f, s.world.generations.lookup n = some f ∧ f.Grows f') ∨
      (¬EverBound n s ∧ n.uuid < w'.issued.length))
    (hrow : ∀ g, Catalogued g w' → Catalogued g s.world ∨
      ∀ n : GenName, n.gen? = some g → (s.world.generations.lookup n).isSome)
    (hlost : ∀ g n, n.gen? = some g → (s.world.generations.lookup n).isSome →
      w'.generations.lookup n = none → s.world.cas.entry g = none → ¬Catalogued g w')
    (hlock : ∀ t', w'.lockOwner = some t' → t' = t ∨ s.world.lockOwner = some t') :
    NamesOk (s.push t a w') where
  issued := by
    intro n hn
    have hlen := hissued.length_le
    rw [everBound_push] at hn
    rcases hn with hn | hn
    · obtain ⟨f', hf'⟩ := isSome_iff_exists.mp hn
      rcases hfile n f' hf' with ⟨f, hf, -⟩ | ⟨-, hlt⟩
      · exact (h.issued n (.of_lookup hf)).trans_le hlen
      · exact hlt
    · exact (h.issued n hn).trans_le hlen
  grows := by
    intro e he n f f' hf hf'
    rcases hfile n f' hf' with ⟨f₁, hf₁, hg⟩ | ⟨hnew, -⟩
    · rcases mem_cons.mp he with rfl | he
      · rw [hf₁] at hf
        cases hf
        exact hg
      · exact (h.grows e he n f f₁ hf hf₁).trans hg
    · refine absurd ?_ hnew
      rcases mem_cons.mp he with rfl | he
      · exact .of_lookup hf
      · exact .inr ⟨e, he, by rw [hf]; rfl⟩
  gone := by
    intro e he n hb ha
    rcases mem_cons.mp he with rfl | he
    · exact ha
    · have hnone := h.gone e he n hb ha
      rw [← not_isSome_iff_eq_none]
      intro hs
      obtain ⟨f', hf'⟩ := isSome_iff_exists.mp hs
      rcases hfile n f' hf' with ⟨f, hf, -⟩ | ⟨hnew, -⟩
      · rw [hnone] at hf
        cases hf
      · exact hnew (.inr ⟨e, he, hb⟩)
  catalogued := by
    intro g hg
    rw [everBound_push]
    rcases hrow g hg with hg | hb
    · exact .inr (h.catalogued g hg)
    · exact .inr (.inl (hb _ rfl))
  doomed := by
    intro e he g n hn hb ha hc
    rcases mem_cons.mp he with rfl | he
    · exact hlost g n hn hb ha hc
    · intro hg
      rcases hrow g hg with hg | hbound
      · exact h.doomed e he g n hn hb ha hc hg
      · have hnone := h.gone e he n hb ha
        have hsome := hbound n hn
        rw [hnone] at hsome
        cases hsome
  locker := by
    intro t' ht'
    rcases hlock t' ht' with rfl | hl
    · exact ⟨_, mem_cons_self, rfl⟩
    · obtain ⟨e, he, htid⟩ := h.locker t' hl
      exact ⟨e, mem_cons_of_mem _ he, htid⟩

/-- A step that changes no file, no row and no lock. -/
theorem NamesOk.frame (h : NamesOk s)
    (hissued : s.world.issued <+: w'.issued) (hg : w'.generations = s.world.generations)
    (hc : w'.cas = s.world.cas) (ht : w'.txn = s.world.txn) : NamesOk (s.push t a w') := by
  refine h.push hissued ?_ ?_ ?_ ?_
  · intro n f' hf'
    rw [hg] at hf'
    exact .inl ⟨f', hf', .refl f'⟩
  · intro g hcat
    exact .inl ((Catalogued.frame hc ht).mp hcat)
  · intro g n _ hb ha
    rw [hg] at ha
    rw [ha] at hb
    cases hb
  · intro t' ht'
    simp only [World.lockOwner, ht] at ht'
    exact .inr ht'

theorem HandlesOk.frame (h : HandlesOk P s)
    (hissued : s.world.issued <+: w'.issued) (htok : w'.tokens = s.world.tokens)
    (hres : w'.reservations = s.world.reservations)
    (hstaging : ∀ g, (w'.staging.lookup g).isSome → g < w'.issued.length)
    (hpristine : ∀ g, Pristine g s → Pristine g (s.push t a w') ∨
      ∃ tok t', s.world.tokens.lookup g = some tok ∧ tok.state = .publishing t') :
    HandlesOk P (s.push t a w') where
  reservation := by
    intro g r hr
    rw [State.push_world, hres] at hr
    obtain ⟨hlt, hopen⟩ := h.reservation g r hr
    refine ⟨hlt.trans_le hissued.length_le, fun hst => ?_⟩
    obtain ⟨hnone, hp⟩ := hopen hst
    refine ⟨by rw [State.push_world, htok]; exact hnone, ?_⟩
    rcases hpristine g hp with hp' | ⟨tok, t', hsome, -⟩
    · exact hp'
    · rw [hnone] at hsome
      cases hsome
  token := by
    intro g tok hk
    rw [State.push_world, htok] at hk
    obtain ⟨hr, hid, hproj, hp⟩ := h.token g tok hk
    rw [State.push_world, hres]
    refine ⟨hr, hid, hproj, fun hst => ?_⟩
    rcases hpristine g (hp hst) with hp' | ⟨tok', t', hsome, hst'⟩
    · exact hp'
    · rw [hk] at hsome
      cases hsome
      rw [hst] at hst'
      cases hst'
  staging := hstaging

theorem GcPlanOk.advance {p : GenerationGcPlan} {c c' : Cas} (h : GcPlanOk p c)
    (hrev : Cas.RevSound c c') : GcPlanOk p c' := by
  have hle := hrev.le
  have hpl := h.le
  have move : c'.revision = p.casRevision → ∀ g st, (∃ e, c.entry g = some e ∧ e.status = st) →
      ∃ e, c'.entry g = some e ∧ e.status = st := by
    rintro heq g st ⟨e, he, hst⟩
    have hrow := (hrev.view (by omega)).row g
    rw [he] at hrow
    simp only [map_some, map_eq_some_iff, Prod.mk.injEq] at hrow
    obtain ⟨e', he', hst', -⟩ := hrow
    exact ⟨e', he', hst'.trans hst⟩
  refine ⟨hpl.trans hle, h.disjoint, ?_, ?_⟩
  · intro heq g hg
    exact move heq g _ (h.retain (by omega) g hg)
  · intro heq g hg
    exact move heq g _ (h.recovery (by omega) g hg)

theorem Seen.push {t' : Tid} {n : GenName} {st : Stat}
    (h : Seen P t' n st s) : Seen P t' n st (s.push t a w') := by
  obtain ⟨e, he, hact, hf⟩ := h
  exact ⟨e, mem_cons_of_mem _ he, hact, hf⟩

theorem OrphanEntryOk.push {t' : Tid} {o : GenerationOrphanEntry}
    (h : OrphanEntryOk P t' o s) : OrphanEntryOk P t' o (s.push t a w') where
  temp := h.temp
  seen n hn := by
    obtain ⟨st, hst, hseen⟩ := h.seen n hn
    exact ⟨st, hst, hseen.push⟩

theorem PlansOk.push (h : PlansOk P s)
    (hrev : Cas.RevSound s.world.cas w'.cas)
    (hgc : ∀ p ∈ w'.gcPlans, p ∈ s.world.gcPlans ∨ GcPlanOk p w'.cas)
    (horphan : ∀ p ∈ w'.orphanPlans, p ∈ s.world.orphanPlans ∨
      ∃ t', ∀ o ∈ p.orphans, OrphanEntryOk P t' o s) : PlansOk P (s.push t a w') where
  gc p hp := by
    rcases hgc p hp with hp | hok
    · exact (h.gc p hp).advance hrev
    · exact hok
  orphan p hp := by
    rcases horphan p hp with hp | ⟨t', hok⟩
    · obtain ⟨t', hok⟩ := h.orphan p hp
      exact ⟨t', fun o ho => (hok o ho).push⟩
    · exact ⟨t', fun o ho => (hok o ho).push⟩

theorem PlansOk.frame (h : PlansOk P s)
    (hrev : Cas.RevSound s.world.cas w'.cas) (hgc : w'.gcPlans = s.world.gcPlans)
    (ho : w'.orphanPlans = s.world.orphanPlans) : PlansOk P (s.push t a w') := by
  refine h.push hrev ?_ ?_
  · intro p hp
    rw [hgc] at hp
    exact .inl hp
  · intro p hp
    rw [ho] at hp
    exact .inl hp

theorem Evolves.push (hissued : s.world.issued <+: w'.issued)
    (hgc : s.world.gcPlans <+: w'.gcPlans) (ho : s.world.orphanPlans <+: w'.orphanPlans)
    (hcas : Cas.RevSound s.world.cas w'.cas)
    (hrows : ∀ g, (s.world.cas.entry g).isSome → (w'.cas.entry g).isSome) :
    Evolves s (s.push t a w') :=
  ⟨fun _ he => mem_cons_of_mem _ he, hissued, hgc, ho, hcas, hrows⟩

/-- A step of one call as interference for another. -/
theorem Rely.push {t' : Tid} (hne : t' ≠ t)
    (hev : Evolves s (s.push t a w'))
    (hlocked : s.world.lockOwner = some t' → w'.txn = s.world.txn ∧
      w'.manifest = s.world.manifest ∧ w'.generations = s.world.generations ∧
      w'.cas = s.world.cas)
    (hunlocked : w'.lockOwner = some t' → s.world.lockOwner = some t')
    (howned : ∀ g, Owned t' g s.world → Kept g s (s.push t a w')) : Rely t' s (s.push t a w') where
  toEvolves := hev
  own := by
    refine ⟨[⟨t, a, s.world, w'⟩], rfl, ?_⟩
    intro e he ht
    rw [mem_singleton] at he
    subst he
    exact absurd ht.symm hne
  locked hl := by
    obtain ⟨htxn, hm, hg, hc⟩ := hlocked hl
    exact ⟨htxn, hm, hg, hc, fun n => everBound_push_of_eq hg⟩
  unlocked hl hl' := hl (hunlocked hl')
  owned := howned

/-! ## Steps that leave the files and the tables alone -/

/-- Only registries, ids and the staging area change. -/
structure Calm (w w' : World) : Prop where
  manifest : w'.manifest = w.manifest
  generations : w'.generations = w.generations
  cas : w'.cas = w.cas
  txn : w'.txn = w.txn
  issued : w.issued <+: w'.issued

theorem Calm.lockOwner {w : World} (h : Calm w w') : w'.lockOwner = w.lockOwner := by
  simp only [World.lockOwner, h.txn]

/-- A calm step, given what it does to the registries. -/
theorem Calm.good (h : Calm s.world w') (hinv : Inv P s)
    (hhandles : ∀ a, HandlesOk P (s.push t a w'))
    (howned : ∀ t', t' ≠ t → ∀ g, Owned t' g s.world →
      w'.tokens.lookup g = s.world.tokens.lookup g ∧
      w'.reservations.lookup g = s.world.reservations.lookup g)
    (hgc : s.world.gcPlans <+: w'.gcPlans)
    (hgcOk : ∀ p ∈ w'.gcPlans, p ∈ s.world.gcPlans ∨ GcPlanOk p s.world.cas)
    (ho : s.world.orphanPlans <+: w'.orphanPlans)
    (hoOk : ∀ p ∈ w'.orphanPlans, p ∈ s.world.orphanPlans ∨
      ∃ t', ∀ o ∈ p.orphans, OrphanEntryOk P t' o s) : Good P t s w' := by
  have hev : ∀ a, Evolves s (s.push t a w') := fun a =>
    Evolves.push h.issued hgc ho (by rw [h.cas]; exact .refl _) (by rw [h.cas]; exact fun _ hs => hs)
  refine ⟨fun a => ⟨?_, ?_, hhandles a, ?_⟩, fun a t' hne => ?_, hev⟩
  · exact hinv.core.frame h.manifest h.generations h.cas h.txn
  · exact hinv.names.frame h.issued h.generations h.cas h.txn
  · refine hinv.plans.push (by rw [h.cas]; exact .refl _) ?_ hoOk
    intro p hp
    rw [h.cas]
    exact hgcOk p hp
  · refine Rely.push hne (hev a) ?_ ?_ ?_
    · exact fun _ => ⟨h.txn, h.manifest, h.generations, h.cas⟩
    · rw [h.lockOwner]
      exact fun hl => hl
    · intro g hg
      obtain ⟨htok, hres⟩ := howned t' hne g hg
      exact ⟨htok, hres, (pristine_push_of_eq h.generations).mpr⟩

/-- A calm step that leaves the handles alone, too. -/
theorem Calm.good_of_handles (h : Calm s.world w') (hinv : Inv P s)
    (htok : w'.tokens = s.world.tokens) (hres : w'.reservations = s.world.reservations)
    (hstaging : ∀ g, (w'.staging.lookup g).isSome → g < w'.issued.length)
    (hgc : s.world.gcPlans <+: w'.gcPlans)
    (hgcOk : ∀ p ∈ w'.gcPlans, p ∈ s.world.gcPlans ∨ GcPlanOk p s.world.cas)
    (ho : s.world.orphanPlans <+: w'.orphanPlans)
    (hoOk : ∀ p ∈ w'.orphanPlans, p ∈ s.world.orphanPlans ∨
      ∃ t', ∀ o ∈ p.orphans, OrphanEntryOk P t' o s) : Good P t s w' := by
  refine h.good hinv (fun a => ?_) ?_ hgc hgcOk ho hoOk
  · refine hinv.handles.frame h.issued htok hres hstaging fun g hp => .inl ?_
    exact (pristine_push_of_eq h.generations).mpr hp
  · intro t' _ g _
    rw [htok, hres]
    exact ⟨rfl, rfl⟩

section

variable (hinv : Inv P s)
include hinv

theorem good_quiet : Good P t s s.world :=
  Calm.good_of_handles ⟨rfl, rfl, rfl, rfl, prefix_rfl⟩ hinv rfl rfl hinv.handles.staging
    prefix_rfl (fun _ hp => .inl hp) prefix_rfl (fun _ hp => .inl hp)

theorem good_issue :
    Good P t s { s.world with issued := s.world.issued ++ [t] } :=
  Calm.good_of_handles ⟨rfl, rfl, rfl, rfl, prefix_append _ _⟩ hinv rfl rfl
    (fun g hg => (hinv.handles.staging g hg).trans_le (by simp)) prefix_rfl
    (fun _ hp => .inl hp) prefix_rfl (fun _ hp => .inl hp)

/-- A staging file appears for an id that was drawn, or changes, or disappears. -/
theorem good_staging {st : AList fun _ : GenerationId => File}
    (hst : ∀ g, (st.lookup g).isSome → g < s.world.issued.length) :
    Good P t s { s.world with staging := st } :=
  Calm.good_of_handles ⟨rfl, rfl, rfl, rfl, prefix_rfl⟩ hinv rfl rfl hst prefix_rfl
    (fun _ hp => .inl hp) prefix_rfl (fun _ hp => .inl hp)

/-- The staging file of a drawn id is written. -/
theorem good_stagingInsert (f : File)
    (hg : g < s.world.issued.length) :
    Good P t s { s.world with staging := s.world.staging.insert g f } := by
  refine good_staging hinv fun g' hg' => ?_
  by_cases heq : g' = g
  · rw [heq]
    exact hg
  · rw [AList.lookup_insert_ne heq] at hg'
    exact hinv.handles.staging g' hg'

/-- A staging file is removed. -/
theorem good_stagingErase (g : GenerationId) :
    Good P t s { s.world with staging := s.world.staging.erase g } := by
  refine good_staging hinv fun g' hg' => ?_
  by_cases heq : g' = g
  · rw [heq, AList.lookup_erase] at hg'
    cases hg'
  · rw [AList.lookup_erase_ne heq] at hg'
    exact hinv.handles.staging g' hg'

theorem good_gcPlan {p : GenerationGcPlan} (hp : GcPlanOk p s.world.cas) :
    Good P t s { s.world with gcPlans := s.world.gcPlans ++ [p] } := by
  refine Calm.good_of_handles ⟨rfl, rfl, rfl, rfl, prefix_rfl⟩ hinv rfl rfl
    hinv.handles.staging (prefix_append _ _) ?_ prefix_rfl (fun _ hp => .inl hp)
  intro q hq
  rcases mem_append.mp hq with hq | hq
  · exact .inl hq
  · rw [mem_singleton] at hq
    subst hq
    exact .inr hp

theorem good_orphanPlan {p : GenerationOrphanPlan}
    (hp : ∀ o ∈ p.orphans, OrphanEntryOk P t o s) :
    Good P t s { s.world with orphanPlans := s.world.orphanPlans ++ [p] } := by
  refine Calm.good_of_handles ⟨rfl, rfl, rfl, rfl, prefix_rfl⟩ hinv rfl rfl
    hinv.handles.staging prefix_rfl (fun _ hp => .inl hp) (prefix_append _ _) ?_
  intro q hq
  rcases mem_append.mp hq with hq | hq
  · exact .inl hq
  · rw [mem_singleton] at hq
    subst hq
    exact .inr ⟨t, hp⟩

/-! ## Steps on the handles of one generation -/

/-- A step that changes the token and the reservation of one generation, which no other call owns. -/
theorem good_handles (g : GenerationId)
    (toks : AList fun _ : GenerationId => PreparedToken)
    (ress : AList fun _ : GenerationId => ReservationToken)
    (hothers : ∀ g', g' ≠ g → toks.lookup g' = s.world.tokens.lookup g' ∧
      ress.lookup g' = s.world.reservations.lookup g')
    (hmine : ∀ t', t' ≠ t → ¬Owned t' g s.world)
    (hres : ∀ r, ress.lookup g = some r → g < s.world.issued.length ∧
      (r.state = .reserved ∨ (∃ t, r.state = .preparing t) → toks.lookup g = none ∧ Pristine g s))
    (htok : ∀ tok, toks.lookup g = some tok →
      (∃ r, ress.lookup g = some r ∧ r.state = .prepared) ∧ tok.manifest.generationId = g ∧
      tok.manifest.project = P.project ∧ (tok.state = .prepared → Pristine g s)) :
    Good P t s { s.world with tokens := toks, reservations := ress } := by
  have hcalm : Calm s.world { s.world with tokens := toks, reservations := ress } :=
    ⟨rfl, rfl, rfl, rfl, prefix_rfl⟩
  refine hcalm.good hinv (fun a => ⟨?_, ?_, hinv.handles.staging⟩) ?_ prefix_rfl (fun _ hp => .inl hp)
    prefix_rfl (fun _ hp => .inl hp)
  · intro g' r hr
    rw [pristine_push_of_eq hcalm.generations]
    by_cases hg : g' = g
    · subst hg
      exact hres r hr
    · simp only [State.push_world, (hothers g' hg).1, (hothers g' hg).2] at hr ⊢
      exact hinv.handles.reservation g' r hr
  · intro g' tok hk
    rw [pristine_push_of_eq hcalm.generations]
    by_cases hg : g' = g
    · subst hg
      exact htok tok hk
    · simp only [State.push_world, (hothers g' hg).1, (hothers g' hg).2] at hk ⊢
      exact hinv.handles.token g' tok hk
  · intro t' hne g' ho
    have hg : g' ≠ g := by
      rintro rfl
      exact hmine t' hne ho
    exact hothers g' hg

/-- A token moves to a new state in the hands of its publisher, or of a call that takes it. -/
theorem good_tokenState {tok : PreparedToken} {st : TokenState}
    (htok : s.world.tokens.lookup g = some tok)
    (hmine : tok.state = .prepared ∨ tok.state = .publishing t)
    (hst : st = .publishing t ∨ st = .consumed ∨ st = .discarded ∨ (st = .prepared ∧ Pristine g s)) :
    Good P t s { s.world with tokens := s.world.tokens.insert g { tok with state := st } } := by
  obtain ⟨⟨r, hr, hprep⟩, hid, hproj, -⟩ := hinv.handles.token g tok htok
  refine good_handles hinv g _ s.world.reservations ?_ ?_ ?_ ?_
  · intro g' hg
    exact ⟨AList.lookup_insert_ne hg, rfl⟩
  · rintro t' hne (⟨tok', htok', hst'⟩ | ⟨r', hr', hst'⟩ | ⟨-, hnone, -⟩)
    · rw [htok] at htok'
      cases htok'
      rcases hmine with h | h
      · rw [h] at hst'
        cases hst'
      · rw [h] at hst'
        cases hst'
        exact hne rfl
    · rw [hr] at hr'
      cases hr'
      rw [hprep] at hst'
      cases hst'
    · rw [htok] at hnone
      cases hnone
  · intro r' hr'
    rw [hr] at hr'
    cases hr'
    refine ⟨(hinv.handles.reservation g r hr).1, ?_⟩
    rintro (h | ⟨t', h⟩)
    · rw [hprep] at h
      cases h
    · rw [hprep] at h
      cases h
  · intro tok' htok'
    rw [AList.lookup_insert] at htok'
    cases htok'
    refine ⟨⟨r, hr, hprep⟩, hid, hproj, ?_⟩
    rintro rfl
    rcases hst with h | h | h | ⟨-, h⟩
    · cases h
    · cases h
    · cases h
    · exact h

/-- A reservation without a token moves to a new state. -/
theorem good_reservation {r' : ReservationToken}
    (hlt : g < s.world.issued.length) (htok : s.world.tokens.lookup g = none)
    (hmine : ∀ t', t' ≠ t → ¬Owned t' g s.world)
    (hst : r'.state = .discarded ∨ Pristine g s) :
    Good P t s { s.world with reservations := s.world.reservations.insert g r' } := by
  refine good_handles hinv g s.world.tokens _ ?_ hmine ?_ ?_
  · intro g' hg
    exact ⟨rfl, AList.lookup_insert_ne hg⟩
  · intro r hr
    rw [AList.lookup_insert] at hr
    cases hr
    refine ⟨hlt, fun hopen => ⟨htok, ?_⟩⟩
    rcases hst with h | h
    · rcases hopen with h' | ⟨t', h'⟩
      · rw [h] at h'
        cases h'
      · rw [h] at h'
        cases h'
    · exact h
  · intro tok hk
    rw [htok] at hk
    cases hk

/-- The holder of a reservation registers the token of the prepared generation. -/
theorem good_registerToken {tok : PreparedToken}
    {r : ReservationToken} (hr : s.world.reservations.lookup g = some r)
    (hmine : r.state = .preparing t)
    (hid : tok.manifest.generationId = g) (hproj : tok.manifest.project = P.project)
    (hp : Pristine g s) :
    Good P t s { s.world with
      tokens := s.world.tokens.insert g tok
      reservations := s.world.reservations.insert g { r with state := .prepared } } := by
  refine good_handles hinv g _ _ ?_ ?_ ?_ ?_
  · intro g' hg
    exact ⟨AList.lookup_insert_ne hg, AList.lookup_insert_ne hg⟩
  · intro t' hne ho
    exact hne (Owned.unique P hinv.handles ho (.inr (.inl ⟨r, hr, hmine⟩)))
  · intro r' hr'
    rw [AList.lookup_insert] at hr'
    cases hr'
    refine ⟨(hinv.handles.reservation g r hr).1, ?_⟩
    rintro (h | ⟨t', h⟩)
    · cases h
    · cases h
  · intro tok' htok'
    rw [AList.lookup_insert] at htok'
    cases htok'
    exact ⟨⟨_, AList.lookup_insert _, rfl⟩, hid, hproj, fun _ => hp⟩

end

end Ariad
