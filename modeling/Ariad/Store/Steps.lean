import Ariad.Store.Frame

/-!
# Every operation within its precondition keeps the contract

The step lemma of the store (`safe_of_pre`): an operation that meets `Pre` keeps the invariant and
is interference that every other call relies on, whatever it returns. The steps on the files and on
the tables are good because their call holds the lock (or takes the free lock), and because `Pre`
asks of each of them what the invariant needs.
-/

namespace Ariad

open List Option

variable {P : Platform} {t : Tid} {call : Call} {s : StoreState} {w' : World}

/-! ## Steps on the files, under the lock -/

/-- The tables that some call sees: the committed ones, and those of the open transaction. -/
def World.Tables (w : World) (c : Cas) : Prop := c = w.cas ∨ ∃ x, w.txn = some x ∧ c = x.working

variable {w : World} {x : CasTransaction}

theorem catalogued_iff {g : GenerationId} :
    Catalogued g w ↔ ∃ c, w.Tables c ∧ (c.entry g).isSome := by
  constructor
  · rintro (h | ⟨x, hx, h⟩)
    · exact ⟨_, .inl rfl, h⟩
    · exact ⟨_, .inr ⟨x, hx, rfl⟩, h⟩
  · rintro ⟨c, rfl | ⟨x, hx, rfl⟩, h⟩
    · exact .inl h
    · exact .inr ⟨x, hx, h⟩

theorem CatalogOk.files {manifest : Option GenerationManifestV1} {gens gens' : GenFiles} {c : Cas}
    (h : CatalogOk P manifest gens c)
    (hrow : ∀ g e, c.entry g = some e → ∀ n : GenName, n.gen? = some g →
      (e.status = .active → gens'.lookup n = gens.lookup n) ∧
      (e.status = .deleted → gens.lookup n = none → gens'.lookup n = none)) :
    CatalogOk P manifest gens' c where
  manifest := h.manifest
  deleted g e he hst n hn := (hrow g e he n hn).2 hst (h.deleted g e he hst n hn)
  active g e he hst := by
    obtain ⟨m, hid, hm, hd⟩ := h.active g e he hst
    refine ⟨m, hid, hm.congr fun n hn => ?_, hd⟩
    rw [hid] at hn
    exact (hrow g e he n hn).1 hst

/-- Files may change as long as the manifest and the rows keep theirs. -/
theorem CoreOk.files (h : CoreOk P w) {gens' : GenFiles}
    (hman : ∀ m, w.manifest = some m → ∀ n : GenName, n.gen? = some m.generationId →
      gens'.lookup n = w.generations.lookup n)
    (hrow : ∀ c, w.Tables c → ∀ g e, c.entry g = some e → ∀ n : GenName, n.gen? = some g →
      (e.status = .active → gens'.lookup n = w.generations.lookup n) ∧
      (e.status = .deleted → w.generations.lookup n = none → gens'.lookup n = none)) :
    CoreOk P { w with generations := gens' } where
  manifest m hm := (h.manifest m hm).congr (hman m hm)
  catalog := h.catalog.files (hrow _ (.inl rfl))
  active := h.active
  history := h.history
  revision := h.revision
  txn x hx := by
    obtain ⟨hcat, hadv, hhist⟩ := h.txn x hx
    exact ⟨hcat.files (hrow _ (.inr ⟨x, hx, rfl⟩)), hadv, hhist⟩

section

variable (hinv : Inv P s)
include hinv

section

variable (hheld : Held t s.world)
include hheld

/-- A step on the files of the lock's holder. -/
theorem good_files {manifest' : Option GenerationManifestV1} {gens' : GenFiles}
    (hcore : CoreOk P { s.world with manifest := manifest', generations := gens' })
    (hfile : ∀ n f', gens'.lookup n = some f' →
      (∃ f, s.world.generations.lookup n = some f ∧ f.Grows f') ∨
      (¬EverBound n s ∧ n.uuid < s.world.issued.length ∧
        ∀ g, n.gen? = some g → Publishing t g s.world))
    (hlost : ∀ g n, n.gen? = some g → (s.world.generations.lookup n).isSome →
      gens'.lookup n = none → s.world.cas.entry g = none → ¬Catalogued g s.world) :
    Good P t s { s.world with manifest := manifest', generations := gens' } := by
  have hpristine : ∀ a g, Pristine g s →
      Pristine g (s.push t a { s.world with manifest := manifest', generations := gens' }) ∨
        Publishing t g s.world := by
    intro a g hp
    have step : ∀ n : GenName, n.gen? = some g → ¬EverBound n s →
        ¬EverBound n (s.push t a { s.world with manifest := manifest', generations := gens' }) ∨
          Publishing t g s.world := by
      intro n hn hnb
      rw [everBound_push]
      cases hl : gens'.lookup n with
      | none => exact .inl (by simp [hnb])
      | some f' =>
        rcases hfile n f' hl with ⟨f, hf, -⟩ | ⟨-, -, hpub⟩
        · exact absurd (.of_lookup hf) hnb
        · exact .inr (hpub g hn)
    rcases step (.db g) rfl hp.1 with h₁ | h₁
    · rcases step (.json g) rfl hp.2 with h₂ | h₂
      · exact .inl ⟨h₁, h₂⟩
      · exact .inr h₂
    · exact .inr h₁
  have hev : ∀ a, Evolves s
      (s.push t a { s.world with manifest := manifest', generations := gens' }) := fun a =>
    Evolves.push prefix_rfl prefix_rfl prefix_rfl (.refl _) fun _ h => h
  refine ⟨fun a => ⟨hcore, ?_, ?_, ?_⟩, fun a t' hne => ?_, hev⟩
  · refine hinv.names.push prefix_rfl ?_ (fun g hg => .inl hg) hlost fun t' ht' => .inr ht'
    intro n f' hf'
    rcases hfile n f' hf' with h | ⟨hnb, hlt, -⟩
    · exact .inl h
    · exact .inr ⟨hnb, hlt⟩
  · refine hinv.handles.frame prefix_rfl rfl rfl hinv.handles.staging fun g hp => ?_
    rcases hpristine a g hp with h | ⟨tok, htok, hst⟩
    · exact .inl h
    · exact .inr ⟨tok, t, htok, hst⟩
  · exact hinv.plans.frame (.refl _) rfl rfl
  · refine Rely.push hne (hev a) ?_ (fun hl => hl) ?_
    · intro hl
      rw [hheld] at hl
      cases hl
      exact absurd rfl hne
    · intro g ho
      refine ⟨rfl, rfl, fun hp => ?_⟩
      rcases hpristine a g hp with h | h
      · exact h
      · exact absurd (Owned.unique P hinv.handles ho (.inl h)) hne

/-- A temporary appears or grows. -/
theorem good_temp {n : GenName} {f' : File} (htemp : n.gen? = none)
    (hfile : (∃ f, s.world.generations.lookup n = some f ∧ f.Grows f') ∨
      (¬EverBound n s ∧ n.uuid < s.world.issued.length)) :
    Good P t s { s.world with generations := s.world.generations.insert n f' } := by
  have hfinal : ∀ n' : GenName, ∀ g, n'.gen? = some g →
      (s.world.generations.insert n f').lookup n' = s.world.generations.lookup n' := by
    intro n' g hn'
    refine AList.lookup_insert_ne ?_
    rintro rfl
    rw [htemp] at hn'
    cases hn'
  refine good_files hinv hheld (hinv.core.files ?_ ?_) ?_ ?_
  · intro m _ n' hn'
    exact hfinal n' _ hn'
  · intro c _ g e _ n' hn'
    rw [hfinal n' g hn']
    exact ⟨fun _ => rfl, fun _ h => h⟩
  · intro n' f hf
    by_cases hn : n' = n
    · subst hn
      rw [AList.lookup_insert] at hf
      cases hf
      rcases hfile with h | ⟨hnb, hlt⟩
      · exact .inl h
      · refine .inr ⟨hnb, hlt, fun g hg => ?_⟩
        rw [htemp] at hg
        cases hg
    · rw [AList.lookup_insert_ne hn] at hf
      exact .inl ⟨f, hf, .refl f⟩
  · intro g n' hn' hb hnone _
    rw [hfinal n' g hn'] at hnone
    rw [hnone] at hb
    cases hb

/-- A final name is bound for the first time, by the publisher of a generation without a row. -/
theorem good_link {n : GenName} {f' : File}
    {g : GenerationId} (hn : n.gen? = some g) (hpub : Publishing t g s.world)
    (hnb : ¬EverBound n s) (hcat : ¬Catalogued g s.world) :
    Good P t s { s.world with generations := s.world.generations.insert n f' } := by
  have hother : ∀ n' : GenName, ∀ g', n'.gen? = some g' → g' ≠ g →
      (s.world.generations.insert n f').lookup n' = s.world.generations.lookup n' := by
    intro n' g' hn' hne
    refine AList.lookup_insert_ne ?_
    rintro rfl
    rw [hn] at hn'
    cases hn'
    exact hne rfl
  have hlt : n.uuid < s.world.issued.length := by
    obtain ⟨tok, htok, -⟩ := hpub
    obtain ⟨⟨r, hr, -⟩, -⟩ := hinv.handles.token g tok htok
    rw [GenName.uuid_of_gen? hn]
    exact (hinv.handles.reservation g r hr).1
  refine good_files hinv hheld (hinv.core.files ?_ ?_) ?_ ?_
  · intro m hm n' hn'
    refine hother n' _ hn' ?_
    rintro rfl
    exact hnb (.inl ((hinv.core.manifest m hm).bound hn))
  · intro c hc g' e he n' hn'
    have hne : g' ≠ g := by
      rintro rfl
      exact hcat (catalogued_iff.mpr ⟨c, hc, by rw [he]; rfl⟩)
    rw [hother n' g' hn' hne]
    exact ⟨fun _ => rfl, fun _ h => h⟩
  · intro n' f hf
    by_cases hnn : n' = n
    · subst hnn
      refine .inr ⟨hnb, hlt, fun g' hg' => ?_⟩
      rw [hn] at hg'
      cases hg'
      exact hpub
    · rw [AList.lookup_insert_ne hnn] at hf
      exact .inl ⟨f, hf, .refl f⟩
  · intro g' n' _ hb hnone _
    have hnn : n' ≠ n := by
      rintro rfl
      rw [AList.lookup_insert] at hnone
      cases hnone
    rw [AList.lookup_insert_ne hnn] at hnone
    rw [hnone] at hb
    cases hb

/-- A file is removed that no manifest and no `ACTIVE` row needs. -/
theorem good_unlink {n : GenName} (hok : UnlinkOk P call n s) :
    Good P t s { s.world with generations := s.world.generations.erase n } := by
  have hkeep : ∀ n' : GenName, n' ≠ n →
      (s.world.generations.erase n).lookup n' = s.world.generations.lookup n' := fun n' hne =>
    AList.lookup_erase_ne hne
  have hnone : ∀ n' : GenName, s.world.generations.lookup n' = none →
      (s.world.generations.erase n).lookup n' = none := by
    intro n' h
    by_cases hnn : n' = n
    · subst hnn
      exact AList.lookup_erase _ _
    · rw [hkeep n' hnn]
      exact h
  refine good_files hinv hheld (hinv.core.files ?_ ?_) ?_ ?_
  · intro m hm n' hn'
    refine hkeep n' ?_
    rintro rfl
    exact (hok.final _ hn').1.manifest m hm rfl
  · intro c hc g e he n' hn'
    refine ⟨fun hst => hkeep n' ?_, fun _ => hnone n'⟩
    rintro rfl
    obtain ⟨-, hrow, hw⟩ := hok.final g hn'
    rcases hc with rfl | ⟨x, hx, rfl⟩
    · exact hrow e he hst
    · rw [hw x hx] at he
      exact hrow e he hst
  · intro n' f hf
    have hnn : n' ≠ n := by
      rintro rfl
      rw [AList.lookup_erase] at hf
      cases hf
    rw [hkeep n' hnn] at hf
    exact .inl ⟨f, hf, .refl f⟩
  · intro g n' hn' hb hgone hrow
    have hnn : n' = n := by
      by_contra hne
      rw [hkeep n' hne] at hgone
      rw [hgone] at hb
      cases hb
    subst hnn
    obtain ⟨-, -, hw⟩ := hok.final g hn'
    rintro (h | ⟨x, hx, h⟩)
    · rw [hrow] at h
      cases h
    · rw [hw x hx, hrow] at h
      cases h

/-- The manifest is replaced by that of a complete generation. -/
theorem good_rename {m : GenerationManifestV1} (hok : RenameOk P t call m s.world) :
    Good P t s { s.world with manifest := some m } := by
  have hcat : ∀ c, CatalogOk P s.world.manifest s.world.generations c →
      (∀ e, c.entry m.generationId = some e → e.status = .active) →
      CatalogOk P (some m) s.world.generations c := by
    intro c h hrow
    refine ⟨?_, h.deleted, h.active⟩
    intro m' e hm' he
    cases hm'
    exact hrow e he
  refine good_files hinv hheld ?_ ?_ ?_
  · refine ⟨?_, hcat _ hinv.core.catalog hok.row, hinv.core.active, hinv.core.history,
      hinv.core.revision, ?_⟩
    · intro m' hm'
      cases hm'
      exact hok.complete
    · intro x hx
      obtain ⟨hc, hadv, hhist⟩ := hinv.core.txn x hx
      exact ⟨hcat _ hc (hok.workingRow x · hx), hadv, hhist⟩
  · intro n f hf
    exact .inl ⟨f, hf, .refl f⟩
  · intro g n _ hb hnone _
    rw [hnone] at hb
    cases hb

end

/-! ## Steps on the tables -/

/-- A step on the tables: of the lock's holder, or of a call that takes the free lock. -/
theorem good_cas (c' : Cas) (tx' : Option CasTransaction)
    (hlock : Held t s.world ∨ s.world.lockOwner = none) (howner : ∀ x, tx' = some x → x.owner = t)
    (hcore : CoreOk P { s.world with cas := c', txn := tx' })
    (hrow : ∀ g, Catalogued g { s.world with cas := c', txn := tx' } → Catalogued g s.world ∨
      ∀ n : GenName, n.gen? = some g → (s.world.generations.lookup n).isSome)
    (hrev : Cas.RevSound s.world.cas c')
    (hrows : ∀ g, (s.world.cas.entry g).isSome → (c'.entry g).isSome) :
    Good P t s { s.world with cas := c', txn := tx' } := by
  have hev : ∀ a, Evolves s (s.push t a { s.world with cas := c', txn := tx' }) := fun a =>
    Evolves.push prefix_rfl prefix_rfl prefix_rfl hrev hrows
  have hpristine : ∀ a g,
      Pristine g (s.push t a { s.world with cas := c', txn := tx' }) ↔ Pristine g s := fun a g =>
    pristine_push_of_eq rfl
  have hmine : ∀ t', tx'.map (·.owner) = some t' → t' = t := by
    intro t' ht'
    rw [map_eq_some_iff] at ht'
    obtain ⟨x, hx, rfl⟩ := ht'
    exact howner x hx
  refine ⟨fun a => ⟨hcore, ?_, ?_, ?_⟩, fun a t' hne => ?_, hev⟩
  · refine hinv.names.push prefix_rfl ?_ hrow ?_ fun t' ht' => .inl (hmine t' ht')
    · intro n f hf
      exact .inl ⟨f, hf, .refl f⟩
    · intro g n _ hb hnone _
      rw [hnone] at hb
      cases hb
  · exact hinv.handles.frame prefix_rfl rfl rfl hinv.handles.staging fun g hp =>
      .inl ((hpristine a g).mpr hp)
  · exact hinv.plans.frame hrev rfl rfl
  · refine Rely.push hne (hev a) ?_ ?_ ?_
    · intro hl
      rcases hlock with h | h
      · rw [h] at hl
        cases hl
        exact absurd rfl hne
      · rw [h] at hl
        cases hl
    · intro hl
      exact absurd (hmine t' hl) hne
    · intro g _
      exact ⟨rfl, rfl, (hpristine a g).mpr⟩

end

theorem CoreOk.dropTxn (h : CoreOk P w) : CoreOk P { w with txn := none } :=
  ⟨h.manifest, h.catalog, h.active, h.history, h.revision, by intro x hx; cases hx⟩

/-- The transaction of the call ends without its changes. -/
theorem good_dropTxn (hinv : Inv P s) : Good P t s (s.world.dropTxn t) := by
  unfold World.dropTxn
  split
  · rename_i x hx
    split
    · rename_i hown
      refine good_cas hinv s.world.cas none (.inl ?_) ?_ hinv.core.dropTxn ?_
        (.refl _) (fun _ h => h)
      · simp only [Held, World.lockOwner, hx, map_some, hown]
      · intro x hx
        cases hx
      · rintro g (h | ⟨x, hx, -⟩)
        · exact .inl (.inl h)
        · cases hx
    · exact good_quiet hinv
  · exact good_quiet hinv

/-- The call opens a transaction. -/
theorem good_begin (hinv : Inv P s) (hnone : s.world.txn = none) :
    Good P t s { s.world with txn := some ⟨t, s.world.cas, s.world.cas⟩ } := by
  refine good_cas hinv s.world.cas _ (.inr ?_) ?_ ?_ ?_ (.refl _) (fun _ h => h)
  · simp only [World.lockOwner, hnone, map_none]
  · intro x hx
    cases hx
    rfl
  · have hc := hinv.core
    refine ⟨hc.manifest, hc.catalog, hc.active, hc.history, hc.revision, ?_⟩
    intro x hx
    cases hx
    exact ⟨hc.catalog, .refl _, hc.history⟩
  · rintro g (h | ⟨x, hx, h⟩)
    · exact .inl (.inl h)
    · cases hx
      exact .inl (.inl h)

theorem held_of_txn (hx : w.txn = some x) (hown : x.owner = t) : Held t w := by
  simp only [Held, World.lockOwner, hx, map_some, hown]

/-- A row stays. -/
theorem Cas.Advances.isSome {c c' : Cas} (h : Cas.Advances c c') (g : GenerationId)
    (hs : (c.entry g).isSome) : (c'.entry g).isSome := by
  obtain ⟨e, he⟩ := isSome_iff_exists.mp hs
  obtain ⟨e', he', -⟩ := h.row g e he
  rw [he']
  rfl

/-- The call commits. -/
theorem good_commit (hinv : Inv P s) (hx : s.world.txn = some x)
    (hown : x.owner = t) (hactive : x.working.ActiveOk)
    (hrevision : x.working.revision = x.working.history.length)
    (hrev : Cas.RevSound s.world.cas x.working) :
    Good P t s { s.world with cas := x.working, txn := none } := by
  obtain ⟨hcat, hadv, hhist⟩ := hinv.core.txn x hx
  refine good_cas hinv _ _ (.inl (held_of_txn hx hown)) ?_ ?_ ?_ hrev hadv.isSome
  · intro y hy
    cases hy
  · exact ⟨hinv.core.manifest, hcat, hactive, hhist, hrevision, by intro y hy; cases hy⟩
  · rintro g (h | ⟨y, hy, -⟩)
    · exact .inl (.inr ⟨x, hx, h⟩)
    · cases hy

/-- A statement changes the tables of the open transaction. -/
theorem good_stmt (hinv : Inv P s) (hx : s.world.txn = some x)
    (hown : x.owner = t) {stmt : CasStmt} {c : Cas} (hok : StmtOk P call stmt x c s.world) :
    Good P t s { s.world with txn := some { x with working := c } } := by
  have hc := hinv.core
  refine good_cas hinv s.world.cas _ (.inl (held_of_txn hx hown)) ?_ ?_ ?_ (.refl _)
    (fun _ h => h)
  · intro y hy
    cases hy
    exact hown
  · refine ⟨hc.manifest, hc.catalog, hc.active, hc.history, hc.revision, ?_⟩
    intro y hy
    cases hy
    exact ⟨hok.catalog, hok.advances, hok.history⟩
  · rintro g (h | ⟨y, hy, h⟩)
    · exact .inl (.inl h)
    · cases hy
      cases hg : s.world.cas.entry g with
      | some e => exact .inl (.inl (by rw [hg]; rfl))
      | none =>
        -- a new row is `ACTIVE`, so its generation is complete
        obtain ⟨e, he⟩ := isSome_iff_exists.mp h
        obtain ⟨m, rfl, hm, -⟩ := hok.catalog.active g e he (hok.advances.fresh g e hg he)
        exact .inr fun n hn => hm.bound hn

/-! ## The step lemma -/

/-- The outcome of an operation that the choice lets fail. -/
theorem exec_fault {ch : Choice} {o : Op} (hf : ch.fault ∧ o.fallible) :
    (exec P t ch w o).2 = w ∨ (exec P t ch w o).2 = w.dropTxn t := by
  unfold exec
  rw [if_pos hf]
  split
  · split
    · exact .inr rfl
    · exact .inl rfl
  · exact .inl rfl

theorem exec_eq {ch : Choice} {o : Op} (hf : ¬(ch.fault ∧ o.fallible)) :
    exec P t ch w o = execOp P t ch w o := if_neg hf

theorem FileData.grows_append {P : Platform} {d : FileData} (h : ∃ b, d = .raw b) (b' : Bytes) :
    d.Grows (.raw (P.content d ++ b')) := by
  obtain ⟨b, rfl⟩ := h
  exact .raw (prefix_append _ _)

theorem good_execOp (hinv : Inv P s) {o : Op} (hpre : Pre P t call s o) (ch : Choice) :
    Good P t s (execOp P t ch s.world o).2 := by
  have hq : Good P t s s.world := good_quiet hinv
  cases o with
  | randomUUID => exact good_issue hinv
  | renameManifest m => exact good_rename hinv hpre.1 hpre.2
  | createExclusive n =>
    obtain ⟨hheld, htemp, hnb, hlt⟩ := hpre
    simp only [execOp]
    split
    · exact hq
    · exact good_temp hinv hheld htemp (.inr ⟨hnb, hlt⟩)
  | writeBytes n b =>
    obtain ⟨hheld, htemp, hraw⟩ := hpre
    simp only [execOp]
    split
    · exact hq
    · rename_i f hf
      exact good_temp hinv hheld htemp (.inl ⟨f, hf, rfl, FileData.grows_append (hraw f hf) _⟩)
  | writeMetadata n m offset =>
    obtain ⟨hheld, htemp, hside⟩ := hpre
    simp only [execOp]
    split
    · exact hq
    · rename_i f hf
      refine good_temp hinv hheld htemp (.inl ⟨f, hf, rfl, ?_⟩)
      rcases hside f hf with h | ⟨h, rfl⟩
      · rw [h]
        exact .sidecar m (Nat.le_add_right _ _)
      · rw [h]
        exact .start m _
  | link src dst =>
    obtain ⟨hheld, g, hg, hpub, hnb, hcat⟩ := hpre
    simp only [execOp]
    split
    · exact hq
    · exact hq
    · exact good_link hinv hheld hg hpub hnb hcat
  | unlink n =>
    simp only [execOp]
    split
    · exact hq
    · exact good_unlink hinv hpre.1 hpre.2
  | createStaging g =>
    simp only [execOp]
    split
    · exact hq
    · exact good_stagingInsert hinv _ hpre
  | backupStaging g b =>
    simp only [execOp]
    split
    · rename_i f r hf hr
      split
      · exact good_stagingInsert hinv _ (hinv.handles.staging g (by rw [hf]; rfl))
      · exact hq
    · exact hq
  | unlinkStaging g =>
    simp only [execOp]
    split
    · exact hq
    · exact good_stagingErase hinv g
  | casBegin =>
    simp only [execOp]
    split
    · rename_i hnone
      exact good_begin hinv hnone
    · exact hq
  | casCommit =>
    simp only [execOp]
    split
    · rename_i x hx
      split
      · rename_i hown
        obtain ⟨hactive, hrevision, hrev⟩ := hpre x hx hown
        exact good_commit hinv hx hown hactive hrevision hrev
      · exact hq
    · exact hq
  | casRollback => exact good_dropTxn hinv
  | casClose => exact good_dropTxn hinv
  | casExec stmt =>
    simp only [execOp]
    split
    · rename_i x hx
      split
      · rename_i hown
        split
        · rename_i c k hrun
          exact good_stmt hinv hx hown (hpre x c k hx hown hrun)
        · exact hq
      · exact hq
    · exact hq
  | takeToken g publish =>
    simp only [execOp]
    split
    · exact hq
    · rename_i tok htok
      split
      · rename_i hst
        refine good_tokenState hinv htok (.inl hst) ?_
        cases publish
        · exact .inr (.inr (.inl rfl))
        · exact .inl rfl
      · exact hq
  | setTokenState g st =>
    obtain ⟨hst, htok'⟩ := hpre
    simp only [execOp]
    split
    · exact hq
    · rename_i tok htok
      obtain ⟨hmine, hp⟩ := htok' tok htok
      refine good_tokenState hinv htok (.inr hmine) ?_
      rcases hst with rfl | rfl
      · exact .inr (.inr (.inr ⟨rfl, hp rfl⟩))
      · exact .inr (.inl rfl)
  | takeReservation g =>
    simp only [execOp]
    split
    · exact hq
    · rename_i r hr
      split
      · rename_i hst
        obtain ⟨hlt, hopen⟩ := hinv.handles.reservation g r hr
        obtain ⟨hnone, hp⟩ := hopen (.inl hst)
        refine good_reservation hinv hlt hnone ?_ (.inr hp)
        rintro t' - (⟨tok, htok, -⟩ | ⟨r', hr', hst'⟩ | ⟨-, -, hnr⟩)
        · rw [hnone] at htok
          cases htok
        · rw [hr] at hr'
          cases hr'
          rw [hst] at hst'
          cases hst'
        · rw [hr] at hnr
          cases hnr
      · exact hq
  | dropReservation g =>
    simp only [execOp]
    split
    · exact hq
    · rename_i r hr
      split
      · rename_i hst
        have hnone : s.world.tokens.lookup g = none := by
          cases htok : s.world.tokens.lookup g with
          | none => rfl
          | some tok =>
            obtain ⟨⟨r', hr', hprep⟩, -⟩ := hinv.handles.token g tok htok
            rw [hr] at hr'
            cases hr'
            rw [hprep] at hst
            rcases hst with h | h <;> cases h
        refine good_reservation hinv (hinv.handles.reservation g r hr).1 hnone ?_ (.inl rfl)
        rintro t' - (⟨tok, htok, -⟩ | ⟨r', hr', hst'⟩ | ⟨-, -, hnr⟩)
        · rw [hnone] at htok
          cases htok
        · rw [hr] at hr'
          cases hr'
          rw [hst'] at hst
          rcases hst with h | h <;> cases h
        · rw [hr] at hnr
          cases hnr
      · exact hq
  | setReservation g r =>
    obtain ⟨hmine, hlt, hst⟩ := hpre
    have hnone : s.world.tokens.lookup g = none := by
      rcases hmine with ⟨r', hr', hst'⟩ | ⟨-, h, -⟩
      · exact ((hinv.handles.reservation g r' hr').2 (.inr ⟨t, hst'⟩)).1
      · exact h
    refine good_reservation hinv hlt hnone ?_ ?_
    · intro t' hne ho
      exact hne (Owned.unique P hinv.handles ho (.inr hmine))
    · rcases hst with ⟨-, hp⟩ | h
      · exact .inr hp
      · exact .inl h
  | registerToken g tok =>
    obtain ⟨⟨r, hr, hmine⟩, -, hid, hproj, hp⟩ := hpre
    simp only [execOp, hr]
    exact good_registerToken hinv hr hmine hid hproj hp
  | registerGcPlan p => exact good_gcPlan hinv hpre
  | registerOrphanPlan p => exact good_orphanPlan hinv hpre
  | _ => exact hq

/-- **The step lemma of the store.** An operation within its precondition keeps the contract. -/
theorem safe_of_pre (hinv : Inv P s) {o : Op} (hpre : Pre P t call s o) {ch : Choice}
    {r : Except Errno o.Val} (hexec : exec P t ch s.world o = (r, w')) :
    (storeDiscipline P).Safe t call o r s (s.push t (.op o r) w') := by
  have hgood : Good P t s w' := by
    by_cases hf : ch.fault ∧ o.fallible
    · have hw : (exec P t ch s.world o).2 = w' := by rw [hexec]
      rcases exec_fault (P := P) (t := t) (w := s.world) hf with h | h
      · rw [h] at hw
        rw [← hw]
        exact good_quiet hinv
      · rw [h] at hw
        rw [← hw]
        exact good_dropTxn hinv
    · have hgood := good_execOp hinv hpre ch
      rw [exec_eq hf] at hexec
      rw [hexec] at hgood
      exact hgood
  exact ⟨hgood.inv _, ⟨hpre, hgood.evolves _⟩, hgood.rely _⟩

end Ariad
