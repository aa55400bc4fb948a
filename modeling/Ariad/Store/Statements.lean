import Ariad.Store.Locked

/-!
# The methods of `CasStore`, under the lock

One rule for each method of the CAS store, in terms of views. The statements they are made of change
one row, or the singleton, or append to the history; `TablesOk` is what has to be kept.

* `Pending V` — the open transaction has counted what it did: if it changed the tables, it has
  incremented the revision.
-/

namespace Ariad

variable {P : Platform} {σ : Type} {t : Tid} {call : Call} {V : View} {l : σ}

/-! ## Tables -/

/-- Tables that the open transaction may have. -/
structure TablesOk (P : Platform) (V : View) (c : Cas) : Prop where
  catalog : CatalogOk P V.manifest V.generations c
  advances : Cas.Advances V.cas c
  history : c.HistoryOk

variable {g : GenerationId} {e : CasGenerationCatalogEntry} {s : StoreState}

variable {c c' : Cas}

theorem ViewOk.tables (h : ViewOk P V) : TablesOk P V V.working :=
  ⟨h.working, h.advances, h.history⟩

theorem CatalogOk.of_entry {manifest : Option GenerationManifestV1} {gens : GenFiles}
    (h : CatalogOk P manifest gens c) (hc : ∀ g, c'.entry g = c.entry g) :
    CatalogOk P manifest gens c' where
  manifest m e hm he := h.manifest m e hm (by rw [← hc]; exact he)
  deleted g e he := h.deleted g e (by rw [← hc]; exact he)
  active g e he := h.active g e (by rw [← hc]; exact he)

theorem Cas.Advances.of_entry {c₀ c c' : Cas} (h : Cas.Advances c₀ c)
    (hc : ∀ g, c'.entry g = c.entry g) (hhist : c.history <+: c'.history) : Cas.Advances c₀ c' where
  row g e he := by
    rw [hc]
    exact h.row g e he
  fresh g e' hn he := h.fresh g e' hn (by rw [← hc]; exact he)
  history := h.history.trans hhist

/-- A change that leaves the rows alone. -/
theorem TablesOk.of_entry (h : TablesOk P V c) (hc : ∀ g, c'.entry g = c.entry g)
    (hhist : c'.history = c.history) : TablesOk P V c' :=
  ⟨h.catalog.of_entry hc, h.advances.of_entry hc ⟨[], by rw [hhist, List.append_nil]⟩, h.history.of_history hhist⟩

/-- One row of the catalog is set to `e`. -/
theorem TablesOk.setRow
    (h : TablesOk P V c) (hc : ∀ g', c'.entry g' = if g' = g then some e else c.entry g')
    (hhist : c'.history = c.history)
    (hmanifest : ∀ m, V.manifest = some m → m.generationId = g → e.status = .active)
    (hdeleted : e.status = .deleted → ∀ n : GenName, n.gen? = some g →
      V.generations.lookup n = none) (hactive : e.status = .active →
      ∃ m, m.generationId = g ∧ Complete P V.generations m ∧ e.Describes m)
    (hrow : ∀ e₀, V.cas.entry g = some e₀ → RowAdvances e₀ e)
    (hfresh : V.cas.entry g = none → e.status = .active) : TablesOk P V c' where
  catalog := by
    refine ⟨?_, ?_, ?_⟩
    · intro m e' hm he'
      rw [hc] at he'
      split at he'
      · rename_i hg
        cases he'
        exact hmanifest m hm hg
      · exact h.catalog.manifest m e' hm he'
    · intro g' e' he' hst
      rw [hc] at he'
      split at he'
      · rename_i hg
        subst hg
        cases he'
        exact hdeleted hst
      · exact h.catalog.deleted g' e' he' hst
    · intro g' e' he' hst
      rw [hc] at he'
      split at he'
      · rename_i hg
        subst hg
        cases he'
        exact hactive hst
      · exact h.catalog.active g' e' he' hst
  advances := by
    refine ⟨?_, ?_, by rw [hhist]; exact h.advances.history⟩
    · intro g' e₀ he₀
      rw [hc]
      split
      · rename_i hg
        subst hg
        exact ⟨e, rfl, hrow e₀ he₀⟩
      · exact h.advances.row g' e₀ he₀
    · intro g' e' hn he'
      rw [hc] at he'
      split at he'
      · rename_i hg
        subst hg
        cases he'
        exact hfresh hn
      · exact h.advances.fresh g' e' hn he'
  history := h.history.of_history hhist

/-- A row keeps its immutable columns and its status: nothing is asked of the other columns. -/
theorem TablesOk.updateRow
    {f : CasMutableColumns → CasMutableColumns} (h : TablesOk P V c) (he : c.entry g = some e)
    (hf : (f e.toCasMutableColumns).status = e.status) :
    TablesOk P V { c with catalog := c.catalog.update g f } := by
  have hst : ({ e with toCasMutableColumns := f e.toCasMutableColumns } :
      CasGenerationCatalogEntry).status = e.status := hf
  refine h.setRow (g := g) (e := { e with toCasMutableColumns := f e.toCasMutableColumns })
    ?_ rfl ?_ ?_ ?_ ?_ ?_
  · intro g'
    rw [Cas.entry_update]
    split
    · rename_i hg
      subst hg
      rw [he]
      rfl
    · rfl
  · rintro m hm rfl
    exact hst.trans (h.catalog.manifest m e hm he)
  · intro hd
    exact h.catalog.deleted g e he (hst.symm.trans hd)
  · intro ha
    obtain ⟨m, hid, hm, hd⟩ := h.catalog.active g e he (hst.symm.trans ha)
    exact ⟨m, hid, hm, hd⟩
  · intro e₀ he₀
    obtain ⟨e', he', hrow⟩ := h.advances.row g e₀ he₀
    rw [he] at he'
    cases he'
    refine ⟨hrow.immutable, ?_⟩
    rw [hst]
    exact hrow.status
  · intro hn
    exact hst.trans (h.advances.fresh g e hn he)

/-- What a statement has to keep, as a fact about the view. -/
theorem TablesOk.stmtOk {x : CasTransaction} {stmt : CasStmt}
    (h : TablesOk P V c) (hat : At t V s) (hx : x.working = V.working)
    (hstatus : ∀ g st, stmt = .updateStatus g st → DeletionOk call g s.world)
    (hrev : ∀ g project at_ action prev rev, stmt = .insertHistory g project at_ action prev rev →
      rev = V.working.revision) : StmtOk P call stmt x c s.world := by
  refine ⟨?_, ?_, h.history, hstatus, ?_⟩
  · rw [hat.manifest, hat.generations]
    exact h.catalog
  · rw [hat.cas]
    exact h.advances
  · rw [hx]
    exact hrev

/-- A statement that neither moves a status nor records an act. -/
def CasStmt.plain : CasStmt → Bool
  | .updateStatus _ _ => false
  | .insertHistory _ _ _ _ _ _ => false
  | _ => true

theorem at_plain {stmt : CasStmt} (hplain : stmt.plain = true)
    (hok : ∀ c k, stmt.run V.working = some (c, k) → TablesOk P V c) :
    AtTriple P t call l V (op (.casExec stmt))
      (fun (k : ℕ) l' s => ∃ c, stmt.run V.working = some (c, k) ∧ AtL t l (V.withTables c) l' s)
      (FailedAt t l V) := by
  refine at_casExec fun s x c k _ hat hrun hx => (hok c k hrun).stmtOk hat hx ?_ ?_
  · rintro g st rfl
    cases hplain
  · rintro g project at_ action prev rev rfl
    cases hplain

/-! ## Reading -/

theorem at_getActiveGenerationId : AtTriple P t call l V CasStore.getActiveGenerationId
    (fun a l' s => a = V.working.activeGenerationId ∧ AtL t l V l' s)
    (FailedAt t l V) :=
  at_casRead.bind fun _ => .assume fun hc => .pure fun _ _ _ h => ⟨by rw [hc], h⟩

theorem at_getRevision : AtTriple P t call l V CasStore.getRevision
    (fun n l' s => n = V.working.revision ∧ AtL t l V l' s)
    (FailedAt t l V) :=
  at_casRead.bind fun _ => .assume fun hc => .pure fun _ _ _ h => ⟨by rw [hc], h⟩

theorem at_getGenerationCatalogEntry :
    AtTriple P t call l V (CasStore.getGenerationCatalogEntry g)
      (fun e l' s => e = V.working.entry g ∧ AtL t l V l' s)
      (FailedAt t l V) :=
  at_casRead.bind fun _ => .assume fun hc => .pure fun _ _ _ h => ⟨by rw [hc], h⟩

/-! ## Losing the way -/

/-- An exception that is not the comparison's, with what is left of the view. -/
def Lost (t : Tid) (l : σ) (V : View) (e : Err) (l' : σ) (s : StoreState) : Prop :=
  e ≠ .store .publicationCasMismatch ∧ AfterL t l V l' s

theorem IsErrno.ne_store {e : Err} (h : IsErrno e) (c : ErrorCode) : e ≠ .store c := by
  obtain ⟨n, rfl⟩ := h
  nofun

theorem Lost.of_errno {e : Err} {l' : σ} (h : IsErrno e ∧ AtL t l V l' s) :
    Lost t l V e l' s := ⟨h.1.ne_store _, h.2.after⟩

/-- What the tables of the transaction are does not matter without the lock. -/
theorem After.of_tables (h : After t (V.withTables c) s) :
    After t V s := ⟨h.token, h.pristine, h.writes, h.untouched, h.know, h.lasting⟩

theorem Lost.of_tables {e : Err} {l' : σ}
    (h : Lost t l (V.withTables c) e l' s) : Lost t l V e l' s := ⟨h.1, h.2.1, h.2.2.of_tables⟩

theorem lost_fail {α : Type} {c : ErrorCode} {Q : α → σ → StoreState → Prop}
    (hc : c ≠ .publicationCasMismatch) :
    AtTriple P t call l V (fail c : StoreM σ α) Q (Lost t l V) :=
  .throw fun _ _ _ h => ⟨by simpa using hc, h.after⟩

theorem lost_fail_tables {α : Type} {code : ErrorCode} {Q : α → σ → StoreState → Prop}
    (hc : code ≠ .publicationCasMismatch) :
    StoreTriple P t call (AtL t l (V.withTables c)) (fail code : StoreM σ α) Q (Lost t l V) :=
  .throw fun _ _ _ h => ⟨by simpa using hc, h.1, h.2.toAfter.of_tables⟩

/-! ## Changing -/

theorem at_setActiveGenerationId {g : Option GenerationId} :
    AtTriple P t call l V (CasStore.setActiveGenerationId g)
      (fun _ => AtL t l (V.withTables { V.working with activeGenerationId := g }))
      (Lost t l V) := by
  refine at_viewOk fun hV => ?_
  refine (at_plain rfl ?_).seq (fun _ _ _ _ => Lost.of_errno) fun k => .pure ?_
  · intro c k hrun
    cases hrun
    exact hV.tables.of_entry (fun _ => rfl) rfl
  · rintro l s - ⟨c, hrun, h⟩
    cases hrun
    exact h

/-- The revision and the history go up together. -/
theorem at_appendPublicationHistory {project : String} {action : HistoryAction}
    {prev : Option GenerationId} (hrev : V.working.revision = V.working.history.length) :
    AtTriple P t call l V (CasStore.appendPublicationHistory g project action prev)
      (fun _ l' s => ∃ now,
        AtL t l (V.withTables (V.working.appended g project now action prev)) l' s)
      (Lost t l V) := by
  refine at_viewOk fun hV => ?_
  refine (at_idle rfl).seq (fun _ _ _ _ => Lost.of_errno) fun now => ?_
  refine (at_plain rfl ?_).seq (fun _ _ _ _ => Lost.of_errno) fun k => ?_
  · intro c k hrun
    cases hrun
    exact hV.tables.of_entry (fun _ => rfl) rfl
  refine .exists fun c => .assume fun hrun => ?_
  cases hrun
  refine at_getRevision.seq (fun _ _ _ _ h => (Lost.of_errno h).of_tables) fun n => ?_
  refine .assume ?_
  rintro rfl
  refine Discipline.Triple.seq (at_casExec ?_)
    (fun _ _ _ _ h => (Lost.of_errno h).of_tables) fun k => .pure ?_
  · intro s x c k hinv hat hrun hx
    cases hrun
    have htables : TablesOk P (V.withTables { V.working with revision := V.working.revision + 1 })
        (V.working.appended g project now action prev) := by
      refine ⟨hV.working.of_entry fun _ => rfl, ?_, ?_⟩
      · exact hV.advances.of_entry (fun _ => rfl) (List.prefix_append _ _)
      · exact hV.history.insertHistory _ rfl (by rw [hrev]) rfl
    refine htables.stmtOk hat hx (by rintro _ _ h; cases h) ?_
    rintro g' project' at' action' prev' rev' heq
    cases heq
    rfl
  · rintro l s - ⟨c, hrun, h⟩
    cases hrun
    exact ⟨now, h⟩

/-! ### Rows -/

/-- A change of the catalog alone. -/
structure SameBook (c c' : Cas) : Prop where
  active : c'.activeGenerationId = c.activeGenerationId
  revision : c'.revision = c.revision
  history : c'.history = c.history

/-- Every row keeps its status. -/
def SameStatus (c c' : Cas) : Prop :=
  ∀ g, (c'.entry g).map (·.status) = (c.entry g).map (·.status)

theorem Cas.ActiveOk.of_status (h : c.ActiveOk)
    (ha : c'.activeGenerationId = c.activeGenerationId) (hst : SameStatus c c') : c'.ActiveOk := by
  intro g hg
  rw [ha] at hg
  obtain ⟨e, he, hact⟩ := h g hg
  have hrow := hst g
  rw [he] at hrow
  simp only [Option.map_some, Option.map_eq_some_iff] at hrow
  obtain ⟨e', he', hst'⟩ := hrow
  exact ⟨e', he', hst'.trans hact⟩

theorem TablesOk.updatePinned {pinned : Bool} (h : TablesOk P V c) :
    TablesOk P V { c with catalog := c.catalog.update g fun m => { m with pinned := pinned } } := by
  cases he : c.entry g with
  | none =>
    refine h.of_entry (fun g' => ?_) rfl
    rw [Cas.entry_update]
    split
    · rename_i hg
      subst hg
      rw [he]
      rfl
    · rfl
  | some e => exact h.updateRow he rfl

theorem sameStatus_updatePinned (c : Cas) (g : GenerationId) (pinned : Bool) :
    SameStatus c { c with catalog := c.catalog.update g fun m => { m with pinned := pinned } } := by
  intro g'
  rw [Cas.entry_update]
  split
  · rw [Option.map_map]
    rfl
  · rfl

theorem at_setCatalogPinned {pinned : Bool} :
    AtTriple P t call l V (CasStore.setCatalogPinned g pinned)
      (fun _ l' s => ∃ c, (SameBook V.working c ∧ SameStatus V.working c) ∧
        AtL t l (V.withTables c) l' s) (Lost t l V) := by
  refine at_viewOk fun hV => ?_
  refine (at_plain rfl ?_).seq (fun _ _ _ _ => Lost.of_errno) fun k => ?_
  · intro c k hrun
    cases hrun
    exact hV.tables.updatePinned
  refine .exists fun c => .assume fun hrun => ?_
  split
  · exact lost_fail_tables (by nofun)
  · cases hrun
    refine .pure fun l s _ h => ⟨_, ⟨?_, ?_⟩, h⟩
    · exact ⟨rfl, rfl, rfl⟩
    · exact sameStatus_updatePinned _ _ _

/-- A row that describes a complete generation. -/
structure EntryOk (P : Platform) (V : View) (e : CasGenerationCatalogEntry) : Prop where
  status : e.status = .active
  complete : ∃ m, m.generationId = e.generationId ∧ Complete P V.generations m ∧ e.Describes m

/-- A row for a generation that has none. -/
theorem TablesOk.insert {k : ℕ} (h : TablesOk P V c)
    (he : EntryOk P V e) (hrun : (CasStmt.insertCatalog e).run c = some (c', k)) :
    TablesOk P V c' := by
  obtain ⟨hnone, hentry, -, -, hhist⟩ := CasStmt.run_insertCatalog hrun
  refine h.setRow (g := e.generationId) (e := e) ?_ hhist (fun _ _ _ => he.status) ?_
    (fun _ => he.complete) ?_ (fun _ => he.status)
  · intro g'
    rw [hentry]
    simp only [eq_comm]
  · intro hd
    rw [he.status] at hd
    cases hd
  · intro e₀ he₀
    rw [h.advances.none_of_none hnone] at he₀
    cases he₀

theorem upsertAllowed_active {st : CatalogStatus} (h : CasStore.upsertAllowed st .active ≠ false) :
    st = .active := by
  cases st <;> simp_all [CasStore.upsertAllowed]

/-- After an upsert of an `ACTIVE` row, the row is there and `ACTIVE`. -/
theorem at_upsertGenerationCatalog {entry : CasGenerationCatalogEntry} (he : EntryOk P V entry) :
    AtTriple P t call l V (CasStore.upsertGenerationCatalog entry)
      (fun _ l' s => ∃ c, (SameBook V.working c ∧
        ∃ e, c.entry entry.generationId = some e ∧ e.status = .active) ∧
        AtL t l (V.withTables c) l' s) (Lost t l V) := by
  refine at_viewOk fun hV => ?_
  refine at_getGenerationCatalogEntry.seq (fun _ _ _ _ => Lost.of_errno) fun existing => ?_
  refine .assume ?_
  rintro rfl
  split
  · refine (at_plain rfl ?_).seq (fun _ _ _ _ => Lost.of_errno) fun k => .pure ?_
    · intro c k hrun
      exact hV.tables.insert he hrun
    · rintro l s - ⟨c, hrun, h⟩
      obtain ⟨-, hentry, ha, hr, hh⟩ := CasStmt.run_insertCatalog hrun
      exact ⟨c, ⟨⟨ha, hr, hh⟩, entry, by rw [hentry, if_pos rfl], he.status⟩, h⟩
  · rename_i existing hexisting
    split
    · exact lost_fail (by nofun)
    rename_i himm
    split
    · exact lost_fail (by nofun)
    rename_i hallowed
    rw [he.status] at hallowed
    have hst := upsertAllowed_active hallowed
    refine (at_plain rfl ?_).seq (fun _ _ _ _ => Lost.of_errno) fun k => .pure ?_
    · intro c k hrun
      cases hrun
      exact hV.tables.updateRow hexisting (he.status.trans hst.symm)
    · rintro l s - ⟨c, hrun, h⟩
      cases hrun
      refine ⟨_, ⟨?_, ?_⟩, h⟩
      · exact ⟨rfl, rfl, rfl⟩
      refine ⟨{ existing with toCasMutableColumns := entry.toCasMutableColumns }, ?_, ?_⟩
      · rw [Cas.entry_update, if_pos rfl, hexisting]
        rfl
      · exact he.status

/-- A generation that may be deleted, as a fact about the view. -/
structure MayDelete (call : Call) (V : View) (g : GenerationId) : Prop where
  same : V.working = V.cas
  manifest : ∀ m, V.manifest = some m → m.generationId ≠ g
  active : V.cas.activeGenerationId ≠ some g
  unpinned : ∀ e, V.cas.entry g = some e → e.pinned = false
  planned : ∀ s, V.know s → ∀ h, call = .applyGc h →
    ∃ p, s.world.gcPlans[h]? = some p ∧ g ∉ planIds p.retain ∧ g ∈ planIds (p.delete ++ p.recovery)

theorem MayDelete.deletionOk (h : MayDelete call V g)
    (hat : At t V s) : DeletionOk call g s.world where
  manifest := by
    rw [hat.manifest]
    exact h.manifest
  active := by
    rw [hat.cas]
    exact h.active
  workingActive x hx := by
    rw [hat.working hx, h.same]
    exact h.active
  unpinned := by
    rw [hat.cas]
    exact h.unpinned
  planned := h.planned s hat.know

/-- A status moves one step forward. A generation becomes `DELETED` when its files are gone. -/
theorem at_setCatalogStatus {st : CatalogStatus} (hdel : MayDelete call V g)
    (hgone : st = .deleted → ∀ n : GenName, n.gen? = some g → V.generations.lookup n = none) :
    AtTriple P t call l V (CasStore.setCatalogStatus g st)
      (fun _ l' s => ∃ c, (SameBook V.working c ∧
        ∀ g', g' ≠ g → c.entry g' = V.working.entry g') ∧ AtL t l (V.withTables c) l' s)
      (Lost t l V) := by
  refine at_viewOk fun hV => ?_
  refine at_getGenerationCatalogEntry.seq (fun _ _ _ _ => Lost.of_errno) fun existing => ?_
  refine .assume ?_
  rintro rfl
  split
  · exact lost_fail (by nofun)
  rename_i cur hcur
  split
  · exact lost_fail (by nofun)
  rename_i hallowed
  have hcas : V.cas.entry g = some cur := by
    rw [← hdel.same]
    exact hcur
  have htables : TablesOk P V
      { V.working with catalog := V.working.catalog.update g fun m => { m with status := st } } := by
    refine hV.tables.setRow (g := g) (e := { cur with status := st }) ?_ rfl ?_ hgone ?_ ?_ ?_
    · intro g'
      rw [Cas.entry_update]
      split
      · rename_i hg
        subst hg
        rw [hcur]
        rfl
      · rfl
    · intro m hm hg
      exact absurd hg (hdel.manifest m hm)
    · rintro rfl
      cases hc : cur.status <;> simp [hc, CasStore.statusAllowed] at hallowed
    · intro e₀ he₀
      rw [hcas] at he₀
      cases he₀
      exact ⟨rfl, .inr ⟨by simpa using hallowed, hdel.unpinned cur hcas⟩⟩
    · intro hn
      rw [hcas] at hn
      cases hn
  refine Discipline.Triple.seq (at_casExec ?_) (fun _ _ _ _ => Lost.of_errno) fun k => ?_
  · intro s x c k _ hat hrun hx
    cases hrun
    refine htables.stmtOk hat hx ?_ (by rintro _ _ _ _ _ _ h; cases h)
    rintro g' st' heq
    cases heq
    exact hdel.deletionOk hat
  refine .exists fun c => .assume fun hrun => ?_
  split
  · exact lost_fail_tables (by nofun)
  · cases hrun
    refine .pure fun l s _ h => ⟨_, ⟨?_, ?_⟩, h⟩
    · exact ⟨rfl, rfl, rfl⟩
    intro g' hg'
    rw [Cas.entry_update, if_neg hg']

end Ariad
