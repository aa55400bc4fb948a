import Ariad.Store.Readers

/-!
# The catalog and the revision over whole runs

What a run can do to the CAS tables: a row keeps its immutable columns and moves
`ACTIVE → DELETING → DELETED`, one step in one transaction (`catalogStateMachine`); the history is
numbered by the revision, and the revision tells whether anything changed (`revisionSoundness`).
-/

namespace Ariad

variable {P : Platform} {t : Tid} {call : Call} {c c' : StorePool} {w : World}

/-! ## One step -/

/-- The open transaction still remembers the tables at its `BEGIN`, which are the committed ones. -/
def World.SnapshotOk (w : World) : Prop := ∀ x, w.txn = some x → x.snapshot = w.cas

theorem World.SnapshotOk.dropTxn (h : w.SnapshotOk) : (w.dropTxn t).SnapshotOk := by
  unfold World.dropTxn
  split
  · split
    · intro x hx
      cases hx
    · exact h
  · exact h

theorem World.SnapshotOk.exec (h : w.SnapshotOk) (o : Op) (ch : Choice) :
    (exec P t ch w o).2.SnapshotOk := by
  by_cases hf : ch.fault ∧ o.fallible
  · rcases exec_fault (P := P) (t := t) (w := w) hf with he | he
    · rw [he]
      exact h
    · rw [he]
      exact h.dropTxn
  rw [exec_eq hf]
  cases o with
  | casBegin =>
    simp only [execOp]
    split
    · intro x hx
      cases hx
      rfl
    · exact h
  | casCommit =>
    simp only [execOp]
    split
    · split
      · intro x hx
        cases hx
      · exact h
    · exact h
  | casRollback => exact h.dropTxn
  | casClose => exact h.dropTxn
  | casExec stmt =>
    simp only [execOp]
    split
    · rename_i x hx
      split
      · split
        · intro x' hx'
          cases hx'
          exact h x hx
        · exact h
      · exact h
    · exact h
  | _ =>
    simp only [execOp]
    repeat' split
    all_goals exact h

theorem reachable_snapshotOk (h : StoreReachable P c) : c.state.world.SnapshotOk := by
  induction h with
  | refl =>
    intro x hx
    cases hx
  | tail _ hstep ih =>
    cases hstep with
    | spawn t call ht => exact ih
    | kill t call o k ht => exact ih.dropTxn
    | op t call o r hop =>
      obtain ⟨k, ch, w', -, hexec, rfl⟩ := hop
      have hok := ih.exec (P := P) (t := t) o ch
      have hw : (exec P t ch _ o).2 = w' := congrArg Prod.snd hexec
      rw [hw] at hok
      exact hok

/-- Only a commit changes the committed tables, to those of the open transaction. -/
theorem exec_cas (o : Op) (ch : Choice) (w : World) :
    (exec P t ch w o).2.cas = w.cas ∨
      ∃ x, w.txn = some x ∧ x.owner = t ∧ (exec P t ch w o).2.cas = x.working := by
  by_cases hf : ch.fault ∧ o.fallible
  · left
    rcases exec_fault (P := P) (t := t) (w := w) hf with h | h
    · rw [h]
    · rw [h, World.dropTxn_cas]
  rw [exec_eq hf]
  cases o with
  | casCommit =>
    simp only [execOp]
    split
    · rename_i x hx
      split
      · rename_i hown
        exact .inr ⟨x, hx, hown, rfl⟩
      · exact .inl rfl
    · exact .inl rfl
  | casRollback => exact .inl (World.dropTxn_cas w t)
  | casClose => exact .inl (World.dropTxn_cas w t)
  | _ =>
    left
    simp only [execOp]
    repeat' split
    all_goals rfl

/-- **One step advances the tables.** -/
theorem step_advances (h : StoreReachable P c) (hstep : StorePoolStep P c c') :
    Cas.Advances c.state.world.cas c'.state.world.cas := by
  have hrefl : ∀ {k : Cas}, k = c.state.world.cas → Cas.Advances c.state.world.cas k := by
    rintro k rfl
    exact .refl _
  cases hstep with
  | spawn t call ht => exact hrefl rfl
  | kill t call o k ht => exact hrefl (World.dropTxn_cas _ t)
  | op t call o r hop =>
    obtain ⟨k, ch, w', -, hexec, rfl⟩ := hop
    have hw : (exec P t ch c.state.world o).2 = w' := congrArg Prod.snd hexec
    rcases exec_cas (P := P) (t := t) o ch c.state.world with hc | ⟨x, hx, -, hc⟩
    · rw [hw] at hc
      exact hrefl hc
    · rw [hw] at hc
      rw [State.push_world, hc]
      exact ((reachable_inv h).core.txn x hx).2.1

/-! ## Rows -/

/-- How far a generation is on its way out. -/
def CatalogStatus.stage : CatalogStatus → ℕ
  | .active => 0
  | .deleting => 1
  | .deleted => 2

/-- What a run does to one row. -/
structure RowLater (e e' : CasGenerationCatalogEntry) : Prop where
  immutable : e'.toCasImmutableColumns = e.toCasImmutableColumns
  status : e.status.stage ≤ e'.status.stage

theorem RowAdvances.later {e e' : CasGenerationCatalogEntry} (h : RowAdvances e e') :
    RowLater e e' where
  immutable := h.immutable
  status := by
    rcases h.status with hst | ⟨hst, -⟩
    · rw [hst]
    · revert hst
      cases e.status <;> cases e'.status <;> simp [CasStore.statusAllowed, CatalogStatus.stage]

/-- The rows of a later moment. -/
def RowsLater (s s' : StoreState) : Prop :=
  ∀ g e, s.world.cas.entry g = some e → ∃ e', s'.world.cas.entry g = some e' ∧ RowLater e e'

theorem run_rowsLater (h : StoreReachable P c) (hrun : StoreRun P c c') :
    RowsLater c.state c'.state := by
  refine run_induction (fun s g e he => ⟨e, he, rfl, le_rfl⟩) ?_ ?_ h hrun
  · intro s₁ s₂ s₃ h₁₂ h₂₃ g e he
    obtain ⟨e₂, he₂, hlater₂⟩ := h₁₂ g e he
    obtain ⟨e₃, he₃, hlater₃⟩ := h₂₃ g e₂ he₂
    exact ⟨e₃, he₃, hlater₃.immutable.trans hlater₂.immutable, hlater₂.status.trans hlater₃.status⟩
  · intro c c' h hstep g e he
    obtain ⟨e', he', hrow⟩ := (step_advances h hstep).row g e he
    exact ⟨e', he', hrow.later⟩

/-- A row that is pinned at `BEGIN` keeps its status in the transaction. -/
theorem pinned_status (h : StoreReachable P c) {x : CasTransaction} {g : GenerationId}
    {e : CasGenerationCatalogEntry} (hx : c.state.world.txn = some x)
    (he : x.snapshot.entry g = some e) (hpinned : e.pinned = true) :
    ∃ e', x.working.entry g = some e' ∧ e'.status = e.status := by
  rw [reachable_snapshotOk h x hx] at he
  obtain ⟨e', he', hrow⟩ := ((reachable_inv h).core.txn x hx).2.1.row g e he
  refine ⟨e', he', ?_⟩
  rcases hrow.status with hst | ⟨-, hnot⟩
  · exact hst
  · rw [hpinned] at hnot
    cases hnot

/-- **The catalog state machine.** Over every run: rows keep their immutable columns and never move
back, in one step they move at most one stage and a new one starts as `ACTIVE`; a `DELETED`
generation has no files; the generations that the manifest and the tables name as active are
`ACTIVE`; and a transaction does not move a row that was pinned when it began. -/
theorem catalogStateMachine (P : Platform) (c : StorePool) (h : StoreReachable P c) :
    (∀ c', StoreRun P c c' → RowsLater c.state c'.state) ∧
    (∀ c', StorePoolStep P c c' → Cas.Advances c.state.world.cas c'.state.world.cas) ∧
    (∀ g e, c.state.world.cas.entry g = some e → e.status = .deleted →
      c.state.world.generations.lookup (.db g) = none ∧
        c.state.world.generations.lookup (.json g) = none) ∧
    (∀ m e, c.state.world.manifest = some m → c.state.world.cas.entry m.generationId = some e →
      e.status = .active) ∧
    (∀ g, c.state.world.cas.activeGenerationId = some g →
      ∃ e, c.state.world.cas.entry g = some e ∧ e.status = .active) ∧
    (∀ x g e, c.state.world.txn = some x → x.snapshot.entry g = some e → e.pinned = true →
      ∃ e', x.working.entry g = some e' ∧ e'.status = e.status) := by
  have hcore := (reachable_inv h).core
  refine ⟨fun c' hrun => run_rowsLater h hrun, fun c' hstep => step_advances h hstep, ?_,
    hcore.catalog.manifest, hcore.active, fun x g e hx he hp => pinned_status h hx he hp⟩
  intro g e he hst
  have hgone := hcore.catalog.deleted g e he hst
  exact ⟨hgone _ rfl, hgone _ rfl⟩

/-- Generation 3 has replaced generation 0, which has been collected. -/
def collectedPool : StorePool := after <|
  publishes 0 0 [1, 2, 3] ⟨none, false⟩ ++ publishes 4 3 [4, 5] ⟨some 0, true⟩ ++
  runs 8 (.planGc ⟨0, [], 0, 0⟩) ++ runs 9 (.applyGc 0)

theorem catalogStateMachine_collectedPool :
    ∃ e, collectedPool.state.world.cas.entry 0 = some e ∧ e.status = .deleted ∧
      collectedPool.state.world.generations.lookup (.db 0) = none ∧
        collectedPool.state.world.generations.lookup (.json 0) = none := by
  obtain ⟨-, -, hdeleted, -⟩ := catalogStateMachine toyPlatform collectedPool (after_reachable _)
  have hst : (collectedPool.state.world.cas.entry 0).map (·.status) = some .deleted := by
    decide +kernel
  obtain ⟨e, he, hst⟩ := Option.map_eq_some_iff.mp hst
  exact ⟨e, he, hst, hdeleted 0 e he hst⟩

/-! ## The revision -/

/-- Rows of the history in the order of their ids have increasing revisions. -/
theorem Cas.HistoryOk.pairwise {k : Cas} (h : k.HistoryOk) :
    k.history.Pairwise fun r r' => r.historyId < r'.historyId ∧ r.casRevision < r'.casRevision := by
  rw [List.pairwise_iff_getElem]
  intro i j hi hj hij
  obtain ⟨hid, hrev⟩ := h i _ (List.getElem?_eq_getElem hi)
  obtain ⟨hid', hrev'⟩ := h j _ (List.getElem?_eq_getElem hj)
  omega

/-- A history row is recorded under the revision of that moment. -/
theorem insertHistory_step {g : GenerationId} {project : String} {now : Timestamp}
    {action : HistoryAction} {prev : Option GenerationId} {rev n : ℕ} (h : StoreReachable P c)
    (hstep : StoreStep P t call (.casExec (.insertHistory g project now action prev rev)) (.ok n)
      c c') :
    ∃ x row, c'.state.world.txn = some x ∧ x.working.history.getLast? = some row ∧
      row.casRevision = x.working.revision := by
  have hpre := step_pre h hstep
  obtain ⟨k, ch, w', -, hexec, rfl⟩ := hstep
  have hexec : exec P t ch c.state.world
    (.casExec (.insertHistory g project now action prev rev)) = (.ok n, w') := hexec
  rcases exec_cases (o := .casExec (.insertHistory g project now action prev rev)) (by nofun) P t ch
    c.state.world with he | he
  · rw [he] at hexec
    cases hexec
  · rw [he] at hexec
    simp only [execOp] at hexec
    split at hexec
    · rename_i x hx
      split at hexec
      · rename_i hown
        simp only [CasStmt.run] at hexec
        cases hexec
        have hok := hpre x _ _ hx hown rfl
        refine ⟨_, _, rfl, List.getLast?_concat, ?_⟩
        exact hok.revision _ _ _ _ _ _ rfl
      · cases hexec
    · cases hexec

end Ariad
