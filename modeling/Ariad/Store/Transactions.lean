import Ariad.Store.Statements

/-!
# Transactions

The beginning and the end of a transaction, and the two whole transactions that every other call
contains or that stand alone: reconciling the tables with the manifest, and pinning.

* `Opened V V'` — the view `V'` that a call has right after `BEGIN IMMEDIATE`, when `V` is what it
  knew before.
* `Pending c₀ c` — the tables `c` that a transaction made of `c₀` have counted every change: either
  nothing has changed or the revision has been incremented.
-/

namespace Ariad

variable {P : Platform} {σ : Type} {t : Tid} {call : Call} {V : View} {l : σ}

/-! ## Beginning and ending -/

/-- The view of a transaction that has just been opened. -/
structure Opened (V V' : View) : Prop where
  same : V'.working = V'.cas
  token : V'.token = V.token
  writes : V'.writes = V.writes
  untouched : V'.untouched = V.untouched
  know : V'.know = V.know
  fresh : ∀ g tok, V.token = some (g, tok) → V.fresh (.db g) → V.fresh (.json g) →
    V'.fresh (.db g) ∧ V'.fresh (.json g)

/-- All that the lock protects, as it is now. -/
def View.open (V : View) (s : StoreState) : View :=
  { V with
    manifest := s.world.manifest
    generations := s.world.generations
    cas := s.world.cas
    working := s.world.cas
    fresh := fun n => ¬EverBound n s }

variable {m : GenerationManifestV1} {now : Timestamp}

theorem Opened.open {s : StoreState} (h : After t V s) : Opened V (V.open s) :=
  ⟨rfl, rfl, rfl, rfl, rfl, h.pristine⟩

theorem after_beginImmediate : StoreTriple P t call (AfterL t l V) CasStore.beginImmediate
    (fun _ l' s => ∃ V', Opened V V' ∧ AtL t l V' l' s) (Lost t l V) := by
  refine triple_orFail (triple_op AfterL.stable (fun _ _ _ _ => trivial) ?_)
  rintro l s ch r w' - ⟨rfl, h⟩ hexec hev
  rcases exec_cases (o := .casBegin) (by nofun) P t ch s.world with he | he
  · rw [he] at hexec
    cases hexec
    exact ⟨by nofun, rfl, h.rely (.idle rfl)⟩
  · rw [he] at hexec
    simp only [execOp] at hexec
    split at hexec
    · cases hexec
      have h' := h.push hev rfl rfl rfl fun _ => ⟨rfl, rfl, rfl, rfl⟩
      have hfresh : ∀ n, (V.open s).fresh n → ¬EverBound n (s.push t (.op .casBegin (.ok ()))
          { s.world with txn := some ⟨t, s.world.cas, s.world.cas⟩ }) := by
        intro n hn hb
        exact hn ((everBound_push.mp hb).elim .inl id)
      refine ⟨V.open s, .open h, rfl, ⟨⟨h'.token, ?_, h'.writes, h'.untouched, h'.know, h'.lasting⟩,
        ⟨_, rfl, rfl, rfl⟩, rfl, rfl, rfl, hfresh⟩⟩
      intro g tok _ hdb hjson
      exact ⟨hfresh _ hdb, hfresh _ hjson⟩
    · cases hexec
      exact ⟨by nofun, rfl, h.rely (.idle rfl)⟩

theorem after_rollback {E : Err → σ → StoreState → Prop} :
    StoreTriple P t call (AfterL t l V) CasStore.rollback (fun _ => AfterL t l V) E :=
  triple_bestEffort after_casRollback

/-- The tables that a transaction made of `c₀` have counted every change. -/
structure Pending (c₀ c : Cas) : Prop where
  revision : c.revision = c.history.length
  counted : c = c₀ ∨ c₀.revision < c.revision

theorem Pending.revSound {c₀ c : Cas} (h : Pending c₀ c) : Cas.RevSound c₀ c := by
  rcases h.counted with rfl | hlt
  · exact .refl _
  · exact ⟨hlt.le, fun heq => absurd heq (by omega)⟩

/-- An act has been recorded. -/
theorem Pending.record {c₀ c c' : Cas} (h : Pending c₀ c) (hrev : c'.revision = c.revision + 1)
    (hhist : c'.history.length = c.history.length + 1) : Pending c₀ c' where
  revision := by rw [hrev, hhist, h.revision]
  counted := by
    right
    rw [hrev]
    rcases h.counted with rfl | hlt <;> omega

theorem at_commit (hactive : V.working.ActiveOk) (hpending : Pending V.cas V.working) :
    AtTriple P t call l V CasStore.commit
      (fun _ l' s => (∀ g, (V.working.entry g).isSome → (s.world.cas.entry g).isSome) ∧
        AfterL t l V.touched l' s) (Lost t l V) := by
  refine (at_casCommit hactive hpending.revision hpending.revSound).attemptSeq ?_ ?_
  · exact fun _ => .pure fun _ _ _ h => h
  · intro e
    refine (triple_bestEffort (after_casRollback.pre fun _ _ _ h => h.2)).bind fun _ => ?_
    exact .throw fun _ _ _ h => ⟨by nofun, h⟩

/-! ## Reconciling -/

/-- Reading a sidecar tells what is in it. -/
theorem at_readMetadata {n : GenName} : AtTriple P t call l V (CasStore.readMetadata P n)
      (fun md l' s => (∃ f, V.generations.lookup n = some f ∧ P.parseMetadata f.data = some md ∧
        md.manifest.project = P.project) ∧ AtL t l V l' s)
      (fun e l' s => (e ≠ .store .publicationCasMismatch ∧
        (e = .errno .enoent → V.generations.lookup n = none)) ∧ AtL t l V l' s) := by
  refine at_readFile.seq (fun e _ _ _ h => ⟨⟨h.1.1.ne_store _, h.1.2⟩, h.2⟩) fun data => ?_
  refine .assume ?_
  rintro ⟨f, hf, rfl⟩
  iterate 2
    split
    · exact .throw fun _ _ _ h => ⟨⟨by nofun, by nofun⟩, h⟩
  rename_i md hmd
  split
  · exact .throw fun _ _ _ h => ⟨⟨by nofun, by nofun⟩, h⟩
  · rename_i hproject
    exact .pure fun _ _ _ h => ⟨⟨f, hf, hmd, by simpa using hproject⟩, h⟩

theorem at_readRecoveredPinnedFlag :
    AtTriple P t call l V (CasStore.readRecoveredPinnedFlag P m)
      (fun _ => AtL t l V) (Lost t l V) := by
  refine at_lstat.seq (fun _ _ _ _ h => Lost.of_errno ⟨h.1.1, h.2⟩) fun st => .assume fun _ => ?_
  split
  · exact lost_fail (by nofun)
  refine at_readMetadata.seq (fun _ _ _ _ h => ⟨h.1.1, h.2.after⟩) fun md => .assume fun _ => ?_
  split
  · exact lost_fail (by nofun)
  · exact .pure fun _ _ _ h => h

/-- The row that reconciliation rebuilds describes the generation of the manifest. -/
theorem recoveredEntry_ok {pinned : Bool} (hV : ViewOk P V) (hm : V.manifest = some m) :
    EntryOk P V (CasStore.recoveredEntry m now pinned) :=
  ⟨rfl, m, rfl, hV.manifest m hm, rfl, rfl, rfl, rfl, rfl, rfl⟩

/-- The generation of the manifest gets a row, if it has none. -/
theorem at_rebuildCatalogEntry (hm : V.manifest = some m) :
    AtTriple P t call l V (CasStore.rebuildCatalogEntry P m now)
      (fun _ l' s => ∃ c, (SameBook V.working c ∧
        ∃ e, c.entry m.generationId = some e ∧ e.status = .active) ∧ AtL t l (V.withTables c) l' s)
      (Lost t l V) := by
  refine at_viewOk fun hV => ?_
  refine at_getGenerationCatalogEntry.seq (fun _ _ _ _ => Lost.of_errno) fun existing => ?_
  refine .assume ?_
  rintro rfl
  split
  · rename_i e he
    exact .pure fun _ _ _ h => ⟨V.working, ⟨⟨rfl, rfl, rfl⟩, e, he, hV.working.manifest m e hm he⟩, h⟩
  · refine at_readRecoveredPinnedFlag.bind fun pinned => ?_
    refine (at_plain rfl ?_).seq (fun _ _ _ _ => Lost.of_errno) fun k => .pure ?_
    · intro c k hrun
      exact hV.tables.insert (recoveredEntry_ok hV hm) hrun
    · rintro l s - ⟨c, hrun, h⟩
      obtain ⟨-, hentry, ha, hr, hh⟩ := CasStmt.run_insertCatalog hrun
      exact ⟨c, ⟨⟨ha, hr, hh⟩, _, (hentry _).trans (if_pos rfl), rfl⟩, h⟩

theorem lost_wrapErrno {α : Type} {A : σ → StoreState → Prop} {m : StoreM σ α}
    {Q : α → σ → StoreState → Prop} {c : ErrorCode} (h : StoreTriple P t call A m Q (Lost t l V))
    (hc : c ≠ .publicationCasMismatch) : StoreTriple P t call A (wrapErrno m c) Q (Lost t l V) := by
  refine Discipline.Triple.tryCatch h ?_
  rintro (n | c')
  · exact .throw fun _ _ _ h => ⟨by simpa using hc, h.2⟩
  · exact .throw fun _ _ _ h => h

/-- What reconciliation leaves behind. -/
structure Reconciled (V : View) (c : Cas) : Prop where
  active : c.activeGenerationId = V.manifest.map (·.generationId)
  activeOk : c.ActiveOk
  pending : Pending V.cas c

/-- The row of the manifest's generation is there when its transaction is over. -/
theorem at_rebuildFromManifest
    (hactive : V.working.activeGenerationId = V.manifest.map (·.generationId)) :
    AtTriple P t call l V (CasStore.rebuildFromManifest P V.manifest now)
      (fun _ l' s => ∃ c, (SameBook V.working c ∧ c.ActiveOk) ∧ AtL t l (V.withTables c) l' s)
      (Lost t l V) := by
  unfold CasStore.rebuildFromManifest
  split
  · rename_i m hm
    refine (at_rebuildCatalogEntry hm).post ?_
    rintro - l s - ⟨c, ⟨hbook, e, he, hst⟩, h⟩
    refine ⟨c, ⟨hbook, ?_⟩, h⟩
    intro g hg
    rw [hbook.active, hactive, hm] at hg
    cases hg
    exact ⟨e, he, hst⟩
  · rename_i hm
    refine .pure fun _ _ _ h => ⟨V.working, ⟨⟨rfl, rfl, rfl⟩, ?_⟩, h⟩
    intro g hg
    rw [hactive, hm] at hg
    cases hg

/-- The act is recorded under the revision that was reached before it. -/
theorem at_recordReconcile {manifestActive previousActive : Option GenerationId}
    (hrev : V.working.revision = V.working.history.length + 1)
    (hne : previousActive ≠ manifestActive) : AtTriple P t call l V
      (CasStore.recordReconcile P manifestActive previousActive now V.working.revision)
      (fun _ l' s => ∃ row, AtL t l
        (V.withTables { V.working with history := V.working.history ++ [row] }) l' s)
      (Lost t l V) := by
  refine at_viewOk fun hV => ?_
  unfold CasStore.recordReconcile
  split
  · refine Discipline.Triple.seq (at_casExec ?_) (fun _ _ _ _ => Lost.of_errno) fun k => .pure ?_
    · intro s x c k _ hat hrun hx
      cases hrun
      refine TablesOk.stmtOk ⟨?_, ?_, ?_⟩ hat hx (by rintro _ _ h; cases h) ?_
      · exact hV.working.of_entry fun _ => rfl
      · exact hV.advances.of_entry (fun _ => rfl) (List.prefix_append _ _)
      · exact hV.history.insertHistory _ rfl hrev rfl
      · rintro g' project' at' action' prev' rev' heq
        cases heq
        rfl
    · rintro l s - ⟨c, hrun, h⟩
      cases hrun
      exact ⟨_, h⟩
  · rename_i hnone
    cases manifestActive with
    | some g => cases hnone
    | none =>
      cases previousActive with
      | some g => cases hnone
      | none => exact absurd rfl hne

theorem at_reconcileActive (hsame : V.working = V.cas)
    (hne : V.working.activeGenerationId ≠ V.manifest.map (·.generationId)) :
    AtTriple P t call l V (CasStore.reconcileActive P V.manifest V.working)
      (fun res l' s => ∃ c, (Reconciled V c ∧
        res.activeGenerationId = V.manifest.map (·.generationId)) ∧ AtL t l (V.withTables c) l' s)
      (Lost t l V) := by
  refine at_viewOk fun hV => ?_
  have hrev : V.working.revision = V.working.history.length := by
    rw [hsame]
    exact hV.revision
  refine (at_idle rfl).seq (fun _ _ _ _ => Lost.of_errno) fun now => ?_
  refine (at_plain rfl ?_).seq (fun _ _ _ _ => Lost.of_errno) fun k => ?_
  · intro c k hrun
    cases hrun
    exact hV.tables.of_entry (fun _ => rfl) rfl
  refine .exists fun c => .assume fun hrun => ?_
  cases hrun
  refine at_getRevision.seq (fun _ _ _ _ h => (Lost.of_errno h).of_tables) fun n => .assume ?_
  rintro rfl
  refine (at_rebuildFromManifest rfl).seq (fun _ _ _ _ h => h.of_tables) fun _ => ?_
  refine .exists fun c => .assume ?_
  rintro ⟨hbook, hactiveOk⟩
  have hrev' : c.revision = c.history.length + 1 := by
    rw [hbook.revision, hbook.history]
    simpa using hrev
  rw [← hbook.revision]
  refine Discipline.Triple.seq (at_recordReconcile hrev' hne)
    (fun _ _ _ _ h => h.of_tables.of_tables) fun _ => ?_
  refine .exists fun row => .pure fun _ _ _ h => ⟨_, ⟨⟨?_, ?_, ?_, ?_⟩, rfl⟩, h⟩
  · exact hbook.active
  · exact hactiveOk.of_status rfl fun _ => rfl
  · rw [View.withTables_working, List.length_append]
    exact hrev'
  · right
    rw [← hsame]
    have hlt : V.working.revision < c.revision := by
      rw [hbook.revision]
      exact Nat.lt_succ_self _
    exact hlt

theorem at_reconcileFromManifest (hsame : V.working = V.cas) :
    AtTriple P t call l V (CasStore.reconcileFromManifest P V.manifest)
      (fun res l' s => ∃ c, (Reconciled V c ∧
        res.activeGenerationId = V.manifest.map (·.generationId)) ∧ AtL t l (V.withTables c) l' s)
      (Lost t l V) := by
  refine at_viewOk fun hV => ?_
  refine lost_wrapErrno ?_ (by nofun)
  refine at_casRead.seq (fun _ _ _ _ => Lost.of_errno) fun row => .assume ?_
  rintro rfl
  split
  · rename_i heq
    refine .pure fun _ _ _ h => ⟨V.working, ⟨⟨heq, ?_, ?_⟩, heq⟩, h⟩
    · rw [hsame]
      exact hV.active
    · refine ⟨?_, .inl hsame⟩
      rw [hsame]
      exact hV.revision
  · rename_i hne
    exact at_reconcileActive hsame hne

end Ariad
