import Ariad.Store.Catalog

/-!
# What is ever removed

Files leave `generations/` and generations leave `ACTIVE` in two places, the collector and the orphan
recovery. Both hold the lock when they do it, and what they re-check under it is enough, whatever
has happened since their plan was made: `gcApplySafety`, `orphanRecoverySafety`.
-/

namespace Ariad

variable {P : Platform} {t : Tid} {call : Call} {c c' : StorePool} {g : GenerationId}

/-! ## Collection -/

/-- The operation removes a file of the generation or moves its status. -/
def Op.Deletes (o : Op) (g : GenerationId) : Prop :=
  (∃ n, n.gen? = some g ∧ o = .unlink n) ∨ ∃ st, o = .casExec (.updateStatus g st)

/-- A statement that took effect was one of the transaction's owner. -/
theorem casExec_step {stmt : CasStmt} {n : ℕ}
    (hstep : StoreStep P t call (.casExec stmt) (.ok n) c c') :
    ∃ x k, c.state.world.txn = some x ∧ x.owner = t ∧ stmt.run x.working = some (k, n) := by
  obtain ⟨_, ch, w', -, hexec, rfl⟩ := hstep
  have hexec : exec P t ch c.state.world (.casExec stmt) = (.ok n, w') := hexec
  rcases exec_cases (o := .casExec stmt) (by nofun) P t ch c.state.world with he | he
  · rw [he] at hexec
    cases hexec
  · rw [he] at hexec
    simp only [execOp] at hexec
    split at hexec
    · rename_i x hx
      split at hexec
      · rename_i hown
        split at hexec
        · rename_i k m hrun
          cases hexec
          exact ⟨x, k, hx, hown, hrun⟩
        · cases hexec
      · cases hexec
    · cases hexec

/-- **Collecting is safe under interleaving.** When the apply of a plan removes a file of a
generation or moves its status, it holds the lock, and at that moment the generation is active
neither in the manifest nor in the tables, it is not pinned, and the plan lists it for deletion and
did not promise to keep it. -/
theorem gcApplySafety (P : Platform) (c c' : StorePool) (t : Tid) (h : ℕ) (g : GenerationId)
    (o : Op) (v : o.Val) (hreach : StoreReachable P c)
    (hstep : StoreStep P t (.applyGc h) o (.ok v) c c') (hdel : o.Deletes g) :
    c.state.world.lockOwner = some t ∧
    (∀ m, c.state.world.manifest = some m → m.generationId ≠ g) ∧
    c.state.world.cas.activeGenerationId ≠ some g ∧
    (∀ e, c.state.world.cas.entry g = some e → e.pinned = false) ∧
    ∃ plan, c.state.world.gcPlans[h]? = some plan ∧ g ∉ planIds plan.retain ∧
      g ∈ planIds (plan.delete ++ plan.recovery) := by
  have hpre := step_pre hreach hstep
  have key : c.state.world.lockOwner = some t ∧ DeletionOk (.applyGc h) g c.state.world := by
    rcases hdel with ⟨n, hn, rfl⟩ | ⟨st, rfl⟩
    · exact ⟨hpre.1, (hpre.2.final g hn).1⟩
    · obtain ⟨x, k, hx, hown, hrun⟩ := casExec_step hstep
      exact ⟨held_of_txn hx hown, (hpre x k v hx hown hrun).status g st rfl⟩
  obtain ⟨hheld, hok⟩ := key
  exact ⟨hheld, hok.manifest, hok.active, hok.unpinned, hok.planned h rfl⟩

/-- Unlinking a file that is there succeeds, unless the system call fails. -/
theorem exec_unlink_of_bound (P : Platform) (t : Tid) (n : GenName) (ch : Choice) (w : World)
    (hch : ch.fault = false) (h : (w.generations.lookup n).isSome) :
    ((storeMachine P).exec t (.unlink n) ch w).1 = .ok () := by
  have hexec : (storeMachine P).exec t (.unlink n) ch w = execOp P t ch w (.unlink n) :=
    exec_eq (by simp [hch])
  obtain ⟨f, hf⟩ := Option.isSome_iff_exists.mp h
  rw [hexec]
  simp only [execOp, hf]

/-- The collector of generation 0, just before it unlinks the database. -/
def collectingPool : StorePool := after <|
  publishes 0 0 [1, 2, 3] ⟨none, false⟩ ++ publishes 4 3 [4, 5] ⟨some 0, true⟩ ++
  runs 8 (.planGc ⟨0, [], 0, 0⟩) ++ (.spawn 9 (.applyGc 0) :: goesOn 9 33)

theorem gcApplySafety_collectingPool :
    collectingPool.state.world.lockOwner = some 9 ∧
      ∃ plan, collectingPool.state.world.gcPlans[0]? = some plan ∧ 0 ∉ planIds plan.retain := by
  have hnext : collectingPool.next 9 = some (.applyGc 0, .unlink (.db 0)) := by decide +kernel
  have hbound : (collectingPool.state.world.generations.lookup (.db 0)).isSome := by decide +kernel
  obtain ⟨c', hstep⟩ := Pool.opStep_of_next _ hnext faultless
    (exec_unlink_of_bound toyPlatform 9 _ _ _ rfl hbound)
  obtain ⟨hlock, -, -, -, plan, hplan, hkeep, -⟩ := gcApplySafety toyPlatform collectingPool c' 9 0 0
    (.unlink (.db 0)) () (after_reachable _) hstep (.inl ⟨.db 0, rfl, rfl⟩)
  exact ⟨hlock, plan, hplan, hkeep⟩

/-! ## Orphan recovery -/

/-- The plan was registered by the call `t`. -/
def RegisteredBy (t : Tid) (h : ℕ) (p : GenerationOrphanPlan) (s : StoreState) : Prop :=
  ∃ e ∈ s.trace, e.tid = t ∧ e.act = .op (.registerOrphanPlan p) (.ok h)

/-- The plan under a handle was registered by the call that looked its files up. -/
def PlannedBy (P : Platform) (t : Tid) (h : ℕ) (p : GenerationOrphanPlan) (s : StoreState) : Prop :=
  RegisteredBy t h p s ∧ ∀ o ∈ p.orphans, OrphanEntryOk P t o s

theorem PlannedBy.lasting (t : Tid) (h : ℕ) (p : GenerationOrphanPlan) :
    Lasting (PlannedBy P t h p) := by
  rintro s s' hev ⟨⟨e, he, hreg⟩, hok⟩
  exact ⟨⟨e, hev.trace e he, hreg⟩, fun o ho => OrphanEntryOk.lasting t o hev (hok o ho)⟩

/-- Only registering a plan changes the registry. -/
theorem exec_orphanPlans (o : Op) (ch : Choice) (w : World) :
    (exec P t ch w o).2.orphanPlans = w.orphanPlans ∨ ∃ p, o = .registerOrphanPlan p := by
  by_cases hf : ch.fault ∧ o.fallible
  · left
    rcases exec_fault (P := P) (t := t) (w := w) hf with h | h
    · rw [h]
    · rw [h, World.dropTxn_orphanPlans]
  rw [exec_eq hf]
  cases o with
  | registerOrphanPlan p => exact .inr ⟨p, rfl⟩
  | casRollback => exact .inl (World.dropTxn_orphanPlans w t)
  | casClose => exact .inl (World.dropTxn_orphanPlans w t)
  | _ =>
    left
    simp only [execOp]
    repeat' split
    all_goals rfl

theorem reachable_plannedBy (h : StoreReachable P c) {k : ℕ} {p : GenerationOrphanPlan}
    (hp : c.state.world.orphanPlans[k]? = some p) : ∃ t, PlannedBy P t k p c.state := by
  induction h generalizing k p with
  | refl => cases hp
  | @tail c c' h hstep ih =>
    have hev : Evolves c.state c'.state := step_evolves h hstep
    have hold : c.state.world.orphanPlans[k]? = some p → ∃ t, PlannedBy P t k p c'.state := by
      intro hp
      obtain ⟨t, hplanned⟩ := ih hp
      exact ⟨t, PlannedBy.lasting t k p hev hplanned⟩
    cases hstep with
    | spawn t call ht => exact hold hp
    | kill t call o code ht =>
      refine hold (Eq.trans ?_ hp)
      exact congrArg (·[k]?) (World.dropTxn_orphanPlans _ t).symm
    | op t call o r hop =>
      have hpre := step_pre h hop
      obtain ⟨code, ch, w', -, hexec, rfl⟩ := hop
      have hw : (exec P t ch c.state.world o).2 = w' := congrArg Prod.snd hexec
      rcases exec_orphanPlans (P := P) (t := t) o ch c.state.world with hsame | ⟨q, rfl⟩
      · rw [hw] at hsame
        rw [State.push_world, hsame] at hp
        exact hold hp
      · have hexec : exec P t ch c.state.world (.registerOrphanPlan q) = (r, w') := hexec
        rw [exec_eq (by simp [Op.fallible])] at hexec
        cases hexec
        rw [State.push_world, List.getElem?_append] at hp
        split at hp
        · exact hold hp
        · rename_i hge
          rw [List.getElem?_singleton] at hp
          split at hp
          · rename_i hk
            cases hp
            obtain rfl : k = c.state.world.orphanPlans.length := by omega
            refine ⟨t, ⟨_, List.mem_cons_self, rfl, rfl⟩, fun o ho => ?_⟩
            exact OrphanEntryOk.lasting t o hev (hpre o ho)
          · cases hp

/-- An unlink that succeeds removes a file that was there. -/
theorem unlink_step {n : GenName} (hstep : StoreStep P t call (.unlink n) (.ok ()) c c') :
    (∃ f, c.state.world.generations.lookup n = some f) ∧
      c'.state = c.state.push t (.op (.unlink n) (.ok ()))
        { c.state.world with generations := c.state.world.generations.erase n } := by
  obtain ⟨_, ch, w', -, hexec, rfl⟩ := hstep
  have hexec : exec P t ch c.state.world (.unlink n) = (.ok (), w') := hexec
  rcases exec_cases (o := .unlink n) (by nofun) P t ch c.state.world with he | he
  · rw [he] at hexec
    cases hexec
  · rw [he] at hexec
    simp only [execOp] at hexec
    split at hexec
    · cases hexec
    · rename_i f hf
      cases hexec
      exact ⟨⟨f, hf⟩, rfl⟩

/-- A file that the planner saw and that still has its identity has the content the planner saw. -/
theorem Seen.content {t' : Tid} {n : GenName} {st : Stat} {f' : File} {s : StoreState}
    (hinv : Inv P s) (h : Seen P t' n st s) (hf' : s.world.generations.lookup n = some f')
    (hst' : P.stat f' = st) : ∃ e ∈ s.trace, e.tid = t' ∧ e.act = .op (.lstat n) (.ok st) ∧
      ∃ f, e.before.generations.lookup n = some f ∧ P.stat f = st ∧
        P.content f'.data = P.content f.data := by
  obtain ⟨e, he, ht, hact, f, hf, hst⟩ := h
  have hgrows := hinv.names.grows e he n f f' hf hf'
  refine ⟨e, he, ht, hact, f, hf, hst, (hgrows.content_eq ?_).symm⟩
  rw [hst, hst']

/-- A publisher has died after linking its database; the orphan recovery is about to remove it. -/
def recoveringPool : StorePool := after <|
  publishes 0 0 [1, 2, 3] ⟨none, false⟩ ++ runs 4 .reserve ++ runs 5 (.backup 3 [4, 5]) ++
  runs 6 (.prepare 3 none) ++ (.spawn 7 (.publish 3 ⟨some 0, false⟩) :: goesOn 7 32) ++ [.kill 7] ++
  runs 8 (.planOrphans ⟨0, [], 0, 0⟩) ++ (.spawn 9 (.applyOrphans 0 ⟨0, [], 0, 0⟩) :: goesOn 9 14)

end Ariad
