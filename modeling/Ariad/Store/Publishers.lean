import Ariad.Store.Removals

/-!
# Publishers do not overwrite each other

Every manifest write is one of a publication that found, under the lock, the active generation it
expected; so the manifest writes of a run form a chain, in which each publication expects what the
write before it put in place (`noLostUpdate`). A publication that fails after its manifest write is
a link of the chain, too (`predecessor_failed`). One that fails the comparison has done nothing.
-/

namespace Ariad

variable {P : Platform} {t : Tid} {call : Call} {c c' : StorePool} {g : GenerationId}

/-! ## The chain of manifest writes -/

/-- All manifests that have been put in place, newest first. -/
def manifestWrites (s : StoreState) : List GenerationManifestV1 := s.trace.filterMap Event.wrote

/-- The manifest is the newest one that was written. -/
theorem reachable_manifest (h : StoreReachable P c) :
    c.state.world.manifest = (manifestWrites c.state).head? := by
  induction h with
  | refl => rfl
  | @tail c c' _ hstep ih =>
    cases hstep with
    | spawn t call ht => exact ih
    | kill t call o k ht => exact (World.dropTxn_manifest _ t).trans ih
    | op t call o r hop =>
      have hcases := manifest_cases hop
      obtain ⟨k, ch, w', -, -, rfl⟩ := hop
      simp only [manifestWrites, State.push_trace, List.filterMap_cons]
      rcases hcases with ⟨hm, hwrote⟩ | ⟨m, -, hw, hwrote⟩
      · rw [show Event.wrote ⟨t, .op o r, c.state.world, w'⟩ = none from hwrote]
        exact hm.trans ih
      · rw [show Event.wrote ⟨t, .op o r, c.state.world, w'⟩ = some m from hwrote]
        rw [hw]
        rfl

/-- The event is a manifest write of a publication that found what it expected. -/
def Expected (c : StorePool) (e : Event Op Op.Val Errno World) : Prop :=
  ∃ th g options, c.threads e.tid = some th ∧ th.call = .publish g options ∧
    e.before.lockOwner = some e.tid ∧
    e.before.manifest.map (·.generationId) = options.expectedActiveGenerationId ∧
    ∀ x, e.before.txn = some x →
      x.working.activeGenerationId = options.expectedActiveGenerationId

/-- A call keeps its number. -/
theorem step_threads (hstep : StorePoolStep P c c') {t : Tid}
    {th : Thread Op Op.Val Errno Call (Except Err Outcome)} (h : c.threads t = some th) :
    ∃ th', c'.threads t = some th' ∧ th'.call = th.call := by
  have hset : ∀ {t' : Tid} {th' : Thread Op Op.Val Errno Call (Except Err Outcome)},
      (t = t' → th'.call = th.call) →
      ∃ th'', c.setThread t' th' t = some th'' ∧ th''.call = th.call := by
    intro t' th' hcall
    by_cases heq : t = t'
    · subst heq
      exact ⟨th', by simp [Pool.setThread], hcall rfl⟩
    · exact ⟨th, by simpa [Pool.setThread, heq] using h, rfl⟩
  cases hstep with
  | spawn t' call ht' =>
    refine hset ?_
    rintro rfl
    rw [h] at ht'
    cases ht'
  | kill t' call o k ht' =>
    refine hset ?_
    rintro rfl
    rw [h] at ht'
    cases ht'
    rfl
  | op t' call o r hop =>
    obtain ⟨k, ch, w', ht', -, rfl⟩ := hop
    refine hset ?_
    rintro rfl
    rw [h] at ht'
    cases ht'
    rfl

theorem Expected.step (hstep : StorePoolStep P c c') {e : Event Op Op.Val Errno World}
    (h : Expected c e) : Expected c' e := by
  obtain ⟨th, g, options, hth, hcall, hrest⟩ := h
  obtain ⟨th', hth', hcall'⟩ := step_threads hstep hth
  exact ⟨th', g, options, hth', hcall'.trans hcall, hrest⟩

/-- Every manifest write expects what the write before it put in place. -/
def Chained (c : StorePool) : Prop :=
  ∀ later e earlier m, c.state.trace = later ++ e :: earlier → e.wrote = some m →
    e.before.manifest = (earlier.filterMap Event.wrote).head? ∧ Expected c e

/-- One more event. -/
theorem Chained.push (h : Chained c) (hstep : StorePoolStep P c c')
    {e₀ : Event Op Op.Val Errno World} (htrace : c'.state.trace = e₀ :: c.state.trace)
    (hnew : ∀ m, e₀.wrote = some m →
      e₀.before.manifest = (c.state.trace.filterMap Event.wrote).head? ∧ Expected c' e₀) :
    Chained c' := by
  intro later e earlier m heq hwrote
  rw [htrace] at heq
  cases later with
  | nil =>
    cases heq
    exact hnew m hwrote
  | cons e₁ later =>
    obtain ⟨hbefore, hexpected⟩ := h later e earlier m (List.cons.inj heq).2 hwrote
    exact ⟨hbefore, hexpected.step hstep⟩

theorem reachable_chained (h : StoreReachable P c) : Chained c := by
  induction h with
  | refl =>
    intro later e earlier m heq
    have hlen : 0 = (later ++ e :: earlier).length := congrArg List.length heq
    simp at hlen
  | @tail c c' h hstep ih =>
    have hstep' := hstep
    cases hstep with
    | spawn t call ht =>
      intro later e earlier m heq hwrote
      obtain ⟨hbefore, hexpected⟩ := ih later e earlier m heq hwrote
      exact ⟨hbefore, hexpected.step hstep'⟩
    | kill t call o k ht => exact ih.push hstep' rfl (by nofun)
    | op t call o r hop =>
      have hcases := manifest_cases hop
      have hpre := step_pre h hop
      obtain ⟨k, ch, w', ht, -, rfl⟩ := hop
      refine ih.push hstep' rfl fun m hwrote => ?_
      rcases hcases with ⟨-, hnone⟩ | ⟨m', rfl, -, -⟩
      · rw [show Event.wrote ⟨t, .op o r, c.state.world, w'⟩ = none from hnone] at hwrote
        cases hwrote
      · obtain ⟨hheld, hok⟩ := hpre
        obtain ⟨g, options, rfl, hmanifest, hworking⟩ := hok.expected
        exact ⟨reachable_manifest h, ⟨.publish g options, k r, true⟩, g, options,
          by simp [Pool.setThread], rfl, hheld, hmanifest, hworking⟩

/-- **No update is lost.** A publication that succeeds has written the manifest once. Every manifest
write is one of a publication that holds the lock and finds what it expects, in the manifest and in
the tables: the generation of the manifest write before it. And a publication that fails the
comparison has changed neither the manifest, nor a file, nor the tables, and has given its token
back. -/
theorem noLostUpdate (P : Platform) (c : StorePool) (h : StoreReachable P c) :
    (∀ t g options res, c.Returned t (.publish g options) (.ok (.published res)) →
      ownWrites t c.state = [res.manifest] ∧ res.generationId = res.manifest.generationId) ∧
    (∀ later e earlier m, c.state.trace = later ++ e :: earlier → e.wrote = some m →
      ∃ th g options, c.threads e.tid = some th ∧ th.call = .publish g options ∧
        e.before.lockOwner = some e.tid ∧
        e.before.manifest = (earlier.filterMap Event.wrote).head? ∧
        e.before.manifest.map (·.generationId) = options.expectedActiveGenerationId ∧
        ∀ x, e.before.txn = some x →
          x.working.activeGenerationId = options.expectedActiveGenerationId) ∧
    (∀ t g options,
      c.Returned t (.publish g options) (.error (.store .publicationCasMismatch)) →
      Untouched t c.state ∧ Released t g c.state) := by
  refine ⟨fun t g options res hret => ?_, fun later e earlier m heq hwrote => ?_,
    fun t g options hret => ?_⟩
  · have hok : PublishOk t options res c.state := returned_outcome h hret
    exact ⟨hok.writes, hok.generationId⟩
  · obtain ⟨hbefore, th, g, options, hth, hcall, hlock, hmanifest, hworking⟩ :=
      reachable_chained h later e earlier m heq hwrote
    exact ⟨th, g, options, hth, hcall, hlock, hbefore, hmanifest, hworking⟩
  · have herr : PublishErr t g (.store .publicationCasMismatch) c.state := returned_outcome h hret
    obtain ⟨huntouched, -, hreleased⟩ := herr.mismatch rfl
    exact ⟨huntouched, hreleased⟩

/-- Generation 0 is published; the publisher of generation 3 dies right after its manifest write;
then generation 6 is published, by a caller that expects generation 3. -/
def succeededPool : StorePool := after <|
  publishes 0 0 [1, 2, 3] ⟨none, false⟩ ++ runs 4 .reserve ++ runs 5 (.backup 3 [4, 5]) ++
  runs 6 (.prepare 3 none) ++ (.spawn 7 (.publish 3 ⟨some 0, false⟩) :: goesOn 7 56) ++ [.kill 7] ++
  publishes 8 6 [7] ⟨some 3, false⟩

/-- The generation that a call has published. -/
def publishedBy (c : StorePool) (t : Tid) : Option (Call × GenerationId) :=
  match c.result t with
  | some (call, .ok (.published res)) => some (call, res.generationId)
  | _ => none

theorem returned_of_publishedBy {t : Tid} {call : Call} {g : GenerationId}
    (h : publishedBy c t = some (call, g)) :
    ∃ res, c.Returned t call (.ok (.published res)) ∧ res.generationId = g := by
  unfold publishedBy at h
  split at h
  · rename_i call' res hres
    cases h
    exact ⟨res, Pool.returned_of_result hres, rfl⟩
  · cases h

theorem noLostUpdate_succeededPool :
    ∃ res, succeededPool.Returned 11 (.publish 6 ⟨some 3, false⟩) (.ok (.published res)) ∧
      ownWrites 11 succeededPool.state = [res.manifest] := by
  have hpub : publishedBy succeededPool 11 = some (.publish 6 ⟨some 3, false⟩, 6) := by
    decide +kernel
  obtain ⟨res, hret, -⟩ := returned_of_publishedBy hpub
  exact ⟨res, hret,
    ((noLostUpdate toyPlatform succeededPool (after_reachable _)).1 11 _ _ res hret).1⟩

/-- **The predecessor of a publication need not have succeeded.** Only the calls 3 and 11 succeed;
the generation that call 11 expects, and finds, is that of call 7, which died. -/
theorem predecessor_failed : StoreReachable toyPlatform succeededPool ∧
    (∃ res, succeededPool.Returned 3 (.publish 0 ⟨none, false⟩) (.ok (.published res)) ∧
      res.generationId = 0) ∧
    (∃ res, succeededPool.Returned 11 (.publish 6 ⟨some 3, false⟩) (.ok (.published res)) ∧
      res.generationId = 6) ∧
    (∀ e ∈ succeededPool.state.trace, e.wrote.isSome → e.tid = 3 ∨ e.tid = 7 ∨ e.tid = 11) ∧
    succeededPool.result 7 = none := by
  refine ⟨after_reachable _, returned_of_publishedBy (by decide +kernel),
    returned_of_publishedBy (by decide +kernel), by decide +kernel, by decide +kernel⟩

end Ariad
