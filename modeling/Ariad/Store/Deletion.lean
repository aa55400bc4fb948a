import Ariad.Store.Collection

/-!
# Deleting a generation keeps the contract

The applier of a GC plan, and the two transactions of `deleteGenerationUnderCasLock`. Each of them
re-checks under the lock that the generation is active nowhere and not pinned (`MayDelete`); from
there on nothing can change before the transaction is over.

* `Adrift t B` — nothing is known any more but `B`, and whether the call still holds the lock is
  open.
* `Clearing t l V` — at most files differ from `V`, and what is known is what `V` knew.
-/

namespace Ariad

open List Discipline

variable {P : Platform} {σ : Type} {t : Tid} {call : Call} {V V' : View} {g : GenerationId} {l : σ}
  {B : StoreState → Prop}

/-! ## Transactions without a token -/

/-- The call may or may not hold the lock, and knows `B`. -/
def Adrift (t : Tid) (B : StoreState → Prop) (_ : σ) (s : StoreState) : Prop :=
  ∃ V, V.token = none ∧ V.know = B ∧ After t V s

/-- The view of a call without a token that knows `B`. -/
def View.knowing (B : StoreState → Prop) (writes : List GenerationManifestV1) : View :=
  { View.start with
    writes := writes
    untouched := false
    know := B }

variable {currentActiveId : Option GenerationId} {E : Err → σ → StoreState → Prop}
  {cat : CasGenerationCatalogEntry} {proof : GenerationDeletionProof} {isRecovery : Bool}
  {s : StoreState} {plan : GenerationGcPlan} {h : ℕ}

theorem Free.adrift (hB : Lasting B) (h : Free t B l s) : Adrift t B l s := by
  refine ⟨.knowing B (ownWrites t s), rfl, rfl, ?_, ?_, rfl, ?_, h.2, hB⟩
  · rintro g tok htok
    cases htok
  · rintro g tok htok
    cases htok
  · intro hu
    cases hu

theorem AfterL.adrift {l' : σ} (htok : V.token = none) (hknow : V.know = B)
    (h : AfterL t l V l' s) : Adrift t B l' s := ⟨V, htok, hknow, h.2⟩

theorem Lost.adrift {e : Err} {l' : σ} (htok : V.token = none)
    (hknow : V.know = B) (h : Lost t l V e l' s) : Adrift t B l' s := h.2.adrift htok hknow

/-- From anywhere outside a transaction, a body may be followed view by view. -/
theorem adrift_intro {α : Type} {m : StoreM σ α} {Q : α → σ → StoreState → Prop}
    (h : ∀ l V, V.token = none → V.know = B → StoreTriple P t call (AfterL t l V) m Q E) :
    StoreTriple P t call (Adrift t B) m Q E := by
  rintro l s hinv ⟨V, htok, hknow, hafter⟩
  exact h l V htok hknow l s hinv ⟨rfl, hafter⟩

theorem adrift_rollback :
    StoreTriple P t call (Adrift t B) CasStore.rollback (fun (_ : Unit) (l : σ) s => Adrift t B l s)
      E :=
  adrift_intro fun _ _ htok hknow => after_rollback.post fun _ _ _ _ h => h.adrift htok hknow

theorem adrift_close : StoreTriple P t call (Adrift t B) CasStore.close
    (fun (_ : Unit) (l : σ) s => Free t B l s) (fun _ _ _ => False) :=
  adrift_intro fun _ _ _ hknow => after_casClose.post fun _ _ _ _ h =>
    ⟨h.1, by rw [← hknow]; exact h.2.2.know⟩

theorem adrift_refuse :
    StoreTriple P t call (Adrift t B) refuse (fun (_ : Bool) (l : σ) s => Adrift t B l s) E :=
  adrift_rollback.bind fun _ => .pure fun _ _ _ h => h

/-- A transaction between opening and closing the CAS. -/
theorem free_transaction {α : Type} {m : StoreM σ α} {handler : Err → StoreM σ α}
    (hB : Lasting B)
    (hm : StoreKeeps σ P t call (Adrift t B) m)
    (hhandler : ∀ e, StoreTriple P t call (Adrift t B) (handler e) (fun _ => Adrift t B)
      (fun _ => Free t B)) :
    StoreKeeps σ P t call (Free t B) (do
        let a ← tryCatch m handler
        CasStore.close
        pure a) := by
  refine Triple.bind (Q := fun _ => Adrift t B) ?_ fun a => ?_
  · exact (hm.tryCatch hhandler).pre fun _ _ _ h => h.adrift hB
  · exact adrift_close.seq (fun _ _ _ _ h => h.elim) fun _ => .pure fun _ _ _ h => h

/-! ## The first transaction -/

/-- The tables after a status has moved and the act has been recorded. -/
theorem settled {c c' : Cas} {project : String} {now : Timestamp} {action : HistoryAction}
    (hV : ViewOk P V) (hdel : MayDelete call V g) (hbook : SameBook V.working c)
    (hothers : ∀ g', g' ≠ g → c.entry g' = V.working.entry g')
    (hc' : c' = c.appended g project now action none) : c'.ActiveOk ∧ Pending V.cas c' := by
  subst hc'
  have hrev : V.cas.revision < (c.appended g project now action none).revision := by
    rw [Cas.appended_revision, hbook.revision, hdel.same]
    exact Nat.lt_succ_self _
  refine ⟨fun g' hg' => ?_, ?_, .inr hrev⟩
  · rw [Cas.appended_active, hbook.active, hdel.same] at hg'
    have hne : g' ≠ g := by
      rintro rfl
      exact hdel.active hg'
    rw [Cas.appended_entry, hothers g' hne, hdel.same]
    exact hV.active g' hg'
  · rw [Cas.appended_revision, Cas.appended_history_length, hbook.revision, hbook.history,
      hdel.same, hV.revision]

/-- What a transaction that moved a status can commit. -/
def Settled (V : View) (c : Cas) : Prop := c.ActiveOk ∧ Pending V.cas c

/-- A status moves and the act is recorded; `k` is what the transaction goes on with. -/
theorem at_moveStatus {α : Type} {st : CatalogStatus} {project : String} {action : HistoryAction}
    {k : StoreM σ α} {Q : α → σ → StoreState → Prop}
    (hdel : MayDelete call V g)
    (hgone : st = .deleted → ∀ n : GenName, n.gen? = some g → V.generations.lookup n = none)
    (hE : ∀ e l' s, Lost t l V e l' s → E e l' s)
    (hk : ∀ c, Settled V c → StoreTriple P t call (AtL t l (V.withTables c)) k Q E) :
    AtTriple P t call l V
      (do
        CasStore.setCatalogStatus g st
        CasStore.appendPublicationHistory g project action none
        k) Q E := by
  refine at_viewOk fun hV => ?_
  refine (at_setCatalogStatus hdel hgone).seq (fun _ _ _ _ => hE _ _ _) fun _ => ?_
  refine .exists fun c => .assume ?_
  rintro ⟨hbook, hothers⟩
  have hrev : c.revision = c.history.length := by
    rw [hbook.revision, hbook.history, hdel.same]
    exact hV.revision
  refine (at_appendPublicationHistory hrev).seq (fun _ _ _ _ h => hE _ _ _ h.of_tables) fun _ => ?_
  exact .exists fun now => hk _ (settled hV hdel hbook hothers rfl)

/-- Where `B` is known, a plan that is applied lists the generation and does not retain it. -/
def Plans (call : Call) (B : StoreState → Prop) (g : GenerationId) : Prop :=
  ∀ s, B s → ∀ h, call = .applyGc h → ∃ p, s.world.gcPlans[h]? = some p ∧
    g ∉ planIds p.retain ∧ g ∈ planIds (p.delete ++ p.recovery)

/-- The checks under the lock amount to `MayDelete`. -/
theorem mayDelete {manifest : Option GenerationManifestV1}
    (hplan : Plans call B g)
    (hknow : V.know = B) (hsame : V.working = V.cas) (hmanifest : manifest = V.manifest)
    (hactive : V.working.activeGenerationId ≠ some g)
    (hnot : manifest.map (·.generationId) ≠ some g) (hcat : some cat = V.working.entry g)
    (hpinned : cat.pinned ≠ true) : MayDelete call V g where
  same := hsame
  manifest m hm hg := by
    subst hmanifest
    rw [hm] at hnot
    exact hnot (by rw [Option.map_some, hg])
  active := by
    rw [← hsame]
    exact hactive
  unpinned e he := by
    rw [← hsame, ← hcat] at he
    cases he
    simpa using hpinned
  planned s hs := hplan s (by rw [← hknow]; exact hs)

theorem after_refuse {R : Bool → σ → StoreState → Prop}
    (hR : ∀ l' s, AfterL t l V l' s → R false l' s) :
    AtTriple P t call l V refuse R E :=
  (after_rollback.pre fun _ _ _ h => h.after).bind fun _ => .pure fun l' s _ h => hR l' s h

/-- The first transaction either gives up or has recorded the intent. -/
theorem at_markDeletionIntent (hplan : Plans call B g)
    (hknow : V.know = B) (hsame : V.working = V.cas) :
    AtTriple P t call l V (markDeletionIntent P g currentActiveId isRecovery)
      (fun b l' s => if b then ∃ c, Settled V c ∧ AtL t l (V.withTables c) l' s
        else AfterL t l V l' s)
      (Lost t l V) := by
  refine at_viewOk fun hV => ?_
  have hrefuse : AtTriple P t call l V refuse
      (fun b l' s => if b then ∃ c, Settled V c ∧ AtL t l (V.withTables c) l' s
        else AfterL t l V l' s) (Lost t l V) := after_refuse fun _ _ h => by simpa using h
  refine at_getActiveGenerationId.seq (fun _ _ _ _ => Lost.of_errno) fun active => .assume ?_
  rintro rfl
  split
  · exact hrefuse
  rename_i hactive
  refine at_readManifest.attemptSeq (fun manifest => .assume fun hmanifest => ?_) fun e =>
    hrefuse.pre fun _ _ _ h => h.2
  dsimp only
  split
  · exact hrefuse
  rename_i hnot
  split
  · exact hrefuse
  refine at_getGenerationCatalogEntry.seq (fun _ _ _ _ => Lost.of_errno) fun entry =>
    .assume fun hentry => ?_
  split
  · exact hrefuse
  rename_i cat
  split
  · exact hrefuse
  rename_i hpinned
  have hdel : MayDelete call V g :=
    mayDelete hplan hknow hsame hmanifest hactive hnot hentry hpinned
  split
  · split
    · exact hrefuse
    · -- the intent of a recovery is there already: nothing has changed
      refine .pure fun l' s _ h => ⟨V.working, ⟨?_, ?_, .inl hsame⟩, h⟩
      · rw [hsame]
        exact hV.active
      · rw [hsame]
        exact hV.revision
  · split
    · exact hrefuse
    · refine at_moveStatus hdel (by nofun) (fun _ _ _ h => h) fun c hc => .pure fun l' s _ h => ?_
      exact ⟨c, hc, h⟩

/-! ## The second transaction -/

/-- What has to hold of a generation whose files are removed. -/
structure MayClear (call : Call) (V : View) (g : GenerationId) : Prop
    extends MayDelete call V g where
  status : ∀ e, V.cas.entry g = some e → e.status ≠ .active

theorem at_revalidateDeletion (hplan : Plans call B g)
    (hknow : V.know = B) (hsame : V.working = V.cas) :
    AtTriple P t call l V (revalidateDeletion g currentActiveId)
      (fun r l' s => (∀ cat, r = some cat → MayClear call V g) ∧ AtL t l V l' s)
      (FailedAt t l V) := by
  have hnone : AtTriple P t call l V
      (pure none : StoreM σ (Option CasGenerationCatalogEntry))
      (fun r l' s => (∀ cat, r = some cat → MayClear call V g) ∧ AtL t l V l' s)
      (FailedAt t l V) := .pure fun _ _ _ h => ⟨by nofun, h⟩
  refine at_getActiveGenerationId.bind fun active => .assume ?_
  rintro rfl
  refine at_readManifest.attemptSeq (fun manifest => .assume fun hmanifest => ?_) fun e =>
    hnone.pre fun _ _ _ h => h.2
  dsimp only
  refine at_getGenerationCatalogEntry.bind fun entry => .assume fun hentry => ?_
  split
  · exact hnone
  rename_i cat
  split
  · exact hnone
  rename_i hchecks
  simp only [not_or, not_not] at hchecks
  obtain ⟨hst, hpinned, hactive, hnot, -⟩ := hchecks
  refine .pure fun _ _ _ h => ⟨fun _ _ => ?_, h⟩
  refine ⟨mayDelete hplan hknow hsame hmanifest hactive hnot hentry hpinned, fun e he => ?_⟩
  rw [← hsame, ← hentry] at he
  cases he
  rw [hst]
  nofun

/-- At most files differ from `V`. -/
structure FilesOnly (V V' : View) : Prop extends SameTables V V' where
  know : V'.know = V.know

theorem MayClear.filesOnly (h : MayClear call V g) (hV : FilesOnly V V') : MayClear call V' g where
  same := by
    rw [hV.working, hV.cas]
    exact h.same
  manifest := by
    rw [hV.manifest]
    exact h.manifest
  active := by
    rw [hV.cas]
    exact h.active
  unpinned := by
    rw [hV.cas]
    exact h.unpinned
  planned := by
    rw [hV.know]
    exact h.planned
  status := by
    rw [hV.cas]
    exact h.status

/-- At most files differ from `V`. -/
def Clearing (t : Tid) (l : σ) (V : View) (l' : σ) (s : StoreState) : Prop :=
  ∃ V', FilesOnly V V' ∧ AtL t l V' l' s

theorem AtL.clearing {l' : σ} (h : AtL t l V l' s) : Clearing t l V l' s :=
  ⟨V, ⟨.refl V, rfl⟩, h⟩

/-- An operation that looks, or that removes a file of the generation. -/
def Op.clears (g : GenerationId) (o : Op) : Prop :=
  o.quiet = true ∨ ∃ n, n.gen? = some g ∧ o = .unlink n

theorem MayClear.unlinkOk {n : GenName} (h : MayClear call V g)
    (hcall : NotOrphans call) (hn : n.gen? = some g) (hat : At t V s) : UnlinkOk P call n s where
  final g' hg' := by
    rw [hn] at hg'
    cases hg'
    refine ⟨h.deletionOk hat, ?_, fun x hx => ?_⟩
    · rw [hat.cas]
      exact h.status
    · rw [hat.working hx, hat.cas]
      exact h.same
  orphan h options hc := absurd hc (hcall h options)

theorem clearing_op (hmay : MayClear call V g) (hcall : NotOrphans call) {o : Op}
    (ho : o.clears g) :
    StoreKeeps σ P t call (Clearing t l V) (op o) := by
  refine .exists fun V' => .assume fun hV' => ?_
  rcases ho with hq | ⟨n, hn, rfl⟩
  · exact (at_idle hq).conseq (fun _ _ _ h => h) (fun _ _ _ _ h => ⟨V', hV', h⟩)
      fun _ _ _ _ h => ⟨V', hV', h.2⟩
  · refine (at_unlink fun s _ hat => (hmay.filesOnly hV').unlinkOk hcall hn hat).conseq
      (fun _ _ _ h => h) ?_ fun _ _ _ _ h => ⟨V', hV', h.2⟩
    intro _ l' s _ h
    have hsame : SameTables V (V'.withFiles (V'.generations.erase n)) :=
      ⟨hV'.manifest, hV'.cas, hV'.working, hV'.token, hV'.writes⟩
    exact ⟨_, ⟨hsame, hV'.know⟩, h⟩

/-! ### Removing the files -/

theorem uses_readMetadata {n : GenName} :
    (CasStore.readMetadata P n : StoreM σ _).Uses (fun o => o.quiet = true) fun _ => True := by
  refine .bind (uses_op rfl fun _ => trivial) fun data => ?_
  iterate 3
    split
    · exact .throw trivial
  · exact .pure _

theorem uses_validateRecoveryMetadata :
    (validateRecoveryMetadataForCatalog P g cat : StoreM σ _).Uses (fun o => o.quiet = true)
      fun _ => True := by
  refine .bind (uses_op rfl fun _ => trivial) fun before => ?_
  refine .bind uses_readMetadata fun md => ?_
  split
  · exact .throw trivial
  refine .bind (uses_op rfl fun _ => trivial) fun after => ?_
  split
  · exact .throw trivial
  · exact .pure _

theorem uses_checkDeletionProof :
    (checkDeletionProof g cat proof : StoreM σ _).Uses (fun o => o.quiet = true)
      fun _ => True := by
  refine .bind (uses_op rfl fun _ => trivial) fun dbStat => ?_
  split
  · exact .throw trivial
  refine .bind (uses_op rfl fun _ => trivial) fun proofHash => ?_
  split
  · exact .throw trivial
  refine .bind (uses_op rfl fun _ => trivial) fun metaStat => ?_
  split
  · exact .throw trivial
  · exact .pure _

theorem uses_checkBeforeRemoval {X : Err → Prop} :
    (checkBeforeRemoval P g cat isRecovery proof : StoreM σ _).Uses (fun o => o.quiet = true) X := by
  unfold checkBeforeRemoval
  split
  · exact .bind (.attempt uses_validateRecoveryMetadata) fun _ => .pure _
  · exact .bind (.attempt uses_checkDeletionProof) fun _ => .pure _

theorem clears_quiet {o : Op} (h : o.quiet = true) : o.clears g := .inl h

theorem uses_removeDatabase :
    (removeDatabase g cat isRecovery : StoreM σ _).Uses (Op.clears g) fun _ => True := by
  refine .bind (uses_op (clears_quiet rfl) fun _ => trivial) fun _ => .bind ?_ fun _ => ?_
  · unfold checkRecoveryHash
    split
    · refine .bind (uses_op (clears_quiet rfl) fun _ => trivial) fun h => ?_
      split
      · exact .throw trivial
      · exact .pure _
    · exact .pure _
  · exact uses_op (.inr ⟨_, rfl, rfl⟩) fun _ => trivial

theorem uses_removeMetadata {isRecovery dbRemoved : Bool} :
    (removeMetadata P g cat isRecovery dbRemoved : StoreM σ _).Uses (Op.clears g)
      fun _ => True := by
  refine .ite (fun _ => ?_) fun _ => .throw trivial
  refine .bind (uses_op (clears_quiet rfl) fun _ => trivial) fun _ => .bind ?_ fun _ => ?_
  · unfold checkRecoveryMetadata
    split
    · exact uses_validateRecoveryMetadata.mono (fun _ h => clears_quiet h) fun _ h => h
    · exact .pure _
  · exact uses_op (.inr ⟨_, rfl, rfl⟩) fun _ => trivial

/-- The answer `true` means that the name is not bound. -/
theorem at_confirmAbsent {n : GenName} :
    AtTriple P t call l V (confirmAbsent n)
      (fun b l' s => (b = true → V.generations.lookup n = none) ∧ AtL t l V l' s) E := by
  refine at_lstat.attemptSeq (fun st => ?_) fun e => ?_
  · exact .pure fun _ _ _ h => ⟨by nofun, h.2⟩
  · refine .assume fun he => ?_
    split
    · rename_i heq
      cases heq
      exact .pure fun _ _ _ h => ⟨fun _ => he.2 rfl, h⟩
    · exact .pure fun _ _ _ h => ⟨by nofun, h⟩

/-- Both files are gone when the removal says so. -/
theorem at_removeGenerationFiles (hmay : MayClear call V g) (hcall : NotOrphans call) :
    AtTriple P t call l V (removeGenerationFiles P g cat isRecovery)
      (fun b l' s => ∃ V', (FilesOnly V V' ∧
        (b = true → ∀ n : GenName, n.gen? = some g → V'.generations.lookup n = none)) ∧
        AtL t l V' l' s) E := by
  have hclears : ∀ {α : Type} {m : StoreM σ α} {X : Err → Prop}, m.Uses (Op.clears g) X →
      StoreTriple P t call (Clearing t l V) m (fun _ => Clearing t l V)
        fun e l' s => Clearing t l V l' s ∧ X e := fun hm =>
    Triple.uses hm fun _ ho => clearing_op hmay hcall ho
  have hattempt : ∀ {α β : Type} {m : StoreM σ α} {f : Except Err α → StoreM σ β}
      {R : β → σ → StoreState → Prop}, m.Uses (Op.clears g) (fun _ => True) →
      (∀ r, StoreTriple P t call (Clearing t l V) (f r) R E) →
      StoreTriple P t call (Clearing t l V) (m.attempt >>= f) R E := fun hm hf =>
    (hclears hm).attemptSeq (fun _ => hf _) fun _ => (hf _).pre fun _ _ _ h => h.1
  refine Triple.pre (P := Clearing t l V) ?_ fun _ _ _ h => h.clearing
  refine hattempt uses_removeDatabase fun dbRes => ?_
  refine hattempt (uses_op (clears_quiet rfl) fun _ => trivial) fun dirFsync1 => ?_
  refine hattempt uses_removeMetadata fun metadataRes => ?_
  refine hattempt (uses_op (clears_quiet rfl) fun _ => trivial) fun dirFsync2 => ?_
  refine .exists fun V' => .assume fun hV' => ?_
  refine at_confirmAbsent.bind fun dbAbsent => .assume fun hdb => ?_
  refine at_confirmAbsent.bind fun metadataAbsent => .assume fun hjson => ?_
  refine .pure fun l' s _ h => ⟨V', ⟨hV', fun hb n hn => ?_⟩, h⟩
  simp only [Bool.and_eq_true] at hb
  rcases GenName.gen?_eq_some hn with rfl | rfl
  · exact hdb hb.1.2
  · exact hjson hb.2

theorem at_finishDeletion (hcall : NotOrphans call) (hplan : Plans call B g)
    (htok : V.token = none) (hknow : V.know = B) (hsame : V.working = V.cas) :
    AtTriple P t call l V (finishDeletion P g currentActiveId isRecovery proof)
      (fun _ => Adrift t B) (fun _ => Adrift t B) := by
  have hrefuse : ∀ {V : View}, V.token = none → V.know = B →
      AtTriple P t call l V refuse (fun (_ : Bool) (l : σ) s => Adrift t B l s)
        (fun _ => Adrift t B) := fun htok hknow =>
    after_refuse fun _ _ h => h.adrift htok hknow
  refine (at_revalidateDeletion hplan hknow hsame).seq
    (fun _ _ _ _ h => h.2.after.adrift htok hknow) fun r => .assume fun hmay => ?_
  split
  · exact hrefuse htok hknow
  rename_i cat
  have hmay := hmay cat rfl
  refine (triple_look AtL.stable (uses_checkBeforeRemoval (X := fun _ => True))).seq
    (fun _ _ _ _ h => h.1.after.adrift htok hknow) fun ready => ?_
  split
  · exact hrefuse htok hknow
  refine (at_removeGenerationFiles hmay hcall).bind fun complete => .exists fun V' => .assume ?_
  rintro ⟨hV', hgone⟩
  have htok' : V'.token = none := hV'.token.trans htok
  have hknow' : V'.know = B := hV'.know.trans hknow
  split
  · exact hrefuse htok' hknow'
  rename_i hcomplete
  refine at_moveStatus (hmay.filesOnly hV').toMayDelete
    (fun _ => hgone (by simpa using hcomplete))
    (fun _ _ _ h => h.adrift htok' hknow') fun c hc => ?_
  refine (at_commit (V := V'.withTables c) hc.1 hc.2).seq
    (fun _ _ _ _ h => h.of_tables.adrift htok' hknow') fun _ => ?_
  exact .pure fun _ _ _ h => h.2.adrift (V := (V'.withTables c).touched) htok' hknow'

theorem after_deletionProtocol (hcall : NotOrphans call) (hplan : Plans call B g)
    (htok : V.token = none) (hknow : V.know = B) :
    StoreTriple P t call (AfterL t l V) (deletionProtocol P g currentActiveId isRecovery proof)
      (fun _ => Adrift t B) (fun _ => Adrift t B) := by
  refine after_beginImmediate.seq (fun _ _ _ _ h => h.adrift htok hknow) fun _ => ?_
  refine .exists fun V₁ => .assume fun hopen => ?_
  have htok₁ : V₁.token = none := hopen.token.trans htok
  have hknow₁ : V₁.know = B := hopen.know.trans hknow
  refine (at_markDeletionIntent hplan hknow₁ hopen.same).seq
    (fun _ _ _ _ h => h.adrift htok₁ hknow₁) fun intent => ?_
  cases intent with
  | false => exact .pure fun _ _ _ h => AfterL.adrift (V := V₁) htok₁ hknow₁ (by simpa using h)
  | true =>
    refine Triple.pre (P := fun l' s => ∃ c, Settled V₁ c ∧
      AtL t l (V₁.withTables c) l' s) (.exists fun c => .assume fun hc => ?_)
        fun _ _ _ h => by simpa using h
    refine (at_commit (V := V₁.withTables c) hc.1 hc.2).seq
      (fun _ _ _ _ h => h.of_tables.adrift htok₁ hknow₁) fun _ => ?_
    refine (after_beginImmediate.pre fun _ _ _ h => h.2).seq
      (fun _ _ _ _ h => h.adrift (V := (V₁.withTables c).touched) htok₁ hknow₁) fun _ => ?_
    refine .exists fun V₂ => .assume fun hopen₂ => ?_
    exact at_finishDeletion hcall hplan (hopen₂.token.trans htok₁) (hopen₂.know.trans hknow₁)
      hopen₂.same

/-- **Deleting a generation keeps the contract.** -/
theorem free_deleteGenerationUnderCasLock (hcall : NotOrphans call) (hB : Lasting B)
    (hplan : Plans call B g) :
    StoreKeeps σ P t call (Free t B) (deleteGenerationUnderCasLock P g currentActiveId isRecovery proof) := by
  refine (free_orFail hB rfl).bind fun _ => ?_
  exact free_transaction hB
    (adrift_intro fun _ _ htok hknow => after_deletionProtocol hcall hplan htok hknow)
    fun _ => adrift_refuse

/-! ## Applying a plan -/

theorem uses_verifyGenerationSafety :
    (verifyGenerationSafety P g cat : StoreM σ _).Uses (fun o => o.quiet = true)
      fun _ => True := by
  iterate 2
    refine .bind (uses_attempt rfl) fun r => ?_
    split
    · exact .pure _
  refine .bind (.attempt uses_readMetadata) fun r => ?_
  split
  · exact .pure _
  split
  · exact .pure _
  refine .bind (uses_op rfl fun _ => trivial) fun h => ?_
  split <;> exact .pure _

theorem free_applyDeleteEntry (hcall : NotOrphans call) (hB : Lasting B)
    (hplan : Plans call B g) :
    StoreKeeps σ P t call (Free t B) (applyDeleteEntry P currentActiveId g) := by
  have hkeep : StoreKeeps σ P t call (Free t B) (pure false : StoreM σ Bool) := .pure fun _ _ _ h => h
  refine (free_quiet hB rfl).attemptSeq (fun _ => ?_) fun _ => hkeep
  dsimp only
  split
  · exact hkeep
  refine (free_orFail hB rfl).bind fun _ => ?_
  refine Triple.bind (free_select (C := fun _ => B) hB fun _ _ h => h) fun entry => ?_
  split
  · exact hkeep
  rename_i cat
  refine (free_look hB uses_verifyGenerationSafety).bind fun proof => ?_
  split
  · exact hkeep
  · exact free_deleteGenerationUnderCasLock hcall hB hplan

/-- What applying a plan knows: the plan is the registered one, and it retains nothing of what it
deletes. -/
def Applying (h : ℕ) (plan : GenerationGcPlan) (s : StoreState) : Prop :=
  s.world.gcPlans[h]? = some plan ∧
    ∀ g ∈ planIds (plan.delete ++ plan.recovery), g ∉ planIds plan.retain

theorem Lasting.gcPlan (h : ℕ) (plan : GenerationGcPlan) :
    Lasting fun s => s.world.gcPlans[h]? = some plan := by
  intro s s' hev hp
  obtain ⟨ext, hext⟩ := hev.gcPlans
  rw [← hext, getElem?_append_left (List.getElem?_eq_some_iff.mp hp).1]
  exact hp

theorem Applying.lasting (h : ℕ) (plan : GenerationGcPlan) : Lasting (Applying h plan) :=
  (Lasting.gcPlan h plan).and fun _ _ _ hb => hb

theorem Applying.planned
    (happ : Applying h plan s) (hg : g ∈ planIds (plan.delete ++ plan.recovery)) (h' : ℕ)
    (heq : Call.applyGc h = .applyGc h') : ∃ p, s.world.gcPlans[h']? = some p ∧
      g ∉ planIds p.retain ∧ g ∈ planIds (p.delete ++ p.recovery) := by
  cases heq
  exact ⟨plan, happ.1, happ.2 g hg, hg⟩

theorem notOrphans_applyGc : NotOrphans (.applyGc h) := by
  intro h' options heq
  cases heq

theorem free_applyRecovery (es : List GenerationGcPlanEntry)
    (hes : ∀ e ∈ es, e ∈ plan.recovery) :
    StoreKeeps σ P t (.applyGc h) (Free t (Applying h plan)) (applyRecovery P currentActiveId es) := by
  have hB := Applying.lasting h plan
  induction es with
  | nil => exact .pure fun _ _ _ h => h
  | cons e es ih =>
    have ih := ih fun e' he' => hes e' (mem_cons_of_mem _ he')
    have hmem : e.generationId ∈ planIds (plan.delete ++ plan.recovery) :=
      mem_map_of_mem (mem_append_right _ (hes e mem_cons_self))
    refine (free_quiet hB rfl).attemptSeq (fun _ => ?_) fun _ => ih
    refine (free_deleteGenerationUnderCasLock notOrphans_applyGc hB
      fun s hs => hs.planned hmem).bind fun deleted => ?_
    exact ih.bind fun more => .pure fun _ _ _ h => h

theorem free_applyDelete (es : List GenerationGcPlanEntry)
    (hes : ∀ e ∈ es, e ∈ plan.delete) :
    StoreKeeps σ P t (.applyGc h) (Free t (Applying h plan)) (applyDelete P currentActiveId es) := by
  induction es with
  | nil => exact .pure fun _ _ _ h => h
  | cons e es ih =>
    have ih := ih fun e' he' => hes e' (mem_cons_of_mem _ he')
    have hmem : e.generationId ∈ planIds (plan.delete ++ plan.recovery) :=
      mem_map_of_mem (mem_append_left _ (hes e mem_cons_self))
    refine (free_applyDeleteEntry notOrphans_applyGc (Applying.lasting h plan)
      fun s hs => hs.planned hmem).bind fun deleted => ?_
    exact ih.bind fun more => .pure fun _ _ _ h => h

/-- The staging area is nobody's knowledge. -/
theorem free_unlinkStaging (hB : Lasting B) :
    StoreKeeps σ P t call (Free t B) (op (.unlinkStaging g)) := by
  refine triple_op (Free.stable hB) (fun _ _ _ _ => trivial) ?_
  rintro l s ch r w' - ⟨hfree, hb⟩ hexec hev
  have h' : Free t B l (s.push t (.op (.unlinkStaging g) r) w') := by
    refine ⟨?_, hB hev hb⟩
    rcases exec_cases (o := .unlinkStaging g) (by nofun) P t ch s.world with he | he
    · rw [he] at hexec
      cases hexec
      exact hfree
    · rw [he] at hexec
      simp only [execOp] at hexec
      split at hexec <;> cases hexec <;> exact hfree
  cases r with
  | ok _ => exact h'
  | error _ => exact h'

theorem free_sweepTmpEntry {ent : GenerationGcTmpEntry} (hB : Lasting B) :
    StoreKeeps σ P t call (Free t B) (sweepTmpEntry ent) := by
  have hkeep : StoreKeeps σ P t call (Free t B) (pure false : StoreM σ Bool) := .pure fun _ _ _ h => h
  have hlook : StoreKeeps σ P t call (Free t B) (do op .io; op (.lstatStaging ent.path) : StoreM σ Stat) := (free_quiet hB rfl).bind fun _ => free_quiet hB rfl
  refine hlook.attemptSeq (fun st => ?_) fun _ => hkeep
  dsimp only
  split
  · exact hkeep
  · exact (free_unlinkStaging hB).attemptSeq (fun _ => .pure fun _ _ _ h => h) fun _ => hkeep

theorem free_applySweepTmp (hB : Lasting B) (es : List GenerationGcTmpEntry) :
    StoreKeeps σ P t call (Free t B) (applySweepTmp es) := by
  induction es with
  | nil => exact .pure fun _ _ _ h => h
  | cons e es ih =>
    refine (free_sweepTmpEntry hB).bind fun swept => ?_
    exact ih.bind fun more => .pure fun _ _ _ h => h

/-- The revision tells that the tables are those of the plan, and then nothing that the plan deletes
is also retained by it. -/
theorem applying_of_revision (hinv : Inv P s)
    (hplan : s.world.gcPlans[h]? = some plan) (hrev : s.world.cas.revision = plan.casRevision) :
    Applying h plan s := by
  have hok := hinv.plans.gc plan (mem_of_getElem? hplan)
  refine ⟨hplan, fun g hg hretain => ?_⟩
  rw [planIds, map_append, mem_append] at hg
  rcases hg with hg | hg
  · exact hok.disjoint g hg hretain
  · obtain ⟨e, he, hst⟩ := hok.recovery hrev g hg
    obtain ⟨e', he', hst'⟩ := hok.retain hrev g hretain
    rw [he] at he'
    cases he'
    rw [hst] at hst'
    cases hst'

/-- Looking a plan up. -/
theorem free_gcPlan :
    StoreTriple P t call (Free t fun _ => True) (op (.gcPlan h))
      (fun (r : Option GenerationGcPlan) (l : σ) s =>
        Free t (fun s => ∀ plan, r = some plan → s.world.gcPlans[h]? = some plan) l s) E := by
  refine triple_op (Free.stable .true) (fun _ _ _ _ => trivial) ?_
  intro l s ch r w' _ hfree hexec _
  rw [exec_eq (by simp [Op.fallible])] at hexec
  cases hexec
  exact ⟨hfree.1, fun plan hplan => hplan⟩

/-- **Applying a plan keeps the contract.** -/
theorem free_applyGenerationGcPlan :
    StoreTriple P t (.applyGc h) (Free t fun _ => True) (applyGenerationGcPlan P h)
      (fun (_ : GenerationGcResult) (_ : σ) _ => True) (fun _ _ _ => True) := by
  refine free_gcPlan.bind fun r => ?_
  cases r with
  | none => exact .throw fun _ _ _ _ => trivial
  | some plan =>
    have hgive : ∀ {B : StoreState → Prop} (e : Err) (l : σ) (s : StoreState), Inv P s →
        Free t B l s → True := fun _ _ _ _ _ => trivial
    have hplan := Lasting.gcPlan h plan
    refine Triple.pre (P := Free t fun s => s.world.gcPlans[h]? = some plan) ?_
      fun _ _ _ hfree => ⟨hfree.1, hfree.2 plan rfl⟩
    refine (free_orFail hplan rfl).seq hgive fun _ => ?_
    refine (free_orFail hplan rfl).seq hgive fun activeManifest => ?_
    refine (free_orFail hplan rfl).seq hgive fun _ => ?_
    refine Triple.seq (free_select (C := fun (n : ℕ) s =>
      n = plan.casRevision → Applying h plan s) hplan
      fun s hinv hp hrev => applying_of_revision hinv hp hrev) hgive fun currentRevision => ?_
    have hrevision : Lasting fun s => currentRevision = plan.casRevision → Applying h plan s :=
      fun _ _ hev hb heq => Applying.lasting h plan hev (hb heq)
    refine (free_close hrevision).seq (fun _ _ _ _ h => h.elim) fun _ => ?_
    split
    · exact .pure fun _ _ _ _ => trivial
    rename_i heq
    simp only [ne_eq, not_not] at heq
    have hB := Applying.lasting h plan
    refine Triple.pre (P := Free t (Applying h plan)) ?_
      fun _ _ _ hfree => ⟨hfree.1, hfree.2 heq⟩
    refine (free_applyRecovery plan.recovery fun _ he => he).seq hgive fun recovered => ?_
    refine (free_applyDelete plan.delete fun _ he => he).seq hgive fun deleted => ?_
    refine (free_applySweepTmp hB plan.sweepTmp).seq hgive fun deletedTmp => ?_
    refine Triple.bind (Q := fun _ => Free t (Applying h plan)) (triple_bestEffort ?_)
      fun _ => .pure fun _ _ _ _ => trivial
    exact free_look hB (X := fun _ => True)
      (.ite (fun _ => .pure _) fun _ => uses_op rfl fun _ => trivial)

end Ariad
