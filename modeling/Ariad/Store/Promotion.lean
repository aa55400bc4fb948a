import Ariad.Store.Transactions

/-!
# Promoting a fresh generation

What the file part of a publication does, from the view of the publisher, who holds the lock: it
works on temporaries of its own, links each of the two final names of its generation once, and
leaves the manifest, the tables and all other final names alone.

* `Near t l V` — the lock is held, and at most temporaries and the staging area differ from `V`.
* `PubErr t g tok` — what an exception leaves to the handler of the publication: the token is still
  the publisher's, and unless the locals say that the database was created, neither final name of
  the generation has ever existed.
-/

namespace Ariad

open Discipline

variable {P : Platform} {σ : Type} {t : Tid} {call : Call} {V V' : View} {g : GenerationId}
  {tok : PreparedToken}

/-! ## Views that differ in files only -/

/-- The same tables, manifest and token: only files differ. -/
structure SameTables (V V' : View) : Prop where
  manifest : V'.manifest = V.manifest
  cas : V'.cas = V.cas
  working : V'.working = V.working
  token : V'.token = V.token
  writes : V'.writes = V.writes

variable {l : PublicationMutationState} {identity : FileIdentity} {temp : GenName} {X : Err → Prop}
  {l' : PublicationMutationState} {s : StoreState} {C : Op → Prop} {α : Type}

variable {Q : α → PublicationMutationState → StoreState → Prop} {E : Err → σ → StoreState → Prop}
  {c : ErrorCode} {source : File} {n : GenName} {o : Op}

theorem SameTables.refl (V : View) : SameTables V V := ⟨rfl, rfl, rfl, rfl, rfl⟩

theorem SameTables.trans {V₁ V₂ V₃ : View} (h₁ : SameTables V₁ V₂) (h₂ : SameTables V₂ V₃) :
    SameTables V₁ V₃ :=
  ⟨h₂.manifest.trans h₁.manifest, h₂.cas.trans h₁.cas, h₂.working.trans h₁.working,
    h₂.token.trans h₁.token, h₂.writes.trans h₁.writes⟩

/-- Only temporaries and the staging area differ. -/
structure TempOnly (V V' : View) : Prop extends SameTables V V' where
  fresh : ∀ n g, n.gen? = some g → V.fresh n → V'.fresh n

theorem TempOnly.refl (V : View) : TempOnly V V := ⟨.refl V, fun _ _ _ h => h⟩

theorem TempOnly.trans {V₁ V₂ V₃ : View} (h₁ : TempOnly V₁ V₂) (h₂ : TempOnly V₂ V₃) :
    TempOnly V₁ V₃ :=
  ⟨h₁.toSameTables.trans h₂.toSameTables, fun n g hn h => h₂.fresh n g hn (h₁.fresh n g hn h)⟩

theorem TempOnly.touched (V : View) : TempOnly V V.touched := ⟨⟨rfl, rfl, rfl, rfl, rfl⟩, fun _ _ _ h => h⟩

theorem TempOnly.drawn (V : View) (nonce : ℕ) : TempOnly V (V.drawn nonce) :=
  ⟨⟨rfl, rfl, rfl, rfl, rfl⟩, fun _ _ _ h => .inl h⟩

/-- A temporary is bound to a file. -/
theorem TempOnly.insert (hV : ViewOk P V) (htemp : n.gen? = none) (f : File) :
    TempOnly V (V.withFiles (V.generations.insert n f)) := by
  refine ⟨⟨rfl, rfl, rfl, rfl, rfl⟩, fun n' g hn' h => ⟨h, ?_⟩⟩
  rw [AList.lookup_insert_ne]
  · exact hV.fresh n' h
  · rintro rfl
    rw [htemp] at hn'
    cases hn'

theorem TempOnly.erase (hV : ViewOk P V) (n : GenName) :
    TempOnly V (V.withFiles (V.generations.erase n)) := by
  refine ⟨⟨rfl, rfl, rfl, rfl, rfl⟩, fun n' g _ h => ⟨h, ?_⟩⟩
  by_cases hn : n' = n
  · subst hn
    exact AList.lookup_erase _ _
  · rw [AList.lookup_erase_ne hn]
    exact hV.fresh n' h

/-- The lock is held, and at most temporaries and the staging area differ from `V`. -/
def Near (t : Tid) (l : σ) (V : View) (l' : σ) (s : StoreState) : Prop :=
  ∃ V', TempOnly V V' ∧ AtL t l V' l' s

theorem AtL.near {l l' : σ} (h : AtL t l V l' s) : Near t l V l' s :=
  ⟨V, .refl V, h⟩

theorem Near.trans {l l' : σ} (hV : TempOnly V V') (h : Near t l V' l' s) : Near t l V l' s := by
  obtain ⟨V'', hV', hat⟩ := h
  exact ⟨V'', hV.trans hV', hat⟩

theorem at_modify {l : σ} {f : σ → σ} {k : PUnit → StoreM σ α} {Q : α → σ → StoreState → Prop}
    (h : StoreTriple P t call (AtL t (f l) V) (k ⟨⟩) Q E) :
    AtTriple P t call l V (Proc.modifyLocals f >>= k) Q E := by
  refine Triple.bind (.modifyLocals (R := fun _ => AtL t (f l) V) ?_) fun _ => h
  rintro l' s - ⟨rfl, hat⟩
  exact ⟨rfl, hat⟩

theorem near_modify {l : σ} {f : σ → σ} {k : PUnit → StoreM σ α} {Q : α → σ → StoreState → Prop}
    (h : StoreTriple P t call (Near t (f l) V) (k ⟨⟩) Q E) :
    StoreTriple P t call (Near t l V) (Proc.modifyLocals f >>= k) Q E := by
  refine Triple.bind (.modifyLocals (R := fun _ => Near t (f l) V) ?_) fun _ => h
  rintro l' s - ⟨V', hV', rfl, hat⟩
  exact ⟨V', hV', rfl, hat⟩

/-! ## Helpers that never do harm -/

/-- An operation that looks, or that removes a temporary or a staging file. -/
def Op.harmless (o : Op) : Prop :=
  o.quiet = true ∨ (∃ n, n.gen? = none ∧ o = .unlink n) ∨ ∃ g, o = .unlinkStaging g

/-- No orphan plan is being applied. -/
def NotOrphans (call : Call) : Prop := ∀ h options, call ≠ .applyOrphans h options

section

variable (hcall : NotOrphans call)
include hcall

theorem unlinkOk_temp (htemp : n.gen? = none) : UnlinkOk P call n s where
  final g hn := by
    rw [htemp] at hn
    cases hn
  orphan h options hc := absurd hc (hcall h options)

theorem at_unlinkTemp {l : σ} (htemp : n.gen? = none) :
    AtTriple P t call l V (op (.unlink n)) (fun _ => Near t l V)
      (fun _ => Near t l V) := by
  refine at_viewOk fun hV => ?_
  refine (at_unlink fun _ _ _ => unlinkOk_temp hcall htemp).conseq (fun _ _ _ h => h) ?_ ?_
  · exact fun _ _ _ _ h => ⟨_, .erase hV n, h⟩
  · exact fun _ _ _ _ h => h.2.near

theorem near_harmless {l : σ} (ho : o.harmless) :
    StoreKeeps σ P t call (Near t l V) (op o) := by
  refine .exists fun V' => .assume fun hV' => ?_
  suffices h : StoreTriple P t call (AtL t l V') (op o) (fun _ => Near t l V')
      (fun _ => Near t l V') from
    h.conseq (fun _ _ _ h => h) (fun _ _ _ _ h => h.trans hV') (fun _ _ _ _ h => h.trans hV')
  rcases ho with hq | ⟨n, htemp, rfl⟩ | ⟨g, rfl⟩
  · exact (at_idle hq).conseq (fun _ _ _ h => h) (fun _ _ _ _ h => h.near)
      (fun _ _ _ _ h => h.2.near)
  · exact at_unlinkTemp hcall htemp
  · exact at_unlinkStaging.conseq (fun _ _ _ h => h) (fun _ _ _ _ h => ⟨_, .touched V', h⟩)
      (fun _ _ _ _ h => h.2.near)

/-- A helper made of harmless operations. -/
theorem near_uses {l : σ} {m : StoreM σ α} (hm : m.Uses Op.harmless X) :
    AtTriple P t call l V m (fun _ => Near t l V) (fun e l' s => Near t l V l' s ∧ X e) :=
  (Triple.uses hm fun _ ho => near_harmless hcall ho).pre fun _ _ _ h => h.near

end

theorem uses_op (ho : C o) (hX : ∀ n, X (.errno n)) :
    (op o : StoreM σ o.Val).Uses C X := .perform ho hX

theorem uses_attempt (ho : C o) : ((op o : StoreM σ o.Val).attempt : StoreM σ _).Uses C X :=
  .attempt (Y := fun _ => True) (uses_op ho fun _ => trivial)

theorem uses_bestEffort {m : StoreM σ α} {X Y : Err → Prop}
    (h : m.Uses C Y) : (bestEffort m).Uses C X := .bind (.attempt h) fun _ => .pure _

theorem harmless_quiet (h : o.quiet = true) : o.harmless := .inl h

theorem harmless_unlink (h : n.gen? = none) : (Op.unlink n).harmless :=
  .inr (.inl ⟨n, h, rfl⟩)

theorem harmless_unlinkStaging (g : GenerationId) : (Op.unlinkStaging g).harmless :=
  .inr (.inr ⟨g, rfl⟩)

theorem uses_confirmStagingAbsent
    (hC : ∀ o : Op, o.quiet = true → C o) : (confirmStagingAbsent g : StoreM σ _).Uses C X := by
  refine .bind (uses_bestEffort (Y := fun _ => True) (uses_op (hC _ rfl) fun _ => trivial))
    fun _ => ?_
  refine .bind (uses_attempt (hC _ rfl)) fun r => ?_
  split <;> exact .pure _

/-- Removing a staging file looks around and unlinks it. -/
theorem uses_unlinkStagingDurably {ino : ℕ}
    (hC : ∀ o : Op, o.quiet = true → C o) (hunlink : C (.unlinkStaging g)) :
    (unlinkStagingDurably g ino : StoreM σ _).Uses C X := by
  refine .bind (uses_attempt (hC _ rfl)) fun r => ?_
  split
  · exact uses_confirmStagingAbsent hC
  · exact .pure _
  · split
    · exact .pure _
    · refine .bind (uses_attempt hunlink) fun r => ?_
      split
      · exact .pure _
      · exact uses_confirmStagingAbsent hC

theorem uses_dropStaging {ino : ℕ} : (unlinkStagingDurably g ino : StoreM σ _).Uses Op.harmless X :=
  uses_unlinkStagingDurably (fun _ => harmless_quiet) (harmless_unlinkStaging g)

theorem uses_removeOwnTemp
    (htemp : temp.gen? = none) : (removeOwnTemp temp identity : StoreM σ _).Uses Op.harmless X := by
  refine .bind (uses_attempt (harmless_quiet rfl)) fun r => ?_
  split
  · split
    · exact .pure _
    · refine .bind (uses_attempt (harmless_unlink htemp)) fun r => ?_
      split <;> exact .pure _
  · exact .pure _
  · exact .pure _

theorem uses_certifyAbsent : (certifyAbsent temp : StoreM σ _).Uses Op.harmless X := by
  refine .bind (uses_attempt (harmless_quiet rfl)) fun r => ?_
  split
  · exact .pure _
  · refine .bind (uses_attempt (harmless_quiet rfl)) fun r => ?_
    split <;> exact .pure _

theorem uses_cleanupTemp
    (htemp : temp.gen? = none) : (cleanupTemp temp identity : StoreM σ _).Uses Op.harmless X := by
  refine .bind (uses_removeOwnTemp htemp) fun removed => ?_
  split
  · exact .pure _
  · exact uses_certifyAbsent

/-! ## Exceptions -/

/-- A view of the publisher: the token is its own, it has replaced the manifest at most once, and the
final names are as the locals say. -/
structure PubView (g : GenerationId) (tok : PreparedToken) (V : View)
    (l : PublicationMutationState) : Prop where
  token : V.token = some (g, tok)
  writes : V.writes.length ≤ 1
  created : l.finalDbCreated = false → V.fresh (.db g) ∧ V.fresh (.json g)

theorem PubView.tempOnly (h : PubView g tok V l) (hV : TempOnly V V') : PubView g tok V' l where
  token := hV.token.trans h.token
  writes := by
    rw [hV.writes]
    exact h.writes
  created hl := ⟨hV.fresh _ g rfl (h.created hl).1, hV.fresh _ g rfl (h.created hl).2⟩

/-- The publisher has not linked anything yet. -/
structure Unlinked (g : GenerationId) (tok : PreparedToken) (V : View) : Prop where
  token : V.token = some (g, tok)
  writes : V.writes = []
  db : V.fresh (.db g)
  json : V.fresh (.json g)

theorem Unlinked.tempOnly (h : Unlinked g tok V) (hV : TempOnly V V') : Unlinked g tok V' :=
  ⟨hV.token.trans h.token, hV.writes.trans h.writes, hV.fresh _ g rfl h.db, hV.fresh _ g rfl h.json⟩

theorem Unlinked.pubView (h : Unlinked g tok V) (l : PublicationMutationState) :
    PubView g tok V l :=
  ⟨h.token, by simp [h.writes], fun _ => ⟨h.db, h.json⟩⟩

/-- What an exception leaves to the handler of the publication. The comparison's exception comes
before anything has changed. -/
def PubErr (t : Tid) (g : GenerationId) (tok : PreparedToken) (e : Err)
    (l : PublicationMutationState) (s : StoreState) : Prop :=
  ∃ V, PubView g tok V l ∧ After t V s ∧
    (e = .store .publicationCasMismatch → V.untouched = true ∧ V.writes = [] ∧ l = .initial)

theorem AtL.pubErr {e : Err}
    (h : AtL t l V l' s) (hV : PubView g tok V l) (he : e ≠ .store .publicationCasMismatch) :
    PubErr t g tok e l' s := by
  obtain ⟨rfl, hat⟩ := h
  exact ⟨V, hV, hat.toAfter, fun h => absurd h he⟩

theorem Lost.pubErr {e : Err}
    (h : Lost t l V e l' s) (hV : PubView g tok V l) : PubErr t g tok e l' s := by
  obtain ⟨he, rfl, hafter⟩ := h
  exact ⟨V, hV, hafter, fun h => absurd h he⟩

theorem Near.pubErr {e : Err}
    (h : Near t l V l' s) (hV : PubView g tok V l) (he : e ≠ .store .publicationCasMismatch) :
    PubErr t g tok e l' s := by
  obtain ⟨V', hV', hat⟩ := h
  exact hat.pubErr (hV.tempOnly hV') he

theorem pub_fail (hV : PubView g tok V l) (hc : c ≠ .publicationCasMismatch) :
    StoreTriple P t call (Near t l V) (fail c) Q (PubErr t g tok) :=
  .throw fun _ _ _ h => h.pubErr hV (by simpa using hc)

/-- Before the link: the temp is cleaned up, and nothing may have been created. -/
theorem at_abandonPromotion (hcall : NotOrphans call)
    (htemp : temp.gen? = none) (hV : Unlinked g tok V) (hc : c ≠ .publicationCasMismatch) :
    AtTriple P t call l V (abandonPromotion temp identity c) Q (PubErr t g tok) := by
  refine Triple.seq (near_uses (X := fun _ => False) hcall (uses_cleanupTemp htemp))
    (fun _ _ _ _ h => h.2.elim) fun certified => ?_
  split
  · exact near_modify (pub_fail (hV.pubView _) hc)
  · exact pub_fail (hV.pubView _) hc

/-- After the link: the database stays created. -/
theorem at_abandonAfterLink (hcall : NotOrphans call)
    (htemp : temp.gen? = none) (hV : PubView g tok V l) (hc : c ≠ .publicationCasMismatch) :
    AtTriple P t call l V (abandonAfterLink temp identity c) Q (PubErr t g tok) :=
  Triple.seq (near_uses (X := fun _ => False) hcall (uses_cleanupTemp htemp))
    (fun _ _ _ _ h => h.2.elim) fun _ => pub_fail hV hc

/-! ## The copy -/

/-- A temporary of raw bytes is being filled. -/
def Filling (t : Tid) (l : σ) (V : View) (temp : GenName) (l' : σ) (s : StoreState) : Prop :=
  ∃ V', (TempOnly V V' ∧ ∃ f b, V'.generations.lookup temp = some f ∧ f.data = .raw b) ∧
    AtL t l V' l' s

/-- Reading the source or writing the temporary. -/
def CopyOp (temp : GenName) (o : Op) : Prop :=
  (∃ f offset, o = .readStaging f offset) ∨ ∃ b, o = .writeBytes temp b

theorem filling_copyOp {l : σ} (htemp : temp.gen? = none) (ho : CopyOp temp o) :
    StoreKeeps σ P t call (Filling t l V temp) (op o) := by
  refine .exists fun V' => .assume ?_
  rintro ⟨hV', f, b, hf, hraw⟩
  rcases ho with ⟨source, offset, rfl⟩ | ⟨chunk, rfl⟩
  · exact (at_idle rfl).conseq (fun _ _ _ h => h) (fun _ _ _ _ h => ⟨V', ⟨hV', f, b, hf, hraw⟩, h⟩)
      fun _ _ _ _ h => ⟨V', ⟨hV', f, b, hf, hraw⟩, h.2⟩
  · refine at_viewOk fun hok => ?_
    refine (at_writeBytes htemp hf hraw).conseq (fun _ _ _ h => h) ?_
      fun _ _ _ _ h => ⟨V', ⟨hV', f, b, hf, hraw⟩, h.2⟩
    rintro k l s - ⟨clock, -, hat⟩
    exact ⟨_, ⟨hV'.trans (.insert hok htemp _), _, _, AList.lookup_insert _, rfl⟩, hat⟩

theorem uses_writeChunk (fuel : ℕ) (b : Bytes) :
    (writeChunk temp fuel b : StoreM σ _).Uses (CopyOp temp) X := by
  induction fuel generalizing b with
  | zero => exact .pure _
  | succ fuel ih =>
    simp only [writeChunk]
    split
    · exact .pure _
    · refine .bind (uses_attempt (.inr ⟨b, rfl⟩)) fun r => ?_
      split
      · exact .pure _
      · split
        · exact .pure _
        · exact ih _

theorem uses_copyLoop (fuel : ℕ) (acc : Bytes) :
    (copyLoop source temp fuel acc : StoreM σ _).Uses (CopyOp temp) X := by
  induction fuel generalizing acc with
  | zero => exact .pure _
  | succ fuel ih =>
    refine .bind (uses_attempt (.inl ⟨source, acc.length, rfl⟩)) fun r => ?_
    split
    · exact .pure _
    · split
      · exact .pure _
      · refine .bind (uses_writeChunk _ _) fun written => ?_
        split
        · exact ih _
        · exact .pure _

theorem at_copyLoop {l : σ} {fuel : ℕ} {f : File} {b : Bytes}
    (htemp : temp.gen? = none) (hf : V.generations.lookup temp = some f) (hraw : f.data = .raw b) :
    AtTriple P t call l V (copyLoop source temp fuel []) (fun _ => Near t l V)
      (fun _ _ _ => False) := by
  have h : StoreTriple P t call (Filling t l V temp) (copyLoop source temp fuel [])
      (fun _ => Filling t l V temp) (fun e l' s => Filling t l V temp l' s ∧ False) :=
    Triple.uses (uses_copyLoop fuel []) fun _ ho => filling_copyOp htemp ho
  refine h.conseq ?_ ?_ (fun _ _ _ _ h => h.2)
  · exact fun l' s _ hat => ⟨V, ⟨.refl V, f, b, hf, hraw⟩, hat⟩
  · rintro - l' s - ⟨V', ⟨hV', -⟩, hat⟩
    exact ⟨V', hV', hat⟩

/-! ## Promotion -/

/-- The database is in place; the sidecar is not. -/
def Promoted (t : Tid) (g : GenerationId) (V : View) (l' : PublicationMutationState)
    (s : StoreState) : Prop :=
  ∃ V', (SameTables V V' ∧ V'.fresh (.json g) ∧ l'.finalDbCreated = true) ∧ At t V' s

theorem Near.promoted (h : Near t l V l' s)
    (hjson : V.fresh (.json g)) (hl : l.finalDbCreated = true) : Promoted t g V l' s := by
  obtain ⟨V', hV', rfl, hat⟩ := h
  exact ⟨V', ⟨hV'.toSameTables, hV'.fresh _ g rfl hjson, hl⟩, hat⟩

/-- A harmless helper that never raises, followed by more. -/
theorem near_seq {α β : Type} {l : σ} {m : StoreM σ α} {k : α → StoreM σ β}
    {Q : β → σ → StoreState → Prop} (hcall : NotOrphans call)
    (hm : m.Uses Op.harmless fun _ => False)
    (h : ∀ a, ∀ V', TempOnly V V' → StoreTriple P t call (AtL t l V') (k a) Q E) :
    AtTriple P t call l V (m >>= k) Q E :=
  Triple.seq (near_uses hcall hm) (fun _ _ _ _ h => h.2.elim) fun a =>
    .exists fun V' => .assume fun hV' => h a V' hV'

theorem uses_dropTemp
    (htemp : temp.gen? = none) :
    (bestEffort (do
      let preUnlink : Stat ← op (.lstat temp)
      if preUnlink.ino = identity.ino then op (.unlink temp) else pure ()) :
      StoreM σ Unit).Uses Op.harmless X := by
  refine uses_bestEffort (Y := fun _ => True) ?_
  refine .bind (uses_op (harmless_quiet rfl) fun _ => trivial) fun st => ?_
  split
  · exact uses_op (harmless_unlink htemp) fun _ => trivial
  · exact .pure _

theorem uses_sync : (bestEffort (op .io) : StoreM σ Unit).Uses Op.harmless X :=
  uses_bestEffort (Y := fun _ => True) (uses_op (harmless_quiet rfl) fun _ => trivial)

theorem at_finishPromotion (hcall : NotOrphans call) (htemp : temp.gen? = none)
    (htoken : V.token = some (g, tok)) (hwrites : V.writes = [])
    (hjson : V.fresh (.json g)) (hl : l.finalDbCreated = true) :
    AtTriple P t call l V (finishPromotion g tok temp identity)
      (fun _ => Promoted t g V) (PubErr t g tok) := by
  have hV : PubView g tok V l := by
    refine ⟨htoken, by simp [hwrites], fun h => ?_⟩
    rw [hl] at h
    cases h
  refine at_lstat.attemptSeq (fun finalStat => ?_) fun e => ?_
  · refine .assume fun _ => ?_
    dsimp only
    split
    · exact at_abandonAfterLink hcall htemp hV (by nofun)
    refine (at_idle rfl).attemptSeq (fun _ => ?_) fun e => ?_
    · refine at_modify (near_seq hcall (uses_dropTemp htemp) fun _ V₁ hV₁ => ?_)
      refine near_seq hcall uses_sync fun _ V₂ hV₂ => ?_
      refine near_seq hcall uses_dropStaging fun res V₃ hV₃ => ?_
      have hnear := (hV₁.trans hV₂).trans hV₃
      split
      · refine .modifyLocals ?_
        rintro l' s - ⟨rfl, hat⟩
        exact Near.promoted ⟨V₃, hnear, rfl, hat⟩ hjson hl
      · exact .pure fun l' s _ hat => Near.promoted ⟨V₃, hnear, hat⟩ hjson hl
    · exact .assume fun _ => at_abandonAfterLink hcall htemp hV (by nofun)
  · exact .assume fun _ => at_abandonAfterLink hcall htemp hV (by nofun)

theorem at_linkPromoted (hcall : NotOrphans call) (htemp : temp.gen? = none)
    (hV : Unlinked g tok V) (hl : l.finalDbCreated = true) :
    AtTriple P t call l V (linkPromoted g tok temp identity)
      (fun _ => Promoted t g V) (PubErr t g tok) := by
  refine at_viewOk fun hok => ?_
  obtain ⟨hcas, hworking⟩ := hok.catalogued g hV.db
  refine at_lstat.attemptSeq (fun pre => ?_) fun e => ?_
  · refine .assume fun _ => ?_
    dsimp only
    split
    · exact at_abandonPromotion hcall htemp hV (by nofun)
    refine (at_link rfl hV.token hV.db hcas hworking).attemptSeq (fun _ => ?_) fun e => ?_
    · refine .exists fun f => .assume fun hf => ?_
      have hsame : SameTables V (V.withFiles (V.generations.insert (.db g) f)) :=
        ⟨rfl, rfl, rfl, rfl, rfl⟩
      dsimp only
      refine Triple.post (at_finishPromotion
        (V := V.withFiles (V.generations.insert (.db g) f)) hcall htemp hV.token hV.writes ?_ hl) ?_
      · refine ⟨hV.json, ?_⟩
        rw [AList.lookup_insert_ne (by simp)]
        exact hok.fresh _ hV.json
      · rintro - l' s - ⟨V', ⟨hV', hjson, hl'⟩, hat⟩
        exact ⟨V', ⟨hsame.trans hV', hjson, hl'⟩, hat⟩
    · refine .assume fun _ => ?_
      split
      iterate 2
        · exact at_abandonPromotion hcall htemp hV (by nofun)
      · rename_i h
        cases h
  · exact .assume fun _ => at_abandonPromotion hcall htemp hV (by nofun)

theorem Promoted.trans (hV : SameTables V V') (h : Promoted t g V' l s) : Promoted t g V l s := by
  obtain ⟨V'', ⟨hV', hjson, hl⟩, hat⟩ := h
  exact ⟨V'', ⟨hV.trans hV', hjson, hl⟩, hat⟩

theorem copyError_ne {manifest : GenerationManifestV1} {n : ℕ} {o : CopyOutcome}
    {r : Except Err Unit} (h : copyError P manifest n o r = some c) :
    c ≠ .publicationCasMismatch := by
  rintro rfl
  unfold copyError at h
  split at h
  · cases h
  · cases h
  · split at h <;> cases h

theorem at_finishCopy {outcome : CopyOutcome} {sourceAfter : Except Err Unit}
    (hcall : NotOrphans call) (htemp : temp.gen? = none) (hV : Unlinked g tok V)
    (hl : l.finalDbCreated = true) :
    AtTriple P t call l V (finishCopy P g tok source temp identity outcome sourceAfter)
      (fun _ => Promoted t g V) (PubErr t g tok) := by
  refine at_lstat.attemptSeq (fun tempAfter => ?_)
    fun e => .assume fun _ => at_abandonPromotion hcall htemp hV (by nofun)
  refine .assume fun _ => ?_
  dsimp only
  split
  · exact at_abandonPromotion hcall htemp hV (by nofun)
  refine Triple.attemptSeq ((at_idle rfl).bind fun _ => at_idle rfl) (fun _ => ?_)
    fun e => .assume fun _ => at_abandonPromotion hcall htemp hV (by nofun)
  refine (at_idle rfl).attemptSeq (fun _ => ?_)
    fun e => .assume fun _ => at_abandonPromotion hcall htemp hV (by nofun)
  dsimp only
  split
  · rename_i code hcode
    exact at_abandonPromotion hcall htemp hV (copyError_ne hcode)
  · exact at_linkPromoted hcall htemp hV hl

theorem at_fillTemp {f : File} {b : Bytes} (hcall : NotOrphans call)
    (htemp : temp.gen? = none) (hV : Unlinked g tok V) (hl : l.finalDbCreated = true)
    (hf : V.generations.lookup temp = some f) (hraw : f.data = .raw b) :
    AtTriple P t call l V (fillTemp P g tok source temp identity)
      (fun _ => Promoted t g V) (PubErr t g tok) := by
  refine Triple.seq (at_copyLoop htemp hf hraw) (fun _ _ _ _ h => h.elim) fun outcome => ?_
  refine .exists fun V₁ => .assume fun hV₁ => ?_
  have hfinish : ∀ sourceAfter : Except Err Unit, StoreTriple P t call (AtL t l V₁)
      (finishCopy P g tok source temp identity outcome sourceAfter) (fun _ => Promoted t g V)
      (PubErr t g tok) := fun _ =>
    (at_finishCopy hcall htemp (hV.tempOnly hV₁) hl).post fun _ _ _ _ h =>
      h.trans hV₁.toSameTables
  exact (at_idle rfl).attemptSeq (fun _ => hfinish _) fun e => .assume fun _ => hfinish _

/-- A failing operation that only looks, before anything is linked. -/
theorem at_lookOrFail
    (hq : o.quiet = true) (hV : PubView g tok V l) (hc : c ≠ .publicationCasMismatch) :
    AtTriple P t call l V (orFail (op o) c) (fun _ => AtL t l V) (PubErr t g tok) :=
  triple_orFail ((at_idle hq).conseq (fun _ _ _ h => h) (fun _ _ _ _ h => h)
    fun _ _ _ _ h => h.2.pubErr hV (by simpa using hc))

theorem at_promoteFresh (hcall : NotOrphans call) (hV : Unlinked g tok V) :
    AtTriple P t call l V (promoteFresh P g tok) (fun _ => Promoted t g V)
      (PubErr t g tok) := by
  refine (at_lookOrFail rfl (hV.pubView l) (by nofun)).bind fun source => ?_
  refine (at_lookOrFail rfl (hV.pubView l) (by nofun)).bind fun _ => ?_
  split
  · exact (pub_fail (hV.pubView l) (by nofun)).pre fun _ _ _ h => h.near
  refine at_randomUUID.seq (fun _ _ _ _ h => h.elim) fun nonce => ?_
  have hdrawn : TempOnly V (V.drawn nonce) := .drawn V nonce
  refine at_viewOk fun hok => ?_
  refine Triple.bind (triple_orFail ((at_createExclusive rfl (by exact Or.inr rfl)
    fun _ h => And.right h).conseq (fun _ _ _ h => h) (fun _ _ _ _ h => h) fun _ _ _ _ h =>
      h.2.pubErr ((hV.tempOnly hdrawn).pubView _) (by nofun))) fun _ => ?_
  refine .exists fun ino => .exists fun clock => ?_
  have htemp : (GenName.publishTemp g nonce).gen? = none := rfl
  have hV₁ := hdrawn.trans (.insert hok htemp ⟨ino, clock, .raw []⟩)
  refine at_lstat.attemptSeq (fun ts => ?_) fun e => ?_
  · refine .assume fun _ => at_modify ?_
    refine (at_fillTemp hcall htemp (hV.tempOnly hV₁) rfl (AList.lookup_insert _) rfl).post ?_
    exact fun _ _ _ _ h => h.trans hV₁.toSameTables
  · refine .assume fun _ => near_seq hcall ?_ fun _ V₂ hV₂ => ?_
    · exact uses_bestEffort (Y := fun _ => True) (uses_op (harmless_unlink htemp) fun _ => trivial)
    · exact (pub_fail ((hV.tempOnly (hV₁.trans hV₂)).pubView l) (by nofun)).pre
        fun _ _ _ h => h.near

end Ariad
