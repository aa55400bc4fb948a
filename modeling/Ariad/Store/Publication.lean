import Ariad.Store.Promotion

/-!
# A publication keeps the contract

The rest of `publishPreparedGeneration`, from the view of the publisher: the sidecar, the reuse of an
identical generation, the two verifications, the replacement of the manifest, and the activation.
The two facts the contract asks for come together at the `rename`: the generation was verified under
the lock, so it is complete; and the active generation was compared under the lock with the expected
one.
-/

namespace Ariad

open List Discipline

variable {P : Platform} {σ : Type} {t : Tid} {call : Call} {V V' : View} {g : GenerationId}
  {tok : PreparedToken}

/-! ## The sidecar -/

/-- The lock is held, and at most files differ from `V`. -/
def SameL (t : Tid) (l : σ) (V : View) (l' : σ) (s : StoreState) : Prop :=
  ∃ V', SameTables V V' ∧ AtL t l V' l' s

variable {l : PublicationMutationState} {md : GenerationMetadataV1} {m : GenerationManifestV1}
  {options : PublishOptions} {s : StoreState}

variable {E : Err → PublicationMutationState → StoreState → Prop} {temp : GenName} {α : Type}
  {pin : Bool}

theorem Near.sameL {l l' : σ} (h : Near t l V' l' s) (hV : SameTables V V') :
    SameL t l V l' s := by
  obtain ⟨V'', hV', hat⟩ := h
  exact ⟨V'', hV.trans hV'.toSameTables, hat⟩

/-- An exception that is not the comparison's, with at most files changed. -/
def LostFiles (t : Tid) (l : σ) (V : View) (e : Err) (l' : σ) (s : StoreState) : Prop :=
  e ≠ .store .publicationCasMismatch ∧ SameL t l V l' s

theorem at_writeText {l : σ} {f : File}
    (fuel offset : ℕ) (htemp : temp.gen? = none) (hf : V.generations.lookup temp = some f)
    (hdata : f.data = .sidecar md offset ∨ (f.data = .raw [] ∧ offset = 0)) :
    AtTriple P t call l V (writeText P temp md fuel offset) (fun _ => Near t l V)
      (fun e l' s => e ≠ .store .publicationCasMismatch ∧ Near t l V l' s) := by
  induction fuel generalizing V offset f with
  | zero => exact .pure fun _ _ _ h => h.near
  | succ fuel ih =>
    simp only [writeText]
    split
    · exact .pure fun _ _ _ h => h.near
    refine at_viewOk fun hok => ?_
    refine (at_writeMetadata htemp hf hdata).seq (fun _ _ _ _ h => ⟨h.1.ne_store _, h.2.near⟩)
      fun (k : ℕ) => ?_
    refine .exists fun clock => .assume fun _ => ?_
    have hV : TempOnly V (V.withFiles
        (V.generations.insert temp ⟨f.ino, clock, .sidecar md (offset + k)⟩)) :=
      .insert hok htemp _
    split
    · exact .throw fun _ _ _ h => ⟨by nofun, h.near.trans hV⟩
    · exact (ih _ (AList.lookup_insert _) (.inl rfl)).conseq (fun _ _ _ h => h)
        (fun _ _ _ _ h => h.trans hV) fun _ _ _ _ h => ⟨h.1, h.2.trans hV⟩

section

variable (hcall : NotOrphans call)
include hcall

/-- Drop the temporary and fail. -/
theorem near_dropAndFail {l : σ} {c : ErrorCode}
    {Q : α → σ → StoreState → Prop} (htemp : temp.gen? = none)
    (hV : SameTables V V') (hc : c ≠ .publicationCasMismatch) :
    StoreTriple P t call (Near t l V')
      (do
        bestEffort (op (.unlink temp))
        fail c) Q (LostFiles t l V) := by
  refine .exists fun V₁ => .assume fun hV₁ => near_seq hcall ?_ fun _ V₂ hV₂ => ?_
  · exact uses_bestEffort (Y := fun _ => True) (uses_op (harmless_unlink htemp) fun _ => trivial)
  · exact .throw fun _ _ _ h =>
      ⟨by simpa using hc, V₂, hV.trans (hV₁.trans hV₂).toSameTables, h⟩

/-- The sidecar's text is written completely, `fchmod` verified and synced, or not. -/
theorem at_fillSidecar {l : σ} {f : File} (htemp : temp.gen? = none)
    (hf : V.generations.lookup temp = some f) (hraw : f.data = .raw []) :
    AtTriple P t call l V (fillSidecar P temp md) (fun _ => Near t l V)
      (fun _ => Near t l V) := by
  refine (at_writeText _ _ htemp hf (.inr ⟨hraw, rfl⟩)).seq (fun _ _ _ _ h => h.2) fun _ => ?_
  refine .exists fun V₁ => .assume fun hV₁ => ?_
  refine Triple.bind (Q := fun _ => Near t l V) (Triple.tryCatch
    (F := fun _ => AtL t l V₁) ?_ fun e => ?_) fun _ => ?_
  · refine (at_idle rfl).seq (fun _ _ _ _ h => h.2) fun _ => ?_
    exact (at_idle rfl).conseq (fun _ _ _ h => h) (fun _ _ _ _ h => h.near.trans hV₁)
      fun _ _ _ _ h => h.2
  · refine near_seq hcall ?_ fun _ V₂ hV₂ => ?_
    · exact uses_bestEffort (Y := fun _ => True) (uses_op (harmless_unlink htemp) fun _ => trivial)
    · exact .throw fun _ _ _ h => h.near.trans (hV₁.trans hV₂)
  · refine .exists fun V₂ => .assume fun hV₂ => ?_
    exact (at_idle rfl).conseq (fun _ _ _ h => h) (fun _ _ _ _ h => h.near.trans hV₂)
      fun _ _ _ _ h => h.2.near.trans hV₂

theorem at_linkSidecar {l : σ} (htemp : temp.gen? = none) (htoken : V.token = some (g, tok))
    (hjson : V.fresh (.json g)) (hcas : V.cas.entry g = none) (hworking : V.working.entry g = none) :
    AtTriple P t call l V (linkSidecar P g temp md) (fun _ => SameL t l V)
      (LostFiles t l V) := by
  refine (at_link rfl htoken hjson hcas hworking).attemptSeq (fun _ => ?_) fun e => ?_
  · refine .exists fun f => .assume fun _ => ?_
    have hV : SameTables V (V.withFiles (V.generations.insert (.json g) f)) :=
      ⟨rfl, rfl, rfl, rfl, rfl⟩
    dsimp only
    refine Triple.bind (triple_orFail ((at_idle rfl).conseq (fun _ _ _ h => h)
      (fun _ _ _ _ h => h) fun _ _ _ _ h => ⟨by nofun, h.2.near.sameL hV⟩)) fun _ => ?_
    refine near_seq hcall ?_ fun _ V₁ hV₁ => ?_
    · exact uses_bestEffort (Y := fun _ => True) (uses_op (harmless_unlink htemp) fun _ => trivial)
    · refine (near_uses hcall (X := fun _ => False) uses_sync).conseq (fun _ _ _ h => h)
        (fun _ _ _ _ h => (h.trans hV₁).sameL hV) fun _ _ _ _ h => h.2.elim
  · refine .assume ?_
    rintro ⟨-, hne⟩
    split
    · rename_i heq
      cases heq
      exact absurd rfl hne
    · exact (near_dropAndFail hcall htemp (.refl V) (by nofun)).pre fun _ _ _ h => h.near
    · rename_i h
      cases h

/-- Writing the sidecar of a fresh generation. -/
theorem at_writeMetadataSidecarAtomically {l : σ} (htoken : V.token = some (g, tok)) (hjson : V.fresh (.json g))
    (hcas : V.cas.entry g = none) (hworking : V.working.entry g = none) :
    AtTriple P t call l V (writeMetadataSidecarAtomically P g md)
      (fun _ => SameL t l V) (LostFiles t l V) := by
  refine at_randomUUID.seq (fun _ _ _ _ h => h.elim) fun nonce => ?_
  have hdrawn : TempOnly V (V.drawn nonce) := .drawn V nonce
  have htemp : (GenName.metadataTemp g nonce).gen? = none := rfl
  refine at_viewOk fun hok => ?_
  refine Triple.bind (triple_orFail ((at_createExclusive htemp (by exact Or.inr rfl)
    fun _ h => And.right h).conseq (fun _ _ _ h => h) (fun _ _ _ _ h => h) fun _ _ _ _ h =>
      ⟨by nofun, h.2.near.sameL hdrawn.toSameTables⟩)) fun _ => ?_
  refine .exists fun ino => .exists fun clock => ?_
  have hV₁ := hdrawn.trans (.insert hok htemp ⟨ino, clock, .raw []⟩)
  refine (at_fillSidecar hcall htemp (AList.lookup_insert _) rfl).attemptSeq (fun _ => ?_) fun e => ?_
  · refine .exists fun V₂ => .assume fun hV₂ => ?_
    have hV := hV₁.trans hV₂
    refine (at_linkSidecar hcall htemp (hV.token.trans htoken) (hV.fresh _ g rfl hjson)
      (by rw [hV.cas]; exact hcas) (by rw [hV.working]; exact hworking)).conseq (fun _ _ _ h => h)
      ?_ ?_
    · rintro - l' s - ⟨V₃, hV₃, hat⟩
      exact ⟨V₃, hV.toSameTables.trans hV₃, hat⟩
    · rintro e l' s - ⟨he, V₃, hV₃, hat⟩
      exact ⟨he, V₃, hV.toSameTables.trans hV₃, hat⟩
  · exact near_dropAndFail hcall htemp hV₁.toSameTables (by nofun)

end

/-! ## Reuse and verification -/

theorem lost_orFail {A : σ → StoreState → Prop} {m : StoreM σ α} {l : σ}
    {Q : α → σ → StoreState → Prop} {E : Err → σ → StoreState → Prop} {c : ErrorCode}
    (h : StoreTriple P t call A m Q E) (hE : ∀ e l' s, E e l' s → AfterL t l V l' s)
    (hc : c ≠ .publicationCasMismatch) :
    StoreTriple P t call A (orFail m c) Q (Lost t l V) :=
  triple_orFail (h.conseq (fun _ _ _ h => h) (fun _ _ _ _ h => h)
    fun e l' s _ h => ⟨by simpa using hc, hE e l' s h⟩)

/-- A dedup candidate that passes is a generation whose sidecar describes the same content. -/
theorem at_validateDedupCandidate {l : σ} {manifest : GenerationManifestV1} {d : GenerationId} :
    AtTriple P t call l V (validateDedupCandidate P manifest d)
      (fun m l' s => (m.generationId = d ∧ sameContent m manifest = true) ∧ AtL t l V l' s)
      (Lost t l V) := by
  refine at_lstat.seq (fun _ _ _ _ h => Lost.of_errno ⟨h.1.1, h.2⟩) fun _ => .assume fun _ => ?_
  split
  · exact lost_fail (by nofun)
  refine (lost_orFail at_hashFile (fun _ _ _ h => h.2.after) (by nofun)).bind fun _ =>
    .assume fun _ => ?_
  split
  · exact lost_fail (by nofun)
  refine (lost_orFail at_lstat (fun _ _ _ h => h.2.after) (by nofun)).bind fun _ =>
    .assume fun _ => ?_
  refine (lost_orFail at_readMetadata (fun _ _ _ h => h.2.after) (by nofun)).bind fun md =>
    .assume fun _ => ?_
  split
  · exact lost_fail (by nofun)
  · rename_i h
    simp only [not_or, Bool.not_eq_false, ne_eq, not_not] at h
    exact .pure fun _ _ _ hat => ⟨⟨h.2, h.1⟩, hat⟩

/-- **What verification establishes**: the generation is complete. -/
theorem at_verifyGenerationFiles {l : σ}
    {identity : Option FileIdentity} :
    AtTriple P t call l V (verifyGenerationFiles P m identity)
      (fun _ l' s => Complete P V.generations m ∧ AtL t l V l' s) (Lost t l V) := by
  refine at_lstat.seq (fun _ _ _ _ h => Lost.of_errno ⟨h.1.1, h.2⟩) fun dbStat => .assume ?_
  rintro ⟨f, hf, rfl⟩
  split
  · exact lost_fail (by nofun)
  rename_i hsize
  split
  · exact lost_fail (by nofun)
  refine (lost_orFail at_hashFile (fun _ _ _ h => h.2.after) (by nofun)).bind fun hash =>
    .assume ?_
  rintro ⟨f', hf', rfl⟩
  rw [hf] at hf'
  cases hf'
  split
  · exact lost_fail (by nofun)
  rename_i hhash
  refine at_lstat.seq (fun _ _ _ _ h => Lost.of_errno ⟨h.1.1, h.2⟩) fun _ => .assume fun _ => ?_
  split
  · exact lost_fail (by nofun)
  refine (lost_orFail at_readMetadata (fun _ _ _ h => h.2.after) (by nofun)).bind fun md =>
    .assume ?_
  rintro ⟨fm, hfm, hmd, hproject⟩
  split
  · exact lost_fail (by nofun)
  rename_i hm
  simp only [ne_eq, not_not] at hsize hhash hm
  subst hm
  exact .pure fun _ _ _ hat => ⟨⟨⟨f, hf, hsize, hhash⟩, ⟨fm, md, hfm, hmd, rfl⟩, hproject⟩, hat⟩

theorem at_expectedIdentity {deduped : Bool} :
    AtTriple P t call l V (expectedIdentity deduped) (fun _ => AtL t l V) E :=
  Triple.bind (.getLocals (R := fun _ => AtL t l V) fun _ _ _ h => h)
    fun _ => .pure fun _ _ _ h => h

theorem at_verifyPublicationCandidate
    {deduped : Bool} :
    AtTriple P t call l V (verifyPublicationCandidate P m deduped)
      (fun _ l' s => Complete P V.generations m ∧ AtL t l V l' s) (Lost t l V) :=
  at_expectedIdentity.bind fun _ => lost_wrapErrno at_verifyGenerationFiles (by nofun)

theorem at_verifyPublishedGeneration
    {deduped : Bool} :
    AtTriple P t call l V (verifyPublishedGeneration P m deduped)
      (fun _ => AtL t l V) (Lost t l V) := by
  refine (lost_orFail at_readManifest (fun _ _ _ h => h.2.after) (by nofun)).bind fun _ =>
    .assume fun _ => ?_
  split
  · exact lost_fail (by nofun)
  · refine at_expectedIdentity.bind fun _ => ?_
    exact (lost_wrapErrno at_verifyGenerationFiles (by nofun)).post fun _ _ _ _ h => h.2

/-! ## The manifest -/

/-- The view after the rename. -/
def View.activated (V : View) (m : GenerationManifestV1) : View :=
  { V with manifest := some m, writes := m :: V.writes, untouched := false }

theorem at_writeJsonAtomically
    (hV : PubView g tok V l) (hwrites : V.writes = [])
    (hok : ∀ s, Inv P s → At t V s → RenameOk P t call m s.world) :
    AtTriple P t call l V (writeJsonAtomically m) (fun _ => AtL t l (V.activated m))
      (PubErr t g tok) := by
  have hio : ∀ c : ErrorCode, c ≠ .publicationCasMismatch → AtTriple P t call l V
      (orFail (op .io) c) (fun _ => AtL t l V) (Lost t l V) := fun c hc =>
    lost_orFail (at_idle rfl) (fun _ _ _ h => h.2.after) hc
  have hV' : PubView g tok (V.activated m) l :=
    ⟨hV.token, by simp [View.activated, hwrites], hV.created⟩
  refine (hio _ (by nofun)).seq (fun _ _ _ _ h => h.pubErr hV) fun _ => ?_
  refine Triple.bind (Q := fun _ => AtL t l (V.activated m))
    (Triple.tryCatch (F := Lost t l V) ?_ fun e => ?_) fun _ => ?_
  · refine (hio _ (by nofun)).bind fun _ => (hio _ (by nofun)).bind fun _ => ?_
    refine (hio _ (by nofun)).bind fun _ => (hio _ (by nofun)).bind fun _ => ?_
    refine (hio _ (by nofun)).bind fun _ => ?_
    exact lost_orFail (at_renameManifest hok) (fun _ _ _ h => h.2.after) (by nofun)
  · refine Triple.bind (Q := fun _ => Lost t l V e) ?_ fun _ =>
      .throw fun _ _ _ h => h.pubErr hV
    refine triple_bestEffort ((Triple.assume fun he => ?_).pre fun _ _ _ h => h)
    refine (triple_quiet rfl AfterL.stable).conseq (fun _ _ _ h => h) (fun _ _ _ _ h => ⟨he, h.2⟩)
      fun _ _ _ _ h => ⟨he, h.2⟩
  · exact triple_orFail ((at_idle rfl).conseq (fun _ _ _ h => h) (fun _ _ _ _ h => h)
      fun _ _ _ _ h => h.2.pubErr hV' (by nofun))

/-! ## Activation -/

/-- Two manifests describe the same content. -/
def SameContent (m m' : GenerationManifestV1) : Prop :=
  m.sha256 = m'.sha256 ∧ m.sizeBytes = m'.sizeBytes ∧ m.rootFingerprint = m'.rootFingerprint ∧
    m.extractorSemanticsVersion = m'.extractorSemanticsVersion ∧
    m.discoveryPolicyVersion = m'.discoveryPolicyVersion

theorem sameContent_spec {m m' : GenerationManifestV1} (h : sameContent m' m = true) :
    SameContent m m' := by
  simp only [sameContent, Bool.and_eq_true, decide_eq_true_eq] at h
  obtain ⟨⟨⟨⟨⟨-, hsha⟩, hsize⟩, hroot⟩, hesv⟩, hdpv⟩ := h
  exact ⟨hsha.symm, hsize.symm, hroot.symm, hesv.symm, hdpv.symm⟩

theorem activatedEntry_ok {m eff : GenerationManifestV1} {now : Timestamp}
    {existing : Option CasGenerationCatalogEntry}
    (hcomplete : Complete P V.generations eff) (hsame : SameContent m eff) :
    EntryOk P V (activatedEntry P m eff now existing pin) := by
  obtain ⟨hsha, hsize, hroot, hesv, hdpv⟩ := hsame
  exact ⟨rfl, eff, rfl, hcomplete, hcomplete.project.symm, hsha, hsize, hroot, hesv, hdpv⟩

/-- An activation is counted, and its generation is active. -/
theorem at_pinActivated {l : σ} {g : GenerationId} (hactive : V.working.ActiveOk)
    (hpending : Pending V.cas V.working) (hrow : (V.working.entry g).isSome) :
    AtTriple P t call l V (pinActivated P g pin)
      (fun _ l' s => ∃ c, (c.ActiveOk ∧ Pending V.cas c ∧ (c.entry g).isSome) ∧
        AtL t l (V.withTables c) l' s)
      (Lost t l V) := by
  unfold pinActivated
  split
  · refine at_setCatalogPinned.bind fun _ => .exists fun c => .assume ?_
    rintro ⟨hbook, hst⟩
    refine (at_appendPublicationHistory ?_).conseq (fun _ _ _ h => h) ?_
      fun _ _ _ _ h => h.of_tables
    · rw [View.withTables_working, hbook.revision, hbook.history]
      exact hpending.revision
    rintro - l' s - ⟨now, h⟩
    refine ⟨_, ⟨?_, ?_, ?_⟩, h⟩
    · exact (hactive.of_status hbook.active hst).of_status rfl fun _ => rfl
    · refine hpending.record ?_ ?_
      · rw [Cas.appended_revision, View.withTables_working, hbook.revision]
      · rw [Cas.appended_history_length, View.withTables_working, hbook.history]
    · have hg := hst g
      obtain ⟨e, he⟩ := Option.isSome_iff_exists.mp hrow
      rw [he] at hg
      simp only [Option.map_some, Option.map_eq_some_iff] at hg
      obtain ⟨e', he', -⟩ := hg
      rw [Cas.appended_entry, View.withTables_working, he']
      rfl
  · exact .pure fun _ _ _ h => ⟨V.working, ⟨hactive, hpending, hrow⟩, h⟩

theorem at_activate {m eff : GenerationManifestV1}
    {prev : Option GenerationId} (hcomplete : Complete P V.generations eff)
    (hsame : SameContent m eff) (hpending : Pending V.cas V.working) :
    AtTriple P t call l V (activate P m eff prev pin)
      (fun _ l' s => (s.world.cas.entry eff.generationId).isSome ∧
        AfterL t { l with casCommitted := true } V.touched l' s)
      (Lost t l V) := by
  refine (at_idle rfl).seq (fun _ _ _ _ => Lost.of_errno) fun now => ?_
  refine at_getGenerationCatalogEntry.seq (fun _ _ _ _ => Lost.of_errno) fun existing =>
    .assume fun _ => ?_
  refine (at_upsertGenerationCatalog (activatedEntry_ok hcomplete hsame)).bind fun _ => ?_
  refine .exists fun c₁ => .assume ?_
  rintro ⟨hbook, e, he, hst⟩
  change c₁.entry eff.generationId = some e at he
  refine at_setActiveGenerationId.seq (fun _ _ _ _ h => h.of_tables) fun _ => ?_
  refine Triple.seq (at_appendPublicationHistory ?_)
    (fun _ _ _ _ h => h.of_tables.of_tables) fun _ => ?_
  · simp only [View.withTables_working, hbook.revision, hbook.history]
    exact hpending.revision
  refine .exists fun now' => ?_
  simp only [View.withTables_withTables, View.withTables_working]
  have hbookRev := hbook.revision
  have hbookHist := hbook.history
  refine Triple.seq (at_pinActivated (V := V.withTables _) ?_ ?_ ?_)
    (fun _ _ _ _ h => h.of_tables) fun _ => ?_
  · intro g' hg'
    cases hg'
    exact ⟨e, he, hst⟩
  · refine hpending.record ?_ ?_
    · simp [hbookRev]
    · simp [hbookHist]
  · rw [View.withTables_working, Cas.appended_entry]
    show (c₁.entry eff.generationId).isSome
    rw [he]
    rfl
  refine .exists fun c₂ => .assume ?_
  rintro ⟨hactive, hpending₂, hrow⟩
  simp only [View.withTables_withTables]
  refine at_getRevision.seq (fun _ _ _ _ h => (Lost.of_errno h).of_tables) fun rev =>
    .assume fun _ => ?_
  refine Triple.seq (at_commit (V := V.withTables c₂) hactive hpending₂)
    (fun _ _ _ _ h => h.of_tables) fun _ => ?_
  refine Triple.bind (.modifyLocals (R := fun _ l' s =>
    (s.world.cas.entry eff.generationId).isSome ∧
      AfterL t { l with casCommitted := true } V.touched l' s) ?_) fun _ => .pure fun _ _ _ h => h
  rintro l' s - ⟨hrows, rfl, h⟩
  exact ⟨hrows _ hrow, rfl, h.of_tables⟩

/-! ## The body of a publication -/

/-- What the publisher knows once the comparison has succeeded. -/
structure Compared (g : GenerationId) (tok : PreparedToken) (expected : Option GenerationId)
    (V : View) : Prop where
  unlinked : Unlinked g tok V
  pending : Pending V.cas V.working
  manifest : V.manifest.map (·.generationId) = expected
  active : V.working.activeGenerationId = expected

theorem at_reconcileAndCompare {expected : Option GenerationId}
    (hV : Unlinked g tok V) (huntouched : V.untouched = true) :
    StoreTriple P t call (AfterL t .initial V) (reconcileAndCompare P expected)
      (fun prev l' s => ∃ V', (Compared g tok expected V' ∧ prev = expected) ∧
        AtL t .initial V' l' s)
      (PubErr t g tok) := by
  refine after_beginImmediate.seq (fun _ _ _ _ h => h.pubErr (hV.pubView _)) fun _ => ?_
  refine .exists fun V₁ => .assume fun hopen => ?_
  obtain ⟨hdb, hjson⟩ := hopen.fresh g tok hV.token hV.db hV.json
  have hV₁ : Unlinked g tok V₁ :=
    ⟨hopen.token.trans hV.token, hopen.writes.trans hV.writes, hdb, hjson⟩
  refine (lost_orFail at_readManifest (fun _ _ _ h => h.2.after) (by nofun)).seq
    (fun _ _ _ _ h => h.pubErr (hV₁.pubView _)) fun m => .assume ?_
  rintro rfl
  refine (at_reconcileFromManifest hopen.same).seq (fun _ _ _ _ h => h.pubErr (hV₁.pubView _))
    fun res => ?_
  refine .exists fun c => .assume ?_
  rintro ⟨hrec, hres⟩
  have hV₂ : Unlinked g tok (V₁.withTables c) := ⟨hV₁.token, hV₁.writes, hV₁.db, hV₁.json⟩
  split
  · -- the comparison fails before anything has changed
    refine .throw ?_
    rintro l s - ⟨rfl, hat⟩
    exact ⟨V₁.withTables c, hV₂.pubView _, hat.toAfter,
      fun _ => ⟨hopen.untouched.trans huntouched, hV₂.writes, rfl⟩⟩
  · rename_i heq
    simp only [ne_eq, not_not] at heq
    refine .pure fun l s _ hat => ⟨V₁.withTables c, ⟨⟨hV₂, hrec.pending, ?_, ?_⟩, ?_⟩, hat⟩
    · exact (heq.trans hres).symm
    · exact hrec.active.trans (heq.trans hres).symm
    · exact heq.symm

/-- The generation to be activated, and what the publisher knows of it. -/
structure Placed (g : GenerationId) (tok : PreparedToken) (V V' : View)
    (l' : PublicationMutationState) (eff : GenerationManifestV1) : Prop where
  same : SameTables V V'
  view : PubView g tok V' l'
  content : SameContent tok.manifest eff
  workingRow : ∀ e, V.working.entry eff.generationId = some e → e.status = .active
  row : ∀ e, V.cas.entry eff.generationId = some e → e.status = .active

/-- A row that is `ACTIVE` in the transaction was so before it. -/
theorem Cas.Advances.active_of_active {c c' : Cas} (h : Cas.Advances c c') {g : GenerationId}
    {e : CasGenerationCatalogEntry} (he : c'.entry g = some e) (hst : e.status = .active)
    {e₀ : CasGenerationCatalogEntry} (he₀ : c.entry g = some e₀) : e₀.status = .active := by
  obtain ⟨e', he', hrow⟩ := h.row g e₀ he₀
  rw [he] at he'
  cases he'
  rcases hrow.status with hs | ⟨hs, -⟩
  · exact hs.symm.trans hst
  · rw [hst] at hs
    cases hc : e₀.status <;> simp [hc, CasStore.statusAllowed] at hs

theorem at_reuseGeneration {d : GenerationId}
    {e : CasGenerationCatalogEntry} (hcall : NotOrphans call) (hV : Unlinked g tok V)
    (he : V.working.entry d = some e) (hst : e.status = .active) :
    AtTriple P t call l V (reuseGeneration P g tok d)
      (fun eff l' s => ∃ V', Placed g tok V V' l' eff ∧ At t V' s) (PubErr t g tok) := by
  refine at_viewOk fun hok => ?_
  refine at_validateDedupCandidate.seq (fun _ _ _ _ h => h.pubErr (hV.pubView l)) fun eff => ?_
  refine .assume ?_
  rintro ⟨rfl, hsame⟩
  refine near_seq hcall uses_dropStaging fun res V₁ hV₁ => ?_
  have hplaced : ∀ l', Placed g tok V V₁ l' eff := fun l' =>
    { same := hV₁.toSameTables
      view := (hV.tempOnly hV₁).pubView l'
      content := sameContent_spec hsame
      workingRow := by
        intro e' he'
        rw [he] at he'
        cases he'
        exact hst
      row := fun e₀ he₀ => hok.advances.active_of_active he hst he₀ }
  dsimp only
  split
  iterate 2
    · exact at_modify (.pure fun l' s _ hat => ⟨V₁, hplaced l', hat.2⟩)

theorem at_placeFiles {prev : Option GenerationId}
    (hcall : NotOrphans call) (hV : Unlinked g tok V) :
    AtTriple P t call l V (placeFiles P g tok prev pin)
      (fun x l' s => ∃ V', Placed g tok V V' l' x.1 ∧ At t V' s) (PubErr t g tok) := by
  refine at_viewOk fun hok => ?_
  obtain ⟨hcas, hworking⟩ := hok.catalogued g hV.db
  obtain ⟨hid, -⟩ := hok.token g tok hV.token
  refine Triple.seq (Triple.bind at_casRead fun c => .assume fun hc =>
    .pure (Q := fun d l' s => d = V.working.findDedupCandidate tok.manifest.sha256
      tok.manifest.sizeBytes tok.manifest.rootFingerprint tok.manifest.extractorSemanticsVersion
      tok.manifest.discoveryPolicyVersion ∧ AtL t l V l' s) fun _ _ _ h => ⟨by rw [hc], h⟩)
    (fun _ _ _ _ h => (Lost.of_errno h).pubErr (hV.pubView l)) fun candidate => .assume fun hc => ?_
  split
  · rename_i dedup
    obtain ⟨he, hst, -⟩ := Cas.findDedupCandidate_some hc.symm
    refine (at_reuseGeneration hcall hV he hst).bind fun eff => ?_
    exact .pure fun _ _ _ h => h
  · refine (at_promoteFresh hcall hV).bind fun _ => ?_
    refine Triple.pre (P := fun l' s => ∃ l₁ V₁, (SameTables V V₁ ∧ V₁.fresh (.json g) ∧
      l₁.finalDbCreated = true) ∧ AtL t l₁ V₁ l' s) ?_ fun l' s _ h => by
        obtain ⟨V₁, hV₁, hat⟩ := h
        exact ⟨l', V₁, hV₁, rfl, hat⟩
    refine .exists fun l₁ => .exists fun V₁ => .assume ?_
    rintro ⟨hV₁, hjson, hl₁⟩
    have hview : ∀ V₂, SameTables V₁ V₂ → ∀ l₂ : PublicationMutationState,
        l₂.finalDbCreated = true → PubView g tok V₂ l₂ := by
      intro V₂ hV₂ l₂ hl₂
      have hsame := hV₁.trans hV₂
      refine ⟨hsame.token.trans hV.token, by simp [hsame.writes, hV.writes], fun h => ?_⟩
      rw [hl₂] at h
      cases h
    refine (at_idle rfl).seq (fun _ _ _ _ h => (Lost.of_errno h).pubErr (hview V₁ (.refl V₁) l₁ hl₁))
      fun now => ?_
    refine (at_writeMetadataSidecarAtomically hcall (hV₁.token.trans hV.token) hjson
      (by rw [hV₁.cas]; exact hcas) (by rw [hV₁.working]; exact hworking)).seq ?_ fun _ => ?_
    · rintro e l' s - ⟨hne, V₂, hV₂, hat⟩
      exact hat.pubErr (hview V₂ hV₂ l₁ hl₁) hne
    refine .exists fun V₂ => .assume fun hV₂ => at_modify (.pure ?_)
    rintro l' s - ⟨rfl, hat⟩
    refine ⟨V₂, ⟨hV₁.trans hV₂, hview V₂ hV₂ _ hl₁, ⟨rfl, rfl, rfl, rfl, rfl⟩, ?_, ?_⟩, hat⟩
    · intro e he
      rw [hid, hworking] at he
      cases he
    · intro e he
      rw [hid, hcas] at he
      cases he

/-! ## The fate of the token -/

/-- The view when the token has left the publisher's hands. -/
def View.released (V : View) : View := { V with token := none }

/-- The call has put the token of `g` back to `PREPARED`, and has not touched any token since. -/
def Released (t : Tid) (g : GenerationId) (s : StoreState) : Prop :=
  ∃ later e earlier, s.trace = later ++ e :: earlier ∧ e.tid = t ∧
    e.act = .op (.setTokenState g .prepared) (.ok ()) ∧
    (∃ tok, e.after.tokens.lookup g = some tok ∧ tok.state = .prepared) ∧
    ∀ e' ∈ later, e'.tid = t → e'.after.tokens = e'.before.tokens

theorem Released.rely {s s' : StoreState} (h : Released t g s) (hrely : Rely t s s') :
    Released t g s' := by
  obtain ⟨later, e, earlier, htrace, ht, hact, htok, hlater⟩ := h
  obtain ⟨ext, hext, hidle⟩ := hrely.own
  refine ⟨ext ++ later, e, earlier, by rw [hext, htrace, append_assoc], ht, hact, htok, ?_⟩
  intro e' he' ht'
  rcases mem_append.mp he' with he' | he'
  · rw [(hidle e' he' ht').world]
  · exact hlater e' he' ht'

theorem Released.push {a : Action Op Op.Val Errno} {w' : World}
    (h : Released t g s) (htok : w'.tokens = s.world.tokens) :
    Released t g (s.push t a w') := by
  obtain ⟨later, e, earlier, htrace, ht, hact, he, hlater⟩ := h
  refine ⟨⟨t, a, s.world, w'⟩ :: later, e, earlier, by rw [State.push_trace, htrace]; rfl, ht, hact,
    he, ?_⟩
  intro e' he' ht'
  rcases mem_cons.mp he' with rfl | he'
  · exact htok
  · exact hlater e' he' ht'

/-- The publisher decides the fate of its token; it may give it back only if nothing of the
generation was ever visible. -/
theorem after_setTokenState {l : σ} {st : TokenState} (htoken : V.token = some (g, tok))
    (hst : st = .consumed ∨ (st = .prepared ∧ V.fresh (.db g) ∧ V.fresh (.json g))) :
    StoreTriple P t call (AfterL t l V) (op (.setTokenState g st))
      (fun _ l' s => (st = .prepared → Released t g s) ∧ AfterL t l V.released l' s)
      (fun _ _ _ => False) := by
  refine triple_op AfterL.stable ?_ ?_
  · rintro l s - ⟨-, h⟩
    refine ⟨?_, fun tok' htok' => ?_⟩
    · rcases hst with h | ⟨h, -⟩
      · exact .inr h
      · exact .inl h
    · rw [h.token g tok htoken] at htok'
      cases htok'
      refine ⟨rfl, ?_⟩
      rintro rfl
      rcases hst with h' | ⟨-, hdb, hjson⟩
      · cases h'
      · exact h.pristine g tok htoken hdb hjson
  · rintro l s ch r w' - ⟨rfl, h⟩ hexec hev
    rw [exec_eq (by simp [Op.fallible])] at hexec
    simp only [execOp, h.token g tok htoken] at hexec
    cases hexec
    refine ⟨?_, rfl, ?_⟩
    · rintro rfl
      exact ⟨[], _, s.trace, rfl, rfl, rfl, ⟨_, AList.lookup_insert _, rfl⟩, by simp⟩
    · refine ⟨?_, ?_, ?_, ?_, ?_, h.lasting⟩
      · rintro g' tok' htok'
        cases htok'
      · rintro g' tok' htok'
        cases htok'
      · rw [← show ownWrites t s = V.released.writes from h.writes]
        simp only [ownWrites, State.push_trace, decide_true, filter_cons_of_pos,
          filterMap_cons]
        rfl
      · intro hu e he ht
        rcases mem_cons.mp he with rfl | he
        · exact ⟨rfl, rfl, rfl, rfl⟩
        · exact h.untouched hu e he ht
      · exact h.lasting hev h.know

/-! ## Publishing -/

/-- What a successful publication has done. -/
structure PublishOk (t : Tid) (options : PublishOptions) (r : PublicationResult) (s : StoreState) :
    Prop where
  writes : ownWrites t s = [r.manifest]
  row : (s.world.cas.entry r.generationId).isSome
  generationId : r.generationId = r.manifest.generationId
  previous : r.previousActiveGenerationId = options.expectedActiveGenerationId

/-- What a failed publication may have done. -/
structure PublishErr (t : Tid) (g : GenerationId) (e : Err) (s : StoreState) : Prop where
  writes : (ownWrites t s).length ≤ 1
  mismatch : e = .store .publicationCasMismatch → Untouched t s ∧ ownWrites t s = [] ∧ Released t g s

/-- The publisher may rename once it has compared and verified. -/
theorem renameOk {V₁ V₂ : View}
    {eff : GenerationManifestV1}
    (hcompared : Compared g tok options.expectedActiveGenerationId V₁)
    (hplaced : Placed g tok V₁ V₂ l eff) (hcomplete : Complete P V₂.generations eff)
    (hat : At t V₂ s) : RenameOk P t (.publish g options) eff s.world where
  complete := by
    rw [hat.generations]
    exact hcomplete
  row := by
    rw [hat.cas, hplaced.same.cas]
    exact hplaced.row
  workingRow x e hx := by
    rw [hat.working hx, hplaced.same.working]
    exact hplaced.workingRow e
  expected := by
    refine ⟨g, options, rfl, ?_, fun x hx => ?_⟩
    · rw [hat.manifest, hplaced.same.manifest]
      exact hcompared.manifest
    · rw [hat.working hx, hplaced.same.working]
      exact hcompared.active

theorem at_publishBody (hV : Unlinked g tok V)
    (huntouched : V.untouched = true) :
    StoreTriple P t (.publish g options) (AfterL t .initial V) (publishBody P g tok options)
      (fun r _ s => PublishOk t options r s) (PubErr t g tok) := by
  have hcall : NotOrphans (.publish g options) := by
    intro h o heq
    cases heq
  refine Triple.bind (triple_orFail ((triple_quiet rfl AfterL.stable).conseq
    (fun _ _ _ h => h) (fun _ _ _ _ h => h.2) ?_)) fun _ => ?_
  · rintro e l s - ⟨-, rfl, h⟩
    exact ⟨V, hV.pubView _, h, by nofun⟩
  refine (at_reconcileAndCompare hV huntouched).bind fun prev => ?_
  refine .exists fun V₁ => .assume ?_
  rintro ⟨hcompared, rfl⟩
  refine (at_placeFiles hcall hcompared.unlinked).bind fun x => ?_
  obtain ⟨eff, deduped⟩ := x
  refine Triple.pre (P := fun l' s => ∃ l₂ V₂, Placed g tok V₁ V₂ l₂ eff ∧
    AtL t l₂ V₂ l' s) ?_ fun l' s _ h => by
      obtain ⟨V₂, hplaced, hat⟩ := h
      exact ⟨l', V₂, hplaced, rfl, hat⟩
  refine .exists fun l₂ => .exists fun V₂ => .assume fun hplaced => ?_
  refine at_verifyPublicationCandidate.seq (fun _ _ _ _ h => h.pubErr hplaced.view) fun _ =>
    .assume fun hcomplete => ?_
  have hwrites : V₂.writes = [] := hplaced.same.writes.trans hcompared.unlinked.writes
  refine (at_writeJsonAtomically hplaced.view hwrites fun s _ hat =>
    renameOk hcompared hplaced hcomplete hat).bind fun _ => ?_
  have hview : ∀ l : PublicationMutationState, l.finalDbCreated = l₂.finalDbCreated →
      PubView g tok (V₂.activated eff) l := fun l hl =>
    ⟨hplaced.view.token, by simp [View.activated, hwrites], fun h =>
      hplaced.view.created (hl.symm.trans h)⟩
  refine at_modify ?_
  refine at_verifyPublishedGeneration.seq (fun _ _ _ _ h => h.pubErr (hview _ rfl)) fun _ => ?_
  have hpending : Pending (V₂.activated eff).cas (V₂.activated eff).working := by
    have hcas := hplaced.same.cas
    have hworking := hplaced.same.working
    rw [View.activated, hcas, hworking]
    exact hcompared.pending
  refine Triple.seq (at_activate (V := V₂.activated eff) hcomplete hplaced.content hpending)
    (fun _ _ _ _ h => h.pubErr (hview _ rfl)) fun rev => ?_
  have hlasting : Lasting fun s : StoreState => (s.world.cas.entry eff.generationId).isSome :=
    fun _ _ hev h => hev.rows _ h
  refine Triple.seq (Triple.pre (triple_lasting hlasting
    (after_setTokenState (V := (V₂.activated eff).touched) hplaced.view.token (.inl rfl)))
      fun _ _ _ h => ⟨h.2, h.1⟩) (fun _ _ _ _ h => h.1.elim) fun _ => .pure ?_
  rintro l s - ⟨⟨-, -, hafter⟩, hrow⟩
  refine ⟨?_, hrow, rfl, rfl⟩
  have hw := hafter.writes
  simpa [View.released, View.touched, View.activated, hwrites] using hw

theorem after_rollbackUncommitted {l s₀ : PublicationMutationState} :
    StoreTriple P t call (AfterL t l V) (rollbackUncommitted s₀) (fun _ => AfterL t l V) E := by
  unfold rollbackUncommitted
  split
  · exact after_rollback
  · exact .pure fun _ _ _ h => h

/-- The handler gives the token back exactly when nothing was visible. -/
theorem pubErr_handler {e : Err}
    {Q : α → PublicationMutationState → StoreState → Prop} :
    StoreTriple P t call (PubErr t g tok e) (publishHandler g e) Q
      (fun e' _ s => PublishErr t g e' s) := by
  refine Triple.bind (.getLocals (R := fun l₀ l s => ∃ V, (PubView g tok V l₀ ∧
    (e = .store .publicationCasMismatch → V.untouched = true ∧ V.writes = [] ∧ l₀ = .initial)) ∧
    AfterL t l₀ V l s) ?_) fun l₀ => ?_
  · rintro l s - ⟨V, hV, hafter, he⟩
    exact ⟨V, ⟨hV, he⟩, rfl, hafter⟩
  refine .exists fun V => .assume ?_
  rintro ⟨hV, he⟩
  refine after_rollbackUncommitted.bind fun _ => ?_
  refine Triple.seq (after_setTokenState hV.token ?_) (fun _ _ _ _ h => h.elim) fun _ => ?_
  · by_cases h : l₀.noMutation = true
    · rw [if_pos h]
      simp only [PublicationMutationState.noMutation, Bool.and_eq_true, Bool.not_eq_true'] at h
      exact .inr ⟨rfl, hV.created h.1.1.1.2⟩
    · rw [if_neg h]
      exact .inl rfl
  have hwrites : ∀ s, After t V.released s → (ownWrites t s).length ≤ 1 := by
    intro s h
    rw [h.writes]
    exact hV.writes
  cases e with
  | store c =>
    refine .throw ?_
    rintro l s - ⟨hreleased, -, hafter⟩
    refine ⟨hwrites s hafter, fun hc => ?_⟩
    obtain ⟨hu, hw, rfl⟩ := he hc
    exact ⟨hafter.untouched hu, hafter.writes.trans hw, hreleased rfl⟩
  | errno n =>
    refine .throw ?_
    rintro l s - ⟨-, -, hafter⟩
    exact ⟨hwrites s hafter, by nofun⟩

theorem uses_orFail {m : StoreM σ α} {C : Op → Prop} {X Y : Err → Prop} {c : ErrorCode}
    (h : m.Uses C Y) (hc : X (.store c)) : (orFail m c).Uses C X :=
  .tryCatch h fun _ _ => .throw hc

/-- The checks on the staging file only look. -/
theorem uses_revalidateStagingContent :
    (revalidateStagingContent g tok : StoreM σ Unit).Uses (fun o => o.quiet = true)
      (fun e => e ≠ .store .publicationCasMismatch) := by
  refine .bind (uses_orFail (Y := fun _ => True) (uses_op rfl fun _ => trivial) (by nofun)) fun st => ?_
  split
  · exact .throw (by nofun)
  refine .bind (uses_orFail (Y := fun _ => True) (uses_op rfl fun _ => trivial) (by nofun)) fun h => ?_
  split
  · exact .throw (by nofun)
  · exact .pure _

/-- Procedures that only look keep every stable assertion. -/
theorem triple_look {A : σ → StoreState → Prop} {m : StoreM σ α} {X : Err → Prop}
    (hA : ∀ l, (storeDiscipline P).Stable t (A l)) (hm : m.Uses (fun o => o.quiet = true) X) :
    StoreTriple P t call A m (fun _ => A) (fun e l s => A l s ∧ X e) :=
  Triple.uses hm fun _ hq =>
    (triple_quiet hq hA).conseq (fun _ _ _ h => h) (fun _ _ _ _ h => h.2) fun _ _ _ _ h => h.2

theorem after_publishPrelude {l : σ} (hV : Unlinked g tok V) :
    StoreTriple P t call (AfterL t l V) (publishPrelude g tok) (fun _ => AfterL t l V)
      (fun e _ s => PublishErr t g e s) := by
  refine Triple.tryCatch (F := fun e l' s => AfterL t l V l' s ∧
    e ≠ .store .publicationCasMismatch) (triple_look AfterL.stable ?_) fun e => ?_
  · refine .bind (uses_orFail (Y := fun _ => True) (uses_op rfl fun _ => trivial) (by nofun)) fun _ => ?_
    refine .bind (uses_orFail (Y := fun _ => True) (uses_op rfl fun _ => trivial) (by nofun)) fun _ => ?_
    exact uses_revalidateStagingContent
  · refine Triple.pre (P := fun l' s => e ≠ .store .publicationCasMismatch ∧
      AfterL t l V l' s) (.assume fun he => ?_) fun _ _ _ h => ⟨h.2, h.1⟩
    refine Triple.seq (after_setTokenState hV.token (.inr ⟨rfl, hV.db, hV.json⟩))
      (fun _ _ _ _ h => h.elim) fun _ => .throw ?_
    rintro l' s - ⟨-, -, hafter⟩
    have hw : ownWrites t s = [] := hafter.writes.trans hV.writes
    exact ⟨by simp [hw], fun h => absurd h he⟩

/-! ## The whole call -/

/-- What a call knows at its start. -/
def View.start : View where
  manifest := none
  generations := ∅
  cas := .initial
  working := .initial
  fresh := fun _ => False
  token := none
  writes := []
  untouched := true
  know := fun _ => True

theorem After.start (h : s.Silent t) : After t .start s where
  token := by
    rintro g tok htok
    cases htok
  pristine := by
    rintro g tok htok
    cases htok
  writes := by
    have hnil : (s.trace.filter fun e => e.tid = t) = [] := by
      rw [filter_eq_nil_iff]
      intro e he ht
      exact h e he (by simpa using ht)
    rw [ownWrites, hnil]
    rfl
  untouched _ e he ht := absurd ht (h e he)
  know := trivial
  lasting _ _ _ _ := trivial

/-- The view of a publisher that has taken its token. -/
def View.taken (g : GenerationId) (tok : PreparedToken) : View :=
  { View.start with
    fresh := fun n => n.gen? = some g
    token := some (g, tok) }

theorem View.taken_unlinked (g : GenerationId) (tok : PreparedToken) :
    Unlinked g tok (View.taken g tok) := ⟨rfl, rfl, rfl, rfl⟩

/-- Taking the token: only a `PREPARED` one is taken, and its generation is pristine. -/
theorem start_takeToken {l : σ} :
    StoreTriple P t call (AfterL t l .start) (op (.takeToken g true))
      (fun (r : Option PreparedToken) l' s => AfterL t l (match r with
        | some tok => if tok.state = .prepared then .taken g tok else .start
        | none => .start) l' s)
      (fun _ _ _ => False) := by
  refine triple_op AfterL.stable (fun _ _ _ _ => trivial) ?_
  rintro l s ch r w' hinv ⟨rfl, h⟩ hexec hev
  rw [exec_eq (by simp [Op.fallible])] at hexec
  simp only [execOp] at hexec
  split at hexec
  · cases hexec
    exact ⟨rfl, h.rely (.idle rfl)⟩
  · rename_i tok htok
    split at hexec
    · rename_i hst
      cases hexec
      refine ⟨rfl, ?_⟩
      simp only [if_pos hst]
      obtain ⟨-, -, -, hp⟩ := hinv.handles.token g tok htok
      have hw := h.writes
      refine ⟨?_, ?_, ?_, ?_, trivial, fun _ _ _ _ => trivial⟩
      · rintro g' tok' heq
        cases heq
        exact AList.lookup_insert _
      · rintro g' tok' heq - -
        cases heq
        exact (hp hst).push rfl
      · rw [← show ownWrites t s = (View.taken g tok).writes from hw]
        simp only [ownWrites, State.push_trace, decide_true, filter_cons_of_pos,
          filterMap_cons]
        rfl
      · intro _ e he ht
        rcases mem_cons.mp he with rfl | he
        · exact ⟨rfl, rfl, rfl, rfl⟩
        · exact h.untouched rfl e he ht
    · rename_i hst
      cases hexec
      refine ⟨rfl, ?_⟩
      simp only [if_neg hst]
      exact h.rely (.idle rfl)

/-- What an assertion needs to survive the end of a call. -/
structure Final (P : Platform) (t : Tid) (B : StoreState → Prop) : Prop where
  stable : (storeDiscipline P).Stable t B
  close : ∀ s, B s → Evolves s (s.push t (.op .casClose (.ok ())) (s.world.dropTxn t)) →
    B (s.push t (.op .casClose (.ok ())) (s.world.dropTxn t))

theorem Final.triple_close {B : StoreState → Prop} (hB : Final P t B) :
    StoreTriple P t call (fun (_ : σ) s => B s) CasStore.close (fun _ _ s => B s)
      (fun _ _ _ => False) := by
  refine triple_op (fun _ => hB.stable) (fun _ _ _ _ => trivial) ?_
  intro l s ch r w' _ hb hexec hev
  rw [exec_eq (by simp [Op.fallible])] at hexec
  cases hexec
  exact hB.close s hb hev

theorem ownWrites_close {w' : World} :
    ownWrites t (s.push t (.op .casClose (.ok ())) w') = ownWrites t s := by
  simp only [ownWrites, State.push_trace, decide_true, filter_cons_of_pos,
    filterMap_cons]
  rfl

theorem PublishOk.final {r : PublicationResult} :
    Final P t (PublishOk t options r) where
  stable h hrely _ := ⟨hrely.ownWrites.trans h.writes, hrely.rows _ h.row, h.generationId, h.previous⟩
  close _ h hev := ⟨ownWrites_close.trans h.writes, hev.rows _ h.row, h.generationId, h.previous⟩

theorem PublishErr.final {e : Err} : Final P t (PublishErr t g e) where
  stable h hrely _ := by
    refine ⟨by rw [hrely.ownWrites]; exact h.writes, fun he => ?_⟩
    obtain ⟨hu, hw, hr⟩ := h.mismatch he
    exact ⟨hrely.untouched hu, hrely.ownWrites.trans hw, hr.rely hrely⟩
  close s h hev := by
    refine ⟨by rw [ownWrites_close]; exact h.writes, fun he => ?_⟩
    obtain ⟨hu, hw, hr⟩ := h.mismatch he
    refine ⟨?_, ownWrites_close.trans hw, hr.push (by simp)⟩
    intro e' he' ht
    rcases mem_cons.mp he' with rfl | he'
    · exact ⟨by simp, by simp, by simp, by simp⟩
    · exact hu e' he' ht

/-- **A publication keeps the contract**, and says at its end what it did. -/
theorem start_publishPreparedGeneration {l : σ} :
    StoreTriple P t (.publish g options) (AfterL t l .start)
      (publishPreparedGeneration P g options)
      (fun r _ s => PublishOk t options r s) (fun e _ s => PublishErr t g e s) := by
  have hfail : ∀ c : ErrorCode, c ≠ .publicationCasMismatch → ∀ (l : σ) s, AfterL t l .start l s →
      PublishErr t g (.store c) s := by
    rintro c hc l s ⟨-, hafter⟩
    have hw : ownWrites t s = [] := hafter.writes
    exact ⟨by simp [hw], fun h => by cases h; exact absurd rfl hc⟩
  refine start_takeToken.seq (fun _ _ _ _ h => h.elim) fun r => ?_
  cases r with
  | none => exact .throw fun l' s _ h => hfail _ (by nofun) l' s ⟨rfl, h.2⟩
  | some tok =>
    dsimp only
    by_cases hst : tok.state = .prepared
    · rw [if_pos hst, if_neg (by simpa using hst)]
      have hV := View.taken_unlinked g tok
      refine (after_publishPrelude hV).bind fun _ => ?_
      refine Triple.attemptSeq (Q := fun r _ s => PublishOk t options r s)
        (E := fun e _ s => PublishErr t g e s) (.withLocals fun l' => ?_) (fun r => ?_) fun e => ?_
      · exact Triple.tryCatch ((at_publishBody hV rfl).pre fun l s _ h => ⟨h.1, h.2.2⟩)
          fun e => pubErr_handler
      · exact (Final.triple_close PublishOk.final).seq (fun _ _ _ _ h => h.elim)
          fun _ => .pure fun _ _ _ h => h
      · exact (Final.triple_close PublishErr.final).seq (fun _ _ _ _ h => h.elim)
          fun _ => .throw fun _ _ _ h => h
    · rw [if_neg hst, if_pos hst]
      exact .throw fun l' s _ h => hfail _ (by nofun) l' s ⟨rfl, h.2⟩

end Ariad
