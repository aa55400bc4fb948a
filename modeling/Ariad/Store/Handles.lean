import Ariad.Store.Recovery

/-!
# Handles, pins and readers keep the contract

The calls around a publication: reserving a staging file, preparing it, giving either up, pinning a
generation, and resolving the active one. A generation is in the hands of one call from the moment
its id is drawn or its reservation is taken (`InHand`), and nothing of it exists before it is
published.
-/

namespace Ariad

open Discipline Option

variable {P : Platform} {σ : Type} {t : Tid} {call : Call} {V V' : View} {g : GenerationId} {l : σ}
  {B : StoreState → Prop}

/-! ## In the hands of a call -/

/-- The call owns the generation, of which nothing exists. -/
structure InHand (t : Tid) (g : GenerationId) (tok : Option PreparedToken)
    (r : Option ReservationToken) (s : StoreState) : Prop where
  owned : Owned t g s.world
  token : s.world.tokens.lookup g = tok
  reservation : s.world.reservations.lookup g = r
  pristine : Pristine g s
  issued : g < s.world.issued.length

/-- `InHand`, with any locals. -/
def InHandL (t : Tid) (g : GenerationId) (tok : Option PreparedToken)
    (r : Option ReservationToken) (_ : σ) (s : StoreState) : Prop := InHand t g tok r s

variable {tok : Option PreparedToken} {r : Option ReservationToken}

variable {o : Op}

theorem InHandL.stable (l : σ) : (storeDiscipline P).Stable t (InHandL t g tok r l) := by
  intro s s' h hrely _
  have hkept := hrely.owned g h.owned
  exact ⟨hkept.owned hrely.issued h.owned, hkept.token.trans h.token,
    hkept.reservation.trans h.reservation, hkept.pristine h.pristine,
    h.issued.trans_le hrely.issued.length_le⟩

/-- A step that leaves the handles and the final files alone. -/
theorem InHand.push {a : Action Op Op.Val Errno} {w' : World} {s : StoreState}
    (h : InHand t g tok r s) (hgen : w'.generations = s.world.generations)
    (htok : w'.tokens = s.world.tokens) (hres : w'.reservations = s.world.reservations)
    (hissued : w'.issued = s.world.issued) : InHand t g tok r (s.push t a w') where
  owned := by
    simp only [Owned, Publishing, Preparing, Drawn, State.push_world, htok, hres, hissued]
    exact h.owned
  token := by
    rw [State.push_world, htok]
    exact h.token
  reservation := by
    rw [State.push_world, hres]
    exact h.reservation
  pristine := (pristine_push_of_eq hgen).mpr h.pristine
  issued := by
    rw [State.push_world, hissued]
    exact h.issued

/-- Operations that take something out of the staging area. -/
def Op.staging : Op → Bool
  | .unlinkStaging _ => true
  | _ => false

theorem staging_execOp (h : o.staging = true) (P : Platform) (t : Tid) (ch : Choice)
    (w : World) : ∃ staging', (execOp P t ch w o).2 = { w with staging := staging' } := by
  cases o with
  | unlinkStaging g =>
    simp only [execOp]
    split <;> exact ⟨_, rfl⟩
  | _ => cases h

theorem staging_exec (h : o.staging = true) {ch : Choice} {w w' : World}
    {x : Except Errno o.Val} (hexec : exec P t ch w o = (x, w')) :
    ∃ staging', w' = { w with staging := staging' } := by
  rcases exec_cases (o := o) (by rintro rfl; cases h) P t ch w with he | he
  · rw [he] at hexec
    cases hexec
    exact ⟨w.staging, rfl⟩
  · obtain ⟨staging', hs⟩ := staging_execOp h P t ch w
    rw [he] at hexec
    rw [hexec] at hs
    exact ⟨staging', hs⟩

theorem staging_pre (h : o.staging = true) {s : StoreState} : Pre P t call s o := by
  cases o <;> trivial

/-- Looking and handling staging files. -/
def Op.aside (o : Op) : Prop := o.quiet = true ∨ o.staging = true

theorem inHand_aside (ho : o.aside) :
    StoreKeeps σ P t call (InHandL t g tok r) (op o) := by
  rcases ho with hq | hst
  · exact (triple_quiet hq InHandL.stable).conseq (fun _ _ _ h => h) (fun _ _ _ _ h => h.2)
      fun _ _ _ _ h => h.2
  · refine triple_op InHandL.stable (fun _ _ _ _ => staging_pre hst) ?_
    intro l s ch x w' _ h hexec _
    obtain ⟨staging', rfl⟩ := staging_exec hst hexec
    have h' : InHand t g tok r (s.push t (.op o x) { s.world with staging := staging' }) :=
      h.push rfl rfl rfl rfl
    cases x <;> exact h'

theorem inHand_uses {α : Type} {m : StoreM σ α} {X : Err → Prop} (hm : m.Uses Op.aside X) :
    StoreKeeps σ P t call (InHandL t g tok r) m :=
  (Triple.uses hm fun _ ho => inHand_aside ho).conseq (fun _ _ _ h => h)
    (fun _ _ _ _ h => h) fun _ _ _ _ h => h.1

/-- Nothing is known. -/
def Anything (_ : σ) (_ : StoreState) : Prop := True

theorem Anything.stable (l : σ) : (storeDiscipline P).Stable t (Anything l) := fun h _ _ => h

/-- Operations that ask nothing of the call. -/
theorem any_op {Q : o.Val → σ → StoreState → Prop} {E : Err → σ → StoreState → Prop}
    (hpre : ∀ s, Pre P t call s o)
    (hQ : ∀ v l s, Q v l s) (hE : ∀ e l s, E e l s) :
    StoreTriple P t call Anything (op o) Q E := by
  refine triple_op Anything.stable (fun _ s _ _ => hpre s) ?_
  intro l s ch x w' _ _ _ _
  cases x with
  | ok v => exact hQ v l _
  | error e => exact hE _ l _

theorem any_uses {α : Type} {m : StoreM σ α} {X : Err → Prop} (hm : m.Uses Op.aside X) :
    StoreKeeps σ P t call Anything m := by
  refine (Triple.uses hm fun o ho => any_op (fun s => ?_) (fun _ _ _ => trivial)
    fun _ _ _ => trivial).conseq (fun _ _ _ h => h) (fun _ _ _ _ h => h) fun _ _ _ _ h => h.1
  rcases ho with hq | hst
  · exact quiet_pre hq
  · exact staging_pre hst

/-! ## Reserving -/

/-- A drawn id is in the hands of the call. -/
theorem any_drawId : StoreTriple P t call Anything (op .randomUUID)
    (fun (g : ℕ) (l : σ) s => InHandL t g none none l s) (fun _ => Anything) := by
  refine triple_op Anything.stable (fun _ _ _ _ => trivial) ?_
  intro l s ch x w' hinv _ hexec hev
  rw [exec_eq (by simp [Op.fallible])] at hexec
  cases hexec
  have hres : s.world.reservations.lookup s.world.issued.length = none := by
    rw [← not_isSome_iff_eq_none, isSome_iff_exists]
    rintro ⟨r, hr⟩
    exact absurd (hinv.handles.reservation _ r hr).1 (lt_irrefl _)
  have htok : s.world.tokens.lookup s.world.issued.length = none := by
    rw [← not_isSome_iff_eq_none, isSome_iff_exists]
    rintro ⟨tok, htok⟩
    obtain ⟨⟨r, hr, -⟩, -⟩ := hinv.handles.token _ tok htok
    rw [hres] at hr
    cases hr
  have hfresh : ∀ n : GenName, n.uuid = s.world.issued.length → ¬EverBound n s :=
    fun n hn hb => absurd (hinv.names.issued n hb) (by rw [hn]; exact lt_irrefl _)
  refine ⟨.inr (.inr ⟨?_, htok, hres⟩), htok, hres, ?_, ?_⟩
  · rw [State.push_world, List.getElem?_append_right le_rfl, Nat.sub_self]
    rfl
  · exact Pristine.push ⟨hfresh _ rfl, hfresh _ rfl⟩ rfl
  · simp

/-- A reservation is set, and the call gives the generation out of its hands. -/
theorem inHand_setReservation {r' : ReservationToken}
    (hown : (∃ x, r = some x ∧ x.state = .preparing t) ∨ r = none)
    (hstate : r'.state = .reserved ∨ r'.state = .discarded) :
    StoreTriple P t call (InHandL t g none r) (op (.setReservation g r'))
      (fun (_ : Unit) (l : σ) s => Anything l s) (fun _ => Anything) := by
  refine triple_op InHandL.stable (fun l s _ h => ⟨?_, h.issued, ?_⟩) ?_
  · rcases hown with ⟨x, rfl, hx⟩ | rfl
    · exact .inl ⟨x, h.reservation, hx⟩
    · rcases h.owned with ⟨tok, htok, -⟩ | ⟨x, hx, -⟩ | hdrawn
      · rw [h.token] at htok
        cases htok
      · rw [h.reservation] at hx
        cases hx
      · exact .inr hdrawn
  · rcases hstate with hst | hst
    · exact .inl ⟨hst, h.pristine⟩
    · exact .inr hst
  · intro l s ch x w' _ _ _ _
    cases x <;> trivial

theorem aside_quiet (h : o.quiet = true) : o.aside := .inl h

/-- The staging file of a drawn id is created. -/
theorem inHand_createStaging :
    StoreKeeps σ P t call (InHandL t g tok r) (op (.createStaging g)) := by
  refine triple_op InHandL.stable (fun _ _ _ h => h.issued) ?_
  intro l s ch x w' _ h hexec _
  have hw : ∃ staging', w' = { s.world with staging := staging' } := by
    rcases exec_cases (o := .createStaging g) (by nofun) P t ch s.world with he | he
    · rw [he] at hexec
      cases hexec
      exact ⟨s.world.staging, rfl⟩
    · rw [he] at hexec
      simp only [execOp] at hexec
      split at hexec <;> cases hexec <;> exact ⟨_, rfl⟩
  obtain ⟨staging', rfl⟩ := hw
  have h' : InHand t g tok r (s.push t (.op (.createStaging g) x) { s.world with staging := staging' }) :=
    h.push rfl rfl rfl rfl
  cases x <;> exact h'

/-- **Reserving keeps the contract.** -/
theorem any_reserveGenerationStaging :
    StoreKeeps σ P t call Anything reserveGenerationStaging := by
  have hgive : ∀ {g : GenerationId} (e : Err) (l : σ) (s : StoreState), Inv P s →
      InHandL t g none none l s → Anything l s := fun _ _ _ _ _ => trivial
  refine Triple.bind (any_uses
    (uses_orFail (Y := fun _ => True) (X := fun _ => True) (uses_op (aside_quiet rfl) fun _ => trivial) trivial))
    fun _ => ?_
  refine any_drawId.bind fun g => ?_
  have haside : ∀ {o : Op} {c : ErrorCode}, o.aside → StoreKeeps σ P t call (InHandL t g none none) (orFail (op o) c) := fun ho =>
    inHand_uses (uses_orFail (Y := fun _ => True) (X := fun _ => True)
      (uses_op ho fun _ => trivial) trivial)
  have hcreate : StoreKeeps σ P t call (InHandL t g none none) (orFail (op (.createStaging g)) .stagingCreateFailed) :=
    triple_orFail inHand_createStaging
  refine hcreate.seq hgive fun _ => ?_
  have hsync : (do op .io; op .io; op .io : StoreM σ Unit).Uses Op.aside fun _ => True :=
    .bind (uses_op (aside_quiet rfl) fun _ => trivial) fun _ =>
      .bind (uses_op (aside_quiet rfl) fun _ => trivial) fun _ =>
        uses_op (aside_quiet rfl) fun _ => trivial
  refine (inHand_uses hsync).attemptSeq (fun _ => ?_) fun _ => ?_
  · refine (haside (aside_quiet rfl)).seq hgive fun st => ?_
    exact (inHand_setReservation (.inr rfl) (.inl rfl)).bind fun _ => .pure fun _ _ _ h => h
  · refine Triple.pre (P := Anything) (any_uses (X := fun _ => True) ?_)
      fun _ _ _ _ => trivial
    refine .bind (uses_bestEffort (Y := fun _ => True) (uses_op (.inr rfl) fun _ => trivial)) fun _ => ?_
    refine .bind (uses_bestEffort (Y := fun _ => True) (uses_op (aside_quiet rfl) fun _ => trivial))
      fun _ => ?_
    exact .throw trivial

/-! ## Preparing -/

/-- Taking a reservation that is `RESERVED`. -/
theorem any_takeReservation :
    StoreTriple P t call Anything (op (.takeReservation g))
      (fun (r : Option ReservationToken) (l : σ) s => ∀ x, r = some x → x.state = .reserved →
        InHandL t g none (some { x with state := .preparing t }) l s)
      (fun _ => Anything) := by
  refine triple_op Anything.stable (fun _ _ _ _ => trivial) ?_
  intro l s ch x w' hinv _ hexec _
  rw [exec_eq (by simp [Op.fallible])] at hexec
  simp only [execOp] at hexec
  split at hexec
  · cases hexec
    rintro y h
    cases h
  · rename_i r hr
    split at hexec
    · rename_i hst
      cases hexec
      rintro y h -
      cases h
      obtain ⟨hlt, hclean⟩ := hinv.handles.reservation g r hr
      obtain ⟨htok, hpristine⟩ := hclean (.inl hst)
      exact ⟨.inr (.inl ⟨_, AList.lookup_insert _, rfl⟩), htok, AList.lookup_insert _,
        hpristine.push rfl, hlt⟩
    · rename_i hst
      cases hexec
      rintro y h hy
      cases h
      exact absurd hy hst

/-- Registering the token of a generation in preparation. -/
theorem inHand_registerToken {x : ReservationToken} {tok : PreparedToken}
    (hx : x.state = .preparing t) (hst : tok.state = .prepared)
    (hid : tok.manifest.generationId = g) (hproject : tok.manifest.project = P.project) :
    StoreTriple P t call (InHandL t g none (some x)) (op (.registerToken g tok))
      (fun (_ : Unit) (l : σ) s => Anything l s) (fun _ => InHandL t g none (some x)) := by
  refine triple_op InHandL.stable
    (fun l s _ h => ⟨⟨x, h.reservation, hx⟩, hst, hid, hproject, h.pristine⟩) ?_
  intro l s ch y w' _ _ hexec _
  rw [exec_eq (by simp [Op.fallible])] at hexec
  simp only [execOp] at hexec
  split at hexec <;> cases hexec <;> trivial

theorem inHand_prepareBody {x : ReservationToken} {rootFingerprint : Option String}
    (hx : x.state = .preparing t) :
    StoreTriple P t call (InHandL t g none (some x)) (prepareBody P g rootFingerprint)
      (fun (_ : Unit) (l : σ) s => Anything l s) (fun _ => InHandL t g none (some x)) := by
  have hfail : ∀ {c : ErrorCode}, StoreTriple P t call (InHandL t g none (some x)) (fail c)
      (fun (_ : Unit) (l : σ) s => Anything l s) (fun _ => InHandL t g none (some x)) :=
    .throw fun _ _ _ h => h
  have hread : ∀ {o : Op} {c : ErrorCode}, o.quiet = true →
      StoreKeeps σ P t call (InHandL t g none (some x)) (orFail (op o) c) := fun hq =>
    triple_orFail (inHand_aside (aside_quiet hq))
  refine (hread rfl).bind fun source => ?_
  split
  · exact hfail
  split
  · exact hfail
  refine (hread rfl).bind fun sha => ?_
  refine (inHand_aside (aside_quiet rfl)).bind fun preStat => ?_
  refine (inHand_aside (aside_quiet rfl)).bind fun createdAt => ?_
  exact inHand_registerToken hx rfl rfl rfl

/-- **Preparing keeps the contract.** -/
theorem any_prepareGenerationForPublication {rootFingerprint : Option String} :
    StoreKeeps σ P t call Anything (prepareGenerationForPublication P g rootFingerprint) := by
  refine any_takeReservation.bind fun r => ?_
  cases r with
  | none => exact .throw fun _ _ _ _ => trivial
  | some x =>
    dsimp only
    split
    · exact .throw fun _ _ _ _ => trivial
    rename_i hst
    rw [not_not] at hst
    refine Triple.pre (P := InHandL t g none (some { x with state := .preparing t })) ?_
      fun _ _ _ h => h x rfl hst
    have hset : ∀ {α : Type} {st : ReservationState} {e : Err},
        st = .reserved ∨ st = .discarded →
        StoreTriple P t call (InHandL t g none (some { x with state := .preparing t }))
          (do
            op (.setReservation g { x with state := st })
            throw e : StoreM σ α)
          (fun _ (l : σ) s => Anything l s) (fun _ => Anything) := fun hst' =>
      (inHand_setReservation (.inl ⟨_, rfl, rfl⟩) hst').bind fun _ => .throw fun _ _ _ h => h
    refine (inHand_aside (aside_quiet rfl)).attemptSeq (fun _ => ?_) fun _ => ?_
    · exact (inHand_prepareBody rfl).tryCatch fun _ => hset (.inr rfl)
    · exact hset (.inl rfl)

/-! ## Giving up -/

theorem any_unlinkStagingDurably {ino : ℕ} :
    StoreKeeps σ P t call Anything (unlinkStagingDurably g ino) :=
  any_uses (uses_unlinkStagingDurably (X := fun _ => True) (fun _ => aside_quiet) (.inr rfl))

/-- **Giving a prepared generation up keeps the contract.** -/
theorem any_discardPreparedGeneration :
    StoreKeeps σ P t call Anything (discardPreparedGeneration g) := by
  refine Triple.bind (Q := fun (_ : Option PreparedToken) => Anything)
    (any_op (fun _ => trivial) (fun _ _ _ => trivial) fun _ _ _ => trivial) fun r => ?_
  cases r with
  | none => exact .throw fun _ _ _ _ => trivial
  | some tok =>
    dsimp only
    split
    · exact .throw fun _ _ _ _ => trivial
    refine (any_uses (uses_op (X := fun _ => True) (aside_quiet rfl) fun _ => trivial)).attemptSeq
      (fun st => ?_) fun _ => .pure fun _ _ _ _ => trivial
    dsimp only
    split
    · exact .pure fun _ _ _ _ => trivial
    · exact any_unlinkStagingDurably.bind fun res => .pure fun _ _ _ _ => trivial

/-- **Giving a reservation up keeps the contract.** -/
theorem any_discardGenerationReservation :
    StoreKeeps σ P t call Anything (discardGenerationReservation g) := by
  refine Triple.bind (Q := fun (_ : Option ReservationToken) => Anything)
    (any_op (fun _ => trivial) (fun _ _ _ => trivial) fun _ _ _ => trivial) fun r => ?_
  cases r with
  | none => exact .throw fun _ _ _ _ => trivial
  | some x =>
    dsimp only
    split
    · exact .throw fun _ _ _ _ => trivial
    · exact any_unlinkStagingDurably.bind fun res => .pure fun _ _ _ _ => trivial

/-! ## Pinning -/

theorem after_pinTransaction {pinned : Bool} (htok : V.token = none) (hknow : V.know = B) :
    StoreTriple P t call (AfterL t l V)
      (do
        CasStore.beginImmediate
        CasStore.setCatalogPinned g pinned
        CasStore.appendPublicationHistory g P.project (if pinned then .pin else .unpin) none
        CasStore.commit) (fun _ => Adrift t B) (fun _ => Adrift t B) := by
  refine after_beginImmediate.seq (fun _ _ _ _ h => h.adrift htok hknow) fun _ => ?_
  refine .exists fun V₁ => .assume fun hopen => ?_
  have htok₁ : V₁.token = none := hopen.token.trans htok
  have hknow₁ : V₁.know = B := hopen.know.trans hknow
  refine at_viewOk fun hV => ?_
  refine at_setCatalogPinned.seq (fun _ _ _ _ h => h.adrift htok₁ hknow₁) fun _ => ?_
  refine .exists fun c => .assume ?_
  rintro ⟨hbook, hstatus⟩
  have hrev : c.revision = c.history.length := by
    rw [hbook.revision, hbook.history, hopen.same]
    exact hV.revision
  refine (at_appendPublicationHistory hrev).seq
    (fun _ _ _ _ h => h.of_tables.adrift htok₁ hknow₁) fun _ => .exists fun now => ?_
  have hlt : V₁.cas.revision < c.revision + 1 := by
    rw [hbook.revision, hopen.same]
    exact Nat.lt_succ_self _
  refine (at_commit ?_ ⟨?_, .inr hlt⟩).conseq (fun _ _ _ h => h)
    (fun _ _ _ _ h => ⟨_, ?_, ?_, h.2.2⟩)
    (fun _ _ _ _ h => h.of_tables.of_tables.adrift htok₁ hknow₁)
  · have hactive : V₁.working.ActiveOk := by
      rw [hopen.same]
      exact hV.active
    exact hactive.of_status hbook.active hstatus
  · simpa using hrev
  · exact htok₁
  · exact hknow₁

/-- **Pinning keeps the contract.** -/
theorem free_pinTransaction {pinned : Bool} :
    StoreTriple P t call (Free t fun _ => True) (pinTransaction P g pinned)
      (fun (_ : Unit) (_ : σ) _ => True) (fun _ _ _ => True) := by
  refine (free_orFail .true rfl).seq (fun _ _ _ _ _ => trivial) fun _ => ?_
  have hclose : ∀ {α : Type} {m : StoreM σ α}, StoreTriple P t call (Free t fun _ => True) m
      (fun _ _ _ => True) (fun _ _ _ => True) →
      StoreTriple P t call (Adrift t fun _ => True) (do CasStore.close; m)
        (fun _ _ _ => True) (fun _ _ _ => True) := fun hm =>
    adrift_close.seq (fun _ _ _ _ h => h.elim) fun _ => hm
  refine Triple.attemptSeq (Q := fun _ => Adrift t fun _ => True)
    (E := fun _ => Adrift t fun _ => True) ?_ (fun _ => ?_) fun e => ?_
  · exact (adrift_intro fun _ _ htok hknow => after_pinTransaction htok hknow).pre
      fun _ _ _ h => h.adrift .true
  · exact hclose (.pure fun _ _ _ _ => trivial)
  · exact hclose (.throw fun _ _ _ _ => trivial)

/-! ## Resolving -/

/-- The reader found its manifest and then looked the database up, which was there. -/
structure Resolved (t : Tid) (m : GenerationManifestV1) (s : StoreState) : Prop where
  intro ::
  manifest : ∃ e ∈ s.trace, e.tid = t ∧ e.act = .op .readManifest (.ok (some m)) ∧
    e.before.manifest = some m
  database : ∃ e ∈ s.trace, e.tid = t ∧
    (∃ st, e.act = .op (.lstat (.db m.generationId)) (.ok st)) ∧
    (e.before.generations.lookup (.db m.generationId)).isSome

/-- The reader found its manifest, but then could not look the database up: either the system call
itself failed, or the manifest named another generation by then. -/
structure Overtaken (t : Tid) (s : StoreState) : Prop where
  intro ::
  target : ∃ m, (∃ e ∈ s.trace, e.tid = t ∧ e.act = .op .readManifest (.ok (some m)) ∧
      e.before.manifest = some m) ∧
    ∃ e ∈ s.trace, e.tid = t ∧ ∃ n, e.act = .op (.lstat (.db m.generationId)) (.error n) ∧
      (n = .eio ∨ n = .enoent ∧ ∀ m', e.before.manifest = some m' →
        m'.generationId ≠ m.generationId)

/-- What the reader knows after it has read the manifest. -/
def ReadManifest (t : Tid) (m : GenerationManifestV1) (s : StoreState) : Prop :=
  ∃ e ∈ s.trace, e.tid = t ∧ e.act = .op .readManifest (.ok (some m)) ∧ e.before.manifest = some m

theorem ReadManifest.lasting (t : Tid) (m : GenerationManifestV1) : Lasting (ReadManifest t m) := by
  rintro s s' hev ⟨e, he, h⟩
  exact ⟨e, hev.trace e he, h⟩

theorem Resolved.lasting (t : Tid) (m : GenerationManifestV1) : Lasting (Resolved t m) := by
  rintro s s' hev ⟨⟨e, he, h⟩, e', he', h'⟩
  exact ⟨⟨e, hev.trace e he, h⟩, e', hev.trace e' he', h'⟩

theorem Overtaken.lasting (t : Tid) : Lasting (Overtaken t) := by
  rintro s s' hev ⟨m, ⟨e, he, h⟩, e', he', h'⟩
  exact ⟨m, ⟨e, hev.trace e he, h⟩, e', hev.trace e' he', h'⟩

/-- Looking the database of the manifest up, which is there as long as the manifest names it. -/
theorem free_lookTarget {m : GenerationManifestV1} :
    StoreTriple P t call (Free t (ReadManifest t m)) (op (.lstat (.db m.generationId)))
      (fun (_ : Stat) (l : σ) s => Free t (Resolved t m) l s) (fun _ => Free t (Overtaken t)) := by
  refine triple_op (Free.stable (ReadManifest.lasting t m)) (fun _ _ _ _ => trivial) ?_
  rintro l s ch r w' hinv ⟨hfree, hread⟩ hexec hev
  obtain ⟨rfl, hr⟩ := quiet_exec rfl hexec
  have hread' := ReadManifest.lasting t m hev hread
  cases r with
  | ok st =>
    refine ⟨hfree, hread', _, List.mem_cons_self, rfl, ⟨st, rfl⟩, ?_⟩
    rcases hr with h | h
    · cases h
    · obtain ⟨f, hf, -⟩ := withFile_ok h.symm
      simp [hf]
  | error n =>
    refine ⟨hfree, m, hread', _, List.mem_cons_self, rfl, n, rfl, ?_⟩
    rcases hr with h | h
    · cases h
      exact .inl rfl
    · obtain ⟨hnone, rfl⟩ := withFile_error h.symm
      refine .inr ⟨rfl, fun m' hm' hid => ?_⟩
      have hbound := (hinv.core.manifest m' hm').bound (n := .db m'.generationId) rfl
      rw [hid, hnone] at hbound
      cases hbound

/-- **Resolving keeps the contract**, and misses its target only when overtaken. -/
theorem free_resolveActiveCodeDb :
    StoreTriple P t call (Free t fun _ => True) resolveActiveCodeDb
      (fun r (_ : σ) s => ∀ m, r = some m → Resolved t m s)
      (fun e _ s => e = .store .manifestTargetMissing → Overtaken t s) := by
  have hother : ∀ {c : ErrorCode}, c ≠ .manifestTargetMissing → ∀ (l : σ) (s : StoreState),
      Err.store c = .store .manifestTargetMissing → Overtaken t s := by
    rintro c hc l s heq
    cases heq
    exact absurd rfl hc
  refine Triple.bind (Q := fun _ => Free t fun _ => True)
    ((free_quiet .true rfl).tryCatch fun _ => .throw fun l s _ _ => hother (by nofun) l s) fun _ => ?_
  refine Triple.bind (Q := fun (r : Option GenerationManifestV1) =>
    Free t fun s => ∀ m, r = some m → ReadManifest t m s)
    (Triple.tryCatch ((free_answered .true rfl).post ?_)
      fun _ => .throw fun l s _ _ => hother (by nofun) l s) fun r => ?_
  · rintro r l s - ⟨hfree, -, e, he, ht, hact, ch, hm⟩
    refine ⟨hfree, fun m hr => ⟨e, he, ht, by rw [hact, hr], ?_⟩⟩
    cases hm
    exact hr
  · split
    · exact .pure fun _ _ _ _ => by nofun
    · rename_i m
      refine Triple.bind (Q := fun _ => Free t (Resolved t m)) ?_
        fun _ => .pure fun _ _ _ h => ?_
      · refine Triple.tryCatch (F := fun _ => Free t (Overtaken t)) ?_
          fun _ => .throw fun _ _ _ h _ => h.2
        exact free_lookTarget.pre fun _ _ _ h => ⟨h.1, h.2 m rfl⟩
      · rintro m' heq
        cases heq
        exact h.2

end Ariad
