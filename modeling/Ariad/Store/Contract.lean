import Ariad.Concurrency.RelyGuarantee
import Ariad.Store.Invariant

/-!
# The contract between the calls of the store

The rely–guarantee contract of the store (`storeDiscipline`).

* `Rely t` — what the call `t` may count on while others act: nobody touches the files, the manifest
  or the tables while `t` holds the CAS write lock, nobody touches what `t` **owns** (a generation
  it is publishing, preparing or reserving), and the revision tells whether the tables changed.
* `Pre t call s o` — what the call `t` answers for when it performs `o`. This is where the claims
  about single operations live: which files are unlinked, which status is written, what the manifest
  is replaced by, what is committed.
-/

namespace Ariad

open List

variable (P : Platform)

/-! ## Ownership -/

/-- The call is publishing the generation. -/
def Publishing (t : Tid) (g : GenerationId) (w : World) : Prop :=
  ∃ tok, w.tokens.lookup g = some tok ∧ tok.state = .publishing t

/-- The call has drawn the id and made neither a reservation nor a token of it. -/
def Drawn (t : Tid) (g : GenerationId) (w : World) : Prop :=
  w.issued[g]? = some t ∧ w.tokens.lookup g = none ∧ w.reservations.lookup g = none

/-- The call is preparing the generation. -/
def Preparing (t : Tid) (g : GenerationId) (w : World) : Prop :=
  ∃ r, w.reservations.lookup g = some r ∧ r.state = .preparing t

/-- The generation is in the hands of one call. -/
def Owned (t : Tid) (g : GenerationId) (w : World) : Prop :=
  Publishing t g w ∨ Preparing t g w ∨ Drawn t g w

variable {s₁ s₂ s₃ : StoreState}

/-- A generation is in the hands of one call at a time. -/
theorem Owned.unique {s : StoreState} (h : HandlesOk P s) {t t' : Tid} {g : GenerationId}
    (ho : Owned t g s.world) (ho' : Owned t' g s.world) : t = t' := by
  rcases ho with ⟨tok, htok, hst⟩ | ⟨r, hr, hst⟩ | ⟨hi, htok, hr⟩ <;>
    rcases ho' with ⟨tok', htok', hst'⟩ | ⟨r', hr', hst'⟩ | ⟨hi', htok', hr'⟩
  · rw [htok] at htok'
    cases htok'
    rw [hst] at hst'
    cases hst'
    rfl
  · have := (h.reservation g r' hr').2 (.inr ⟨t', hst'⟩)
    rw [this.1] at htok
    cases htok
  · rw [htok] at htok'
    cases htok'
  · have := (h.reservation g r hr).2 (.inr ⟨t, hst⟩)
    rw [this.1] at htok'
    cases htok'
  · rw [hr] at hr'
    cases hr'
    rw [hst] at hst'
    cases hst'
    rfl
  · rw [hr] at hr'
    cases hr'
  · rw [htok] at htok'
    cases htok'
  · rw [hr] at hr'
    cases hr'
  · rw [hi] at hi'
    cases hi'
    rfl

/-! ## What every step does -/

/-- The manifest that a step put in place. -/
def Event.wrote (e : Event Op Op.Val Errno World) : Option GenerationManifestV1 :=
  match e.act with
  | .op (.renameManifest m) (.ok _) => some m
  | _ => none

/-- A step that changed nothing. -/
structure Event.Idle (e : Event Op Op.Val Errno World) : Prop where
  world : e.after = e.before
  wrote : e.wrote = none

/-- What holds across every step: the past stays, ids and plans stay, the revision counts every
change of the tables, and a catalogued generation stays catalogued. -/
structure Evolves (s s' : StoreState) : Prop where
  trace : ∀ e ∈ s.trace, e ∈ s'.trace
  issued : s.world.issued <+: s'.world.issued
  gcPlans : s.world.gcPlans <+: s'.world.gcPlans
  orphanPlans : s.world.orphanPlans <+: s'.world.orphanPlans
  cas : Cas.RevSound s.world.cas s'.world.cas
  rows : ∀ g, (s.world.cas.entry g).isSome → (s'.world.cas.entry g).isSome

theorem Evolves.refl (s : StoreState) : Evolves s s :=
  ⟨fun _ h => h, prefix_rfl, prefix_rfl, prefix_rfl, .refl _, fun _ h => h⟩

theorem Evolves.trans (h₁ : Evolves s₁ s₂) (h₂ : Evolves s₂ s₃) : Evolves s₁ s₃ where
  trace e he := h₂.trace e (h₁.trace e he)
  issued := h₁.issued.trans h₂.issued
  gcPlans := h₁.gcPlans.trans h₂.gcPlans
  orphanPlans := h₁.orphanPlans.trans h₂.orphanPlans
  cas := h₁.cas.trans h₂.cas
  rows g hg := h₂.rows g (h₁.rows g hg)

/-- Knowledge that stays true once it is true. -/
def Lasting (B : StoreState → Prop) : Prop := ∀ ⦃s s'⦄, Evolves s s' → B s → B s'

/-! ## The rely -/

/-- Everything that the CAS write lock protects is as it was. -/
structure Frozen (s s' : StoreState) : Prop where
  txn : s'.world.txn = s.world.txn
  manifest : s'.world.manifest = s.world.manifest
  generations : s'.world.generations = s.world.generations
  cas : s'.world.cas = s.world.cas
  bound : ∀ n, EverBound n s' ↔ EverBound n s

theorem Frozen.refl (s : StoreState) : Frozen s s := ⟨rfl, rfl, rfl, rfl, fun _ => .rfl⟩

theorem Frozen.trans (h₁ : Frozen s₁ s₂) (h₂ : Frozen s₂ s₃) : Frozen s₁ s₃ :=
  ⟨h₂.txn.trans h₁.txn, h₂.manifest.trans h₁.manifest, h₂.generations.trans h₁.generations,
    h₂.cas.trans h₁.cas, fun n => (h₂.bound n).trans (h₁.bound n)⟩

/-- What the owner of a generation finds unchanged. -/
structure Kept (g : GenerationId) (s s' : StoreState) : Prop where
  token : s'.world.tokens.lookup g = s.world.tokens.lookup g
  reservation : s'.world.reservations.lookup g = s.world.reservations.lookup g
  pristine : Pristine g s → Pristine g s'

theorem Kept.owned {t : Tid} {g : GenerationId} {s s' : StoreState} (h : Kept g s s')
    (hi : s.world.issued <+: s'.world.issued) (ho : Owned t g s.world) : Owned t g s'.world := by
  rcases ho with ⟨tok, htok, hst⟩ | ⟨r, hr, hst⟩ | ⟨hid, htok, hr⟩
  · exact .inl ⟨tok, h.token.trans htok, hst⟩
  · exact .inr (.inl ⟨r, h.reservation.trans hr, hst⟩)
  · refine .inr (.inr ⟨?_, h.token.trans htok, h.reservation.trans hr⟩)
    obtain ⟨ext, hext⟩ := hi
    rw [← hext, getElem?_append_left (List.getElem?_eq_some_iff.mp hid).1]
    exact hid

/-- What the call `t` relies on about the steps of all others. Its own idle steps are like steps of
others to it. -/
structure Rely (t : Tid) (s s' : StoreState) : Prop extends Evolves s s' where
  own : ∃ ext, s'.trace = ext ++ s.trace ∧ ∀ e ∈ ext, e.tid = t → e.Idle
  locked : s.world.lockOwner = some t → Frozen s s'
  unlocked : s.world.lockOwner ≠ some t → s'.world.lockOwner ≠ some t
  owned : ∀ g, Owned t g s.world → Kept g s s'

theorem Rely.refl (t : Tid) (s : StoreState) : Rely t s s where
  toEvolves := .refl s
  own := ⟨[], rfl, by simp⟩
  locked _ := .refl s
  unlocked h := h
  owned _ _ := ⟨rfl, rfl, fun h => h⟩

theorem Frozen.lockOwner {s s' : StoreState} (h : Frozen s s') :
    s'.world.lockOwner = s.world.lockOwner := by
  simp only [World.lockOwner, h.txn]

theorem Rely.trans {t : Tid} (h₁ : Rely t s₁ s₂) (h₂ : Rely t s₂ s₃) : Rely t s₁ s₃ where
  toEvolves := h₁.toEvolves.trans h₂.toEvolves
  own := by
    obtain ⟨e₁, he₁, hi₁⟩ := h₁.own
    obtain ⟨e₂, he₂, hi₂⟩ := h₂.own
    refine ⟨e₂ ++ e₁, by rw [he₂, he₁, append_assoc], ?_⟩
    intro e he
    rcases mem_append.mp he with he | he
    · exact hi₂ e he
    · exact hi₁ e he
  locked hl := by
    have hf := h₁.locked hl
    exact hf.trans (h₂.locked (hf.lockOwner.trans hl))
  unlocked hl := h₂.unlocked (h₁.unlocked hl)
  owned g ho := by
    have hk := h₁.owned g ho
    have hk' := h₂.owned g (hk.owned h₁.issued ho)
    exact ⟨hk'.token.trans hk.token, hk'.reservation.trans hk.reservation,
      fun h => hk'.pristine (hk.pristine h)⟩

/-! ## The guarantee -/

/-- The call holds the CAS write lock. -/
abbrev Held (t : Tid) (w : World) : Prop := w.lockOwner = some t

/-- A generation may lose its files or its `ACTIVE` status: it is active nowhere, it is not pinned,
and the plan being applied does not retain it. -/
structure DeletionOk (call : Call) (g : GenerationId) (w : World) : Prop where
  manifest : ∀ m, w.manifest = some m → m.generationId ≠ g
  active : w.cas.activeGenerationId ≠ some g
  workingActive : ∀ x, w.txn = some x → x.working.activeGenerationId ≠ some g
  unpinned : ∀ e, w.cas.entry g = some e → e.pinned = false
  planned : ∀ h, call = .applyGc h →
    ∃ p, w.gcPlans[h]? = some p ∧ g ∉ planIds p.retain ∧ g ∈ planIds (p.delete ++ p.recovery)

/-- The file under the name is the one an orphan plan was made for. -/
structure PlannedFile (h : ℕ) (n : GenName) (s : StoreState) : Prop where
  intro ::
  planned : ∃ p o t st f, s.world.orphanPlans[h]? = some p ∧ o ∈ p.orphans ∧ o.target = some n ∧
    o.identity = some st ∧ Seen P t n st s ∧ s.world.generations.lookup n = some f ∧ P.stat f = st

/-- A file may be unlinked. -/
structure UnlinkOk (call : Call) (n : GenName) (s : StoreState) : Prop where
  final : ∀ g, n.gen? = some g → DeletionOk call g s.world ∧
    (∀ e, s.world.cas.entry g = some e → e.status ≠ .active) ∧
    ∀ x, s.world.txn = some x → x.working = s.world.cas
  orphan : ∀ h options, call = .applyOrphans h options → PlannedFile P h n s ∧
    ∀ g, n.gen? = some g → ∀ e, s.world.cas.entry g = some e → e.status = .deleted

/-- The manifest may be replaced by `m`; a publication finds the active generation it expected. -/
structure RenameOk (t : Tid) (call : Call) (m : GenerationManifestV1) (w : World) : Prop where
  complete : Complete P w.generations m
  row : ∀ e, w.cas.entry m.generationId = some e → e.status = .active
  workingRow : ∀ x e, w.txn = some x → x.working.entry m.generationId = some e → e.status = .active
  expected : ∃ g options, call = .publish g options ∧
    w.manifest.map (·.generationId) = options.expectedActiveGenerationId ∧
    ∀ x, w.txn = some x →
      x.working.activeGenerationId = options.expectedActiveGenerationId

/-- A statement may change the tables of the open transaction to `c`. -/
structure StmtOk (call : Call) (stmt : CasStmt) (x : CasTransaction) (c : Cas) (w : World) :
    Prop where
  catalog : CatalogOk P w.manifest w.generations c
  advances : Cas.Advances w.cas c
  history : c.HistoryOk
  status : ∀ g st, stmt = .updateStatus g st → DeletionOk call g w
  revision : ∀ g project at_ action prev rev, stmt = .insertHistory g project at_ action prev rev →
    rev = x.working.revision

/-- What a call answers for when it performs an operation. -/
def Pre (t : Tid) (call : Call) (s : StoreState) : Op → Prop
  | .createExclusive n => Held t s.world ∧ n.gen? = none ∧ ¬EverBound n s ∧
      n.uuid < s.world.issued.length
  | .writeBytes n _ => Held t s.world ∧ n.gen? = none ∧
      ∀ f, s.world.generations.lookup n = some f → ∃ b, f.data = .raw b
  | .writeMetadata n m offset => Held t s.world ∧ n.gen? = none ∧
      ∀ f, s.world.generations.lookup n = some f →
        f.data = .sidecar m offset ∨ (f.data = .raw [] ∧ offset = 0)
  | .link _ dst => Held t s.world ∧ ∃ g, dst.gen? = some g ∧ Publishing t g s.world ∧
      ¬EverBound dst s ∧ ¬Catalogued g s.world
  | .unlink n => Held t s.world ∧ UnlinkOk P call n s
  | .renameManifest m => Held t s.world ∧ RenameOk P t call m s.world
  | .casCommit => ∀ x, s.world.txn = some x → x.owner = t →
      x.working.ActiveOk ∧ x.working.revision = x.working.history.length ∧
      Cas.RevSound s.world.cas x.working
  | .casExec stmt => ∀ x c k, s.world.txn = some x → x.owner = t →
      stmt.run x.working = some (c, k) → StmtOk P call stmt x c s.world
  | .createStaging g => g < s.world.issued.length
  | .setTokenState g st => (st = .prepared ∨ st = .consumed) ∧
      ∀ tok, s.world.tokens.lookup g = some tok →
        tok.state = .publishing t ∧ (st = .prepared → Pristine g s)
  | .setReservation g r => (Preparing t g s.world ∨ Drawn t g s.world) ∧
      g < s.world.issued.length ∧
      (r.state = .reserved ∧ Pristine g s ∨ r.state = .discarded)
  | .registerToken g tok => Preparing t g s.world ∧ tok.state = .prepared ∧
      tok.manifest.generationId = g ∧ tok.manifest.project = P.project ∧ Pristine g s
  | .registerGcPlan p => GcPlanOk p s.world.cas
  | .registerOrphanPlan p => ∀ o ∈ p.orphans, OrphanEntryOk P t o s
  | _ => True

/-- **The contract of the store.** -/
def storeDiscipline : Discipline Op Op.Val Errno World Call where
  Inv := Inv P
  Rely := Rely
  Guar t call o _ s s' := Pre P t call s o ∧ Evolves s s'
  rely_refl := Rely.refl
  rely_trans := Rely.trans

end Ariad
