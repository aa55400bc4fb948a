import Ariad.Store.CasLaws
import Ariad.Store.Orphan

/-!
# The invariant of the store

What holds of the store and of the trace that led to it, between any two operations of any calls.

* `Complete gens m` — the generation that the manifest `m` describes has both its files, and they
  are exactly what `m` says.
* `CatalogOk` — how a content of the CAS tables relates to the manifest and to the files: the
  generation of the manifest is not on its way out, a `DELETED` generation has no files, an `ACTIVE`
  one is complete.
* `CoreOk` — the manifest is complete, and both the committed tables and those of an open
  transaction are in order.
* `NamesOk` — the past of the names in `generations/`: a name is bound at most once, a bound file
  only grows, a generation that lost a file before it was catalogued never is.
* `HandlesOk`, `PlansOk` — what the registries of handles and plans remember is true.
* `StoreReachable` — the runs of the store: any number of calls, interleaved, failing and killed.
-/

namespace Ariad

/-! ## The store as a concurrent system -/

variable (P : Platform) {σ : Type}

/-- Pin or unpin a catalogued generation: one transaction that sets the flag and records the act,
which increments the revision. -/
def pinTransaction (g : GenerationId) (pinned : Bool) : StoreM σ Unit := do
  orFail (op .io) .publicationCasStateCorrupt
  let r ← (do
    CasStore.beginImmediate
    CasStore.setCatalogPinned g pinned
    CasStore.appendPublicationHistory g P.project (if pinned then .pin else .unpin) none
    CasStore.commit : StoreM σ Unit).attempt
  CasStore.close
  match r with
  | .ok _ => pure ()
  | .error e => throw e

/-- `resolveActiveCodeDb`: the active generation, or `none` when there is no manifest and the legacy
database is looked up instead. -/
def resolveActiveCodeDb : StoreM σ (Option GenerationManifestV1) := do
  orFail (op .io) .pathTraversalRejected
  let manifest : Option GenerationManifestV1 ← orFail (op .readManifest) .manifestParseError
  match manifest with
  | none => pure none
  | some m => do
    let _ : Stat ← orFail (op (.lstat (.db m.generationId))) .manifestTargetMissing
    pure (some m)

/-- The calls of the store. -/
inductive Call where
  | reserve
  | backup (g : GenerationId) (b : Bytes)
  | prepare (g : GenerationId) (rootFingerprint : Option String)
  | discardReservation (g : GenerationId)
  | discardPrepared (g : GenerationId)
  | publish (g : GenerationId) (options : PublishOptions)
  | planGc (options : GenerationGcOptions)
  | applyGc (handle : ℕ)
  | planOrphans (options : GenerationGcOptions)
  | applyOrphans (handle : ℕ) (options : GenerationGcOptions)
  | setPin (g : GenerationId) (pinned : Bool)
  | resolve
  deriving DecidableEq

/-- What a call that does not raise returns. -/
inductive Outcome where
  | done
  | flag (b : Bool)
  | generation (g : GenerationId)
  | published (r : PublicationResult)
  | plan (handle : ℕ)
  | collected (r : GenerationGcResult)
  | recovered (r : Option (List (GenerationOrphanEntry × OrphanOutcome)))
  | resolved (m : Option GenerationManifestV1)
  deriving DecidableEq

/-- Run a procedure to its outcome. -/
def StoreM.toProg {α : Type} (m : StoreM Unit α) (f : α → Outcome) :
    Prog Op Op.Val Errno (Except Err Outcome) :=
  (m ()).bind fun
    | (.ok a, _) => .pure (.ok (f a))
    | (.error e, _) => .pure (.error e)

/-- The program of a call. -/
def Call.body : Call → Prog Op Op.Val Errno (Except Err Outcome)
  | .reserve => StoreM.toProg reserveGenerationStaging .generation
  | .backup g b => StoreM.toProg (op (.backupStaging g b)) fun _ => .done
  | .prepare g fp => StoreM.toProg (prepareGenerationForPublication P g fp) fun _ => .done
  | .discardReservation g => StoreM.toProg (discardGenerationReservation g) .flag
  | .discardPrepared g => StoreM.toProg (discardPreparedGeneration g) .flag
  | .publish g options => StoreM.toProg (publishPreparedGeneration P g options) .published
  | .planGc options => StoreM.toProg (planGenerationGc P options) .plan
  | .applyGc h => StoreM.toProg (applyGenerationGcPlan P h) .collected
  | .planOrphans options => StoreM.toProg (planGenerationOrphanRecovery options) .plan
  | .applyOrphans h options => StoreM.toProg (applyGenerationOrphanRecovery P h options) .recovered
  | .setPin g b => StoreM.toProg (pinTransaction P g b) fun _ => .done
  | .resolve => StoreM.toProg resolveActiveCodeDb .resolved

/-- A state of the store with the trace of operations that led to it. -/
abbrev StoreState := State Op Op.Val Errno World

/-- The store with its running calls. -/
abbrev StorePool := Pool Op Op.Val Errno World Call (Except Err Outcome)

/-- The pools that some run of the store leads to. -/
def StoreReachable (c : StorePool) : Prop :=
  Reachable (storeMachine P) (Call.body P) World.initial c

/-- One operation of a running call. -/
def StoreStep (t : Tid) (call : Call) (o : Op) (r : Except Errno o.Val) (c c' : StorePool) : Prop :=
  OpStep (storeMachine P) t call o r c c'

end Ariad

namespace Ariad

/-! ## Names over time -/

namespace GenName

/-- The generation whose final file this is; a temporary belongs to no generation. -/
def gen? : GenName → Option GenerationId
  | .db g => some g
  | .json g => some g
  | _ => none

/-- The UUID that makes the name unique. -/
def uuid : GenName → ℕ
  | .db g => g
  | .json g => g
  | .publishTemp _ nonce => nonce
  | .metadataTemp _ nonce => nonce

variable {n : GenName}

theorem gen?_eq_some {g : GenerationId} (h : n.gen? = some g) : n = .db g ∨ n = .json g := by
  cases n <;> simp_all [gen?]

theorem uuid_of_gen? {g : GenerationId} (h : n.gen? = some g) : n.uuid = g := by
  rcases gen?_eq_some h with rfl | rfl <;> rfl

end GenName

/-- The bytes of a file are only appended to. -/
inductive FileData.Grows : FileData → FileData → Prop where
  | raw {b b' : Bytes} : b <+: b' → Grows (.raw b) (.raw b')
  | start (m : GenerationMetadataV1) (k : ℕ) : Grows (.raw []) (.sidecar m k)
  | sidecar (m : GenerationMetadataV1) {k k' : ℕ} : k ≤ k' → Grows (.sidecar m k) (.sidecar m k')

theorem FileData.Grows.refl (d : FileData) : d.Grows d := by
  cases d with
  | raw b => exact .raw List.prefix_rfl
  | sidecar m k => exact .sidecar m le_rfl

theorem FileData.Grows.trans {d₁ d₂ d₃ : FileData} (h₁ : d₁.Grows d₂) (h₂ : d₂.Grows d₃) :
    d₁.Grows d₃ := by
  cases h₁ with
  | raw hb =>
    cases h₂ with
    | raw hb' => exact .raw (hb.trans hb')
    | start m k =>
      rw [List.prefix_nil] at hb
      subst hb
      exact .start m k
  | start m k =>
    cases h₂ with
    | sidecar _ _ => exact .start _ _
  | sidecar m hk =>
    cases h₂ with
    | sidecar _ hk' => exact .sidecar m (hk.trans hk')

theorem FileData.Grows.content (P : Platform) {d d' : FileData} (h : d.Grows d') :
    P.content d <+: P.content d' := by
  cases h with
  | raw hb => exact hb
  | start m k => exact List.nil_prefix
  | sidecar m hk => exact List.take_prefix_take_left hk

/-- The same file, later. -/
structure File.Grows (f f' : File) : Prop where
  ino : f'.ino = f.ino
  data : f.data.Grows f'.data

theorem File.Grows.refl (f : File) : f.Grows f := ⟨rfl, .refl _⟩

theorem File.Grows.trans {f₁ f₂ f₃ : File} (h₁ : f₁.Grows f₂) (h₂ : f₂.Grows f₃) : f₁.Grows f₃ :=
  ⟨h₂.ino.trans h₁.ino, h₁.data.trans h₂.data⟩

/-- A file that has not changed its size has not changed its content. -/
theorem File.Grows.content_eq {P : Platform} {f f' : File} (h : f.Grows f')
    (hsize : (P.stat f).size = (P.stat f').size) : P.content f.data = P.content f'.data :=
  (h.data.content P).eq_of_length hsize

/-- The name is bound now, or was at some moment before. -/
def EverBound (n : GenName) (s : StoreState) : Prop :=
  (s.world.generations.lookup n).isSome ∨ ∃ e ∈ s.trace, (e.before.generations.lookup n).isSome

/-- Neither final file of the generation has ever existed. -/
def Pristine (g : GenerationId) (s : StoreState) : Prop :=
  ¬EverBound (.db g) s ∧ ¬EverBound (.json g) s

theorem everBound_push {s : StoreState} {t : Tid} {a : Action Op Op.Val Errno} {w : World} :
    EverBound n (s.push t a w) ↔ (w.generations.lookup n).isSome ∨ EverBound n s := by
  simp [EverBound]

theorem everBound_push_of_eq {s : StoreState} {t : Tid}
    {a : Action Op Op.Val Errno} {w : World} (h : w.generations = s.world.generations) :
    EverBound n (s.push t a w) ↔ EverBound n s := by
  rw [everBound_push, h]
  refine ⟨?_, .inr⟩
  rintro (h | h)
  · exact .inl h
  · exact h

theorem EverBound.of_lookup {s : StoreState} {f : File}
    (h : s.world.generations.lookup n = some f) : EverBound n s := .inl (by rw [h]; rfl)

/-! ## Complete generations -/

variable (P : Platform)

/-- The files in `generations/`. -/
abbrev GenFiles := AList fun _ : GenName => File

/-- Both files of the generation are there: a database of the recorded size and hash, and a sidecar
with this very manifest. -/
structure Complete (gens : GenFiles) (m : GenerationManifestV1) : Prop where
  db : ∃ f, gens.lookup (.db m.generationId) = some f ∧
    (P.content f.data).length = m.sizeBytes ∧ P.sha256 (P.content f.data) = m.sha256
  json : ∃ f md, gens.lookup (.json m.generationId) = some f ∧
    P.parseMetadata f.data = some md ∧ md.manifest = m
  project : m.project = P.project

variable {P}

/-- Only the two final names matter. -/
theorem Complete.congr {gens gens' : GenFiles} {m : GenerationManifestV1} (h : Complete P gens m)
    (hsame : ∀ n, n.gen? = some m.generationId → gens'.lookup n = gens.lookup n) :
    Complete P gens' m where
  db := by
    rw [hsame _ rfl]
    exact h.db
  json := by
    rw [hsame _ rfl]
    exact h.json
  project := h.project

theorem Complete.bound {gens : GenFiles} {m : GenerationManifestV1} (h : Complete P gens m) (hn : n.gen? = some m.generationId) : (gens.lookup n).isSome := by
  rcases GenName.gen?_eq_some hn with rfl | rfl
  · obtain ⟨f, hf, -⟩ := h.db
    rw [hf]
    rfl
  · obtain ⟨f, md, hf, -⟩ := h.json
    rw [hf]
    rfl

/-- The content that a catalog row describes is that of the manifest. -/
def CasGenerationCatalogEntry.Describes (e : CasGenerationCatalogEntry)
    (m : GenerationManifestV1) : Prop :=
  e.project = m.project ∧ e.sha256 = m.sha256 ∧ e.sizeBytes = m.sizeBytes ∧
    e.rootFingerprint = m.rootFingerprint ∧
    e.extractorSemanticsVersion = m.extractorSemanticsVersion ∧
    e.discoveryPolicyVersion = m.discoveryPolicyVersion

variable (P)

/-- The CAS tables fit the manifest and the files. -/
structure CatalogOk (manifest : Option GenerationManifestV1) (gens : GenFiles) (c : Cas) :
    Prop where
  manifest : ∀ m e, manifest = some m → c.entry m.generationId = some e → e.status = .active
  deleted : ∀ g e, c.entry g = some e → e.status = .deleted →
    ∀ n : GenName, n.gen? = some g → gens.lookup n = none
  active : ∀ g e, c.entry g = some e → e.status = .active →
    ∃ m, m.generationId = g ∧ Complete P gens m ∧ e.Describes m

/-- The manifest, the files and the tables fit together, also inside an open transaction. -/
structure CoreOk (w : World) : Prop where
  manifest : ∀ m, w.manifest = some m → Complete P w.generations m
  catalog : CatalogOk P w.manifest w.generations w.cas
  active : w.cas.ActiveOk
  history : w.cas.HistoryOk
  revision : w.cas.revision = w.cas.history.length
  txn : ∀ x, w.txn = some x → CatalogOk P w.manifest w.generations x.working ∧
    Cas.Advances w.cas x.working ∧ x.working.HistoryOk

/-- The rows that some call sees. -/
def Catalogued (g : GenerationId) (w : World) : Prop :=
  (w.cas.entry g).isSome ∨ ∃ x, w.txn = some x ∧ (x.working.entry g).isSome

/-- The past of the names in `generations/`. -/
structure NamesOk (s : StoreState) : Prop where
  issued : ∀ n, EverBound n s → n.uuid < s.world.issued.length
  grows : ∀ e ∈ s.trace, ∀ n f f', e.before.generations.lookup n = some f →
    s.world.generations.lookup n = some f' → f.Grows f'
  gone : ∀ e ∈ s.trace, ∀ n, (e.before.generations.lookup n).isSome →
    e.after.generations.lookup n = none → s.world.generations.lookup n = none
  catalogued : ∀ g, Catalogued g s.world → EverBound (.db g) s
  doomed : ∀ e ∈ s.trace, ∀ g n, n.gen? = some g → (e.before.generations.lookup n).isSome →
    e.after.generations.lookup n = none → e.before.cas.entry g = none → ¬Catalogued g s.world
  locker : ∀ t, s.world.lockOwner = some t → ∃ e ∈ s.trace, e.tid = t

/-- What the tokens and reservations remember is true, and neither is used twice. A staging file
belongs to an id that was drawn. -/
structure HandlesOk (s : StoreState) : Prop where
  reservation : ∀ g r, s.world.reservations.lookup g = some r → g < s.world.issued.length ∧
    (r.state = .reserved ∨ (∃ t, r.state = .preparing t) →
      s.world.tokens.lookup g = none ∧ Pristine g s)
  token : ∀ g tok, s.world.tokens.lookup g = some tok →
    (∃ r, s.world.reservations.lookup g = some r ∧ r.state = .prepared) ∧
    tok.manifest.generationId = g ∧ tok.manifest.project = P.project ∧
    (tok.state = .prepared → Pristine g s)
  staging : ∀ g, (s.world.staging.lookup g).isSome → g < s.world.issued.length

/-! ## Plans -/

/-- The generations of a list of plan entries. -/
abbrev planIds (es : List GenerationGcPlanEntry) : List GenerationId :=
  es.map fun e => e.generationId

/-- The tables are those a GC plan was computed from, as far as the revision tells. -/
structure GcPlanOk (p : GenerationGcPlan) (c : Cas) : Prop where
  le : p.casRevision ≤ c.revision
  disjoint : ∀ g ∈ planIds p.delete, g ∉ planIds p.retain
  retain : c.revision = p.casRevision → ∀ g ∈ planIds p.retain,
    ∃ e, c.entry g = some e ∧ e.status = .active
  recovery : c.revision = p.casRevision → ∀ g ∈ planIds p.recovery,
    ∃ e, c.entry g = some e ∧ e.status = .deleting

/-- The call looked the name up and got this answer. -/
def Seen (t : Tid) (n : GenName) (st : Stat) (s : StoreState) : Prop :=
  ∃ e ∈ s.trace, e.tid = t ∧ e.act = .op (.lstat n) (.ok st) ∧
    ∃ f, e.before.generations.lookup n = some f ∧ P.stat f = st

/-- The file that applying an entry of an orphan plan may remove. -/
def GenerationOrphanEntry.target (o : GenerationOrphanEntry) : Option GenName :=
  match o.kind, o.path, o.generationId with
  | .promotionTemp, path, _ => path
  | .metadataTemp, path, _ => path
  | .notInCatalog, _, some g => some (.db g)
  | .dbOnly, _, some g => some (.db g)
  | .metadataOnly, _, some g => some (.json g)
  | _, _, _ => none

/-- An entry that names a file carries the identity that the planner `t` saw. A temporary's entry
names a temporary. -/
structure OrphanEntryOk (t : Tid) (o : GenerationOrphanEntry) (s : StoreState) : Prop where
  temp : o.kind = .promotionTemp ∨ o.kind = .metadataTemp →
    ∀ n, o.path = some n → n.gen? = none
  seen : ∀ n, o.target = some n → ∃ st, o.identity = some st ∧ Seen P t n st s

/-- Every registered plan tells the truth. -/
structure PlansOk (s : StoreState) : Prop where
  gc : ∀ p ∈ s.world.gcPlans, GcPlanOk p s.world.cas
  orphan : ∀ p ∈ s.world.orphanPlans, ∃ t, ∀ o ∈ p.orphans, OrphanEntryOk P t o s

/-- **The invariant of the store.** -/
structure Inv (s : StoreState) : Prop where
  core : CoreOk P s.world
  names : NamesOk s
  handles : HandlesOk P s
  plans : PlansOk P s

theorem Inv.initial : Inv P ⟨World.initial, []⟩ where
  core :=
    { manifest := by intro m h; cases h
      catalog :=
        { manifest := by intro m e h; cases h
          deleted := by intro g e h; simp [World.initial, Cas.initial, Cas.entry,
            Cas.getGenerationCatalogEntry] at h
          active := by intro g e h; simp [World.initial, Cas.initial, Cas.entry,
            Cas.getGenerationCatalogEntry] at h }
      active := by intro g h; cases h
      history := Cas.HistoryOk.initial
      revision := rfl
      txn := by intro x h; cases h }
  names :=
    { issued := by rintro n (h | ⟨e, he, -⟩); · simp [World.initial] at h
                   · cases he
      grows := by intro e he; cases he
      gone := by intro e he; cases he
      catalogued := by rintro g (h | ⟨x, h, -⟩); · cases h
                       · cases h
      doomed := by intro e he; cases he
      locker := by intro t h; cases h }
  handles :=
    { reservation := by intro g r h; simp [World.initial] at h
      token := by intro g tok h; simp [World.initial] at h
      staging := by intro g h; simp [World.initial] at h }
  plans :=
    { gc := by intro p hp; cases hp
      orphan := by intro p hp; cases hp }

end Ariad
