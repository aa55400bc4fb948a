import Ariad.Storage.ManifestLaws

/-!
# The active database of a project

`resolveActiveCodeDb` finds the database that the readers open. What its calls answer is given, each when it is made,
so paths may change between two calls. A path is the list of its names.

* `assertTrustedRootNoSymlinks`, `assertPathInsideNoSymlinks` — the directories on the way.
* `resolveActiveCodeDb` — the generation of the manifest, the legacy database, or none.
* `Accepts` — when it returns what; it throws otherwise.
-/

namespace Ariad.Storage

open JsonText

structure EntryStat where
  isSymbolicLink : Bool
  isDirectory : Bool
  isFile : Bool
  mode : ℕ
  uid : ℕ
  size : ℕ
  deriving DecidableEq

/-- The directories down to the store of a project. -/
inductive TrustRoot where
  | cacheRoot | cbm | projects | projectKey
  deriving DecidableEq

def TrustRoot.isCompatRoot : TrustRoot → Bool
  | cacheRoot | cbm => true
  | projects | projectKey => false

/-- The paths that are walked from a directory above. -/
inductive Walk where
  | project | manifest | target | legacy
  deriving DecidableEq

structure ResolverCalls where
  trust : TrustRoot → Except Errno EntryStat
  /-- The components of a walk. -/
  component : Walk → ℕ → Except Errno EntryStat
  realCandidate : Walk → Except Errno (List JsString)
  realRoot : Walk → Except Errno (List JsString)
  manifest : Except Errno EntryStat
  reading : ManifestCalls
  target : Except Errno EntryStat
  legacy : Except Errno EntryStat

structure StoreConfig where
  cacheRoot : List JsString
  project : JsString
  /-- The hash of the name of the project. -/
  key : JsString
  /-- `process.getuid()`, if there is one. -/
  uid : Option ℕ
  /-- `O_NOFOLLOW` is there. -/
  noFollow : Bool

inductive ResolveError where
  | projectKey
  | projectName
  | trustUnreadable (r : TrustRoot)
  | trustSymlink (r : TrustRoot)
  | permissions (r : TrustRoot)
  | escapes (w : Walk)
  | componentUnreadable (w : Walk) (n : ℕ)
  | symlink (w : Walk) (n : ℕ)
  | realpath (w : Walk)
  | manifestUnreadable
  | manifestSymlink
  | manifest (e : ManifestError)
  | targetOutside
  | targetMissing
  | targetSymlink
  | targetNotRegular
  | legacyUnreadable
  | legacyInvalid
  deriving DecidableEq

/-- The code of an error; on the way to the legacy database all errors have one. -/
def ResolveError.code : ResolveError → Text
  | projectKey => "PROJECT_KEY_INVALID".toList
  | permissions _ => "STORE_LAYOUT_PERMISSIONS_INSECURE".toList
  | escapes .legacy | componentUnreadable .legacy _ | symlink .legacy _ | realpath .legacy => "LEGACY_SOURCE_INVALID".toList
  | legacyUnreadable | legacyInvalid => "LEGACY_SOURCE_INVALID".toList
  | symlink .manifest _ | manifestSymlink => "MANIFEST_SYMLINK_REJECTED".toList
  | symlink .target _ | targetSymlink => "GENERATION_TARGET_SYMLINK_REJECTED".toList
  | manifestUnreadable => "MANIFEST_PARSE_ERROR".toList
  | manifest e => e.code
  | targetOutside => "MANIFEST_TARGET_OUTSIDE_STORE".toList
  | targetMissing => "MANIFEST_TARGET_MISSING".toList
  | targetNotRegular => "MANIFEST_TARGET_NOT_REGULAR".toList
  | _ => "PATH_TRAVERSAL_REJECTED".toList

inductive CodeDbSource where
  | generation | legacy | missing
  deriving DecidableEq

structure ResolvedCodeDb where
  source : CodeDbSource
  project : JsString
  dbPath : Option (List JsString)
  generationId : Option JsString
  manifest : Option Manifest
  deriving DecidableEq

/-! ## Paths -/

/-- One name more of a path. These stand in reverse order. -/
def pushUnits (above : List JsString) (name : JsString) : List JsString :=
  if name = [] ∨ name = [46] then above else if name = [46, 46] then above.tail else name :: above

/-- `resolve(base, path)` -/
def resolveIn (base : List JsString) (path : JsString) : List JsString :=
  ((path.splitOn 47).foldl pushUnits (if path.head? = some 47 then [] else base.reverse)).reverse

namespace StoreConfig

variable (cfg : StoreConfig)

def cbmCacheDir : List JsString := cfg.cacheRoot ++ [.ofText "codebase-memory-mcp".toList]

def generationStoreRoot : List JsString := cfg.cbmCacheDir ++ [.ofText "projects".toList]

def projectStoreDir : List JsString := cfg.generationStoreRoot ++ [cfg.key]

def activeManifestPath : List JsString := cfg.projectStoreDir ++ [.ofText "active-generation.json".toList]

def legacyCodeDbPath : Except ResolveError (List JsString) :=
  let candidate := resolveIn cfg.cbmCacheDir (cfg.project ++ .ofText ".db".toList)
  if cfg.project = [] ∨ 47 ∈ cfg.project ∨ 92 ∈ cfg.project ∨ cfg.project = [46] ∨ cfg.project = [46, 46] ∨
      ¬cfg.cbmCacheDir <+: candidate then
    .error .projectName
  else .ok candidate

end StoreConfig

/-! ## The directories on the way -/

def require (condition : Bool) (error : ResolveError) : Except ResolveError Unit :=
  if condition then .ok () else .error error

section

variable (cfg : StoreConfig) (calls : ResolverCalls)

/-- The directory is not open to others. -/
def StoreConfig.permits (isCompatRoot : Bool) (stat : EntryStat) : Bool :=
  (if isCompatRoot then stat.mode &&& 0o022 = 0 else stat.mode &&& 0o777 = 0o700) && cfg.uid.all (stat.uid = ·)

def assertTrusted (r : TrustRoot) : Except ResolveError Unit :=
  match calls.trust r with
  | .error .enoent => .ok ()
  | .error _ => .error (.trustUnreadable r)
  | .ok stat =>
    if stat.isSymbolicLink then .error (.trustSymlink r)
    else if stat.isDirectory && !cfg.permits r.isCompatRoot stat then .error (.permissions r)
    else .ok ()

/-- The loop over the components: whether all of them are there. -/
def walkComponents (w : Walk) : ℕ → ℕ → Except ResolveError Bool
  | 0, _ => .ok true
  | left + 1, n =>
    match calls.component w n with
    | .error .enoent => .ok false
    | .error _ => .error (.componentUnreadable w n)
    | .ok stat => if stat.isSymbolicLink then .error (.symlink w n) else walkComponents w left (n + 1)

/-- The real path of the candidate is below the real path of the root. -/
def assertRealpaths (w : Walk) : Except ResolveError Unit :=
  match calls.realCandidate w, calls.realRoot w with
  | .error .enoent, _ => .ok ()
  | .error _, _ => .error (.realpath w)
  | .ok _, .error .enoent => .ok ()
  | .ok _, .error _ => .error (.realpath w)
  | .ok candidate, .ok root => if root <+: candidate then .ok () else .error (.escapes w)

def assertPathInsideNoSymlinks (w : Walk) (root candidate : List JsString) : Except ResolveError Unit := do
  require (root <+: candidate) (.escapes w)
  if ← walkComponents calls w (candidate.length - root.length) 0 then assertRealpaths calls w else .ok ()

def assertTrustedRootNoSymlinks : Except ResolveError Unit := do
  require (cfg.project ≠ []) .projectKey
  assertTrusted cfg calls .cacheRoot
  assertTrusted cfg calls .cbm
  assertTrusted cfg calls .projects
  assertTrusted cfg calls .projectKey
  assertPathInsideNoSymlinks calls .project cfg.generationStoreRoot cfg.projectStoreDir

/-! ## The resolver -/

def resolveGeneration : Except ResolveError ResolvedCodeDb := do
  let manifest ← (parseGenerationManifest cfg.noFollow calls.reading cfg.project).mapError .manifest
  let dbPath := resolveIn cfg.projectStoreDir manifest.dbFile
  require (cfg.projectStoreDir <+: dbPath) .targetOutside
  assertPathInsideNoSymlinks calls .target cfg.generationStoreRoot dbPath
  let stat ← calls.target.mapError fun _ => .targetMissing
  require (!stat.isSymbolicLink) .targetSymlink
  require stat.isFile .targetNotRegular
  return ⟨.generation, cfg.project, some dbPath, some manifest.generationId, some manifest⟩

def resolveLegacy (legacyPath : List JsString) : Except ResolveError ResolvedCodeDb := do
  assertPathInsideNoSymlinks calls .legacy cfg.cbmCacheDir legacyPath
  match calls.legacy with
  | .error .enoent => return ⟨.missing, cfg.project, none, none, none⟩
  | .error _ => throw .legacyUnreadable
  | .ok stat =>
    require (!stat.isSymbolicLink && stat.isFile) .legacyInvalid
    return ⟨.legacy, cfg.project, some legacyPath, none, none⟩

def resolveActiveCodeDb : Except ResolveError ResolvedCodeDb := do
  assertTrustedRootNoSymlinks cfg calls
  let legacyPath ← cfg.legacyCodeDbPath
  assertPathInsideNoSymlinks calls .manifest cfg.generationStoreRoot cfg.activeManifestPath
  match calls.manifest with
  | .error .enoent => resolveLegacy cfg calls legacyPath
  | .error _ => throw .manifestUnreadable
  | .ok stat =>
    require (!stat.isSymbolicLink) .manifestSymlink
    resolveGeneration cfg calls

end

/-! ## When it returns -/

section

variable (cfg : StoreConfig) (calls : ResolverCalls)

/-- A directory that is not there, or is no link and not open to others. -/
def Trusted (r : TrustRoot) : Prop :=
  calls.trust r = .error .enoent ∨ ∃ stat, calls.trust r = .ok stat ∧ stat.isSymbolicLink = false ∧
    (stat.isDirectory → cfg.permits r.isCompatRoot stat)

/-- The real path of the candidate is below the real path of the root, where both have one. -/
def Contained (w : Walk) : Prop :=
  calls.realCandidate w = .error .enoent ∨ ∃ candidate, calls.realCandidate w = .ok candidate ∧
    (calls.realRoot w = .error .enoent ∨ ∃ root, calls.realRoot w = .ok root ∧ root <+: candidate)

/-- These components are there and no links, up to the first that is not there. -/
inductive Clear (w : Walk) : ℕ → ℕ → Prop where
  | end_ {n : ℕ} (contained : Contained calls w) : Clear w 0 n
  | absent {left n : ℕ} (absent : calls.component w n = .error .enoent) : Clear w (left + 1) n
  | next {left n : ℕ} {stat : EntryStat} (there : calls.component w n = .ok stat)
      (notLink : stat.isSymbolicLink = false) (rest : Clear w left (n + 1)) : Clear w (left + 1) n

/-- The candidate is below the root, and there is no link on the way. -/
def Inside (w : Walk) (root candidate : List JsString) : Prop :=
  root <+: candidate ∧ Clear calls w (candidate.length - root.length) 0

/-- What is checked before the manifest is looked for. -/
structure OnWay (legacyPath : List JsString) : Prop where
  named : cfg.project ≠ []
  trusted : ∀ r, Trusted cfg calls r
  project : Inside calls .project cfg.generationStoreRoot cfg.projectStoreDir
  legacyPath : cfg.legacyCodeDbPath = .ok legacyPath
  manifest : Inside calls .manifest cfg.generationStoreRoot cfg.activeManifestPath

/-- What may be returned, with all the checks that it has passed. -/
inductive Accepts : ResolvedCodeDb → Prop where
  | generation {legacyPath : List JsString} {entry target : EntryStat} {m : Manifest}
      (way : OnWay cfg calls legacyPath) (entry : calls.manifest = .ok entry ∧ entry.isSymbolicLink = false)
      (parsed : parseGenerationManifest cfg.noFollow calls.reading cfg.project = .ok m)
      (inStore : cfg.projectStoreDir <+: resolveIn cfg.projectStoreDir m.dbFile)
      (inside : Inside calls .target cfg.generationStoreRoot (resolveIn cfg.projectStoreDir m.dbFile))
      (target : calls.target = .ok target ∧ target.isSymbolicLink = false ∧ target.isFile = true) :
      Accepts ⟨.generation, cfg.project, some (resolveIn cfg.projectStoreDir m.dbFile), some m.generationId, some m⟩
  | legacy {legacyPath : List JsString} {stat : EntryStat} (way : OnWay cfg calls legacyPath)
      (absent : calls.manifest = .error .enoent) (inside : Inside calls .legacy cfg.cbmCacheDir legacyPath)
      (there : calls.legacy = .ok stat ∧ stat.isSymbolicLink = false ∧ stat.isFile = true) :
      Accepts ⟨.legacy, cfg.project, some legacyPath, none, none⟩
  | missing {legacyPath : List JsString} (way : OnWay cfg calls legacyPath)
      (absent : calls.manifest = .error .enoent) (inside : Inside calls .legacy cfg.cbmCacheDir legacyPath)
      (noLegacy : calls.legacy = .error .enoent) : Accepts ⟨.missing, cfg.project, none, none, none⟩

end

section

variable {cfg : StoreConfig} {calls : ResolverCalls}

@[simp] theorem require_eq_ok {condition : Bool} {error : ResolveError} {u : Unit} :
    require condition error = .ok u ↔ condition = true := by
  rw [require]
  cases condition <;> simp

theorem assertTrusted_ok {r : TrustRoot} {u : Unit} : assertTrusted cfg calls r = .ok u ↔ Trusted cfg calls r := by
  rw [assertTrusted, Trusted]
  rcases calls.trust r with (_ | _ | _) | stat
  · simp
  · simp
  · simp
  · cases hlink : stat.isSymbolicLink with
    | true => simp [hlink]
    | false => cases hdir : stat.isDirectory <;> simp [hlink, hdir]

theorem assertRealpaths_ok {w : Walk} : assertRealpaths calls w = .ok () ↔ Contained calls w := by
  rw [assertRealpaths, Contained]
  rcases calls.realCandidate w with (_ | _ | _) | candidate <;> rcases calls.realRoot w with (_ | _ | _) | root <;> simp

/-- A walk accepts the ways without links. -/
theorem walk_ok {w : Walk} (left n : ℕ) :
    (walkComponents calls w left n >>= fun all => if all then assertRealpaths calls w else .ok ()) = .ok () ↔
      Clear calls w left n := by
  induction left generalizing n with
  | zero =>
    rw [walkComponents]
    exact assertRealpaths_ok.trans ⟨.end_, fun | .end_ contained => contained⟩
  | succ left ih =>
    rw [walkComponents]
    constructor
    · intro h
      cases hcomponent : calls.component w n with
      | error e =>
        cases e with
        | enoent => exact .absent hcomponent
        | eloop => simp [hcomponent, bind, Except.bind] at h
        | other => simp [hcomponent, bind, Except.bind] at h
      | ok stat =>
        cases hlink : stat.isSymbolicLink with
        | true => simp [hcomponent, hlink, bind, Except.bind] at h
        | false =>
          simp only [hcomponent, hlink, Bool.false_eq_true, if_false] at h
          exact .next hcomponent hlink ((ih (n + 1)).mp h)
    · intro h
      cases h with
      | absent habsent => simp [habsent, bind, Except.bind]
      | next hthere hlink hrest =>
        simp only [hthere, hlink, Bool.false_eq_true, if_false]
        exact (ih (n + 1)).mpr hrest

theorem assertPathInsideNoSymlinks_ok {w : Walk} {root candidate : List JsString} {u : Unit} :
    assertPathInsideNoSymlinks calls w root candidate = .ok u ↔ Inside calls w root candidate := by
  rw [assertPathInsideNoSymlinks, Inside, ← walk_ok]
  simp [bind_eq_ok]

theorem assertTrustedRootNoSymlinks_ok {u : Unit} :
    assertTrustedRootNoSymlinks cfg calls = .ok u ↔ cfg.project ≠ [] ∧ (∀ r, Trusted cfg calls r) ∧
      Inside calls .project cfg.generationStoreRoot cfg.projectStoreDir := by
  have hall : (∀ r, Trusted cfg calls r) ↔ Trusted cfg calls .cacheRoot ∧ Trusted cfg calls .cbm ∧
      Trusted cfg calls .projects ∧ Trusted cfg calls .projectKey :=
    ⟨fun h => ⟨h _, h _, h _, h _⟩, fun ⟨hroot, hcbm, hprojects, hkey⟩ r => by cases r <;> assumption⟩
  rw [assertTrustedRootNoSymlinks, hall]
  simp [bind_eq_ok, assertTrusted_ok, assertPathInsideNoSymlinks_ok, and_assoc]

theorem resolveGeneration_ok {r : ResolvedCodeDb} :
    resolveGeneration cfg calls = .ok r ↔ ∃ m, parseGenerationManifest cfg.noFollow calls.reading cfg.project = .ok m ∧
      cfg.projectStoreDir <+: resolveIn cfg.projectStoreDir m.dbFile ∧
      Inside calls .target cfg.generationStoreRoot (resolveIn cfg.projectStoreDir m.dbFile) ∧
      (∃ stat, calls.target = .ok stat ∧ stat.isSymbolicLink = false ∧ stat.isFile = true) ∧
      r = ⟨.generation, cfg.project, some (resolveIn cfg.projectStoreDir m.dbFile), some m.generationId, some m⟩ := by
  simp only [resolveGeneration, bind_eq_ok, mapError_eq_ok, require_eq_ok, assertPathInsideNoSymlinks_ok, pure,
    Except.pure, Except.ok.injEq, decide_eq_true_eq, Bool.not_eq_true', exists_const]
  constructor
  · rintro ⟨m, hm, hin, hinside, stat, hstat, hlink, hfile, rfl⟩
    exact ⟨m, hm, hin, hinside, ⟨stat, hstat, hlink, hfile⟩, rfl⟩
  · rintro ⟨m, hm, hin, hinside, ⟨stat, hstat, hlink, hfile⟩, rfl⟩
    exact ⟨m, hm, hin, hinside, stat, hstat, hlink, hfile, rfl⟩

theorem resolveLegacy_ok {legacyPath : List JsString} {r : ResolvedCodeDb} :
    resolveLegacy cfg calls legacyPath = .ok r ↔ Inside calls .legacy cfg.cbmCacheDir legacyPath ∧
      (calls.legacy = .error .enoent ∧ r = ⟨.missing, cfg.project, none, none, none⟩ ∨
        (∃ stat, calls.legacy = .ok stat ∧ stat.isSymbolicLink = false ∧ stat.isFile = true) ∧
          r = ⟨.legacy, cfg.project, some legacyPath, none, none⟩) := by
  simp only [resolveLegacy, bind_eq_ok, assertPathInsideNoSymlinks_ok, exists_const]
  rcases calls.legacy with (_ | _ | _) | stat
  · simp [pure, Except.pure, @eq_comm _ r]
  iterate 2
    · simp [throw, throwThe, MonadExceptOf.throw]
  · simp [bind_eq_ok, pure, Except.pure, and_assoc, @eq_comm _ r]

/-- **The resolver returns what has passed the checks, and throws otherwise.** -/
theorem resolveActiveCodeDb_ok {r : ResolvedCodeDb} : resolveActiveCodeDb cfg calls = .ok r ↔ Accepts cfg calls r := by
  simp only [resolveActiveCodeDb, bind_eq_ok, assertTrustedRootNoSymlinks_ok, assertPathInsideNoSymlinks_ok, exists_const]
  constructor
  · rintro ⟨⟨hnamed, htrusted, hproject⟩, legacyPath, hlegacy, hmanifest, h⟩
    have hway : OnWay cfg calls legacyPath := ⟨hnamed, htrusted, hproject, hlegacy, hmanifest⟩
    cases hentry : calls.manifest with
    | error e =>
      rw [hentry] at h
      cases e with
      | enoent =>
        obtain ⟨hinside, ⟨hnone, rfl⟩ | ⟨⟨stat, hstat⟩, rfl⟩⟩ := resolveLegacy_ok.mp h
        · exact .missing hway hentry hinside hnone
        · exact .legacy hway hentry hinside hstat
      | eloop => cases h
      | other => cases h
    | ok entry =>
      rw [hentry] at h
      obtain ⟨_, hlink, h⟩ := bind_eq_ok.mp h
      obtain ⟨m, hm, hin, hinside, ⟨target, htarget⟩, rfl⟩ := resolveGeneration_ok.mp h
      exact .generation hway ⟨hentry, by simpa using hlink⟩ hm hin hinside htarget
  · intro h
    cases h with
    | generation hway hentry hm hin hinside htarget =>
      refine ⟨⟨hway.named, hway.trusted, hway.project⟩, _, hway.legacyPath, hway.manifest, ?_⟩
      rw [hentry.1]
      exact bind_eq_ok.mpr ⟨(), by simp [hentry.2], resolveGeneration_ok.mpr ⟨_, hm, hin, hinside, ⟨_, htarget⟩, rfl⟩⟩
    | legacy hway hentry hinside hstat =>
      refine ⟨⟨hway.named, hway.trusted, hway.project⟩, _, hway.legacyPath, hway.manifest, ?_⟩
      rw [hentry]
      exact resolveLegacy_ok.mpr ⟨hinside, .inr ⟨⟨_, hstat⟩, rfl⟩⟩
    | missing hway hentry hinside hnone =>
      refine ⟨⟨hway.named, hway.trusted, hway.project⟩, _, hway.legacyPath, hway.manifest, ?_⟩
      rw [hentry]
      exact resolveLegacy_ok.mpr ⟨hinside, .inl ⟨hnone, rfl⟩⟩

end

/-- **The resolver fails closed**: it returns what has passed the checks and throws otherwise, and a manifest that is
there is never passed over. -/
theorem resolveActiveCodeDb_failClosed (cfg : StoreConfig) (calls : ResolverCalls) :
    (∀ r, resolveActiveCodeDb cfg calls = .ok r ↔ Accepts cfg calls r) ∧
      ((∃ e, resolveActiveCodeDb cfg calls = .error e) ↔ ∀ r, ¬Accepts cfg calls r) ∧
      ∀ r, resolveActiveCodeDb cfg calls = .ok r → (r.source = .generation ↔ calls.manifest ≠ .error .enoent) := by
  refine ⟨fun r => resolveActiveCodeDb_ok, ?_, fun r h => ?_⟩
  · simp only [← resolveActiveCodeDb_ok]
    cases resolveActiveCodeDb cfg calls with
    | error e => simp
    | ok r => simp
  · cases resolveActiveCodeDb_ok.mp h with
    | generation _ hentry => simp [hentry.1]
    | legacy _ habsent => simp [habsent]
    | missing _ habsent => simp [habsent]

/-! ## A generation that was altered -/

def sampleManifest : Manifest :=
  manifestInput (.ofText "p".toList) (.ofText "00000000-0000-4000-8000-000000000000".toList) (.ofText "1:2".toList)
    (List.replicate 64 48) ⟨0, by decide⟩ 2 3 5 7 1 4096

def sampleConfig : StoreConfig where
  cacheRoot := [.ofText "cache".toList]
  project := .ofText "p".toList
  key := .ofText "148d".toList
  uid := some 1000
  noFollow := true

def sampleTarget : List JsString := resolveIn sampleConfig.projectStoreDir sampleManifest.dbFile

/-- All is as it should be, but that everybody may write the manifest, which is another user's, and that the generation
is empty. -/
def alteredCalls : ResolverCalls :=
  let bytes := utf8 (pretty sampleManifest.members ++ ['\n'])
  let stat : FileStat := ⟨bytes.length, true, false, 1, 1⟩
  { trust := fun r => .ok ⟨false, true, false, if r.isCompatRoot then 0o755 else 0o700, 1000, 0⟩
    component := fun _ _ => .ok ⟨false, false, false, 0, 0, 0⟩
    realCandidate
      | .project => .ok sampleConfig.projectStoreDir
      | .manifest => .ok sampleConfig.activeManifestPath
      | .target => .ok sampleTarget
      | .legacy => .error .enoent
    realRoot := fun _ => .ok sampleConfig.generationStoreRoot
    manifest := .ok ⟨false, false, true, 0o666, 1001, bytes.length⟩
    reading := ⟨.ok stat, .ok (), .ok stat, [.ok bytes], .ok stat, .ok 0⟩
    target := .ok ⟨false, false, true, 0o666, 1001, 0⟩
    legacy := .error .enoent }

theorem altered_generation_returned :
    (¬∀ (cfg : StoreConfig) (calls : ResolverCalls) (r : ResolvedCodeDb) (m : Manifest) (target : EntryStat),
      resolveActiveCodeDb cfg calls = .ok r → r.manifest = some m → calls.target = .ok target →
        target.size = m.sizeBytes) ∧
    ¬∀ (cfg : StoreConfig) (calls : ResolverCalls) (r : ResolvedCodeDb) (entry : EntryStat),
      resolveActiveCodeDb cfg calls = .ok r → calls.manifest = .ok entry → cfg.permits true entry := by
  have hvalid : validateGenerationManifest (.object (objectOf sampleManifest.members)) sampleConfig.project =
      .ok sampleManifest := by decide +kernel
  have hread : alteredCalls.reading.Read (utf8 (pretty sampleManifest.members ++ ['\n']))
      ⟨(utf8 (pretty sampleManifest.members ++ ['\n'])).length, true, false, 1, 1⟩ :=
    ⟨rfl, rfl, rfl, rfl, rfl, rfl, ⟨[_], rfl, by decide +kernel, by simp⟩, rfl, rfl⟩
  have hparsed := parse_payload hvalid (by decide) hread sampleConfig.noFollow
  have hclear (w : Walk) (hw : Contained alteredCalls w) (left n : ℕ) : Clear alteredCalls w left n := by
    induction left generalizing n with
    | zero => exact .end_ hw
    | succ left ih => exact .next rfl rfl (ih (n + 1))
  have hcontained (w : Walk) : Contained alteredCalls w := by
    cases w with
    | legacy => exact .inl rfl
    | _ => exact .inr ⟨_, rfl, .inr ⟨_, rfl, by decide⟩⟩
  have hway : OnWay sampleConfig alteredCalls _ :=
    { named := by decide
      trusted := fun r => .inr ⟨_, rfl, rfl, fun _ => by cases r <;> decide⟩
      project := ⟨by decide, hclear _ (hcontained _) _ _⟩
      legacyPath := rfl
      manifest := ⟨by decide, hclear _ (hcontained _) _ _⟩ }
  have h := resolveActiveCodeDb_ok.mpr (.generation hway ⟨rfl, rfl⟩ hparsed (by decide)
    ⟨by decide, hclear _ (hcontained _) _ _⟩ ⟨rfl, rfl, rfl⟩)
  refine ⟨fun hsize => ?_, fun hpermits => ?_⟩
  · exact absurd (hsize _ _ _ _ _ h rfl rfl) (by decide)
  · exact absurd (hpermits _ _ _ _ h rfl) (by decide)

end Ariad.Storage
