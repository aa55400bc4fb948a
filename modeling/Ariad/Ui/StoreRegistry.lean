import Mathlib.Logic.Function.Basic
import Ariad.Concurrency.Transitions
import Ariad.Javascript.OrderedMap
import Ariad.Javascript.Text

/-!
# The store registry of the UI

`ProjectStoreRegistry` owns the database handles of every project that the UI serves. Requests take leases.

* `Env` — what the file system answers while a call runs; what is published outside of the server shows here.
* `Handle`, `StoreEntry`, `Registry` — the open databases, the entry objects, and the registry's fields.
* `evictIdleEntries`, `openEntry`, `reopenCodeReader`, `resolveProjectName` — the private methods.
* `Server` — the registry with the leases that requests took and the handles they got from them.
* `after` — one call.
-/

namespace Ariad.Ui

/-- The arguments of the constructor. Names that `isValidProjectName` rejects and a size under one throw. -/
structure RegistryOptions where
  isValidProjectName : Text → Bool
  defaultCodeDbPath : Text → Text
  defaultProject : Text
  maxEntries : ℕ
  valid : isValidProjectName defaultProject = true
  one_le : 1 ≤ maxEntries

/-- What `resolveActiveCodeDb` finds: an active generation, or only the legacy path. -/
inductive ActiveCodeDb where
  | generation (dbPath : Text)
  | legacy

/-- The file system during one call. -/
structure Env where
  generationResolutionCertified : Bool
  /-- `none` when it throws. -/
  resolveActiveCodeDb : Text → Option ActiveCodeDb
  /-- `new CodeGraphReader(dbPath)` does not throw. -/
  readerOpens : Text → Bool
  /-- `new HumanMemoryStore` of a project does not throw. -/
  humanOpens : Text → Bool
  projectsReferToSameStores : Text → Text → Bool

inductive HandleKind where
  | human
  | reader
  deriving DecidableEq

/-- A database handle that was opened for an entry. -/
structure Handle where
  entry : ℕ
  kind : HandleKind
  isOpen : Bool

structure StoreEntry where
  project : Text
  humanStoreHandle : Option ℕ
  codeReaderHandle : Option ℕ
  codeReaderInitialized : Bool
  codeDbPath : Text
  refCount : ℕ
  lastUsed : ℕ
  pinned : Bool

/-- An entry that eviction may take. -/
def StoreEntry.idle (e : StoreEntry) : Bool := !(e.pinned || decide (0 < e.refCount))

structure Registry where
  /-- The entry object of each project. -/
  entries : OrderedMap Text ℕ
  objects : ℕ → StoreEntry
  nextObject : ℕ
  handles : ℕ → Handle
  nextHandle : ℕ
  canonicalProjects : List Text
  clock : ℕ

namespace Env

variable (env : Env) (opts : RegistryOptions)

def resolveCodeDbForRead (project : Text) : Option Text :=
  if env.generationResolutionCertified then
    (env.resolveActiveCodeDb project).map fun
      | .generation dbPath => dbPath
      | .legacy => opts.defaultCodeDbPath project
  else some (opts.defaultCodeDbPath project)

/-- The path of the reader that was opened, `none` when resolving or opening throws. -/
def openCodeGraphReaderForRead (project : Text) : Option Text :=
  (env.resolveCodeDbForRead opts project).filter env.readerOpens

def activeGenerationChanged (project heldDbPath : Text) : Bool :=
  env.generationResolutionCertified &&
    match env.resolveActiveCodeDb project with
    | some (.generation dbPath) => decide (dbPath ≠ heldDbPath)
    | some .legacy | none => false

end Env

namespace Registry

variable (opts : RegistryOptions) (env : Env) (s : Registry)

/-- The entry objects in the order of the map. -/
def values : List ℕ := s.entries.entries.map Prod.snd

def setEntry (id : ℕ) (e : StoreEntry) : Registry := { s with objects := Function.update s.objects id e }

/-- `handle?.close()`; what it throws is caught. -/
def close : Option ℕ → Registry
  | none => s
  | some h => { s with handles := Function.update s.handles h { s.handles h with isOpen := false } }

def closeEntry (id : ℕ) : Registry :=
  let e := s.objects id
  ((s.close e.codeReaderHandle).close e.humanStoreHandle).setEntry id
    { e with codeReaderHandle := none, humanStoreHandle := none }

/-- A new handle for an entry. -/
def opened (id : ℕ) (kind : HandleKind) : Registry :=
  { s with
    handles := Function.update s.handles s.nextHandle ⟨id, kind, true⟩
    nextHandle := s.nextHandle + 1 }

/-- The idle entry that was used least recently. -/
def candidate : Option ℕ :=
  s.values.foldl (fun candidate id =>
    if (s.objects id).idle then
      match candidate with
      | none => some id
      | some c => if (s.objects id).lastUsed < (s.objects c).lastUsed then some id else some c
    else candidate) none

/-- One turn of the eviction loop. -/
def evict (id : ℕ) : Registry :=
  let project := (s.objects id).project
  { s with
    entries := s.entries.delete project
    canonicalProjects := s.canonicalProjects.erase project }.closeEntry id

def evictLoop : ℕ → Registry → Registry
  | 0, s => s
  | n + 1, s =>
    if opts.maxEntries < s.entries.size then
      match s.candidate with
      | none => s
      | some id => evictLoop n (s.evict id)
    else s

/-- Every turn of the loop deletes an entry. -/
def evictIdleEntries : Registry := evictLoop opts s.entries.size s

def trimLoop : ℕ → Registry → Registry
  | 0, s => s
  | n + 1, s =>
    if opts.maxEntries < s.canonicalProjects.length then
      match s.canonicalProjects.find? fun p => p ≠ opts.defaultProject ∧ s.entries.has p = false with
      | none => s
      | some p => trimLoop n { s with canonicalProjects := s.canonicalProjects.erase p }
    else s

def trimUnopenedCanonicalHistory : Registry := trimLoop opts s.canonicalProjects.length s

def pushCanonical (project : Text) : Registry :=
  let canonicalProjects :=
    if project ∈ s.canonicalProjects then s.canonicalProjects else s.canonicalProjects ++ [project]
  { s with canonicalProjects }.trimUnopenedCanonicalHistory opts

/-- The logical name of a valid name, and the registry with the name remembered. -/
def resolveProjectName (project : Text) : Registry × Text :=
  match s.canonicalProjects.find? fun c => c = project ∨ env.projectsReferToSameStores project c with
  | some canonical =>
    if canonical = project then (s, project)
    else ({ s with canonicalProjects := s.canonicalProjects.erase project }, canonical)
  | none => (s.pushCanonical opts project, project)

/-- `this.entries.set(project, entry)` of a new entry object. -/
def insertEntry (e : StoreEntry) : Registry :=
  { s with
    entries := s.entries.set e.project s.nextObject
    objects := Function.update s.objects s.nextObject e
    nextObject := s.nextObject + 1
    clock := e.lastUsed }

def newEntry (project : Text) : StoreEntry where
  project
  humanStoreHandle := none
  codeReaderHandle := none
  codeReaderInitialized := false
  codeDbPath := (env.resolveCodeDbForRead opts project).getD (opts.defaultCodeDbPath project)
  refCount := 0
  lastUsed := s.clock + 1
  pinned := decide (project = opts.defaultProject)

def openEntry (project : Text) : Registry :=
  (s.insertEntry (s.newEntry opts env project)).pushCanonical opts project

/-- `this.entries.get(project) ?? this.openEntry(project, …)` -/
def getEntry (project : Text) : Registry × ℕ :=
  match s.entries.get project with
  | some id => (s, id)
  | none => (s.openEntry opts env project, s.nextObject)

/-- The new reader in its place, before the previous one is closed. -/
def installReader (id : ℕ) (dbPath : Text) : Registry :=
  let entry : StoreEntry := { s.objects id with
    codeReaderHandle := some s.nextHandle
    codeReaderInitialized := true
    codeDbPath := dbPath
    lastUsed := s.clock + 1 }
  { (s.opened id .reader).setEntry id entry with clock := s.clock + 1 }

/-- `none` when the new reader does not open; then nothing changes. -/
def reopenCodeReader (id : ℕ) : Option Registry :=
  (env.openCodeGraphReaderForRead opts (s.objects id).project).map fun dbPath =>
    (s.installReader id dbPath).close (s.objects id).codeReaderHandle

/-- The `humanStore` of a lease: `none` when it throws. -/
def getHumanStore (id : ℕ) : Option (Registry × ℕ) :=
  match (s.objects id).humanStoreHandle with
  | some h => some (s, h)
  | none =>
    if env.humanOpens (s.objects id).project then
      let entry : StoreEntry := { s.objects id with humanStoreHandle := some s.nextHandle }
      some ((s.opened id .human).setEntry id entry, s.nextHandle)
    else none

/-- The `codeReader` of a lease: `none` when it throws. -/
def getCodeReader (id : ℕ) : Option (Registry × Option ℕ) :=
  let e := s.objects id
  if e.codeReaderInitialized then
    if env.activeGenerationChanged e.project e.codeDbPath then
      (s.reopenCodeReader opts env id).map fun t => (t, (t.objects id).codeReaderHandle)
    else some (s, e.codeReaderHandle)
  else
    let t := s.setEntry id { e with codeReaderInitialized := true }
    match t.reopenCodeReader opts env id with
    | some t' => some (t', (t'.objects id).codeReaderHandle)
    | none => some (t.setEntry id { t.objects id with codeReaderHandle := none }, none)

/-- The registry, and the reader that was returned; `none` when it throws. -/
def refreshCodeReader (project : Text) : Registry × Option (Option ℕ) :=
  if opts.isValidProjectName project then
    let (s, canonicalProject) := s.resolveProjectName opts env project
    let (s, id) := s.getEntry opts env canonicalProject
    match s.reopenCodeReader opts env id with
    | none => (s, none)
    | some s =>
      let s := s.evictIdleEntries opts
      (s, some (s.objects id).codeReaderHandle)
  else (s, none)

/-- A use of an entry by a lease, or the end of that use. -/
def touch (id refCount : ℕ) : Registry :=
  { s.setEntry id { s.objects id with refCount, lastUsed := s.clock + 1 } with clock := s.clock + 1 }

def closeAll : Registry :=
  { s.values.foldl closeEntry s with entries := .empty, canonicalProjects := [] }

/-- The fields before the constructor's body. -/
def blank : Registry :=
  ⟨.empty, fun _ => ⟨[], none, none, false, [], 0, 0, false⟩, 0, fun _ => ⟨0, .human, false⟩, 0, [], 0⟩

def new : Registry := blank.openEntry opts env opts.defaultProject

end Registry

/-! ## Leases -/

structure Lease where
  entry : ℕ
  released : Bool

/-- A handle that a request got from a lease. -/
structure Obtained where
  lease : ℕ
  kind : HandleKind
  handle : ℕ

structure Server where
  registry : Registry
  leases : List Lease
  obtained : List Obtained

inductive Event where
  | acquire (env : Env) (project : Text)
  | humanStore (env : Env) (lease : ℕ)
  | codeReader (env : Env) (lease : ℕ)
  | release (lease : ℕ)
  | refreshCodeReader (env : Env) (project : Text)
  | closeAll

namespace Server

variable (opts : RegistryOptions) (env : Env) (s : Server)

def new : Server := ⟨Registry.new opts env, [], []⟩

def acquire (project : Text) : Server :=
  if opts.isValidProjectName project then
    let (r, canonicalProject) := s.registry.resolveProjectName opts env project
    let (r, id) := r.getEntry opts env canonicalProject
    let r := r.touch id ((r.objects id).refCount + 1)
    { s with registry := r.evictIdleEntries opts, leases := s.leases ++ [⟨id, false⟩] }
  else s

/-- `release` of a lease, which the lease remembers. -/
def release (i : ℕ) : Server :=
  match s.leases[i]? with
  | some ⟨id, false⟩ =>
    let r := s.registry.touch id ((s.registry.objects id).refCount - 1)
    { s with registry := r.evictIdleEntries opts, leases := s.leases.set i ⟨id, true⟩ }
  | some ⟨_, true⟩ | none => s

def after (s : Server) : Event → Server
  | .acquire env project => s.acquire opts env project
  | .humanStore env i =>
    match s.leases[i]?.bind fun l => s.registry.getHumanStore env l.entry with
    | some (r, h) => { s with registry := r, obtained := s.obtained ++ [⟨i, .human, h⟩] }
    | none => s
  | .codeReader env i =>
    match s.leases[i]?.bind fun l => s.registry.getCodeReader opts env l.entry with
    | some (r, some h) => { s with registry := r, obtained := s.obtained ++ [⟨i, .reader, h⟩] }
    | some (r, none) => { s with registry := r }
    | none => s
  | .release i => s.release opts i
  | .refreshCodeReader env project => { s with registry := (s.registry.refreshCodeReader opts env project).1 }
  | .closeAll => { s with registry := s.registry.closeAll }

def Step (s : Server) (e : Event) (s' : Server) : Prop := s.after opts e = s'

end Server

end Ariad.Ui
