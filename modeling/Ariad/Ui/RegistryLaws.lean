import Ariad.Ui.StoreRegistry

/-!
# What leases keep open

* `Sound` — the handles of an entry are open, and its reference count is the number of its leases.
* `Keeps` — what an operation of the registry leaves to the entries that have leases.
* `Shrunk` — the registry is within its size, or no entry is idle.
* `evictLoop_keeps_fresh` — when eviction leaves the entry that was used last.
* `storeRegistry_leases` — the laws of every run.
-/

namespace Ariad.Ui

open Registry List Function OrderedMap Nat

variable {opts : RegistryOptions} {env : Env} {r r' r'' : Registry} {id : ℕ} {project : Text}

namespace Registry

/-- The entry object is the one of its project. -/
def Registered (r : Registry) (id : ℕ) : Prop := r.entries.get (r.objects id).project = some id

/-! ## The invariant of the registry -/

structure Sound (opts : RegistryOptions) (r : Registry) : Prop where
  known : ∀ p id, r.entries.get p = some id → id < r.nextObject ∧ (r.objects id).project = p
  pinned : ∀ p id, r.entries.get p = some id → (r.objects id).pinned = decide (p = opts.defaultProject)
  lastUsed : ∀ p id, r.entries.get p = some id → (r.objects id).lastUsed ≤ r.clock
  human : ∀ id h, (r.objects id).humanStoreHandle = some h → h < r.nextHandle ∧ r.handles h = ⟨id, .human, true⟩
  reader : ∀ id h, (r.objects id).codeReaderHandle = some h → h < r.nextHandle ∧ r.handles h = ⟨id, .reader, true⟩
  /-- Before its first use an entry has no reader. -/
  blank : ∀ id, (r.objects id).codeReaderInitialized = false → (r.objects id).codeReaderHandle = none

/-- What an operation leaves as it was: the counts, and for an entry with leases its place in the registry, its
human store, and that it has a reader, which may be a newer one. -/
structure Keeps (r r' : Registry) : Prop where
  nextObject : r.nextObject ≤ r'.nextObject
  refCount : ∀ id, id < r.nextObject → (r'.objects id).refCount = (r.objects id).refCount
  project : ∀ id, id < r.nextObject → (r'.objects id).project = (r.objects id).project
  fresh : ∀ id, r.nextObject ≤ id → id < r'.nextObject → (r'.objects id).refCount = 0
  back : ∀ id, id < r.nextObject → r'.Registered id → r.Registered id
  leased : ∀ id, id < r.nextObject → 0 < (r.objects id).refCount → r.Registered id → r'.Registered id
  human : ∀ id h, id < r.nextObject → 0 < (r.objects id).refCount → (r.objects id).humanStoreHandle = some h →
    (r'.objects id).humanStoreHandle = some h
  reader : ∀ id x, id < r.nextObject → 0 < (r.objects id).refCount → (r.objects id).codeReaderHandle = some x →
    ∃ y, (r'.objects id).codeReaderHandle = some y ∧ x ≤ y

variable {t : Registry}

theorem Keeps.refl (r : Registry) : Keeps r r where
  nextObject := le_rfl
  refCount _ _ := rfl
  project _ _ := rfl
  fresh _ h h' := absurd (lt_of_lt_of_le h' h) (lt_irrefl _)
  back _ _ h := h
  leased _ _ _ h := h
  human _ _ _ _ h := h
  reader _ x _ _ h := ⟨x, h, le_rfl⟩

theorem Keeps.trans (h : Keeps r r') (h' : Keeps r' r'') : Keeps r r'' where
  nextObject := h.nextObject.trans h'.nextObject
  refCount id hid := (h'.refCount id (hid.trans_le h.nextObject)).trans (h.refCount id hid)
  project id hid := (h'.project id (hid.trans_le h.nextObject)).trans (h.project id hid)
  fresh id hid hid' := by
    by_cases hlt : id < r'.nextObject
    · rw [h'.refCount id hlt, h.fresh id hid hlt]
    · exact h'.fresh id (not_lt.mp hlt) hid'
  back id hid hr := h.back id hid (h'.back id (hid.trans_le h.nextObject) hr)
  leased id hid hpos hr :=
    h'.leased id (hid.trans_le h.nextObject) (by rwa [h.refCount id hid]) (h.leased id hid hpos hr)
  human id x hid hpos hx :=
    h'.human id x (hid.trans_le h.nextObject) (by rwa [h.refCount id hid]) (h.human id x hid hpos hx)
  reader id x hid hpos hx := by
    obtain ⟨y, hy, hle⟩ := h.reader id x hid hpos hx
    obtain ⟨z, hz, hle'⟩ := h'.reader id y (hid.trans_le h.nextObject) (by rwa [h.refCount id hid]) hy
    exact ⟨z, hz, hle.trans hle'⟩

/-! ## Names -/

theorem Sound.of_canonical (h : Sound opts r) (names : List Text) : Sound opts { r with canonicalProjects := names } :=
  ⟨h.known, h.pinned, h.lastUsed, h.human, h.reader, h.blank⟩

theorem Keeps.of_canonical (r : Registry) (names : List Text) : Keeps r { r with canonicalProjects := names } :=
  have h := Keeps.refl r
  ⟨h.nextObject, h.refCount, h.project, h.fresh, h.back, h.leased, h.human, h.reader⟩

theorem exists_trimLoop (opts : RegistryOptions) (n : ℕ) (r : Registry) : ∃ names, trimLoop opts n r = { r with canonicalProjects := names } := by
  induction n generalizing r with
  | zero => exact ⟨_, rfl⟩
  | succ n ih =>
    rw [trimLoop]
    split
    · split
      · exact ⟨_, rfl⟩
      · obtain ⟨names, hn⟩ := ih { r with canonicalProjects := r.canonicalProjects.erase _ }
        exact ⟨names, hn⟩
    · exact ⟨_, rfl⟩

theorem exists_pushCanonical : ∃ names, r.pushCanonical opts project = { r with canonicalProjects := names } := by
  obtain ⟨names, h⟩ := exists_trimLoop opts _ { r with
    canonicalProjects := if project ∈ r.canonicalProjects then r.canonicalProjects else r.canonicalProjects ++ [project] }
  exact ⟨names, h⟩

/-- Resolving a name changes nothing but the names that are remembered. -/
theorem exists_resolveProjectName (opts : RegistryOptions) (env : Env) (r : Registry) (project : Text) :
    ∃ names, (r.resolveProjectName opts env project).1 = { r with canonicalProjects := names } := by
  rw [resolveProjectName]
  split
  · split
    · exact ⟨_, rfl⟩
    · exact ⟨_, rfl⟩
  · exact exists_pushCanonical

/-! ## Opening an entry -/

theorem exists_openEntry (opts : RegistryOptions) (env : Env) (r : Registry) (project : Text) : ∃ names,
    r.openEntry opts env project = { r.insertEntry (r.newEntry opts env project) with canonicalProjects := names } := by
  rw [openEntry]
  exact exists_pushCanonical

theorem Sound.openEntry (h : Sound opts r) : Sound opts (r.openEntry opts env project) := by
  obtain ⟨names, hn⟩ := exists_openEntry opts env r project
  rw [hn]
  apply Sound.of_canonical
  -- An entry of the new registry is the new one, or one that was there.
  have hget : ∀ p id, (r.entries.set project r.nextObject).get p = some id →
      (p = project ∧ id = r.nextObject) ∨ (r.entries.get p = some id ∧ id ≠ r.nextObject) := by
    intro p id hp
    rw [get_set] at hp
    split at hp
    · rename_i hpp
      exact .inl ⟨hpp, (Option.some.inj hp).symm⟩
    · exact .inr ⟨hp, (h.known p id hp).1.ne⟩
  constructor
  · intro p id hp
    obtain ⟨rfl, rfl⟩ | ⟨hp, hne⟩ := hget p id hp
    · simp [insertEntry, newEntry]
    · have := h.known p id hp
      simp only [insertEntry, update_of_ne hne]
      exact ⟨by omega, this.2⟩
  · intro p id hp
    obtain ⟨rfl, rfl⟩ | ⟨hp, hne⟩ := hget p id hp
    · simp [insertEntry, newEntry]
    · simp only [insertEntry, update_of_ne hne]
      exact h.pinned p id hp
  · intro p id hp
    obtain ⟨rfl, rfl⟩ | ⟨hp, hne⟩ := hget p id hp
    · simp [insertEntry, newEntry]
    · have := h.lastUsed p id hp
      simp only [insertEntry, newEntry, update_of_ne hne]
      omega
  · intro id x hx
    by_cases hid : id = r.nextObject
    · subst hid
      simp [insertEntry, newEntry] at hx
    · simp only [insertEntry, update_of_ne hid] at hx
      exact h.human id x hx
  · intro id x hx
    by_cases hid : id = r.nextObject
    · subst hid
      simp [insertEntry, newEntry] at hx
    · simp only [insertEntry, update_of_ne hid] at hx
      exact h.reader id x hx
  · intro id hx
    by_cases hid : id = r.nextObject
    · subst hid
      simp [insertEntry, newEntry]
    · simp only [insertEntry, update_of_ne hid] at hx ⊢
      exact h.blank id hx

theorem Keeps.openEntry (hnone : r.entries.get project = none) : Keeps r (r.openEntry opts env project) := by
  obtain ⟨names, hn⟩ := exists_openEntry opts env r project
  rw [hn]
  refine Keeps.trans ?_ (Keeps.of_canonical _ names)
  have hold : ∀ id, id < r.nextObject → (r.insertEntry (r.newEntry opts env project)).objects id = r.objects id :=
    fun id hid => update_of_ne hid.ne ..
  constructor
  · exact le_succ _
  · intro id hid
    rw [hold id hid]
  · intro id hid
    rw [hold id hid]
  · intro id hid hid'
    obtain rfl : id = r.nextObject := Nat.le_antisymm (le_of_lt_succ hid') hid
    simp [insertEntry, newEntry]
  · intro id hid hreg
    rw [Registered, hold id hid] at hreg
    simp only [insertEntry, get_set] at hreg
    split at hreg
    · exact absurd (Option.some.inj hreg).symm hid.ne
    · exact hreg
  · intro id hid _ hreg
    have hne : (r.objects id).project ≠ project := by
      intro he
      rw [Registered, he, hnone] at hreg
      cases hreg
    rw [Registered, hold id hid]
    exact (OrderedMap.get_set_of_ne hne).trans hreg
  · intro id h hid _ hh
    rwa [hold id hid]
  · intro id x hid _ hx
    exact ⟨x, by rwa [hold id hid], le_rfl⟩

theorem registered_openEntry : (r.openEntry opts env project).entries.get project = some r.nextObject := by
  obtain ⟨names, hn⟩ := exists_openEntry opts env r project
  rw [hn]
  exact get_set_self

/-- What a lookup by name gives: the registry with the entry of the name. -/
structure Found (opts : RegistryOptions) (r : Registry) (project : Text) (t : Registry) (id : ℕ) : Prop where
  sound : Sound opts t
  keeps : Keeps r t
  entry : t.entries.get project = some id

theorem found_getEntry (env : Env) (project : Text) (h : Sound opts r) :
    Found opts r project (r.getEntry opts env project).1 (r.getEntry opts env project).2 := by
  rw [getEntry]
  split
  · rename_i id hid
    exact ⟨h, .refl r, hid⟩
  · rename_i hnone
    exact ⟨h.openEntry, .openEntry hnone, registered_openEntry⟩

/-! ## Closing and replacing handles -/

@[simp] theorem entries_close (o : Option ℕ) : (r.close o).entries = r.entries := by cases o <;> rfl

@[simp] theorem objects_close (o : Option ℕ) : (r.close o).objects = r.objects := by cases o <;> rfl

@[simp] theorem nextObject_close (o : Option ℕ) : (r.close o).nextObject = r.nextObject := by cases o <;> rfl

@[simp] theorem nextHandle_close (o : Option ℕ) : (r.close o).nextHandle = r.nextHandle := by cases o <;> rfl

@[simp] theorem clock_close (o : Option ℕ) : (r.close o).clock = r.clock := by cases o <;> rfl

theorem handles_close_of_ne {o : Option ℕ} {h : ℕ} (hne : o ≠ some h) : (r.close o).handles h = r.handles h := by
  cases o with
  | none => rfl
  | some x => exact update_of_ne (fun he => hne (congrArg some he.symm)) ..

/-- The handle of another entry or of the other kind is not the one that is closed. -/
theorem Sound.human_ne_reader (h : Sound opts r) {id' x : ℕ} (hx : (r.objects id).humanStoreHandle = some x) :
    (r.objects id').codeReaderHandle ≠ some x := by
  intro hy
  have hx' := (h.human id x hx).2
  rw [(h.reader id' x hy).2] at hx'
  cases hx'

theorem Sound.reader_ne_reader (h : Sound opts r) {id' x : ℕ} (hne : id' ≠ id)
    (hx : (r.objects id).codeReaderHandle = some x) : (r.objects id').codeReaderHandle ≠ some x := by
  intro hy
  have hx' := (h.reader id x hx).2
  rw [(h.reader id' x hy).2] at hx'
  exact hne (congrArg Handle.entry hx')

theorem Sound.human_ne_human (h : Sound opts r) {id' x : ℕ} (hne : id' ≠ id)
    (hx : (r.objects id).humanStoreHandle = some x) : (r.objects id').humanStoreHandle ≠ some x := by
  intro hy
  have hx' := (h.human id x hx).2
  rw [(h.human id' x hy).2] at hx'
  exact hne (congrArg Handle.entry hx')

/-- One entry object changes, and neither its name nor whether it is pinned. -/
theorem Sound.setEntry (h : Sound opts r) {e : StoreEntry} (hentries : t.entries = r.entries)
    (hobjects : t.objects = Function.update r.objects id e) (hnext : t.nextObject = r.nextObject)
    (hclock : r.clock ≤ t.clock) (hproject : e.project = (r.objects id).project)
    (hpinned : e.pinned = (r.objects id).pinned) (hused : (r.objects id).lastUsed ≤ r.clock → e.lastUsed ≤ t.clock)
    (hhuman : ∀ x, e.humanStoreHandle = some x → x < t.nextHandle ∧ t.handles x = ⟨id, .human, true⟩)
    (hreader : ∀ x, e.codeReaderHandle = some x → x < t.nextHandle ∧ t.handles x = ⟨id, .reader, true⟩)
    (hothers : ∀ id' x, id' ≠ id →
      ((r.objects id').humanStoreHandle = some x ∨ (r.objects id').codeReaderHandle = some x) →
      x < t.nextHandle ∧ t.handles x = r.handles x)
    (hblank : e.codeReaderInitialized = false → e.codeReaderHandle = none) : Sound opts t := by
  constructor
  · intro p id' hp
    rw [hentries] at hp
    have hk := h.known p id' hp
    rw [hnext, hobjects]
    by_cases hid : id' = id
    · subst hid
      rw [update_self, hproject]
      exact hk
    · rwa [update_of_ne hid]
  · intro p id' hp
    rw [hentries] at hp
    rw [hobjects, ← h.pinned p id' hp]
    by_cases hid : id' = id
    · subst hid
      rw [update_self, hpinned]
    · rw [update_of_ne hid]
  · intro p id' hp
    rw [hentries] at hp
    have hu := h.lastUsed p id' hp
    rw [hobjects]
    by_cases hid : id' = id
    · subst hid
      rw [update_self]
      exact hused hu
    · rw [update_of_ne hid]
      exact hu.trans hclock
  · intro id' x hx
    rw [hobjects] at hx
    by_cases hid : id' = id
    · subst hid
      rw [update_self] at hx
      exact hhuman x hx
    · rw [update_of_ne hid] at hx
      obtain ⟨hlt, hsame⟩ := hothers id' x hid (.inl hx)
      exact ⟨hlt, hsame.trans (h.human id' x hx).2⟩
  · intro id' x hx
    rw [hobjects] at hx
    by_cases hid : id' = id
    · subst hid
      rw [update_self] at hx
      exact hreader x hx
    · rw [update_of_ne hid] at hx
      obtain ⟨hlt, hsame⟩ := hothers id' x hid (.inr hx)
      exact ⟨hlt, hsame.trans (h.reader id' x hx).2⟩
  · intro id' hx
    rw [hobjects] at hx ⊢
    by_cases hid : id' = id
    · subst hid
      rw [update_self] at hx ⊢
      exact hblank hx
    · rw [update_of_ne hid] at hx ⊢
      exact h.blank id' hx

theorem Keeps.setEntry {e : StoreEntry} (hentries : t.entries = r.entries)
    (hobjects : t.objects = Function.update r.objects id e) (hnext : t.nextObject = r.nextObject)
    (hproject : e.project = (r.objects id).project) (hcount : e.refCount = (r.objects id).refCount)
    (hhuman : ∀ x, (r.objects id).humanStoreHandle = some x → e.humanStoreHandle = some x)
    (hreader : ∀ x, (r.objects id).codeReaderHandle = some x → ∃ y, e.codeReaderHandle = some y ∧ x ≤ y) :
    Keeps r t := by
  have hproj : ∀ id', (t.objects id').project = (r.objects id').project := by
    intro id'
    rw [hobjects]
    by_cases hid : id' = id
    · subst hid
      rw [update_self, hproject]
    · rw [update_of_ne hid]
  have hreg : ∀ id', t.Registered id' ↔ r.Registered id' := by
    intro id'
    rw [Registered, Registered, hproj, hentries]
  constructor
  · exact hnext.ge
  · intro id' _
    rw [hobjects]
    by_cases hid : id' = id
    · subst hid
      rw [update_self, hcount]
    · rw [update_of_ne hid]
  · exact fun id' _ => hproj id'
  · intro id' hle hlt
    omega
  · exact fun id' _ => (hreg id').mp
  · exact fun id' _ _ => (hreg id').mpr
  · intro id' x _ _ hx
    rw [hobjects]
    by_cases hid : id' = id
    · subst hid
      rw [update_self]
      exact hhuman x hx
    · rwa [update_of_ne hid]
  · intro id' x _ _ hx
    rw [hobjects]
    by_cases hid : id' = id
    · subst hid
      rw [update_self]
      exact hreader x hx
    · exact ⟨x, by rwa [update_of_ne hid], le_rfl⟩

/-! ## The handles of an entry -/

/-- An entry whose reader was replaced. -/
structure Reopened (opts : RegistryOptions) (r : Registry) (id : ℕ) (t : Registry) : Prop where
  sound : Sound opts t
  keeps : Keeps r t
  entries : t.entries = r.entries
  reader : (t.objects id).codeReaderHandle = some r.nextHandle
  counts : ∀ id', (t.objects id').refCount = (r.objects id').refCount ∧ (t.objects id').pinned = (r.objects id').pinned
  projects : ∀ id', (t.objects id').project = (r.objects id').project
  /-- The entry is the one that was used last. -/
  recent : (t.objects id).lastUsed = r.clock + 1
  others : ∀ id', id' ≠ id → t.objects id' = r.objects id'

theorem Sound.reopenCodeReader (h : Sound opts r) (ht : r.reopenCodeReader opts env id = some t) :
    Reopened opts r id t := by
  obtain ⟨dbPath, -, rfl⟩ := Option.map_eq_some_iff.mp ht
  -- The new handle and the handles of other entries are not the one that is closed.
  have hnew : (r.objects id).codeReaderHandle ≠ some r.nextHandle :=
    fun hx => absurd (h.reader id _ hx).1 (lt_irrefl _)
  have hkeep : ∀ x, x < r.nextHandle → (r.objects id).codeReaderHandle ≠ some x →
      ((r.installReader id dbPath).close (r.objects id).codeReaderHandle).handles x = r.handles x := by
    intro x hlt hne
    rw [handles_close_of_ne hne]
    exact update_of_ne hlt.ne ..
  have hlast : ((r.installReader id dbPath).close (r.objects id).codeReaderHandle).nextHandle = r.nextHandle + 1 :=
    nextHandle_close _
  constructor
  · refine h.setEntry (entries_close _) (objects_close _) (nextObject_close _) ?_ rfl rfl ?_ ?_ ?_ ?_ nofun
    · rw [clock_close]
      exact le_succ _
    · intro _
      exact (clock_close (r := r.installReader id dbPath) _).ge
    · intro x hx
      obtain ⟨hlt, hopen⟩ := h.human id x hx
      rw [hlast, hkeep x hlt (h.human_ne_reader hx)]
      exact ⟨lt_succ_of_lt hlt, hopen⟩
    · intro x hx
      obtain rfl := Option.some.inj hx
      rw [hlast, handles_close_of_ne hnew]
      exact ⟨lt_succ_self _, update_self ..⟩
    · intro id' x hid hx
      rw [hlast]
      obtain hx | hx := hx
      · have hlt := (h.human id' x hx).1
        exact ⟨lt_succ_of_lt hlt, hkeep x hlt (h.human_ne_reader hx)⟩
      · have hlt := (h.reader id' x hx).1
        exact ⟨lt_succ_of_lt hlt, hkeep x hlt (h.reader_ne_reader hid.symm hx)⟩
  · exact .setEntry (entries_close _) (objects_close _) (nextObject_close _) rfl rfl (fun _ hx => hx)
      fun x hx => ⟨_, rfl, (h.reader id x hx).1.le⟩
  · exact entries_close _
  · rw [objects_close]
    simp [installReader, Registry.setEntry]
  iterate 2
    · intro id'
      rw [objects_close]
      by_cases hid : id' = id
      · subst hid
        simp [installReader, Registry.setEntry]
      · simp [installReader, Registry.setEntry, opened, update_of_ne hid]
  · rw [objects_close]
    simp [installReader, Registry.setEntry]
  · intro id' hid
    rw [objects_close]
    exact update_of_ne hid ..

/-- A step of the registry that keeps its entries and their counts. -/
structure Quiet (opts : RegistryOptions) (r t : Registry) : Prop where
  sound : Sound opts t
  keeps : Keeps r t
  entries : t.entries = r.entries
  counts : ∀ id', (t.objects id').refCount = (r.objects id').refCount ∧ (t.objects id').pinned = (r.objects id').pinned

theorem Sound.quiet (h : Sound opts r) : Quiet opts r r := ⟨h, .refl r, rfl, fun _ => ⟨rfl, rfl⟩⟩

theorem Reopened.quiet (h : Reopened opts r id t) : Quiet opts r t :=
  ⟨h.sound, h.keeps, h.entries, h.counts⟩

theorem Quiet.trans (h : Quiet opts r r') (h' : Quiet opts r' r'') : Quiet opts r r'' where
  sound := h'.sound
  keeps := h.keeps.trans h'.keeps
  entries := h'.entries.trans h.entries
  counts id' := ⟨(h'.counts id').1.trans (h.counts id').1, (h'.counts id').2.trans (h.counts id').2⟩

theorem Sound.getHumanStore {x : ℕ} (h : Sound opts r) (ht : r.getHumanStore env id = some (r', x)) :
    Quiet opts r r' ∧ (r'.objects id).humanStoreHandle = some x := by
  rw [Registry.getHumanStore] at ht
  split at ht
  · rename_i y hy
    obtain ⟨rfl, rfl⟩ := Prod.ext_iff.mp (Option.some.inj ht)
    exact ⟨h.quiet, hy⟩
  · rename_i hnone
    split at ht
    · obtain ⟨rfl, rfl⟩ := Prod.ext_iff.mp (Option.some.inj ht)
      have hkeep : ∀ y, y < r.nextHandle → (r.opened id .human).handles y = r.handles y :=
        fun y hlt => update_of_ne hlt.ne ..
      refine ⟨⟨h.setEntry rfl rfl rfl le_rfl rfl rfl (fun hu => hu) ?_ ?_ ?_ (h.blank id), ?_, rfl, ?_⟩, ?_⟩
      · intro y hy
        obtain rfl := Option.some.inj hy
        exact ⟨lt_succ_self _, update_self ..⟩
      · intro y hy
        obtain ⟨hlt, hopen⟩ := h.reader id y hy
        exact ⟨lt_succ_of_lt hlt, (hkeep y hlt).trans hopen⟩
      · intro id' y _ hy
        have hlt : y < r.nextHandle := hy.elim (fun hy => (h.human id' y hy).1) fun hy => (h.reader id' y hy).1
        exact ⟨lt_succ_of_lt hlt, hkeep y hlt⟩
      · refine .setEntry rfl rfl rfl rfl rfl (fun y hy => ?_) fun y hy => ⟨y, hy, le_rfl⟩
        rw [hnone] at hy
        cases hy
      · intro id'
        by_cases hid : id' = id
        · subst hid
          simp [Registry.setEntry]
        · simp [Registry.setEntry, opened, update_of_ne hid]
      · simp [Registry.setEntry]
    · cases ht

theorem Sound.setFlag (h : Sound opts r) (id : ℕ) (e : StoreEntry) (hproject : e.project = (r.objects id).project)
    (hpinned : e.pinned = (r.objects id).pinned) (hused : e.lastUsed = (r.objects id).lastUsed)
    (hcount : e.refCount = (r.objects id).refCount) (hhuman : e.humanStoreHandle = (r.objects id).humanStoreHandle)
    (hreader : e.codeReaderHandle = (r.objects id).codeReaderHandle)
    (hblank : e.codeReaderInitialized = false → e.codeReaderHandle = none) : Quiet opts r (r.setEntry id e) := by
  refine ⟨h.setEntry rfl rfl rfl le_rfl hproject hpinned (fun hu => hused ▸ hu) ?_ ?_ ?_ hblank, ?_, rfl, ?_⟩
  · exact fun x hx => h.human id x (hhuman ▸ hx)
  · exact fun x hx => h.reader id x (hreader ▸ hx)
  · exact fun id' x _ hx => ⟨hx.elim (fun hx => (h.human id' x hx).1) fun hx => (h.reader id' x hx).1, rfl⟩
  · exact .setEntry rfl rfl rfl hproject hcount (fun x hx => hhuman ▸ hx) fun x hx => ⟨x, hreader ▸ hx, le_rfl⟩
  · intro id'
    by_cases hid : id' = id
    · subst hid
      simp [Registry.setEntry, hcount, hpinned]
    · simp [Registry.setEntry, update_of_ne hid]

theorem Sound.getCodeReader {o : Option ℕ} (h : Sound opts r) (ht : r.getCodeReader opts env id = some (r', o)) :
    Quiet opts r r' ∧ (r'.objects id).codeReaderHandle = o := by
  rw [Registry.getCodeReader] at ht
  simp only at ht
  split at ht
  · split at ht
    · obtain ⟨t, hopen, heq⟩ := Option.map_eq_some_iff.mp ht
      obtain ⟨rfl, rfl⟩ := Prod.ext_iff.mp heq
      exact ⟨(h.reopenCodeReader hopen).quiet, rfl⟩
    · obtain ⟨rfl, rfl⟩ := Prod.ext_iff.mp (Option.some.inj ht)
      exact ⟨h.quiet, rfl⟩
  · rename_i hinit
    -- The first use: the entry has no reader yet.
    have hnone := h.blank id (by simpa using hinit)
    have hflag := h.setFlag id { r.objects id with codeReaderInitialized := true }
      rfl rfl rfl rfl rfl rfl nofun
    split at ht
    · rename_i t hopen
      obtain ⟨rfl, rfl⟩ := Prod.ext_iff.mp (Option.some.inj ht)
      exact ⟨hflag.trans (hflag.sound.reopenCodeReader hopen).quiet, rfl⟩
    · obtain ⟨rfl, rfl⟩ := Prod.ext_iff.mp (Option.some.inj ht)
      refine ⟨hflag.trans (hflag.sound.setFlag id _ rfl rfl rfl rfl rfl ?_ fun _ => rfl), ?_⟩
      · simp [Registry.setEntry, hnone]
      · simp [Registry.setEntry]

/-! ## Eviction -/

/-- An entry of the map that eviction may not take. -/
def Busy (r : Registry) (id : ℕ) : Prop := (r.objects id).idle = false

theorem mem_values : id ∈ r.values ↔ ∃ p, r.entries.get p = some id := by
  simp [values, OrderedMap.get_eq_some_iff]

/-- The candidate is idle, and no idle entry was used less recently; without a candidate all entries are busy. -/
theorem candidate_spec : (∀ c, r.candidate = some c → c ∈ r.values ∧ (r.objects c).idle = true ∧
      ∀ id ∈ r.values, (r.objects id).idle = true → (r.objects c).lastUsed ≤ (r.objects id).lastUsed) ∧
    (r.candidate = none → ∀ id ∈ r.values, r.Busy id) := by
  rw [candidate]
  -- Over the ids that the loop has seen.
  induction r.values using List.reverseRecOn with
  | nil => simp
  | append_singleton ids id ih =>
    rw [foldl_append, foldl_cons, foldl_nil]
    obtain ⟨hsome, hnone⟩ := ih
    generalize List.foldl _ none ids = seen at hsome hnone ⊢
    by_cases hid : (r.objects id).idle = true
    · rw [if_pos hid]
      cases seen with
      | none =>
        refine ⟨?_, nofun⟩
        rintro _ ⟨⟩
        refine ⟨by simp, hid, fun id' hmem hidle => ?_⟩
        obtain hmem | rfl := (mem_append.mp hmem).imp_right mem_singleton.mp
        · have hbusy : (r.objects id').idle = false := hnone rfl id' hmem
          rw [hidle] at hbusy
          cases hbusy
        · exact le_rfl
      | some c =>
        obtain ⟨hmem, hidle, hleast⟩ := hsome c rfl
        dsimp only
        split
        · rename_i hlt
          refine ⟨?_, nofun⟩
          rintro _ ⟨⟩
          refine ⟨by simp, hid, fun id' hmem' hidle' => ?_⟩
          obtain hmem' | rfl := (mem_append.mp hmem').imp_right mem_singleton.mp
          · exact hlt.le.trans (hleast id' hmem' hidle')
          · exact le_rfl
        · rename_i hge
          refine ⟨?_, nofun⟩
          rintro _ ⟨⟩
          refine ⟨mem_append_left _ hmem, hidle, fun id' hmem' hidle' => ?_⟩
          obtain hmem' | rfl := (mem_append.mp hmem').imp_right mem_singleton.mp
          · exact hleast id' hmem' hidle'
          · exact not_lt.mp hge
    · rw [if_neg hid]
      refine ⟨fun c hc => ?_, fun hc id' hmem => ?_⟩
      · obtain ⟨hmem, hidle, hleast⟩ := hsome c hc
        refine ⟨mem_append_left _ hmem, hidle, fun id' hmem' hidle' => ?_⟩
        obtain hmem' | rfl := (mem_append.mp hmem').imp_right mem_singleton.mp
        · exact hleast id' hmem' hidle'
        · exact absurd hidle' hid
      · obtain hmem | rfl := (mem_append.mp hmem).imp_right mem_singleton.mp
        · exact hnone hc id' hmem
        · exact Bool.eq_false_iff.mpr hid

theorem entries_closeEntry : (r.closeEntry id).entries = r.entries := by simp [closeEntry, Registry.setEntry]

theorem nextObject_closeEntry : (r.closeEntry id).nextObject = r.nextObject := by simp [closeEntry, Registry.setEntry]

theorem objects_closeEntry : (r.closeEntry id).objects =
    Function.update r.objects id { r.objects id with codeReaderHandle := none, humanStoreHandle := none } := by
  simp [closeEntry, Registry.setEntry]

theorem objects_closeEntry_of_ne {id' : ℕ} (h : id' ≠ id) : (r.closeEntry id).objects id' = r.objects id' := by
  rw [objects_closeEntry, update_of_ne h]

/-- Closing an entry changes its handles only. -/
theorem closeEntry_fields (r : Registry) (id id' : ℕ) :
    ((r.closeEntry id).objects id').project = (r.objects id').project ∧
    ((r.closeEntry id).objects id').refCount = (r.objects id').refCount ∧
    ((r.closeEntry id).objects id').lastUsed = (r.objects id').lastUsed ∧
    ((r.closeEntry id).objects id').pinned = (r.objects id').pinned := by
  rw [objects_closeEntry]
  by_cases h : id' = id
  · subst h
    simp
  · simp [update_of_ne h]

theorem idle_closeEntry (id' : ℕ) : ((r.closeEntry id).objects id').idle = (r.objects id').idle := by
  obtain ⟨_, hcount, _, hpinned⟩ := closeEntry_fields r id id'
  simp only [StoreEntry.idle, hcount, hpinned]

theorem Sound.closeEntry (h : Sound opts r) (id : ℕ) : Sound opts (r.closeEntry id) := by
  refine h.setEntry entries_closeEntry objects_closeEntry nextObject_closeEntry ?_ rfl rfl ?_ nofun nofun ?_ fun _ => rfl
  · simp [Registry.closeEntry, Registry.setEntry]
  · intro hu
    simpa [Registry.closeEntry, Registry.setEntry] using hu
  · intro id' x hid hx
    have hlast : (r.closeEntry id).nextHandle = r.nextHandle := by simp [Registry.closeEntry, Registry.setEntry]
    rw [hlast]
    -- The handle of another entry is neither of the two that are closed.
    have hne : (r.objects id).codeReaderHandle ≠ some x ∧ (r.objects id).humanStoreHandle ≠ some x := by
      obtain hx | hx := hx
      · exact ⟨h.human_ne_reader hx, h.human_ne_human hid.symm hx⟩
      · exact ⟨h.reader_ne_reader hid.symm hx, fun hy => h.human_ne_reader hy hx⟩
    refine ⟨hx.elim (fun hx => (h.human id' x hx).1) fun hx => (h.reader id' x hx).1, ?_⟩
    exact (handles_close_of_ne hne.2).trans (handles_close_of_ne hne.1)

/-- Entries go, and what remains is as it was. -/
structure Evicted (opts : RegistryOptions) (r t : Registry) : Prop where
  sound : Sound opts t
  keeps : Keeps r t
  sub : ∀ p id, t.entries.get p = some id → r.entries.get p = some id
  objects : ∀ p id, t.entries.get p = some id → t.objects id = r.objects id

theorem Sound.evicted (h : Sound opts r) : Evicted opts r r := ⟨h, .refl r, fun _ _ h => h, fun _ _ _ => rfl⟩

theorem Evicted.trans (h : Evicted opts r r') (h' : Evicted opts r' r'') : Evicted opts r r'' where
  sound := h'.sound
  keeps := h.keeps.trans h'.keeps
  sub p id hp := h.sub p id (h'.sub p id hp)
  objects p id hp := (h'.objects p id hp).trans (h.objects p id (h'.sub p id hp))

theorem entries_evict : (r.evict id).entries = r.entries.delete (r.objects id).project := entries_closeEntry

theorem get_evict {p : Text} {id' : ℕ} (h : (r.evict id).entries.get p = some id') :
    r.entries.get p = some id' ∧ p ≠ (r.objects id).project := by
  rw [entries_evict, get_delete] at h
  split at h
  · cases h
  · rename_i hne
    exact ⟨h, hne⟩

theorem Sound.evict (h : Sound opts r) (hmem : id ∈ r.values) (hidle : (r.objects id).idle = true) :
    Evicted opts r (r.evict id) := by
  obtain ⟨p, hp⟩ := mem_values.mp hmem
  obtain ⟨_, rfl⟩ := h.known p id hp
  have hzero : ¬ 0 < (r.objects id).refCount := by
    intro hpos
    simp [StoreEntry.idle, hpos] at hidle
  have hobj : ∀ id', id' ≠ id → (r.evict id).objects id' = r.objects id' := fun id' hne => objects_closeEntry_of_ne hne
  have hfields : ∀ id', ((r.evict id).objects id').project = (r.objects id').project ∧
      ((r.evict id).objects id').refCount = (r.objects id').refCount := by
    intro id'
    obtain ⟨hproject, hcount, _⟩ := closeEntry_fields { r with
      entries := r.entries.delete (r.objects id).project
      canonicalProjects := r.canonicalProjects.erase (r.objects id).project } id id'
    exact ⟨hproject, hcount⟩
  have hsound : Sound opts { r with
      entries := r.entries.delete (r.objects id).project
      canonicalProjects := r.canonicalProjects.erase (r.objects id).project } := by
    have hget : ∀ p id', (r.entries.delete (r.objects id).project).get p = some id' → r.entries.get p = some id' := by
      intro p id' hp'
      rw [get_delete] at hp'
      split at hp'
      · cases hp'
      · exact hp'
    exact ⟨fun p id' hp' => h.known p id' (hget p id' hp'), fun p id' hp' => h.pinned p id' (hget p id' hp'),
      fun p id' hp' => h.lastUsed p id' (hget p id' hp'), h.human, h.reader, h.blank⟩
  have hnext : (r.evict id).nextObject = r.nextObject := nextObject_closeEntry
  refine ⟨hsound.closeEntry id, ?_, fun p id' hp' => (get_evict hp').1, ?_⟩
  · constructor
    · exact hnext.ge
    · exact fun id' _ => (hfields id').2
    · exact fun id' _ => (hfields id').1
    · intro id' hle hlt
      omega
    · intro id' _ hreg
      rw [Registered, (hfields id').1] at hreg
      exact (get_evict hreg).1
    · intro id' _ hpos hreg
      have hne : (r.objects id').project ≠ (r.objects id).project := by
        intro he
        rw [Registered, he, hp] at hreg
        obtain rfl := Option.some.inj hreg
        exact hzero hpos
      rw [Registered, (hfields id').1, entries_evict, get_delete_of_ne hne]
      exact hreg
    · intro id' x _ hpos hx
      rwa [hobj id' fun he => hzero (he ▸ hpos)]
    · intro id' x _ hpos hx
      exact ⟨x, by rwa [hobj id' fun he => hzero (he ▸ hpos)], le_rfl⟩
  · intro p id' hp'
    obtain ⟨hget, hne⟩ := get_evict hp'
    apply hobj
    rintro rfl
    exact hne (h.known p id' hget).2.symm

theorem evicted_evictLoop (n : ℕ) (h : Sound opts r) : Evicted opts r (evictLoop opts n r) := by
  induction n generalizing r with
  | zero => exact h.evicted
  | succ n ih =>
    rw [evictLoop]
    split
    · split
      · exact h.evicted
      · rename_i c hc
        obtain ⟨hmem, hidle, _⟩ := candidate_spec.1 c hc
        have hevict := h.evict hmem hidle
        exact hevict.trans (ih hevict.sound)
    · exact h.evicted

/-- The registry is within its size, or no entry is idle. -/
def Shrunk (opts : RegistryOptions) (r : Registry) : Prop :=
  r.entries.size ≤ opts.maxEntries ∨ ∀ id ∈ r.values, r.Busy id

theorem shrunk_evictLoop (n : ℕ) (h : Sound opts r) (hn : r.entries.size ≤ n) : Shrunk opts (evictLoop opts n r) := by
  induction n generalizing r with
  | zero => exact .inl (hn.trans (Nat.zero_le _))
  | succ n ih =>
    rw [evictLoop]
    split
    · split
      · rename_i hnone
        exact .inr (candidate_spec.2 hnone)
      · rename_i c hc
        obtain ⟨hmem, hidle, _⟩ := candidate_spec.1 c hc
        obtain ⟨p, hp⟩ := mem_values.mp hmem
        obtain ⟨_, rfl⟩ := h.known p c hp
        apply ih (h.evict hmem hidle).sound
        have := size_delete hp
        rw [entries_evict]
        omega
    · rename_i hle
      exact .inl (not_lt.mp hle)

theorem Sound.evictIdleEntries (h : Sound opts r) :
    Evicted opts r (r.evictIdleEntries opts) ∧ Shrunk opts (r.evictIdleEntries opts) :=
  ⟨evicted_evictLoop _ h, shrunk_evictLoop _ h le_rfl⟩

/-! ## The entry that was used last -/

/-- The entries of other projects that eviction may not take. -/
def busyOthers (r : Registry) (project : Text) : ℕ :=
  r.values.countP fun id => (r.objects id).project ≠ project ∧ (r.objects id).idle = false

theorem nodup_values (h : Sound opts r) : r.values.Nodup := by
  apply Nodup.of_map (fun id => (r.objects id).project)
  have hkeys : r.values.map (fun id => (r.objects id).project) = r.entries.keys := by
    rw [values, map_map, OrderedMap.keys]
    apply map_congr_left
    rintro ⟨p, id⟩ hmem
    exact (h.known p id (OrderedMap.get_eq_some_iff.mpr hmem)).2
  rw [hkeys]
  exact r.entries.nodup

theorem size_eq_length_values : r.entries.size = r.values.length := by simp [OrderedMap.size, values]

/-- Where every other entry is busy, the entries are these and the one. -/
theorem size_le_busyOthers (h : Sound opts r) (hp : r.entries.get project = some id)
    (hbusy : ∀ id' ∈ r.values, id' ≠ id → r.Busy id') : r.entries.size ≤ r.busyOthers project + 1 := by
  have hone : r.values.countP (fun id' => id' = id) ≤ 1 := by
    have hcount := nodup_iff_count_le_one.mp (nodup_values h) id
    rw [count_eq_countP] at hcount
    refine le_trans (le_of_eq (countP_congr fun id' _ => ?_)) hcount
    simp
  have hsplit := length_eq_countP_add_countP (fun id' => decide (id' = id)) (l := r.values)
  have hothers : r.values.countP (fun id' => ¬ decide (id' = id) = true) = r.busyOthers project := by
    apply countP_congr
    intro id' hmem
    obtain ⟨q, hq⟩ := mem_values.mp hmem
    obtain ⟨_, rfl⟩ := h.known q id' hq
    by_cases hid : id' = id
    · subst hid
      simp [(h.known project id' hp).2]
    · have hb : (r.objects id').idle = false := hbusy id' hmem hid
      have hne : (r.objects id').project ≠ project := by
        rintro rfl
        rw [hp] at hq
        exact hid (Option.some.inj hq).symm
      simp [hid, hb, hne]
  rw [size_eq_length_values]
  omega

theorem values_evict_sublist : (r.evict id).values.Sublist r.values := by
  rw [values, entries_evict]
  exact filter_sublist.map _

theorem evictLoop_keeps_fresh (n : ℕ) (h : Sound opts r) (hp : r.entries.get project = some id)
    (hkeep : r.Busy id ∨ ((∀ id' ∈ r.values, id' ≠ id → (r.objects id').lastUsed < (r.objects id).lastUsed) ∧
      r.busyOthers project < opts.maxEntries)) : (evictLoop opts n r).entries.get project = some id := by
  induction n generalizing r with
  | zero => exact hp
  | succ n ih =>
    rw [evictLoop]
    split
    · rename_i hfull
      split
      · exact hp
      · rename_i c hc
        obtain ⟨hmem, hidle, hleast⟩ := candidate_spec.1 c hc
        obtain ⟨q, hq⟩ := mem_values.mp hmem
        obtain ⟨_, rfl⟩ := h.known q c hq
        have hmemid := mem_values.mpr ⟨project, hp⟩
        -- The candidate is another entry.
        have hne : c ≠ id := by
          rintro rfl
          obtain hbusy | ⟨hlast, hroom⟩ := hkeep
          · rw [Busy, hidle] at hbusy
            cases hbusy
          · have hothers : ∀ id' ∈ r.values, id' ≠ c → r.Busy id' := by
              intro id' hmem' hne
              rw [Busy, ← Bool.not_eq_true]
              intro hidle'
              have := hleast id' hmem' hidle'
              have := hlast id' hmem' hne
              omega
            have := size_le_busyOthers h hp hothers
            omega
        have hpq : project ≠ (r.objects c).project := by
          rintro rfl
          rw [hp] at hq
          exact hne (Option.some.inj hq).symm
        have hget : (r.evict c).entries.get project = some id := by
          rw [entries_evict, get_delete_of_ne hpq]
          exact hp
        have hfields : ∀ id', ((r.evict c).objects id').lastUsed = (r.objects id').lastUsed ∧
            ((r.evict c).objects id').idle = (r.objects id').idle ∧
            ((r.evict c).objects id').project = (r.objects id').project := by
          intro id'
          obtain ⟨hproject, _, hused, _⟩ := closeEntry_fields { r with
            entries := r.entries.delete (r.objects c).project
            canonicalProjects := r.canonicalProjects.erase (r.objects c).project } c id'
          exact ⟨hused, idle_closeEntry id', hproject⟩
        apply ih (h.evict hmem hidle).sound hget
        obtain hbusy | ⟨hlast, hroom⟩ := hkeep
        · left
          rw [Busy, (hfields id).2.1]
          exact hbusy
        · right
          constructor
          · intro id' hmem' hid
            rw [(hfields id').1, (hfields id).1]
            exact hlast id' (values_evict_sublist.subset hmem') hid
          · refine lt_of_le_of_lt ?_ hroom
            simp only [busyOthers, (hfields _).2.1, (hfields _).2.2]
            exact values_evict_sublist.countP_le
    · exact hp

end Registry

end Ariad.Ui
