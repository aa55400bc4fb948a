import Mathlib.Data.List.Perm.Subperm
import Ariad.Ui.RegistryLaws

/-!
# Leases over whole runs

* `refreshCodeReader_open` — when a refresh returns an open reader.
* `Server.Inv` — the registry is sound, its counts are those of the leases, and what a lease gave is still its
  entry's.
* `storeRegistry_leases` — the laws of every run.
-/

namespace Ariad.Ui

open Registry List Option OrderedMap

variable {opts : RegistryOptions} {env : Env} {r r' t : Registry} {id : ℕ} {project : Text} {s s' : Server}
  {i : ℕ} {l : Lease} {e : Event}

namespace Registry

theorem Found.registered (h : Found opts r project t id) : t.Registered id := by
  rw [Registered, (h.sound.known _ _ h.entry).2]
  exact h.entry

theorem Quiet.shrunk (h : Quiet opts r t) (hshrunk : Shrunk opts r) : Shrunk opts t := by
  obtain hle | hbusy := hshrunk
  · left
    rwa [h.entries]
  · right
    intro id hid
    rw [values, h.entries] at hid
    have := hbusy id hid
    rw [Busy, StoreEntry.idle] at this ⊢
    rwa [(h.counts id).1, (h.counts id).2]

/-! ## Refreshing a reader -/

/-- A refreshed entry of the project stays: it is pinned or leased, or fewer other entries than the registry may
hold are. -/
def Room (opts : RegistryOptions) (r : Registry) (project : Text) : Prop :=
  project = opts.defaultProject ∨
  (∃ id, r.entries.get project = some id ∧ 0 < (r.objects id).refCount) ∨
  r.busyOthers project < opts.maxEntries

theorem busyOthers_openEntry (h : Sound opts r) (hnone : r.entries.get project = none) :
    (r.openEntry opts env project).busyOthers project = r.busyOthers project := by
  obtain ⟨names, hn⟩ := exists_openEntry opts env r project
  have hvalues : (r.openEntry opts env project).values = r.values ++ [r.nextObject] := by
    have hkeep : r.entries.delete project = r.entries := delete_of_get_none hnone
    rw [hn]
    simp [values, insertEntry, newEntry, set_of_get_none hnone, OrderedMap.push, hkeep]
  have hold : ∀ id, id ∈ r.values → (r.openEntry opts env project).objects id = r.objects id := by
    intro id hmem
    obtain ⟨p, hp⟩ := mem_values.mp hmem
    rw [hn]
    exact Function.update_of_ne (h.known p id hp).1.ne ..
  have hnew : ((r.openEntry opts env project).objects r.nextObject).project = project := by
    rw [hn]
    simp [insertEntry, newEntry]
  rw [busyOthers, hvalues, countP_append]
  have htail : [r.nextObject].countP (fun id => ((r.openEntry opts env project).objects id).project ≠ project ∧
      ((r.openEntry opts env project).objects id).idle = false) = 0 := by
    simp [hnew]
  rw [htail, Nat.add_zero]
  apply countP_congr
  intro id hmem
  rw [hold id hmem]

/-- The entry that a refresh works on is one that eviction leaves, when there was room for it. -/
theorem Room.found (hroom : Room opts r project) (env : Env) (h : Sound opts r) :
    (r.getEntry opts env project).1.Busy (r.getEntry opts env project).2 ∨
      (r.getEntry opts env project).1.busyOthers project < opts.maxEntries := by
  have hfound := found_getEntry env project h
  obtain rfl | ⟨id, hid, hpos⟩ | hroom := hroom
  · left
    simp [Busy, StoreEntry.idle, hfound.sound.pinned _ _ hfound.entry]
  · left
    rw [getEntry, hid]
    simp [Busy, StoreEntry.idle, hpos]
  · right
    rw [getEntry]
    split
    · exact hroom
    · rename_i hnone
      rwa [busyOthers_openEntry h hnone]

theorem Reopened.busy {id' : ℕ} (h : Reopened opts r id t) : t.Busy id' ↔ r.Busy id' := by
  simp only [Busy, StoreEntry.idle, (h.counts id').1, (h.counts id').2]

theorem Reopened.busyOthers (h : Reopened opts r id t) : t.busyOthers project = r.busyOthers project := by
  have hidle : ∀ id', (t.objects id').idle = (r.objects id').idle := by
    intro id'
    simp only [StoreEntry.idle, (h.counts id').1, (h.counts id').2]
  simp only [Registry.busyOthers, values, h.entries, h.projects, hidle]

/-- **Refreshing a reader.** With a reader that opens, and room for the entry, an open reader is returned. -/
theorem refreshCodeReader_open (h : Sound opts r) (hvalid : opts.isValidProjectName project = true)
    (hopens : (env.openCodeGraphReaderForRead opts (r.resolveProjectName opts env project).2).isSome)
    (hroom : Room opts r (r.resolveProjectName opts env project).2) :
    ∃ x, (r.refreshCodeReader opts env project).2 = some (some x) ∧
      ((r.refreshCodeReader opts env project).1.handles x).isOpen = true := by
  obtain ⟨names, hnames⟩ := exists_resolveProjectName opts env r project
  generalize hc : (r.resolveProjectName opts env project).2 = canonical at hopens hroom
  -- The registry with the name resolved, with the entry, with the reader, and after eviction.
  have h₁ : Sound opts { r with canonicalProjects := names } := h.of_canonical names
  have hroom₁ : Room opts { r with canonicalProjects := names } canonical := hroom
  have hfound := found_getEntry env canonical h₁
  have hkeep := hroom₁.found env h₁
  rw [refreshCodeReader, if_pos hvalid]
  simp only [hnames, hc]
  generalize (getEntry opts env _ canonical).1 = t at hfound hkeep ⊢
  generalize (getEntry opts env _ canonical).2 = id at hfound hkeep ⊢
  obtain ⟨dbPath, hdb⟩ := isSome_iff_exists.mp hopens
  have hproject := (hfound.sound.known _ _ hfound.entry).2
  obtain ⟨u, hu⟩ : ∃ u, t.reopenCodeReader opts env id = some u := by
    rw [reopenCodeReader, hproject, hdb]
    exact ⟨_, rfl⟩
  have hre := hfound.sound.reopenCodeReader hu
  simp only [hu]
  have hentry : u.entries.get canonical = some id := by rw [hre.entries, hfound.entry]
  have hstays : (u.evictIdleEntries opts).entries.get canonical = some id := by
    apply evictLoop_keeps_fresh _ hre.sound hentry
    obtain hbusy | hothers := hkeep
    · exact .inl (hre.busy.mpr hbusy)
    · refine .inr ⟨fun id' hmem hne => ?_, by rwa [hre.busyOthers]⟩
      obtain ⟨p, hp⟩ := mem_values.mp hmem
      rw [hre.entries] at hp
      have := hfound.sound.lastUsed p id' hp
      rw [hre.recent, hre.others id' hne]
      omega
  have hev := (hre.sound.evictIdleEntries).1
  have hreader : ((u.evictIdleEntries opts).objects id).codeReaderHandle = some t.nextHandle := by
    rw [hev.objects _ _ hstays, hre.reader]
  refine ⟨t.nextHandle, by rw [hreader], ?_⟩
  rw [(hev.sound.reader _ _ hreader).2]

end Registry

/-! ## The invariant of the leases -/

/-- The lease is of this entry and not released. -/
def Lease.on (id : ℕ) (l : Lease) : Bool := decide (l.entry = id) && !l.released

namespace Server

/-- What a lease gave is the human store of its entry, or a reader that its entry has or that was replaced by a
newer one. -/
def Gives (r : Registry) (id : ℕ) (g : Obtained) : Prop :=
  match g.kind with
  | .human => (r.objects id).humanStoreHandle = some g.handle
  | .reader => ∃ x, (r.objects id).codeReaderHandle = some x ∧ g.handle ≤ x

structure Inv (opts : RegistryOptions) (s : Server) : Prop where
  sound : Sound opts s.registry
  known : ∀ l ∈ s.leases, l.entry < s.registry.nextObject
  counts : ∀ id, id < s.registry.nextObject → (s.registry.objects id).refCount = s.leases.countP (Lease.on id)
  got : ∀ g ∈ s.obtained, ∃ l, s.leases[g.lease]? = some l ∧
    (l.released = false → s.registry.Registered l.entry → Gives s.registry l.entry g)

theorem Inv.refCount_pos (h : s.Inv opts) (hl : s.leases[i]? = some l) (hopen : l.released = false) :
    0 < (s.registry.objects l.entry).refCount := by
  have hmem := mem_of_getElem? hl
  rw [h.counts l.entry (h.known l hmem), countP_pos_iff]
  exact ⟨l, hmem, by simp [Lease.on, hopen]⟩

/-- An operation of the registry that keeps the leased entries keeps the invariant. -/
theorem Inv.keeps (h : s.Inv opts) (hsound : Sound opts r) (hkeeps : Keeps s.registry r) :
    Inv opts { s with registry := r } where
  sound := hsound
  known l hl := (h.known l hl).trans_le hkeeps.nextObject
  counts id hid := by
    by_cases hlt : id < s.registry.nextObject
    · rw [hkeeps.refCount id hlt, h.counts id hlt]
    · rw [hkeeps.fresh id (not_lt.mp hlt) hid, eq_comm, countP_eq_zero]
      intro l hl
      have := h.known l hl
      have hne : l.entry ≠ id := by omega
      simp [Lease.on, hne]
  got g hg := by
    obtain ⟨l, hl, hgives⟩ := h.got g hg
    refine ⟨l, hl, fun hopen hreg => ?_⟩
    have hlt := h.known l (mem_of_getElem? hl)
    have hpos := h.refCount_pos hl hopen
    have hold := hgives hopen (hkeeps.back _ hlt hreg)
    cases hk : g.kind with
    | human =>
      simp only [Gives, hk] at hold ⊢
      exact hkeeps.human _ _ hlt hpos hold
    | reader =>
      simp only [Gives, hk] at hold ⊢
      obtain ⟨x, hx, hle⟩ := hold
      obtain ⟨y, hy, hle'⟩ := hkeeps.reader _ x hlt hpos hx
      exact ⟨y, hy, hle.trans hle'⟩

theorem Inv.found (h : s.Inv opts) (project : Text) (env : Env) : ∃ id,
    ((s.registry.resolveProjectName opts env project).1.getEntry opts env
      (s.registry.resolveProjectName opts env project).2).2 = id ∧
    Found opts s.registry (s.registry.resolveProjectName opts env project).2
      ((s.registry.resolveProjectName opts env project).1.getEntry opts env
        (s.registry.resolveProjectName opts env project).2).1 id := by
  obtain ⟨names, hnames⟩ := exists_resolveProjectName opts env s.registry project
  refine ⟨_, rfl, ?_⟩
  rw [hnames]
  have hfound := found_getEntry env (s.registry.resolveProjectName opts env project).2 (h.sound.of_canonical names)
  exact ⟨hfound.sound, (Keeps.of_canonical _ names).trans hfound.keeps, hfound.entry⟩

/-! ## Taking and releasing a lease -/

theorem sound_touch (h : Sound opts r) (n : ℕ) : Sound opts (r.touch id n) := by
  refine h.setEntry rfl rfl rfl (Nat.le_succ _) rfl rfl (fun _ => le_rfl) (fun x => h.human id x)
    (fun x => h.reader id x) (fun id' x _ hx => ?_) (h.blank id)
  exact ⟨hx.elim (fun hx => (h.human id' x hx).1) fun hx => (h.reader id' x hx).1, rfl⟩

/-- A touched entry differs in its count and its time only. -/
theorem touch_fields (r : Registry) (id n id' : ℕ) :
    ((r.touch id n).objects id').project = (r.objects id').project ∧
    ((r.touch id n).objects id').humanStoreHandle = (r.objects id').humanStoreHandle ∧
    ((r.touch id n).objects id').codeReaderHandle = (r.objects id').codeReaderHandle ∧
    ((r.touch id n).objects id').refCount = if id' = id then n else (r.objects id').refCount := by
  by_cases h : id' = id
  · subst h
    simp [touch, setEntry]
  · simp [touch, setEntry, h]

theorem registered_touch (n id' : ℕ) : (r.touch id n).Registered id' ↔ r.Registered id' := by
  rw [Registered, Registered, (touch_fields r id n id').1]
  rfl

theorem gives_touch (n id' : ℕ) (g : Obtained) : Gives (r.touch id n) id' g ↔ Gives r id' g := by
  obtain ⟨_, hhuman, hreader, _⟩ := touch_fields r id n id'
  simp only [Gives, hhuman, hreader]

theorem Inv.lease (h : s.Inv opts) (hid : id < s.registry.nextObject) :
    Inv opts { s with
      registry := s.registry.touch id ((s.registry.objects id).refCount + 1)
      leases := s.leases ++ [⟨id, false⟩] } where
  sound := sound_touch h.sound _
  known l hl := by
    obtain hl | rfl := (mem_append.mp hl).imp_right mem_singleton.mp
    · exact h.known l hl
    · exact hid
  counts id' hid' := by
    rw [(touch_fields _ _ _ id').2.2.2, countP_append, ← h.counts id' hid']
    by_cases hne : id' = id
    · subst hne
      simp [Lease.on]
    · simp [Lease.on, hne, Ne.symm hne]
  got g hg := by
    obtain ⟨l, hl, hgives⟩ := h.got g hg
    refine ⟨l, ?_, fun hopen hreg => ?_⟩
    · rw [getElem?_append_left (List.getElem?_eq_some_iff.mp hl).1]
      exact hl
    · exact (gives_touch _ _ _).mpr (hgives hopen ((registered_touch _ _).mp hreg))

theorem Inv.unlease (h : s.Inv opts) (hl : s.leases[i]? = some ⟨id, false⟩) :
    Inv opts { s with
      registry := s.registry.touch id ((s.registry.objects id).refCount - 1)
      leases := s.leases.set i ⟨id, true⟩ } where
  sound := sound_touch h.sound _
  known l hmem := by
    obtain hmem | rfl := mem_or_eq_of_mem_set hmem
    · exact h.known l hmem
    · exact h.known ⟨id, false⟩ (mem_of_getElem? hl)
  counts id' hid' := by
    obtain ⟨hlt, hget⟩ := List.getElem?_eq_some_iff.mp hl
    rw [(touch_fields _ _ _ id').2.2.2, countP_set hlt, hget]
    by_cases hne : id' = id
    · subst hne
      rw [if_pos rfl, h.counts id' hid']
      simp [Lease.on]
    · rw [if_neg hne, h.counts id' hid']
      simp [Lease.on, Ne.symm hne]
  got g hg := by
    obtain ⟨l, hl', hgives⟩ := h.got g hg
    by_cases hi : i = g.lease
    · subst hi
      refine ⟨⟨id, true⟩, ?_, nofun⟩
      rw [getElem?_set_self (List.getElem?_eq_some_iff.mp hl).1]
    · refine ⟨l, by rw [getElem?_set_ne hi]; exact hl', fun hopen hreg => ?_⟩
      exact (gives_touch _ _ _).mpr (hgives hopen ((registered_touch _ _).mp hreg))

/-! ## One call -/

theorem Inv.acquire (h : s.Inv opts) : (s.acquire opts env project).Inv opts := by
  rw [Server.acquire]
  split
  · obtain ⟨id, hid, hfound⟩ := h.found project env
    have h₁ := h.keeps hfound.sound hfound.keeps
    have h₂ := h₁.lease (hfound.sound.known _ _ hfound.entry).1
    obtain ⟨hev, _⟩ := h₂.sound.evictIdleEntries
    simp only [hid]
    exact h₂.keeps hev.sound hev.keeps
  · exact h

theorem Inv.release (h : s.Inv opts) : (s.release opts i).Inv opts := by
  rw [Server.release]
  split
  · rename_i id hl
    have h₁ := h.unlease hl
    obtain ⟨hev, _⟩ := h₁.sound.evictIdleEntries
    exact h₁.keeps hev.sound hev.keeps
  · exact h
  · exact h

/-- A handle that a lease gives. -/
theorem Inv.obtain_handle (h : s.Inv opts) {g : Obtained} (hl : s.leases[g.lease]? = some l)
    (hgives : Gives s.registry l.entry g) : Inv opts { s with obtained := s.obtained ++ [g] } where
  sound := h.sound
  known := h.known
  counts := h.counts
  got g' hg := by
    obtain hg | rfl := (mem_append.mp hg).imp_right mem_singleton.mp
    · exact h.got g' hg
    · exact ⟨l, hl, fun _ _ => hgives⟩

/-- What closes every entry keeps the objects' names and counts. -/
theorem foldl_closeEntry (ids : List ℕ) (h : Sound opts r) :
    Sound opts (ids.foldl closeEntry r) ∧ (ids.foldl closeEntry r).nextObject = r.nextObject ∧
      ∀ id, ((ids.foldl closeEntry r).objects id).refCount = (r.objects id).refCount := by
  induction ids generalizing r with
  | nil => exact ⟨h, rfl, fun _ => rfl⟩
  | cons id ids ih =>
    obtain ⟨hsound, hnext, hcounts⟩ := ih (h.closeEntry id)
    refine ⟨hsound, hnext.trans nextObject_closeEntry, fun id' => ?_⟩
    exact (hcounts id').trans (closeEntry_fields r id id').2.1

theorem Inv.closeAll (h : s.Inv opts) : Inv opts { s with registry := s.registry.closeAll } := by
  obtain ⟨hsound, hnext, hcounts⟩ := foldl_closeEntry s.registry.values h.sound
  constructor
  · exact ⟨nofun, nofun, nofun, hsound.human, hsound.reader, hsound.blank⟩
  · intro l hl
    exact (h.known l hl).trans_le hnext.ge
  · intro id hid
    exact (hcounts id).trans (h.counts id (hid.trans_le hnext.le))
  · intro g hg
    obtain ⟨l, hl, _⟩ := h.got g hg
    exact ⟨l, hl, fun _ hreg => by cases hreg⟩

theorem refreshCodeReader_keeps (h : s.Inv opts) (env : Env) (project : Text) :
    Sound opts (s.registry.refreshCodeReader opts env project).1 ∧
      Keeps s.registry (s.registry.refreshCodeReader opts env project).1 := by
  rw [Registry.refreshCodeReader]
  split
  · obtain ⟨id, hid, hfound⟩ := h.found project env
    simp only [hid]
    split
    · exact ⟨hfound.sound, hfound.keeps⟩
    · rename_i t ht
      have hre := hfound.sound.reopenCodeReader ht
      obtain ⟨hev, _⟩ := hre.sound.evictIdleEntries
      exact ⟨hev.sound, hfound.keeps.trans (hre.keeps.trans hev.keeps)⟩
  · exact ⟨h.sound, .refl _⟩

theorem Inv.step (h : s.Inv opts) (hs : s.Step opts e s') : s'.Inv opts := by
  obtain rfl := hs
  cases e with
  | acquire env project => exact h.acquire
  | humanStore env i =>
    simp only [after]
    split
    · rename_i r x hget
      obtain ⟨l, hl, hstore⟩ := bind_eq_some_iff.mp hget
      obtain ⟨hquiet, hx⟩ := h.sound.getHumanStore hstore
      exact (h.keeps hquiet.sound hquiet.keeps).obtain_handle hl hx
    · exact h
  | codeReader env i =>
    simp only [after]
    split
    · rename_i r x hget
      obtain ⟨l, hl, hreader⟩ := bind_eq_some_iff.mp hget
      obtain ⟨hquiet, hx⟩ := h.sound.getCodeReader hreader
      exact (h.keeps hquiet.sound hquiet.keeps).obtain_handle hl ⟨x, hx, le_rfl⟩
    · rename_i r hget
      obtain ⟨l, hl, hreader⟩ := bind_eq_some_iff.mp hget
      obtain ⟨hquiet, _⟩ := h.sound.getCodeReader hreader
      exact h.keeps hquiet.sound hquiet.keeps
    · exact h
  | release i => exact h.release
  | refreshCodeReader env project =>
    obtain ⟨hsound, hkeeps⟩ := refreshCodeReader_keeps h env project
    exact h.keeps hsound hkeeps
  | closeAll => exact h.closeAll

theorem inv_new : (new opts env).Inv opts := by
  have hblank : Sound opts .blank := ⟨nofun, nofun, nofun, nofun, nofun, fun _ _ => rfl⟩
  have hkeeps : Keeps .blank (Registry.new opts env) := .openEntry rfl
  exact ⟨hblank.openEntry, nofun, fun id hid => hkeeps.fresh id (Nat.zero_le _) hid, nofun⟩

theorem Inv.run {es : List Event} (h : s.Inv opts) (hrun : Runs (Step opts) s es s') : s'.Inv opts :=
  hrun.invariant (fun _ _ _ hi hs => hi.step hs) h

/-! ## Leases that hold -/

/-- A lease that is not released, with its entry still in the registry. -/
def Held (s : Server) (i : ℕ) (l : Lease) : Prop :=
  s.leases[i]? = some l ∧ l.released = false ∧ s.registry.Registered l.entry

theorem Held.keeps (hheld : s.Held i l) (h : s.Inv opts) (hkeeps : Keeps s.registry r) : r.Registered l.entry :=
  hkeeps.leased _ (h.known l (mem_of_getElem? hheld.1)) (h.refCount_pos hheld.1 hheld.2.1) hheld.2.2

/-- Taking a lease gives one that holds, and leaves the others as they are. -/
theorem acquire_held (h : s.Inv opts) (hvalid : opts.isValidProjectName project = true) :
    (∃ l, (s.acquire opts env project).Held s.leases.length l) ∧
    ∀ i l, s.Held i l → (s.acquire opts env project).Held i l := by
  obtain ⟨id, hid, hfound⟩ := h.found project env
  have h₁ := h.keeps hfound.sound hfound.keeps
  have h₂ := h₁.lease (hfound.sound.known _ _ hfound.entry).1
  obtain ⟨hev, _⟩ := h₂.sound.evictIdleEntries
  rw [Server.acquire, if_pos hvalid]
  simp only [hid]
  constructor
  · refine ⟨⟨id, false⟩, getElem?_concat_length, rfl, ?_⟩
    apply Held.keeps (s := ⟨_, s.leases ++ [⟨id, false⟩], s.obtained⟩) (i := s.leases.length) ?_ h₂ hev.keeps
    exact ⟨getElem?_concat_length, rfl, (registered_touch _ _).mpr hfound.registered⟩
  · intro i l hheld
    have hget : (s.leases ++ [⟨id, false⟩])[i]? = some l := by
      rw [getElem?_append_left (List.getElem?_eq_some_iff.mp hheld.1).1]
      exact hheld.1
    refine ⟨hget, hheld.2.1, ?_⟩
    apply Held.keeps (s := ⟨_, s.leases ++ [⟨id, false⟩], s.obtained⟩) (i := i) ?_ h₂ hev.keeps
    exact ⟨hget, hheld.2.1, (registered_touch _ _).mpr (hheld.keeps h hfound.keeps)⟩

/-- Only `closeAll` takes its entry from a lease that is not released. -/
theorem Held.step (hheld : s.Held i l) (h : s.Inv opts) (hs : s.Step opts e s') (he : e ≠ .closeAll)
    (hl : s'.leases[i]? = some l) : s'.Held i l := by
  refine ⟨hl, hheld.2.1, ?_⟩
  obtain rfl := hs
  cases e with
  | acquire env project =>
    by_cases hvalid : opts.isValidProjectName project = true
    · exact ((acquire_held h hvalid).2 i l hheld).2.2
    · have hsame : s.acquire opts env project = s := by rw [Server.acquire, if_neg hvalid]
      simp only [after, hsame]
      exact hheld.2.2
  | humanStore env j =>
    simp only [after]
    split
    · rename_i r x hget
      obtain ⟨l', _, hstore⟩ := bind_eq_some_iff.mp hget
      exact hheld.keeps h (h.sound.getHumanStore hstore).1.keeps
    · exact hheld.2.2
  | codeReader env j =>
    simp only [after]
    split
    · rename_i r x hget
      obtain ⟨l', _, hreader⟩ := bind_eq_some_iff.mp hget
      exact hheld.keeps h (h.sound.getCodeReader hreader).1.keeps
    · rename_i r hget
      obtain ⟨l', _, hreader⟩ := bind_eq_some_iff.mp hget
      exact hheld.keeps h (h.sound.getCodeReader hreader).1.keeps
    · exact hheld.2.2
  | release j =>
    simp only [after, Server.release] at hl ⊢
    split at hl
    · rename_i id hj
      have h₁ := h.unlease hj
      obtain ⟨hev, _⟩ := h₁.sound.evictIdleEntries
      apply Held.keeps (s := ⟨_, s.leases.set j ⟨id, true⟩, s.obtained⟩) (i := i) ?_ h₁ hev.keeps
      exact ⟨hl, hheld.2.1, (registered_touch _ _).mpr hheld.2.2⟩
    · exact hheld.2.2
    · exact hheld.2.2
  | refreshCodeReader env project => exact hheld.keeps h (refreshCodeReader_keeps h env project).2
  | closeAll => exact absurd rfl he

/-! ## The size -/

/-- A refresh opens the reader of its project, or the project's entry was there before. -/
def Opens (opts : RegistryOptions) (s : Server) : Event → Prop
  | .refreshCodeReader env project =>
    let canonicalProject := (s.registry.resolveProjectName opts env project).2
    (s.registry.entries.get canonicalProject).isSome ∨
      (env.openCodeGraphReaderForRead opts canonicalProject).isSome
  | _ => True

theorem shrunk_refresh (h : s.Inv opts) (hshrunk : Shrunk opts s.registry)
    (hopens : Opens opts s (.refreshCodeReader env project)) :
    Shrunk opts (s.registry.refreshCodeReader opts env project).1 := by
  obtain ⟨names, hnames⟩ := exists_resolveProjectName opts env s.registry project
  have hfound := found_getEntry env (s.registry.resolveProjectName opts env project).2 (h.sound.of_canonical names)
  rw [Registry.refreshCodeReader]
  split
  · simp only [hnames]
    split
    · rename_i hfail
      obtain hthere | hopens := hopens
      · -- The entry was there, so that nothing but the names changed.
        obtain ⟨id, hid⟩ := isSome_iff_exists.mp hthere
        simp only [getEntry, hid]
        exact hshrunk
      · have hproject := (hfound.sound.known _ _ hfound.entry).2
        rw [reopenCodeReader, map_eq_none_iff, hproject] at hfail
        rw [hfail] at hopens
        cases hopens
    · rename_i t ht
      exact ((hfound.sound.reopenCodeReader ht).sound.evictIdleEntries).2
  · exact hshrunk

theorem shrunk_step (h : s.Inv opts) (hshrunk : Shrunk opts s.registry) (hopens : Opens opts s e)
    (hs : s.Step opts e s') : Shrunk opts s'.registry := by
  obtain rfl := hs
  cases e with
  | acquire env project =>
    simp only [after, Server.acquire]
    split
    · obtain ⟨id, hid, hfound⟩ := h.found project env
      have h₁ := h.keeps hfound.sound hfound.keeps
      have h₂ := h₁.lease (hfound.sound.known _ _ hfound.entry).1
      simp only [hid]
      exact (h₂.sound.evictIdleEntries).2
    · exact hshrunk
  | humanStore env j =>
    simp only [after]
    split
    · rename_i r x hget
      obtain ⟨l', _, hstore⟩ := bind_eq_some_iff.mp hget
      exact (h.sound.getHumanStore hstore).1.shrunk hshrunk
    · exact hshrunk
  | codeReader env j =>
    simp only [after]
    split
    · rename_i r x hget
      obtain ⟨l', _, hreader⟩ := bind_eq_some_iff.mp hget
      exact (h.sound.getCodeReader hreader).1.shrunk hshrunk
    · rename_i r hget
      obtain ⟨l', _, hreader⟩ := bind_eq_some_iff.mp hget
      exact (h.sound.getCodeReader hreader).1.shrunk hshrunk
    · exact hshrunk
  | release j =>
    simp only [after, Server.release]
    split
    · rename_i id hj
      exact ((h.unlease hj).sound.evictIdleEntries).2
    · exact hshrunk
    · exact hshrunk
  | refreshCodeReader env project => exact shrunk_refresh h hshrunk hopens
  | closeAll => exact .inl (Nat.zero_le _)

/-- Without leases only the default project's entry is busy. -/
theorem Inv.size_le (h : s.Inv opts) (hshrunk : Shrunk opts s.registry) (hfree : ∀ l ∈ s.leases, l.released = true) :
    s.registry.entries.size ≤ opts.maxEntries := by
  obtain hle | hbusy := hshrunk
  · exact hle
  · have hkeys : s.registry.entries.keys ⊆ [opts.defaultProject] := by
      intro p hp
      obtain ⟨id, hid⟩ := mem_keys_iff.mp hp
      have hzero : (s.registry.objects id).refCount = 0 := by
        rw [h.counts id (h.sound.known p id hid).1, countP_eq_zero]
        intro l hl
        simp [Lease.on, hfree l hl]
      have hb := hbusy id (mem_values.mpr ⟨p, hid⟩)
      simp [Busy, StoreEntry.idle, hzero, h.sound.pinned p id hid] at hb
      simp [hb]
    have hlen := (List.Nodup.subperm s.registry.entries.nodup hkeys).length_le
    rw [length_map, length_singleton] at hlen
    exact hlen.trans opts.one_le

/-! ## Every run -/

/-- A human store that was given is open; of a reader, the entry has an open one, that reader or a newer one. -/
def Serves (r : Registry) (id : ℕ) (g : Obtained) : Prop :=
  match g.kind with
  | .human => (r.handles g.handle).isOpen = true
  | .reader => ∃ x, (r.objects id).codeReaderHandle = some x ∧ (r.handles x).isOpen = true ∧ g.handle ≤ x

theorem Inv.serves (h : s.Inv opts) {g : Obtained} (hg : g ∈ s.obtained) (hheld : s.Held g.lease l) :
    Serves s.registry l.entry g := by
  obtain ⟨l', hl', hgives⟩ := h.got g hg
  rw [hheld.1] at hl'
  obtain rfl := Option.some.inj hl'
  have hgives := hgives hheld.2.1 hheld.2.2
  cases hk : g.kind with
  | human =>
    simp only [Gives, Serves, hk] at hgives ⊢
    rw [(h.sound.human _ _ hgives).2]
  | reader =>
    simp only [Gives, Serves, hk] at hgives ⊢
    obtain ⟨x, hx, hle⟩ := hgives
    exact ⟨x, hx, by rw [(h.sound.reader _ _ hx).2], hle⟩

theorem size_new : (Registry.new opts env).entries.size = 1 := by
  obtain ⟨names, hn⟩ := exists_openEntry opts env .blank opts.defaultProject
  rw [Registry.new, hn]
  rfl

/-- **Store leases.** A human store that a lease gave stays open while the lease holds, and a reader until its
entry has a newer one; only `closeAll` takes a lease's entry. A refresh that has room returns an open reader. And
where every refreshed entry opens, a registry without leases is within its size. -/
theorem storeRegistry_leases {es : List Event} (hrun : Runs (Step opts) (new opts env) es s) :
    (∀ g ∈ s.obtained, ∀ l, s.Held g.lease l → Serves s.registry l.entry g) ∧
    (∀ env project, opts.isValidProjectName project = true →
      ∃ l, (s.acquire opts env project).Held s.leases.length l) ∧
    (∀ i l e s', s.Held i l → s.Step opts e s' → e ≠ .closeAll → s'.leases[i]? = some l → s'.Held i l) ∧
    (∀ env project, opts.isValidProjectName project = true →
      (env.openCodeGraphReaderForRead opts (s.registry.resolveProjectName opts env project).2).isSome →
      Room opts s.registry (s.registry.resolveProjectName opts env project).2 →
      ∃ x, (s.registry.refreshCodeReader opts env project).2 = some (some x) ∧
        ((s.registry.refreshCodeReader opts env project).1.handles x).isOpen = true) ∧
    (Runs (Guarded (Opens opts) (Step opts)) (new opts env) es s → (∀ l ∈ s.leases, l.released = true) →
      s.registry.entries.size ≤ opts.maxEntries) := by
  have hinv := inv_new.run hrun
  refine ⟨fun g hg l hheld => hinv.serves hg hheld, ?_, ?_, ?_, ?_⟩
  · intro env project hvalid
    exact (acquire_held hinv hvalid).1
  · intro i l e s' hheld hs he hl
    exact hheld.step hinv hs he hl
  · intro env project hvalid hopens hroom
    exact refreshCodeReader_open hinv.sound hvalid hopens hroom
  · intro hguarded hfree
    apply hinv.size_le _ hfree
    -- Along the run the registry is shrunk after every call.
    have hboth : s.Inv opts ∧ Shrunk opts s.registry := by
      apply hguarded.invariant (I := fun s => s.Inv opts ∧ Shrunk opts s.registry)
      · intro s e s' hi hs
        exact ⟨hi.1.step hs.2, shrunk_step hi.1 hi.2 hs.1 hs.2⟩
      · exact ⟨inv_new, .inl (size_new.trans_le opts.one_le)⟩
    exact hboth.2

/-- A registry for one entry, under names that are all valid. -/
def oneEntry : RegistryOptions := ⟨fun _ => true, fun p => p, [], 1, rfl, le_rfl⟩

/-- Every database opens. -/
def working : Env := ⟨false, fun _ => none, fun _ => true, fun _ => true, fun _ _ => false⟩

/-- No reader opens. -/
def broken : Env := { working with readerOpens := fun _ => false }

theorem storeRegistry_leases_one :
    ∃ s, Runs (Step oneEntry) (new oneEntry working)
        [.acquire working ['a'], .humanStore working 0, .codeReader working 0] s ∧
      s.Held 0 ⟨1, false⟩ ∧ ∀ g ∈ s.obtained, ∀ l, s.Held g.lease l → Serves s.registry l.entry g := by
  have hrun : Runs (Step oneEntry) (new oneEntry working)
      [.acquire working ['a'], .humanStore working 0, .codeReader working 0] _ :=
    .cons rfl (.cons rfl (.cons rfl (.nil _)))
  exact ⟨_, hrun, ⟨rfl, rfl, rfl⟩, (storeRegistry_leases hrun).1⟩

/-- A refresh closes the reader that a lease gave, and so does `closeAll`. In a full registry the refresh of another project returns no
reader. And a refresh that fails leaves one entry more than the registry may hold. -/
theorem storeRegistry_refresh :
    (∃ s, Runs (Step oneEntry) (new oneEntry working)
        [.acquire working ['a'], .codeReader working 0, .refreshCodeReader working ['a']] s ∧
      s.Held 0 ⟨1, false⟩ ∧ ⟨0, .reader, 0⟩ ∈ s.obtained ∧ (s.registry.handles 0).isOpen = false) ∧
    (∃ s, Runs (Step oneEntry) (new oneEntry working)
        [.acquire working ['a'], .codeReader working 0, .closeAll] s ∧
      s.leases = [⟨1, false⟩] ∧ ⟨0, .reader, 0⟩ ∈ s.obtained ∧ (s.registry.handles 0).isOpen = false) ∧
    (working.openCodeGraphReaderForRead oneEntry ['a']).isSome = true ∧
    ((Registry.new oneEntry working).refreshCodeReader oneEntry working ['a']).2 = some none ∧
    ∃ s, Runs (Step oneEntry) (new oneEntry working) [.refreshCodeReader broken ['a']] s ∧
      s.leases = [] ∧ s.registry.entries.size = 2 := by
  refine ⟨⟨_, .cons rfl (.cons rfl (.cons rfl (.nil _))), ⟨rfl, rfl, rfl⟩, ?_, rfl⟩,
    ⟨_, .cons rfl (.cons rfl (.cons rfl (.nil _))), rfl, ?_, rfl⟩, rfl, rfl, _, .single rfl, rfl, rfl⟩
  all_goals exact mem_singleton_self _

/-- **Counts and handles.** In every run an entry counts its open leases, and has only handles that are open and its
own. -/
theorem storeRegistry_counts {es : List Event} (hrun : Runs (Step opts) (new opts env) es s) :
    (∀ id, id < s.registry.nextObject → (s.registry.objects id).refCount = s.leases.countP (Lease.on id)) ∧
    (∀ id h, (s.registry.objects id).humanStoreHandle = some h → s.registry.handles h = ⟨id, .human, true⟩) ∧
    ∀ id h, (s.registry.objects id).codeReaderHandle = some h → s.registry.handles h = ⟨id, .reader, true⟩ :=
  have hinv := inv_new.run hrun
  ⟨hinv.counts, fun id h hh => (hinv.sound.human id h hh).2, fun id h hh => (hinv.sound.reader id h hh).2⟩

theorem storeRegistry_counts_one : ∃ s, Runs (Step oneEntry) (new oneEntry working)
    [.acquire working ['a'], .humanStore working 0] s ∧
      (s.registry.objects 1).refCount = s.leases.countP (Lease.on 1) := by
  have hrun : Runs (Step oneEntry) (new oneEntry working)
      [.acquire working ['a'], .humanStore working 0] _ := .cons rfl (.cons rfl (.nil _))
  exact ⟨_, hrun, (storeRegistry_counts hrun).1 1 (by decide)⟩

end Server

end Ariad.Ui
