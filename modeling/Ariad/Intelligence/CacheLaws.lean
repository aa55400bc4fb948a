import Mathlib.Algebra.Order.BigOperators.Group.List
import Mathlib.Algebra.Order.Ring.Nat
import Ariad.Intelligence.SwrCache

/-!
# What the cache keeps

* `Accounted` — the bytes are those of the entries, the budget holds, and handlers and pending timers are
  those of stored entries.
* `Coherent` — the same without the budget, and how timers, refreshes and entries belong together.
* `Frame` — what an operation adds has new ids, so that an old refresh never meets a new entry.
* `Tame` — the events that the code handles as it should.
* `swrCache_accounted` — the laws of every run of such events.
-/

namespace Ariad.Intelligence

open SwrCache List OrderedMap Option

variable {κ ν : Type} [DecidableEq κ] {cfg : SwrCacheOptions ν} {s s' s'' : SwrCache κ ν} {key : κ}

/-! ## Invariants -/

/-- The size of an entry, as a number of the account. -/
def bytesOf (e : SwrCacheEntry ν) : ℤ := e.size

structure Accounted (cfg : SwrCacheOptions ν) (s : SwrCache κ ν) : Prop where
  bytes : s.totalBytes = s.entries.total bytesOf
  /-- With more than one entry the cache is within its budget. -/
  budget : 1 < s.entries.size → s.entries.size ≤ cfg.maxEntries ∧ s.totalBytes ≤ cfg.maxBytes
  handlers : ∀ k, s.refreshHandlers.has k = true → s.entries.has k = true
  timers : ∀ t k, s.pending.get t = some k → s.entries.has k = true

structure Coherent (s : SwrCache κ ν) : Prop where
  bytes : s.totalBytes = s.entries.total bytesOf
  handlers : ∀ k, s.refreshHandlers.has k = true → s.entries.has k = true
  timers : ∀ k, s.refreshTimers.has k = true → s.entries.has k = true
  /-- The timers that are pending are the ones that the cache knows. -/
  pending : ∀ t k, s.pending.get t = some k ↔ s.refreshTimers.get k = some t
  timerIds : ∀ t k, s.pending.get t = some k → t < s.nextTimer
  refs : ∀ k e, s.entries.get k = some e → e.ref < s.nextRef
  running : ∀ r, s.running = some r → r.ref < s.nextRef
  /-- While its entry is stored, a refresh knows the entry's size. -/
  size : ∀ r e, s.running = some r → s.entries.get r.key = some e → e.ref = r.ref → e.size = r.size

theorem Coherent.accounted (h : Coherent s)
    (hb : 1 < s.entries.size → s.entries.size ≤ cfg.maxEntries ∧ s.totalBytes ≤ cfg.maxBytes) :
    Accounted cfg s where
  bytes := h.bytes
  budget := hb
  handlers := h.handlers
  timers t k ht := h.timers k (has_iff.mpr ⟨t, (h.pending t k).mp ht⟩)

theorem coherent_new : Coherent (SwrCache.new : SwrCache κ ν) where
  bytes := rfl
  handlers k h := by simp [SwrCache.new, OrderedMap.has] at h
  timers k h := by simp [SwrCache.new, OrderedMap.has] at h
  pending t k := by simp [SwrCache.new]
  timerIds t k h := by simp [SwrCache.new] at h
  refs k e h := by simp [SwrCache.new] at h
  running r h := by cases h
  size r e h := by cases h

/-- What an event adds is new. -/
structure Frame (s s' : SwrCache κ ν) : Prop where
  timers : ∀ t k, s'.pending.get t = some k → s.pending.get t = some k ∨ s.nextTimer ≤ t
  refs : ∀ k e', s'.entries.get k = some e' →
    (∃ e, s.entries.get k = some e ∧ e.ref = e'.ref) ∨ s.nextRef ≤ e'.ref
  running : ∀ r, s'.running = some r →
    s.running = some r ∨ s.pending.get r.timer = some r.key ∨ s.nextTimer ≤ r.timer
  nextTimer : s.nextTimer ≤ s'.nextTimer
  nextRef : s.nextRef ≤ s'.nextRef

theorem Frame.refl (s : SwrCache κ ν) : Frame s s where
  timers _ _ h := .inl h
  refs _ e h := .inl ⟨e, h, rfl⟩
  running _ h := .inl h
  nextTimer := le_rfl
  nextRef := le_rfl

theorem Frame.trans (h : Frame s s') (h' : Frame s' s'') : Frame s s'' where
  timers t k ht := by
    rcases h'.timers t k ht with ht | ht
    · exact h.timers t k ht
    · exact .inr (h.nextTimer.trans ht)
  refs k e he := by
    rcases h'.refs k e he with ⟨e', he', hr⟩ | hr
    · rcases h.refs k e' he' with ⟨e₀, he₀, hr₀⟩ | hr₀
      · exact .inl ⟨e₀, he₀, hr₀.trans hr⟩
      · exact .inr (hr ▸ hr₀)
    · exact .inr (h.nextRef.trans hr)
  running r hr := by
    rcases h'.running r hr with hr | hr | hr
    · exact h.running r hr
    · exact .inr (h.timers r.timer r.key hr)
    · exact .inr (.inr (h.nextTimer.trans hr))
  nextTimer := h.nextTimer.trans h'.nextTimer
  nextRef := h.nextRef.trans h'.nextRef

/-- Nothing that was started before timer `T` can change the entry of the key any more. -/
structure Outdated (T : ℕ) (key : κ) (s : SwrCache κ ν) : Prop where
  pending : ∀ t, s.pending.get t = some key → T ≤ t
  running : ∀ r, s.running = some r → r.key = key → r.timer < T →
    ∀ e, s.entries.get key = some e → e.ref ≠ r.ref
  later : T ≤ s.nextTimer

theorem Outdated.frame {T : ℕ} (h : Outdated T key s) (hc : Coherent s) (hf : Frame s s') :
    Outdated T key s' where
  pending t ht := by
    rcases hf.timers t key ht with ht | ht
    · exact h.pending t ht
    · exact h.later.trans ht
  running r hr hk hT e he := by
    rcases hf.running r hr with hr | hr | hr
    · rcases hf.refs key e he with ⟨e₀, he₀, heq⟩ | hnew
      · exact heq ▸ h.running r hr hk hT e₀ he₀
      · exact fun heq => absurd (heq ▸ hnew) (not_le.mpr (hc.running r hr))
    · exact absurd (h.pending r.timer (hk ▸ hr)) (not_le.mpr hT)
    · exact absurd (h.later.trans hr) (not_le.mpr hT)
  later := h.later.trans hf.nextTimer

/-! ## Entries that are changed in place -/

/-- The same objects of the same sizes. -/
structure SameObjects (m m' : OrderedMap κ (SwrCacheEntry ν)) : Prop where
  get : ∀ k, (m'.get k).map (fun e => (e.ref, e.size)) = (m.get k).map fun e => (e.ref, e.size)
  total : m'.total bytesOf = m.total bytesOf
  size : m'.size = m.size

variable {m m' : OrderedMap κ (SwrCacheEntry ν)} {e e' : SwrCacheEntry ν}

theorem SameObjects.exists (h : SameObjects m m') {k : κ} (he : m'.get k = some e') :
    ∃ e, m.get k = some e ∧ e.ref = e'.ref ∧ e.size = e'.size := by
  have hk := h.get k
  rw [he, map_some, eq_comm, map_eq_some_iff] at hk
  obtain ⟨e, hget, heq⟩ := hk
  exact ⟨e, hget, (Prod.ext_iff.mp heq).1, (Prod.ext_iff.mp heq).2⟩

theorem SameObjects.has (h : SameObjects m m') (k : κ) : m'.has k = m.has k := by
  have hk := congrArg Option.isSome (h.get k)
  simpa [OrderedMap.has] using hk

theorem sameObjects_replace (h : m.get key = some e) (hr : e'.ref = e.ref) (hs : e'.size = e.size) :
    SameObjects m (m.set key e') := by
  have hset : m.set key e' = m.replace key e' := by
    rw [OrderedMap.set, has_iff.mpr ⟨e, h⟩, if_pos rfl]
  refine ⟨fun k => ?_, ?_, ?_⟩
  · rw [get_set]
    by_cases hk : k = key
    · rw [if_pos hk, hk, h, map_some, map_some, hr, hs]
    · rw [if_neg hk]
  · rw [hset, total_replace bytesOf h, bytesOf, bytesOf, hs]
    omega
  · rw [hset, size_replace]

theorem sameObjects_push (h : m.get key = some e) (hr : e'.ref = e.ref) (hs : e'.size = e.size) :
    SameObjects m ((m.delete key).set key e') := by
  rw [set_delete]
  refine ⟨fun k => ?_, ?_, ?_⟩
  · rw [get_push]
    by_cases hk : k = key
    · rw [if_pos hk, hk, h, map_some, map_some, hr, hs]
    · rw [if_neg hk]
  · rw [total_push, total_delete, h, elim_some, bytesOf, bytesOf, hs]
    omega
  · rw [size_push, size_delete h]

theorem Coherent.sameObjects (h : Coherent s) (hm : SameObjects s.entries m) :
    Coherent { s with entries := m } where
  bytes := h.bytes.trans hm.total.symm
  handlers k hk := (hm.has k).trans (h.handlers k hk)
  timers k hk := (hm.has k).trans (h.timers k hk)
  pending := h.pending
  timerIds := h.timerIds
  refs k e' he := by
    obtain ⟨e, hget, hr, -⟩ := hm.exists he
    exact hr ▸ h.refs k e hget
  running := h.running
  size r e' hr he href := by
    obtain ⟨e, hget, her, hes⟩ := hm.exists he
    exact hes ▸ h.size r e hr hget (her.trans href)

theorem frame_sameObjects (hm : SameObjects s.entries m) : Frame s { s with entries := m } where
  timers _ _ h := .inl h
  refs k e' he := by
    obtain ⟨e, hget, hr, -⟩ := hm.exists he
    exact .inl ⟨e, hget, hr⟩
  running _ h := .inl h
  nextTimer := le_rfl
  nextRef := le_rfl

/-! ## Eviction -/

/-- An entry that does not fit into the budget together with the newer ones. -/
def TooMuch (cfg : SwrCacheOptions ν) (e : SwrCacheEntry ν) (newer : List (κ × SwrCacheEntry ν)) : Prop :=
  cfg.maxEntries < newer.length + 1 ∨ cfg.maxBytes < bytesOf e + (newer.map fun n => bytesOf n.2).sum

/-- An entry that would be evicted has no pending timer. -/
def Spares (cfg : SwrCacheOptions ν) (s : SwrCache κ ν) : Prop :=
  ∀ older k e newer, s.entries.entries = older ++ (k, e) :: newer → newer ≠ [] → TooMuch cfg e newer →
    s.refreshTimers.has k = false

/-- What eviction has done so far. -/
structure Evicting (cfg : SwrCacheOptions ν) (s s' : SwrCache κ ν) : Prop where
  coherent : Coherent s'
  spares : Spares cfg s'
  suffix : ∃ gone, s.entries.entries = gone ++ s'.entries.entries
  nonempty : s.entries.entries ≠ [] → s'.entries.entries ≠ []
  bytes : s'.totalBytes ≤ s.totalBytes
  pending : s'.pending = s.pending
  running : s'.running = s.running
  nextTimer : s'.nextTimer = s.nextTimer
  nextRef : s'.nextRef = s.nextRef

theorem Evicting.refl (h : Coherent s) (hs : Spares cfg s) : Evicting cfg s s :=
  ⟨h, hs, ⟨[], rfl⟩, fun h => h, le_rfl, rfl, rfl, rfl, rfl⟩

theorem Evicting.trans (h : Evicting cfg s s') (h' : Evicting cfg s' s'') : Evicting cfg s s'' where
  coherent := h'.coherent
  spares := h'.spares
  suffix := by
    obtain ⟨a, ha⟩ := h.suffix
    obtain ⟨b, hb⟩ := h'.suffix
    exact ⟨a ++ b, by rw [ha, hb, append_assoc]⟩
  nonempty hne := h'.nonempty (h.nonempty hne)
  bytes := h'.bytes.trans h.bytes
  pending := h'.pending.trans h.pending
  running := h'.running.trans h.running
  nextTimer := h'.nextTimer.trans h.nextTimer
  nextRef := h'.nextRef.trans h.nextRef

theorem Evicting.get (h : Evicting cfg s s') {k : κ} {e : SwrCacheEntry ν} (he : s'.entries.get k = some e) :
    s.entries.get k = some e := by
  obtain ⟨gone, hs⟩ := h.suffix
  rw [OrderedMap.get_eq_some_iff] at he ⊢
  exact hs ▸ mem_append_right gone he

theorem Evicting.frame (h : Evicting cfg s s') : Frame s s' where
  timers _ _ ht := .inl (h.pending ▸ ht)
  refs _ e he := .inl ⟨e, h.get he, rfl⟩
  running _ hr := .inl (h.running ▸ hr)
  nextTimer := h.nextTimer.ge
  nextRef := h.nextRef.ge

theorem get_of_get_delete {α β : Type} [DecidableEq α] {m : OrderedMap α β} {k l : α} {v : β}
    (h : (m.delete k).get l = some v) : m.get l = some v := by
  rw [get_delete] at h
  split at h
  · cases h
  · exact h

theorem has_delete_iff {α β : Type} [DecidableEq α] {m : OrderedMap α β} {k l : α} :
    (m.delete k).has l = true ↔ l ≠ k ∧ m.has l = true := by
  rw [OrderedMap.has, OrderedMap.has, get_delete]
  split
  · simp [*]
  · simp [*]

/-- One entry goes, if it has no pending timer. -/
theorem evictOne_evicting {k : κ} {e : SwrCacheEntry ν} {rest : List (κ × SwrCacheEntry ν)} (h : Coherent s)
    (hs : Spares cfg s) (hentries : s.entries.entries = (k, e) :: rest) (hrest : rest ≠ [])
    (htimer : s.refreshTimers.has k = false) :
    ∃ s', s.evictOne = some s' ∧ Evicting cfg s s' ∧ s'.entries.entries = rest := by
  have hget : s.entries.get k = some e := OrderedMap.get_eq_some_iff.mpr (by simp [hentries])
  have hdel : (s.entries.delete k).entries = rest := entries_delete_head hentries
  have hno : s.refreshTimers.get k = none := has_eq_false_iff.mp htimer
  have hnone : s.refreshTimers.delete k = s.refreshTimers := delete_of_get_none hno
  refine ⟨_, by rw [evictOne, hentries], ?_, hdel⟩
  refine ⟨?_, ?_, ⟨[(k, e)], by simp [hdel, hentries]⟩, fun _ => by simpa [hdel] using hrest, ?_, rfl, rfl, rfl,
    rfl⟩
  · -- Handlers and timers of the other keys stay with their entries.
    constructor
    · simp only
      rw [total_delete, hget, h.bytes]
      rfl
    · intro l hl
      obtain ⟨hne, hl⟩ := has_delete_iff.mp hl
      exact has_delete_iff.mpr ⟨hne, h.handlers l hl⟩
    · intro l hl
      simp only [hnone] at hl
      exact has_delete_iff.mpr ⟨fun hlk => by simp [hlk, htimer] at hl, h.timers l hl⟩
    · intro t l
      simp only [hnone]
      exact h.pending t l
    · exact h.timerIds
    · exact fun l e' hl => h.refs l e' (get_of_get_delete hl)
    · exact h.running
    · exact fun r e' hr hl href => h.size r e' hr (get_of_get_delete hl) href
  · intro older l e' newer hl hne hmuch
    simp only [hdel] at hl
    simp only [hnone]
    exact hs ((k, e) :: older) l e' newer (by rw [hentries, hl]; rfl) hne hmuch
  · simp only
    have : (0 : ℤ) ≤ e.size := Int.natCast_nonneg _
    omega

/-- A loop over a condition that only holds when the oldest entry is too much. -/
theorem evictWhile_evicting {full : SwrCache κ ν → Bool}
    (hfull : ∀ s k e rest, Coherent s → s.entries.entries = (k, e) :: rest → full s = true → TooMuch cfg e rest)
    (n : ℕ) (h : Coherent s) (hs : Spares cfg s) : Evicting cfg s (evictWhile full n s) := by
  induction n generalizing s with
  | zero => exact .refl h hs
  | succ n ih =>
    rw [evictWhile]
    split
    · rename_i hc
      obtain ⟨hov, hsize⟩ := hc
      cases hentries : s.entries.entries with
      | nil => simp [OrderedMap.size, hentries] at hsize
      | cons head rest =>
        obtain ⟨k, e⟩ := head
        have hrest : rest ≠ [] := by
          rintro rfl
          simp [OrderedMap.size, hentries] at hsize
        have htimer := hs [] k e rest hentries hrest (hfull s k e rest h hentries hov)
        obtain ⟨s', hone, hev, -⟩ := evictOne_evicting h hs hentries hrest htimer
        rw [hone]
        exact hev.trans (ih hev.coherent hev.spares)
    · exact .refl h hs

/-- With as many rounds as entries the loop ends at its condition. -/
theorem evictWhile_done {full : SwrCache κ ν → Bool} {n : ℕ} (hn : s.entries.size ≤ n)
    (hsize : 1 < (evictWhile full n s).entries.size) : full (evictWhile full n s) = false := by
  induction n generalizing s with
  | zero =>
    rw [evictWhile] at hsize
    omega
  | succ n ih =>
    rw [evictWhile] at hsize ⊢
    split
    · rename_i hc
      rw [if_pos hc] at hsize
      cases hentries : s.entries.entries with
      | nil => simp [OrderedMap.size, hentries] at hc
      | cons head rest =>
        obtain ⟨k, e⟩ := head
        have hone : s.evictOne = some { s with
            totalBytes := s.totalBytes - e.size
            entries := s.entries.delete k
            refreshHandlers := s.refreshHandlers.delete k
            refreshTimers := s.refreshTimers.delete k } := by rw [evictOne, hentries]
        rw [hone] at hsize ⊢
        refine ih ?_ hsize
        have hlen : s.entries.size = rest.length + 1 := by simp [OrderedMap.size, hentries]
        have hdel : (s.entries.delete k).size = rest.length := by
          rw [OrderedMap.size, entries_delete_head hentries]
        simp only
        omega
    · rename_i hc
      rw [if_neg hc] at hsize
      simpa [hsize] using hc

/-- Eviction brings the cache within its budget. -/
theorem evictToFit_evicting (h : Coherent s) (hs : Spares cfg s) :
    Evicting cfg s (evictToFit cfg s) ∧ Accounted cfg (evictToFit cfg s) := by
  have hbytes : ∀ (s : SwrCache κ ν) k e rest, Coherent s → s.entries.entries = (k, e) :: rest →
      overBytes cfg s = true → TooMuch cfg e rest := by
    intro s k e rest hc hentries hov
    have htotal : s.totalBytes = bytesOf e + (rest.map fun n => bytesOf n.2).sum := by
      rw [hc.bytes, OrderedMap.total, hentries]
      rfl
    have hgt : (cfg.maxBytes : ℤ) < s.totalBytes := by simpa [overBytes] using hov
    exact .inr (htotal ▸ hgt)
  have hcount : ∀ (s : SwrCache κ ν) k e rest, Coherent s → s.entries.entries = (k, e) :: rest →
      overEntries cfg s = true → TooMuch cfg e rest := by
    intro s k e rest _ hentries hov
    have hgt : cfg.maxEntries < s.entries.size := by simpa [overEntries] using hov
    exact .inl (by simpa [OrderedMap.size, hentries] using hgt)
  have h₁ := evictWhile_evicting hbytes s.entries.size h hs
  have h₂ := evictWhile_evicting hcount (evictWhile (overBytes cfg) s.entries.size s).entries.size
    h₁.coherent h₁.spares
  refine ⟨h₁.trans h₂, h₂.coherent.accounted fun hsize => ⟨?_, ?_⟩⟩
  · have hdone := evictWhile_done le_rfl hsize
    simpa [overEntries] using hdone
  · -- The second loop does not raise the total that the first one has lowered.
    obtain ⟨gone, hgone⟩ := h₂.suffix
    have hlarge : 1 < (evictWhile (overBytes cfg) s.entries.size s).entries.size := by
      rw [OrderedMap.size, hgone, length_append]
      exact Nat.lt_of_lt_of_le hsize (Nat.le_add_left _ _)
    have hdone := evictWhile_done le_rfl hlarge
    have hle : (evictWhile (overBytes cfg) s.entries.size s).totalBytes ≤ cfg.maxBytes := by
      simpa [overBytes] using hdone
    exact h₂.bytes.trans hle

/-! ## The operations -/

/-- A key without a timer. -/
theorem Coherent.pending_ne (h : Coherent s) (hno : s.refreshTimers.get key = none) (t : ℕ) :
    s.pending.get t ≠ some key := by
  intro ht
  rw [h.pending, hno] at ht
  cases ht

/-- A timer that the cache knows is cleared and forgotten. -/
theorem Coherent.dropTimer (h : Coherent s) {t : ℕ} (ht : s.refreshTimers.get key = some t) :
    Coherent { s.clearTimeout t with refreshTimers := s.refreshTimers.delete key } := by
  have hkey : s.pending.get t = some key := (h.pending t key).mpr ht
  refine ⟨h.bytes, h.handlers, fun k hk => ?_, fun u k => ?_, fun u k hu => ?_, h.refs, h.running, h.size⟩
  · exact h.timers k (has_delete_iff.mp hk).2
  · simp only [clearTimeout, get_delete]
    constructor
    · intro hu
      split at hu
      · cases hu
      · rename_i hne
        have hu' := (h.pending u k).mp hu
        have hk : k ≠ key := by
          rintro rfl
          exact hne (Option.some.inj (hu'.symm.trans ht))
        rw [if_neg hk]
        exact hu'
    · intro hk
      split at hk
      · cases hk
      · rename_i hne
        have hk' := (h.pending u k).mpr hk
        have hu : u ≠ t := by
          rintro rfl
          exact hne (Option.some.inj (hk'.symm.trans hkey))
        rw [if_neg hu]
        exact hk'
  · exact h.timerIds u k (get_of_get_delete hu)

theorem frame_of_pending {p : OrderedMap ℕ κ} {ts : OrderedMap κ ℕ} {hs : OrderedMap κ TtlOptions} {n : ℤ}
    (hp : ∀ t k, p.get t = some k → s.pending.get t = some k) :
    Frame s { s with pending := p, refreshTimers := ts, refreshHandlers := hs, totalBytes := n } where
  timers t k ht := .inl (hp t k ht)
  refs _ e he := .inl ⟨e, he, rfl⟩
  running _ hr := .inl hr
  nextTimer := le_rfl
  nextRef := le_rfl

theorem frame_dropTimer (s : SwrCache κ ν) (t : ℕ) (key : κ) :
    Frame s { s.clearTimeout t with refreshTimers := s.refreshTimers.delete key } :=
  frame_of_pending fun _ _ hu => get_of_get_delete hu

theorem cancelRefresh_coherent (key : κ) (h : Coherent s) :
    Coherent (s.cancelRefresh key) ∧ (s.cancelRefresh key).refreshTimers.get key = none ∧
      Frame s (s.cancelRefresh key) := by
  rw [cancelRefresh]
  cases ht : s.refreshTimers.get key with
  | none => exact ⟨h, ht, .refl s⟩
  | some t => exact ⟨h.dropTimer ht, get_delete_self, frame_dropTimer s t key⟩

@[simp] theorem entries_cancelRefresh (key : κ) (s : SwrCache κ ν) :
    (s.cancelRefresh key).entries = s.entries := by
  rw [cancelRefresh]
  split <;> rfl

@[simp] theorem totalBytes_cancelRefresh (key : κ) (s : SwrCache κ ν) :
    (s.cancelRefresh key).totalBytes = s.totalBytes := by
  rw [cancelRefresh]
  split <;> rfl

@[simp] theorem running_cancelRefresh (key : κ) (s : SwrCache κ ν) :
    (s.cancelRefresh key).running = s.running := by
  rw [cancelRefresh]
  split <;> rfl

@[simp] theorem nextRef_cancelRefresh (key : κ) (s : SwrCache κ ν) :
    (s.cancelRefresh key).nextRef = s.nextRef := by
  rw [cancelRefresh]
  split <;> rfl

/-- A new entry in the place of the one that may be there. -/
def put (key : κ) (entry : SwrCacheEntry ν) (s : SwrCache κ ν) : SwrCache κ ν :=
  { s with
    entries := s.entries.push key entry
    totalBytes := s.totalBytes - (s.entries.get key).elim 0 bytesOf + bytesOf entry
    nextRef := s.nextRef + 1 }

/-- The entry that `set` makes. -/
def freshEntry (cfg : SwrCacheOptions ν) (now : ℤ) (key : κ) (value : ν) (opts : TtlOptions)
    (s : SwrCache κ ν) : SwrCacheEntry ν where
  ref := s.nextRef
  value := value
  freshUntil := now + opts.ttlMs.getD cfg.ttlMs
  staleUntil := now + opts.ttlMs.getD cfg.ttlMs + opts.staleMs.getD cfg.staleMs
  currentTtl := opts.ttlMs.getD cfg.ttlMs
  accessCount := ((s.entries.get key).map SwrCacheEntry.accessCount).getD 0
  refreshing := false
  size := estimateSize cfg value

theorem set_eq (now : ℤ) (key : κ) (value : ν) (opts : TtlOptions) (s : SwrCache κ ν) :
    s.set cfg now key value opts =
      evictToFit cfg (put key (freshEntry cfg now key value opts (s.cancelRefresh key))
        (s.cancelRefresh key)) := by
  rw [SwrCache.set]
  congr 1
  simp only [put, freshEntry]
  cases hget : (s.cancelRefresh key).entries.get key with
  | none =>
    simp only [set_of_get_none hget, elim_none, Int.sub_zero]
    rfl
  | some e =>
    simp only [set_delete]
    rfl

theorem put_coherent (key : κ) (h : Coherent s) (entry : SwrCacheEntry ν) (href : entry.ref = s.nextRef) :
    Coherent (put key entry s) ∧ Frame s (put key entry s) := by
  have hhas {k : κ} (hk : s.entries.has k = true) : (s.entries.push key entry).has k = true := by
    rw [OrderedMap.has, get_push]
    split
    · rfl
    · exact hk
  constructor
  · refine ⟨?_, fun k hk => hhas (h.handlers k hk), fun k hk => hhas (h.timers k hk), h.pending, h.timerIds,
      fun k e he => ?_, fun r hr => Nat.lt_succ_of_lt (h.running r hr), fun r e hr he her => ?_⟩
    · simp only [put]
      rw [total_push, total_delete, h.bytes]
    · simp only [put, get_push] at he ⊢
      split at he
      · obtain rfl := Option.some.inj he
        omega
      · exact Nat.lt_succ_of_lt (h.refs k e he)
    · simp only [put, get_push] at he
      split at he
      · obtain rfl := Option.some.inj he
        have := h.running r hr
        omega
      · exact h.size r e hr he her
  · refine ⟨fun _ _ ht => .inl ht, fun k e he => ?_, fun _ hr => .inl hr, le_rfl, Nat.le_succ _⟩
    simp only [put, get_push] at he
    split at he
    · obtain rfl := Option.some.inj he
      exact .inr href.ge
    · exact .inl ⟨e, he, rfl⟩

/-- Eviction for a value of this size reaches no entry with a pending timer. -/
def SparesPending (cfg : SwrCacheOptions ν) (key : κ) (size : ℕ) (s : SwrCache κ ν) : Prop :=
  ∀ older k e newer, (s.entries.delete key).entries = older ++ (k, e) :: newer →
    (cfg.maxEntries < newer.length + 2 ∨
      cfg.maxBytes < bytesOf e + (newer.map fun n => bytesOf n.2).sum + size) →
    s.refreshTimers.has k = false

theorem spares_put {entry : SwrCacheEntry ν} (h : SparesPending cfg key entry.size s) :
    Spares cfg (put key entry (s.cancelRefresh key)) := by
  intro older k e newer hentries hne hmuch
  have hpush : (s.entries.delete key).entries ++ [(key, entry)] = older ++ (k, e) :: newer := by
    simpa [put, OrderedMap.push] using hentries
  -- The new entry stands behind `k`.
  obtain ⟨newer', x, rfl⟩ := (eq_nil_or_concat' newer).resolve_left hne
  have hassoc : older ++ (k, e) :: (newer' ++ [x]) = (older ++ (k, e) :: newer') ++ [x] := by simp
  obtain ⟨hold, hx⟩ := append_inj' (hpush.trans hassoc) rfl
  obtain rfl := (List.cons.inj hx).1
  have htimer : s.refreshTimers.has k = false := by
    refine h older k e newer' hold ?_
    rcases hmuch with hmuch | hmuch
    · left
      rw [length_append, length_singleton] at hmuch
      omega
    · right
      simp only [map_append, sum_append, map_singleton, sum_singleton] at hmuch
      have hentry : bytesOf entry = entry.size := rfl
      omega
  show (s.cancelRefresh key).refreshTimers.has k = false
  rw [cancelRefresh]
  split
  · exact Bool.eq_false_iff.mpr fun hk => Bool.false_ne_true (htimer.symm.trans (has_delete_iff.mp hk).2)
  · exact htimer

/-- `set` keeps the invariant if it spares pending timers, and is within the budget. -/
theorem set_coherent (h : Coherent s) (now : ℤ) {value : ν} (opts : TtlOptions)
    (hs : SparesPending cfg key (estimateSize cfg value) s) :
    Coherent (s.set cfg now key value opts) ∧ Accounted cfg (s.set cfg now key value opts) ∧
      Frame s (s.set cfg now key value opts) ∧ (s.set cfg now key value opts).entries.has key = true ∧
      Outdated s.nextTimer key (s.set cfg now key value opts) := by
  obtain ⟨hc, hno, hf⟩ := cancelRefresh_coherent key h
  have hspares : Spares cfg (put key (freshEntry cfg now key value opts (s.cancelRefresh key))
      (s.cancelRefresh key)) := spares_put hs
  obtain ⟨hput, hputFrame⟩ := put_coherent key hc
    (freshEntry cfg now key value opts (s.cancelRefresh key)) rfl
  obtain ⟨hev, hacc⟩ := evictToFit_evicting hput hspares
  have hframe := hf.trans (hputFrame.trans hev.frame)
  rw [set_eq]
  refine ⟨hev.coherent, hacc, hframe, ?_, ?_, ?_, hframe.nextTimer⟩
  · -- The newest entry is never evicted.
    obtain ⟨gone, hgone⟩ := hev.suffix
    have hne := hev.nonempty (by simp [put, OrderedMap.push])
    obtain ⟨kept, x, hkept⟩ := (eq_nil_or_concat' _).resolve_left hne
    have hpush : ((s.cancelRefresh key).entries.delete key).entries ++
        [(key, freshEntry cfg now key value opts (s.cancelRefresh key))] = (gone ++ kept) ++ [x] := by
      rw [append_assoc, ← hkept, ← hgone]
      rfl
    obtain ⟨-, hx⟩ := append_inj' hpush rfl
    have hmem : (key, freshEntry cfg now key value opts (s.cancelRefresh key)) ∈
        (evictToFit cfg (put key (freshEntry cfg now key value opts (s.cancelRefresh key))
          (s.cancelRefresh key))).entries.entries := by
      rw [hkept, (List.cons.inj hx).1]
      simp
    exact has_iff.mpr ⟨_, OrderedMap.get_eq_some_iff.mpr hmem⟩
  · intro t ht
    rw [hev.pending] at ht
    exact absurd ht (hc.pending_ne hno t)
  · intro r hr hk _ e he
    have hrun : s.running = some r := by
      rw [hev.running] at hr
      exact running_cancelRefresh key s ▸ hr
    have hget := hev.get he
    simp only [put, get_push, if_true, Option.some.injEq] at hget
    have href : e.ref = s.nextRef := by
      rw [← hget, ← nextRef_cancelRefresh key s]
      rfl
    exact fun heq => absurd (h.running r hrun) (by omega)

/-! ## The operations that add no bytes -/

/-- The invariant is kept, and neither the entries nor the bytes become more. -/
structure Keeps (s s' : SwrCache κ ν) : Prop where
  coherent : Coherent s'
  frame : Frame s s'
  size : s'.entries.size ≤ s.entries.size
  bytes : s'.totalBytes ≤ s.totalBytes

theorem Keeps.refl (h : Coherent s) : Keeps s s := ⟨h, .refl s, le_rfl, le_rfl⟩

theorem Keeps.trans (h : Keeps s s') (h' : Keeps s' s'') : Keeps s s'' :=
  ⟨h'.coherent, h.frame.trans h'.frame, h'.size.trans h.size, h'.bytes.trans h.bytes⟩

theorem Keeps.accounted (h : Keeps s s') (hacc : Accounted cfg s) : Accounted cfg s' := by
  refine h.coherent.accounted fun hsize => ?_
  obtain ⟨hn, hb⟩ := hacc.budget (lt_of_lt_of_le hsize h.size)
  exact ⟨h.size.trans hn, h.bytes.trans hb⟩

theorem Coherent.keeps_sameObjects (h : Coherent s) (hm : SameObjects s.entries m) :
    Keeps s { s with entries := m } :=
  ⟨h.sameObjects hm, frame_sameObjects hm, hm.size.le, le_rfl⟩

/-- The entry of a key goes. -/
def dropEntry (key : κ) (s : SwrCache κ ν) : SwrCache κ ν :=
  { s with
    totalBytes := s.totalBytes - (s.entries.get key).elim 0 bytesOf
    entries := s.entries.delete key }

/-- An entry goes that has neither a handler nor a timer. -/
theorem dropEntry_keeps (h : Coherent s) (hh : s.refreshHandlers.has key = false)
    (ht : s.refreshTimers.has key = false) : Keeps s (dropEntry key s) := by
  refine ⟨⟨?_, fun k hk => ?_, fun k hk => ?_, h.pending, h.timerIds, fun k e he => ?_, h.running,
    fun r e hr he => ?_⟩, ⟨fun _ _ ht => .inl ht, fun k e he => ?_, fun _ hr => .inl hr, le_rfl, le_rfl⟩,
    size_delete_le, ?_⟩
  · simp only [dropEntry]
    rw [total_delete, h.bytes]
  · exact has_delete_iff.mpr ⟨fun hkey => absurd (hk.symm.trans (hkey ▸ hh)) (by decide), h.handlers k hk⟩
  · exact has_delete_iff.mpr ⟨fun hkey => absurd (hk.symm.trans (hkey ▸ ht)) (by decide), h.timers k hk⟩
  · exact h.refs k e (get_of_get_delete he)
  · exact h.size r e hr (get_of_get_delete he)
  · exact .inl ⟨e, get_of_get_delete he, rfl⟩
  · simp only [dropEntry]
    cases s.entries.get key with
    | none => simp
    | some e =>
      have : (0 : ℤ) ≤ e.size := Int.natCast_nonneg _
      simp only [elim_some, bytesOf]
      omega

@[simp] theorem entries_scheduleBackgroundRefresh (key : κ) (s : SwrCache κ ν) :
    (scheduleBackgroundRefresh key s).entries = s.entries := by
  rw [scheduleBackgroundRefresh]
  split <;> rfl

/-- A stored key gets a new timer, in the place of the one that it may have. -/
theorem scheduleBackgroundRefresh_keeps (h : Coherent s) (hk : s.entries.has key = true) :
    Keeps s (scheduleBackgroundRefresh key s) := by
  -- What is pending after the old timer was cleared: the timers of the other keys.
  obtain ⟨p, hp, heq⟩ : ∃ p : OrderedMap ℕ κ,
      (∀ u k, p.get u = some k ↔ s.pending.get u = some k ∧ k ≠ key) ∧
      scheduleBackgroundRefresh key s = { s with
        pending := p.set s.nextTimer key
        refreshTimers := s.refreshTimers.set key s.nextTimer
        nextTimer := s.nextTimer + 1 } := by
    rw [scheduleBackgroundRefresh]
    cases ht : s.refreshTimers.get key with
    | none =>
      refine ⟨s.pending, fun u k => ⟨fun hu => ⟨hu, ?_⟩, fun hu => hu.1⟩, rfl⟩
      rintro rfl
      exact h.pending_ne ht u hu
    | some t =>
      refine ⟨s.pending.delete t, fun u k => ?_, rfl⟩
      rw [get_delete]
      constructor
      · intro hu
        split at hu
        · cases hu
        · rename_i hne
          refine ⟨hu, ?_⟩
          rintro rfl
          exact hne (Option.some.inj (((h.pending u k).mp hu).symm.trans ht))
      · rintro ⟨hu, hne⟩
        rw [if_neg]
        · exact hu
        · rintro rfl
          exact hne (Option.some.inj (hu.symm.trans ((h.pending u key).mpr ht)))
  rw [heq]
  have hold {u : ℕ} {k : κ} (hu : (p.set s.nextTimer key).get u = some k) :
      s.pending.get u = some k ∧ k ≠ key ∧ u ≠ s.nextTimer ∨ u = s.nextTimer ∧ k = key := by
    rw [get_set] at hu
    split at hu
    · exact .inr ⟨by assumption, (Option.some.inj hu).symm⟩
    · obtain ⟨hu, hne⟩ := (hp u k).mp hu
      exact .inl ⟨hu, hne, by assumption⟩
  refine ⟨⟨h.bytes, h.handlers, fun k hk' => ?_, fun u k => ⟨fun hu => ?_, fun hu => ?_⟩, fun u k hu => ?_,
    h.refs, h.running, h.size⟩, ⟨fun u k hu => ?_, fun _ e he => .inl ⟨e, he, rfl⟩, fun _ hr => .inl hr,
    Nat.le_succ _, le_rfl⟩, le_rfl, le_rfl⟩
  · simp only [OrderedMap.has, get_set] at hk'
    split at hk'
    · rename_i hkey
      exact hkey ▸ hk
    · exact h.timers k hk'
  · rw [get_set]
    rcases hold hu with ⟨hu, hne, -⟩ | ⟨rfl, rfl⟩
    · rw [if_neg hne]
      exact (h.pending u k).mp hu
    · simp
  · simp only [get_set] at hu ⊢
    split at hu
    · rename_i hkey
      obtain rfl := Option.some.inj hu
      simp [hkey]
    · rename_i hne
      have hu' := (h.pending u k).mpr hu
      rw [if_neg (h.timerIds u k hu').ne]
      exact (hp u k).mpr ⟨hu', hne⟩
  · rcases hold hu with ⟨hu, -, -⟩ | ⟨rfl, -⟩
    · exact Nat.lt_succ_of_lt (h.timerIds u k hu)
    · exact Nat.lt_succ_self _
  · rcases hold hu with ⟨hu, -, -⟩ | ⟨rfl, -⟩
    · exact .inl hu
    · exact .inr le_rfl

/-- An entry that is found expired has neither a handler nor a timer. -/
def SparesExpired (now : ℤ) (key : κ) (s : SwrCache κ ν) : Prop :=
  ∀ e, s.entries.get key = some e → getPhase now e = .expired →
    s.refreshHandlers.has key = false ∧ s.refreshTimers.has key = false

theorem getWithPhase_keeps (h : Coherent s) {now : ℤ} (hs : SparesExpired now key s) :
    Keeps s (s.getWithPhase now key).2 ∧
      ((s.getWithPhase now key).1.isSome = true → (s.getWithPhase now key).2.entries.has key = true) := by
  rw [getWithPhase]
  cases hget : s.entries.get key with
  | none => exact ⟨.refl h, by simp⟩
  | some e =>
    have htouch : Keeps s (s.touch key e) := h.keeps_sameObjects (sameObjects_push hget rfl rfl)
    have hhas : (s.touch key e).entries.has key = true := by simp [touch, OrderedMap.has]
    simp only
    cases hphase : getPhase now e with
    | expired =>
      obtain ⟨hh, ht⟩ := hs e hget hphase
      have hdrop := dropEntry_keeps h hh ht
      rw [dropEntry, hget] at hdrop
      exact ⟨hdrop, by simp⟩
    | fresh => exact ⟨htouch, fun _ => hhas⟩
    | stale =>
      simp only
      split
      · -- The mark changes the entry that was touched.
        have htouched : (s.touch key e).entries.get key =
            some { e with accessCount := e.accessCount + 1 } := by simp [touch]
        have hmark : SameObjects (s.touch key e).entries ((s.touch key e).entries.set key
            { e with accessCount := e.accessCount + 1, refreshing := true }) :=
          sameObjects_replace htouched rfl rfl
        have hmarked := htouch.coherent.keeps_sameObjects hmark
        have hstored : ({ s.touch key e with
            entries := (s.touch key e).entries.set key
              { e with accessCount := e.accessCount + 1, refreshing := true } } :
            SwrCache κ ν).entries.has key = true := by
          simp [OrderedMap.has]
        have hsched := scheduleBackgroundRefresh_keeps hmarked.coherent hstored
        refine ⟨htouch.trans (hmarked.trans hsched), fun _ => ?_⟩
        rw [startRefresh, entries_scheduleBackgroundRefresh]
        exact hstored
      · exact ⟨htouch, fun _ => hhas⟩

theorem setRefreshHandler_keeps (h : Coherent s) (hk : s.entries.has key = true) (opts : TtlOptions) :
    Keeps s (s.setRefreshHandler key opts) := by
  refine ⟨⟨h.bytes, fun k hk' => ?_, h.timers, h.pending, h.timerIds, h.refs, h.running, h.size⟩,
    frame_of_pending fun _ _ ht => ht, le_rfl, le_rfl⟩
  simp only [setRefreshHandler, OrderedMap.has, get_set] at hk'
  split at hk'
  · rename_i hkey
    exact hkey ▸ hk
  · exact h.handlers k hk'

theorem getOrCompute_keeps (h : Coherent s) {now : ℤ} (hs : SparesExpired now key s) (opts : TtlOptions) :
    Keeps s (s.getOrCompute now key opts).2 := by
  obtain ⟨hkeeps, hhas⟩ := getWithPhase_keeps h hs
  rw [getOrCompute]
  split
  · rename_i hit hr
    split
    · exact hkeeps
    · exact hkeeps.trans (setRefreshHandler_keeps hkeeps.coherent (hhas (by rw [hr]; rfl)) opts)
  · exact hkeeps

/-- An invalidated key is gone, with its timer and its handler. -/
theorem invalidate_keeps (key : κ) (h : Coherent s) :
    Keeps s (s.invalidate key) ∧
      ∀ k, (s.invalidate key).entries.get k = if k = key then none else s.entries.get k := by
  obtain ⟨hc, hno, hf⟩ := cancelRefresh_coherent key h
  have heq : s.invalidate key =
      dropEntry key { s.cancelRefresh key with
        refreshHandlers := (s.cancelRefresh key).refreshHandlers.delete key } := by
    rw [invalidate]
    cases hget : (s.cancelRefresh key).entries.get key with
    | none => simp only [dropEntry, hget, delete_of_get_none hget, elim_none, Int.sub_zero]
    | some e =>
      simp only [dropEntry, hget]
      rfl
  have hcancelled : Keeps s { s.cancelRefresh key with
      refreshHandlers := (s.cancelRefresh key).refreshHandlers.delete key } := by
    refine ⟨⟨hc.bytes, fun k hk => ?_, hc.timers, hc.pending, hc.timerIds, hc.refs, hc.running, hc.size⟩,
      hf.trans (frame_of_pending fun _ _ ht => ht), by simp, by simp⟩
    exact hc.handlers k (has_delete_iff.mp hk).2
  rw [heq]
  refine ⟨hcancelled.trans (dropEntry_keeps hcancelled.coherent (by simp [OrderedMap.has])
    (has_eq_false_iff.mpr hno)), fun k => ?_⟩
  simp [dropEntry, get_delete]

theorem invalidateAll_keeps (ks : List κ) (h : Coherent s) :
    Keeps s (ks.foldl (fun s key => s.invalidate key) s) ∧
      ∀ k, (ks.foldl (fun s key => s.invalidate key) s).entries.get k =
        if k ∈ ks then none else s.entries.get k := by
  induction ks generalizing s with
  | nil => exact ⟨.refl h, by simp⟩
  | cons key ks ih =>
    obtain ⟨hone, hget⟩ := invalidate_keeps key h
    obtain ⟨hrest, hgets⟩ := ih hone.coherent
    refine ⟨hone.trans hrest, fun k => ?_⟩
    rw [foldl_cons, hgets, hget]
    by_cases hk : k = key
    · simp [hk]
    · simp [hk]

theorem clear_keeps (h : Coherent s) : Keeps s s.clear := by
  -- Every pending timer is one of those that are cleared.
  have hfold (ts : List (κ × ℕ)) (p : OrderedMap ℕ κ) {u : ℕ} {k : κ}
      (hu : (ts.foldl (fun p e => p.delete e.2) p).get u = some k) : p.get u = some k ∧ (k, u) ∉ ts := by
    induction ts generalizing p with
    | nil => exact ⟨hu, by simp⟩
    | cons e ts ih =>
      obtain ⟨hget, hmem⟩ := ih (p.delete e.2) hu
      refine ⟨get_of_get_delete hget, fun hin => ?_⟩
      rcases mem_cons.mp hin with rfl | hin
      · simp at hget
      · exact hmem hin
  have hnone (u : ℕ) (k : κ) : s.clear.pending.get u ≠ some k := by
    intro hu
    obtain ⟨hget, hmem⟩ := hfold _ _ hu
    exact hmem (OrderedMap.get_eq_some_iff.mp ((h.pending u k).mp hget))
  refine ⟨⟨rfl, fun k hk => ?_, fun k hk => ?_, fun u k => ⟨fun hu => absurd hu (hnone u k), fun hu => ?_⟩,
    fun u k hu => absurd hu (hnone u k), fun k e he => ?_, h.running, fun r e hr he => ?_⟩,
    ⟨fun u k hu => absurd hu (hnone u k), fun k e he => ?_, fun _ hr => .inl hr, le_rfl, le_rfl⟩,
    Nat.zero_le _, ?_⟩
  · simp [clear, OrderedMap.has] at hk
  · simp [clear, OrderedMap.has] at hk
  · simp [clear] at hu
  · simp [clear] at he
  · simp [clear] at he
  · simp [clear] at he
  · have hnonneg : 0 ≤ s.entries.total bytesOf := by
      refine sum_nonneg fun x hx => ?_
      obtain ⟨e, -, rfl⟩ := mem_map.mp hx
      exact Int.natCast_nonneg _
    exact h.bytes ▸ hnonneg

/-! ## Refreshes -/

theorem attached_eq_some_iff {r : Refresh κ} {e : SwrCacheEntry ν} :
    s.attached r = some e ↔ s.entries.get r.key = some e ∧ e.ref = r.ref := by
  simp [attached, filter_eq_some_iff]

theorem fire_keeps (h : Coherent s) {t : ℕ} (hs : s.fire t = some s') : Keeps s s' := by
  rw [fire] at hs
  split at hs
  · rename_i key hrun hp
    have ht : s.refreshTimers.get key = some t := (h.pending t key).mp hp
    have hdrop : Keeps s { s.clearTimeout t with refreshTimers := s.refreshTimers.delete key } :=
      ⟨h.dropTimer ht, frame_dropTimer s t key, le_rfl, le_rfl⟩
    simp only at hs
    split at hs
    · obtain rfl := Option.some.inj hs
      exact hdrop
    · rename_i e hget
      split at hs
      · rename_i opts _
        obtain rfl := Option.some.inj hs
        have hc := hdrop.coherent
        refine ⟨⟨hc.bytes, hc.handlers, hc.timers, hc.pending, hc.timerIds, hc.refs, fun r hr => ?_,
          fun r e' hr he' _ => ?_⟩, ⟨hdrop.frame.timers, hdrop.frame.refs, fun r hr => ?_, le_rfl, le_rfl⟩,
          le_rfl, le_rfl⟩
        · obtain rfl := Option.some.inj hr
          exact h.refs key e hget
        · obtain rfl := Option.some.inj hr
          obtain rfl := Option.some.inj (hget.symm.trans he')
          rfl
        · obtain rfl := Option.some.inj hr
          exact .inr (.inl hp)
      · obtain rfl := Option.some.inj hs
        exact hdrop.trans (hdrop.coherent.keeps_sameObjects (sameObjects_replace hget rfl rfl))
  · cases hs

/-- A refresh that no longer runs. -/
theorem Coherent.stopped (h : Coherent s) : Coherent { s with running := none } :=
  ⟨h.bytes, h.handlers, h.timers, h.pending, h.timerIds, h.refs, fun _ hr => (by cases hr),
    fun _ _ hr => (by cases hr)⟩

theorem frame_stopped (s : SwrCache κ ν) : Frame s { s with running := none } :=
  ⟨fun _ _ ht => .inl ht, fun _ e he => .inl ⟨e, he, rfl⟩, fun _ hr => (by cases hr), le_rfl, le_rfl⟩

theorem fail_keeps (h : Coherent s) (hs : s.fail = some s') : Keeps s s' := by
  have hstop : Keeps s { s with running := none } := ⟨h.stopped, frame_stopped s, le_rfl, le_rfl⟩
  rw [fail] at hs
  split at hs
  · cases hs
  · rename_i r hr
    simp only at hs
    split at hs
    · obtain rfl := Option.some.inj hs
      exact hstop
    · rename_i e hget
      obtain rfl := Option.some.inj hs
      have hget' := (attached_eq_some_iff.mp hget).1
      exact hstop.trans (hstop.coherent.keeps_sameObjects (sameObjects_replace hget' rfl rfl))

/-- The value of a refresh fits: into the account if its entry is gone, and into the budget. -/
def RefreshFits (cfg : SwrCacheOptions ν) (newValue : ν) (s : SwrCache κ ν) : Prop :=
  ∀ r, s.running = some r →
    (s.attached r = none → estimateSize cfg newValue = r.size) ∧
    (1 < s.entries.size → s.totalBytes - r.size + estimateSize cfg newValue ≤ cfg.maxBytes)

theorem complete_coherent (h : Coherent s) (hacc : Accounted cfg s) {now : ℤ} {newValue : ν}
    (hfits : RefreshFits cfg newValue s) (hs : s.complete cfg now newValue = some s') :
    Coherent s' ∧ Accounted cfg s' ∧ Frame s s' := by
  rw [complete] at hs
  split at hs
  · cases hs
  · rename_i r hr
    obtain ⟨hgone, hroom⟩ := hfits r hr
    simp only at hs
    split at hs
    · rename_i hatt
      obtain rfl := Option.some.inj hs
      -- The sizes are the same, so the account stays as it was.
      have htotal : s.totalBytes - r.size + (estimateSize cfg newValue : ℤ) = s.totalBytes := by
        rw [hgone hatt]
        omega
      rw [htotal]
      exact ⟨h.stopped, h.stopped.accounted hacc.budget, frame_stopped s⟩
    · rename_i e hatt
      obtain ⟨hget, href⟩ := attached_eq_some_iff.mp hatt
      have hs' := Option.some.inj hs
      have hsize : e.size = r.size := h.size r e hr hget href
      have hset {v : SwrCacheEntry ν} : s.entries.set r.key v = s.entries.replace r.key v := by
        rw [OrderedMap.set, has_iff.mpr ⟨e, hget⟩, if_pos rfl]
      have hhas {v : SwrCacheEntry ν} {k : κ} (hk : s.entries.has k = true) :
          (s.entries.set r.key v).has k = true := by
        rw [OrderedMap.has, get_set]
        split
        · rfl
        · exact hk
      have hc : Coherent s' := by
        subst hs'
        refine ⟨?_, fun k hk => hhas (h.handlers k hk), fun k hk => hhas (h.timers k hk), h.pending,
          h.timerIds, fun k e' he => ?_, fun _ hr => (by cases hr), fun _ _ hr => (by cases hr)⟩
        · simp only
          rw [hset, total_replace bytesOf hget, h.bytes, bytesOf, bytesOf, hsize]
        · simp only [get_set] at he
          split at he
          · obtain rfl := Option.some.inj he
            exact h.refs r.key e hget
          · exact h.refs k e' he
      refine ⟨hc, hc.accounted fun hmany => ?_, ?_⟩
      · have hcount : s'.entries.size = s.entries.size := by
          subst hs'
          simp only
          rw [hset, size_replace]
        rw [hcount] at hmany ⊢
        refine ⟨(hacc.budget hmany).1, ?_⟩
        subst hs'
        exact hroom hmany
      · subst hs'
        refine ⟨fun _ _ ht => .inl ht, fun k e' he => ?_, fun _ hr => (by cases hr), le_rfl, le_rfl⟩
        simp only [get_set] at he
        split at he
        · rename_i hk
          obtain rfl := Option.some.inj he
          exact .inl ⟨e, hk ▸ hget, rfl⟩
        · exact .inl ⟨e', he, rfl⟩

/-! ## Runs -/

/-- The events that keep the cache in order, by the state before them. -/
def Tame (cfg : SwrCacheOptions ν) (s : SwrCache κ ν) : CacheEvent κ ν → Prop
  | .get now key => SparesExpired now key s
  | .getOrCompute now key _ => SparesExpired now key s
  | .set _ key value _ => SparesPending cfg key (estimateSize cfg value) s
  | .computed _ key value _ => SparesPending cfg key (estimateSize cfg value) s
  | .setRefreshHandler key _ => s.entries.has key = true
  | .complete _ newValue => RefreshFits cfg newValue s
  | .invalidate _ | .invalidatePrefix _ | .clear | .fire _ | .fail => True

/-- The events that set or invalidate a key. -/
def Outdates (key : κ) : CacheEvent κ ν → Prop
  | .set _ k _ _ => k = key
  | .computed _ k _ _ => k = key
  | .invalidate k => k = key
  | .invalidatePrefix startsPrefix => startsPrefix key = true
  | .clear => True
  | .get _ _ | .getOrCompute _ _ _ | .setRefreshHandler _ _ | .fire _ | .complete _ _ | .fail => False

/-- One tame event. -/
theorem step_accounted (h : Coherent s) (hacc : Accounted cfg s) {e : CacheEvent κ ν} (ht : Tame cfg s e)
    (hs : CacheStep cfg s e s') : Coherent s' ∧ Accounted cfg s' ∧ Frame s s' := by
  have of_keeps (hk : Keeps s s') : Coherent s' ∧ Accounted cfg s' ∧ Frame s s' :=
    ⟨hk.coherent, hk.accounted hacc, hk.frame⟩
  cases e with
  | get now key =>
    obtain rfl := Option.some.inj hs
    exact of_keeps (getWithPhase_keeps h ht).1
  | set now key value opts =>
    obtain rfl := Option.some.inj hs
    obtain ⟨hc, ha, hf, -⟩ := set_coherent h now opts ht
    exact ⟨hc, ha, hf⟩
  | setRefreshHandler key opts =>
    obtain rfl := Option.some.inj hs
    exact of_keeps (setRefreshHandler_keeps h ht opts)
  | getOrCompute now key opts =>
    obtain rfl := Option.some.inj hs
    exact of_keeps (getOrCompute_keeps h ht opts)
  | computed now key value opts =>
    obtain rfl := Option.some.inj hs
    obtain ⟨hc, ha, hf, hhas, -⟩ := set_coherent h now opts ht
    have hk := setRefreshHandler_keeps hc hhas opts
    exact ⟨hk.coherent, hk.accounted ha, hf.trans hk.frame⟩
  | invalidate key =>
    obtain rfl := Option.some.inj hs
    exact of_keeps (invalidate_keeps key h).1
  | invalidatePrefix startsPrefix =>
    obtain rfl := Option.some.inj hs
    exact of_keeps (invalidateAll_keeps _ h).1
  | clear =>
    obtain rfl := Option.some.inj hs
    exact of_keeps (clear_keeps h)
  | fire timer => exact of_keeps (fire_keeps h hs)
  | complete now newValue => exact complete_coherent h hacc ht hs
  | fail => exact of_keeps (fail_keeps h hs)

/-- A key without an entry has nothing that could bring it back. -/
theorem outdated_of_get_none {T : ℕ} (h : Coherent s') (hnone : s'.entries.get key = none)
    (hT : T ≤ s'.nextTimer) : Outdated T key s' where
  pending t ht := by
    have hk := h.timers key (has_iff.mpr ⟨t, (h.pending t key).mp ht⟩)
    rw [OrderedMap.has, hnone] at hk
    cases hk
  running r _ _ _ e he := by
    rw [hnone] at he
    cases he
  later := hT

/-- A set or an invalidation outdates what was started before it. -/
theorem step_outdates (h : Coherent s) (hacc : Accounted cfg s) {e : CacheEvent κ ν} (ht : Tame cfg s e)
    (hs : CacheStep cfg s e s') (hout : Outdates key e) : Outdated s.nextTimer key s' := by
  obtain ⟨hc, -, hf⟩ := step_accounted h hacc ht hs
  cases e with
  | set now k value opts =>
    obtain rfl : k = key := hout
    obtain rfl := Option.some.inj hs
    exact (set_coherent h now opts ht).2.2.2.2
  | computed now k value opts =>
    obtain rfl : k = key := hout
    obtain rfl := Option.some.inj hs
    obtain ⟨hset, -, -, hhas, ho⟩ := set_coherent h now opts ht
    exact ho.frame hset (setRefreshHandler_keeps hset hhas opts).frame
  | invalidate k =>
    obtain rfl : k = key := hout
    obtain rfl := Option.some.inj hs
    have hget := (invalidate_keeps k h).2 k
    rw [if_pos rfl] at hget
    exact outdated_of_get_none hc hget hf.nextTimer
  | invalidatePrefix startsPrefix =>
    obtain rfl := Option.some.inj hs
    have hget := (invalidateAll_keeps (s.entries.keys.filter startsPrefix) h).2 key
    refine outdated_of_get_none hc (hget.trans ?_) hf.nextTimer
    split
    · rfl
    · rename_i hmem
      refine OrderedMap.get_eq_none_iff.mpr fun hk => hmem (mem_filter.mpr ⟨hk, hout⟩)
  | clear =>
    obtain rfl := Option.some.inj hs
    exact outdated_of_get_none hc rfl hf.nextTimer
  | get now k => cases hout
  | getOrCompute now k opts => cases hout
  | setRefreshHandler k opts => cases hout
  | fire timer => cases hout
  | complete now v => cases hout
  | fail => cases hout

/-- The events of a run that are tame. -/
abbrev TameStep (cfg : SwrCacheOptions ν) : SwrCache κ ν → CacheEvent κ ν → SwrCache κ ν → Prop :=
  Guarded (Tame cfg) (CacheStep cfg)

theorem run_coherent {es : List (CacheEvent κ ν)} (h : Runs (TameStep cfg) .new es s) :
    Coherent s ∧ Accounted cfg s := by
  refine h.invariant (I := fun s => Coherent s ∧ Accounted cfg s) ?_ ?_
  · rintro s e s' ⟨hc, hacc⟩ ⟨ht, hs⟩
    obtain ⟨hc', hacc', -⟩ := step_accounted hc hacc ht hs
    exact ⟨hc', hacc'⟩
  · exact ⟨coherent_new, coherent_new.accounted fun hsize => by simp [SwrCache.new, OrderedMap.size] at hsize⟩

theorem run_outdated {T : ℕ} {es : List (CacheEvent κ ν)} (hc : Coherent s) (hacc : Accounted cfg s)
    (ho : Outdated T key s) (h : Runs (TameStep cfg) s es s') : Outdated T key s' := by
  refine (h.invariant (I := fun s => Coherent s ∧ Accounted cfg s ∧ Outdated T key s) ?_ ⟨hc, hacc, ho⟩).2.2
  rintro s e s' ⟨hc, hacc, ho⟩ ⟨ht, hs⟩
  obtain ⟨hc', hacc', hf⟩ := step_accounted hc hacc ht hs
  exact ⟨hc', hacc', ho.frame hc hf⟩

/-- **The laws of the cache.** In every run of tame events the accounts are right in every state; and a
refresh whose timer was set before its key was set or invalidated leaves all entries as they are. -/
theorem swrCache_accounted (cfg : SwrCacheOptions ν) :
    (∀ (es : List (CacheEvent κ ν)) (s : SwrCache κ ν), Runs (TameStep cfg) .new es s → Accounted cfg s) ∧
    ∀ (before between : List (CacheEvent κ ν)) (e : CacheEvent κ ν) (key : κ) (s₁ s₂ s₃ : SwrCache κ ν)
      (r : Refresh κ) (now : ℤ) (newValue : ν),
      Runs (TameStep cfg) .new before s₁ → Outdates key e → Runs (TameStep cfg) s₁ (e :: between) s₂ →
      s₂.running = some r → r.key = key → r.timer < s₁.nextTimer →
      CacheStep cfg s₂ (.complete now newValue) s₃ → s₃.entries = s₂.entries := by
  refine ⟨fun es s h => (run_coherent h).2, ?_⟩
  intro before between e key s₁ s₂ s₃ r now newValue hbefore hout hrun hr hkey htimer hs
  obtain ⟨hc, hacc⟩ := run_coherent hbefore
  cases hrun with
  | cons hstep hrest =>
    obtain ⟨ht, he⟩ := hstep
    obtain ⟨hc', hacc', -⟩ := step_accounted hc hacc ht he
    have ho := run_outdated hc' hacc' (step_outdates hc hacc ht he hout) hrest
    -- The entry that the refresh found is not the one that is stored.
    have hgone : ({ s₂ with
        totalBytes := s₂.totalBytes - r.size + estimateSize cfg newValue
        running := none } : SwrCache κ ν).attached r = none := by
      rw [Option.eq_none_iff_forall_ne_some]
      intro e' hatt
      obtain ⟨hget, href⟩ := attached_eq_some_iff.mp hatt
      exact ho.running r hr hkey htimer e' (hkey ▸ hget) href
    simp only [CacheStep, SwrCache.after, complete, hr, hgone] at hs
    obtain rfl := Option.some.inj hs
    rfl

/-! ## A cache of one entry -/

/-- At most one entry, fresh for ten milliseconds and stale for ten more. -/
def smallCache : SwrCacheOptions ℕ where
  ttlMs := 10
  staleMs := 10
  maxEntries := 1

/-- An entry that is evicted leaves its timer pending. -/
theorem swrCache_orphan_timer :
    ¬∀ (es : List (CacheEvent ℕ ℕ)) (s : SwrCache ℕ ℕ), Runs (CacheStep smallCache) .new es s →
      Accounted smallCache s := by
  intro h
  have hrun : Runs (CacheStep smallCache) .new [.computed 0 0 7 {}, .get 15 0, .set 16 1 8 {}] _ :=
    .cons rfl (.cons rfl (.cons rfl (.nil _)))
  have htimer := (h _ _ hrun).timers 0 0 rfl
  exact absurd htimer (by decide)

/-- A stale entry whose refresh is pending. -/
theorem swrCache_accounted_stale :
    ∃ s : SwrCache ℕ ℕ, s.refreshTimers.get 0 = some 0 ∧ Accounted smallCache s := by
  have hfirst : Tame smallCache SwrCache.new (.computed 0 0 7 {} : CacheEvent ℕ ℕ) := by
    intro older k e newer hentries
    simp [SwrCache.new, OrderedMap.delete] at hentries
  have hsecond : Tame smallCache (SwrCache.new.computed smallCache 0 0 7 {}) (.get 15 0 : CacheEvent ℕ ℕ) := by
    intro e he hphase
    obtain rfl := Option.some.inj he
    exact absurd hphase (by decide)
  exact ⟨_, rfl, (swrCache_accounted smallCache).1 _ _
    (.cons ⟨hfirst, rfl⟩ (.cons ⟨hsecond, rfl⟩ (.nil _)))⟩

end Ariad.Intelligence
