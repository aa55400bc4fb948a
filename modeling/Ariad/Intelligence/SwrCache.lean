import Ariad.Concurrency.Transitions
import Ariad.Javascript.OrderedMap

/-!
# The stale-while-revalidate cache

`SwrCache` keeps entries, refresh handlers and refresh timers in a map each. A timer that fires runs the
handler of its key, and the handler may use the cache itself: between `fire` and `complete` or `fail` any
other operation may come.

* `getWithPhase`, `set`, `setRefreshHandler`, `invalidate`, `invalidatePrefix`, `clear` — the operations.
* `fire`, `complete`, `fail` — a timer fires; its handler returns; its handler throws.
* `CacheEvent` — one step of a run.
-/

namespace Ariad.Intelligence

inductive CachePhase where
  | fresh
  | stale
  | expired
  deriving DecidableEq

/-- An entry. Entries are objects: `ref` says which one. -/
structure SwrCacheEntry (ν : Type) where
  ref : ℕ
  value : ν
  freshUntil : ℤ
  staleUntil : ℤ
  currentTtl : ℤ
  accessCount : ℕ
  refreshing : Bool
  size : ℕ
  deriving DecidableEq

/-- The options of one entry. -/
structure TtlOptions where
  ttlMs : Option ℤ := none
  staleMs : Option ℤ := none
  deriving DecidableEq

structure SwrCacheOptions (ν : Type) where
  ttlMs : ℤ := 30000
  staleMs : ℤ := 30000
  maxTtlMs : ℤ := 120000
  maxBytes : ℕ := 1000000
  maxEntries : ℕ := 100
  /-- `none` for a value means that the function throws. -/
  sizeFn : Option (ν → Option ℕ) := none

/-- A refresh whose handler runs: the timer that fired, and the entry that it found. -/
structure Refresh (κ : Type) where
  timer : ℕ
  key : κ
  ref : ℕ
  size : ℕ
  opts : TtlOptions
  deriving DecidableEq

/-- A cache and the timers that it has set. -/
structure SwrCache (κ ν : Type) where
  entries : OrderedMap κ (SwrCacheEntry ν)
  totalBytes : ℤ
  /-- The keys with a handler, and the options that it was given with. -/
  refreshHandlers : OrderedMap κ TtlOptions
  refreshTimers : OrderedMap κ ℕ
  /-- The timers that are pending, by their ids. -/
  pending : OrderedMap ℕ κ
  running : Option (Refresh κ)
  nextTimer : ℕ
  nextRef : ℕ
  deriving DecidableEq

namespace SwrCache

variable {κ ν : Type} [DecidableEq κ]

def new : SwrCache κ ν where
  entries := .empty
  totalBytes := 0
  refreshHandlers := .empty
  refreshTimers := .empty
  pending := .empty
  running := none
  nextTimer := 0
  nextRef := 0

def getPhase (now : ℤ) (entry : SwrCacheEntry ν) : CachePhase :=
  if now < entry.freshUntil then .fresh else if now < entry.staleUntil then .stale else .expired

def computeAdaptiveTtl (cfg : SwrCacheOptions ν) (accessCount : ℕ) : ℤ :=
  if accessCount < 3 then cfg.ttlMs
  else if accessCount < 10 then min (cfg.ttlMs * 2) cfg.maxTtlMs
  else min (cfg.ttlMs * 4) cfg.maxTtlMs

def estimateSize (cfg : SwrCacheOptions ν) (value : ν) : ℕ :=
  match cfg.sizeFn with
  | none => 1
  | some f => (f value).getD 1

/-! ## Eviction -/

/-- The oldest entry goes, with its handler. Its timer is forgotten, but stays pending. -/
def evictOne (s : SwrCache κ ν) : Option (SwrCache κ ν) :=
  match s.entries.entries with
  | [] => none
  | (oldestKey, entry) :: _ =>
    some { s with
      totalBytes := s.totalBytes - entry.size
      entries := s.entries.delete oldestKey
      refreshHandlers := s.refreshHandlers.delete oldestKey
      refreshTimers := s.refreshTimers.delete oldestKey }

/-- `while (full && this.entries.size > 1) if (!this.evictOne()) break`, at most as often as the number
says. -/
def evictWhile (full : SwrCache κ ν → Bool) : ℕ → SwrCache κ ν → SwrCache κ ν
  | 0, s => s
  | n + 1, s =>
    if full s ∧ s.entries.size > 1 then
      match s.evictOne with
      | none => s
      | some s' => evictWhile full n s'
    else s

def overBytes (cfg : SwrCacheOptions ν) (s : SwrCache κ ν) : Bool := s.totalBytes > cfg.maxBytes

def overEntries (cfg : SwrCacheOptions ν) (s : SwrCache κ ν) : Bool := s.entries.size > cfg.maxEntries

/-- Every round removes an entry, so there are no more rounds than entries. -/
def evictToFit (cfg : SwrCacheOptions ν) (s : SwrCache κ ν) : SwrCache κ ν :=
  let s := evictWhile (overBytes cfg) s.entries.size s
  evictWhile (overEntries cfg) s.entries.size s

/-! ## Timers -/

def clearTimeout (timer : ℕ) (s : SwrCache κ ν) : SwrCache κ ν :=
  { s with pending := s.pending.delete timer }

def scheduleBackgroundRefresh (key : κ) (s : SwrCache κ ν) : SwrCache κ ν :=
  let s := match s.refreshTimers.get key with
    | some existing => s.clearTimeout existing
    | none => s
  { s with
    pending := s.pending.set s.nextTimer key
    refreshTimers := s.refreshTimers.set key s.nextTimer
    nextTimer := s.nextTimer + 1 }

/-- The timer of a key is cleared, as `set` and `invalidate` begin. -/
def cancelRefresh (key : κ) (s : SwrCache κ ν) : SwrCache κ ν :=
  match s.refreshTimers.get key with
  | some timer => { s.clearTimeout timer with refreshTimers := s.refreshTimers.delete key }
  | none => s

/-! ## Operations -/

/-- The entry that was found goes behind all others, and counts the access. -/
def touch (key : κ) (entry : SwrCacheEntry ν) (s : SwrCache κ ν) : SwrCache κ ν :=
  { s with entries := (s.entries.delete key).set key { entry with accessCount := entry.accessCount + 1 } }

/-- The entry is marked, and its refresh is scheduled. -/
def startRefresh (key : κ) (entry : SwrCacheEntry ν) (s : SwrCache κ ν) : SwrCache κ ν :=
  scheduleBackgroundRefresh key
    { s with
      entries := s.entries.set key
        { entry with
          accessCount := entry.accessCount + 1
          refreshing := true } }

def getWithPhase (now : ℤ) (key : κ) (s : SwrCache κ ν) : Option (ν × CachePhase) × SwrCache κ ν :=
  match s.entries.get key with
  | none => (none, s)
  | some entry =>
    match getPhase now entry with
    | .expired => (none, { s with totalBytes := s.totalBytes - entry.size, entries := s.entries.delete key })
    | .fresh => (some (entry.value, .fresh), s.touch key entry)
    | .stale =>
      let s := s.touch key entry
      (some (entry.value, .stale),
        if !entry.refreshing && s.refreshHandlers.has key then s.startRefresh key entry else s)

def set (cfg : SwrCacheOptions ν) (now : ℤ) (key : κ) (value : ν) (opts : TtlOptions) (s : SwrCache κ ν) :
    SwrCache κ ν :=
  let s := s.cancelRefresh key
  let ttl := opts.ttlMs.getD cfg.ttlMs
  let stale := opts.staleMs.getD cfg.staleMs
  let existing := s.entries.get key
  let s := match existing with
    | some e => { s with totalBytes := s.totalBytes - e.size, entries := s.entries.delete key }
    | none => s
  let size := estimateSize cfg value
  let entry : SwrCacheEntry ν :=
    { ref := s.nextRef
      value := value
      freshUntil := now + ttl
      staleUntil := now + ttl + stale
      currentTtl := ttl
      accessCount := (existing.map SwrCacheEntry.accessCount).getD 0
      refreshing := false
      size := size }
  evictToFit cfg
    { s with
      entries := s.entries.set key entry
      totalBytes := s.totalBytes + size
      nextRef := s.nextRef + 1 }

def setRefreshHandler (key : κ) (opts : TtlOptions) (s : SwrCache κ ν) : SwrCache κ ν :=
  { s with refreshHandlers := s.refreshHandlers.set key opts }

/-- `getOrCompute` until it returns or computes: a hit makes sure that there is a handler. -/
def getOrCompute (now : ℤ) (key : κ) (opts : TtlOptions) (s : SwrCache κ ν) :
    Option (ν × CachePhase) × SwrCache κ ν :=
  let r := s.getWithPhase now key
  match r.1 with
  | some hit => (some hit, if r.2.refreshHandlers.has key then r.2 else r.2.setRefreshHandler key opts)
  | none => (none, r.2)

/-- `getOrCompute` after the value was computed. -/
def computed (cfg : SwrCacheOptions ν) (now : ℤ) (key : κ) (value : ν) (opts : TtlOptions)
    (s : SwrCache κ ν) : SwrCache κ ν :=
  (s.set cfg now key value opts).setRefreshHandler key opts

def invalidate (key : κ) (s : SwrCache κ ν) : SwrCache κ ν :=
  let s := s.cancelRefresh key
  let s := match s.entries.get key with
    | some e => { s with totalBytes := s.totalBytes - e.size, entries := s.entries.delete key }
    | none => s
  { s with refreshHandlers := s.refreshHandlers.delete key }

/-- The keys that are texts with a prefix, as `startsPrefix` says. -/
def invalidatePrefix (startsPrefix : κ → Bool) (s : SwrCache κ ν) : SwrCache κ ν :=
  (s.entries.keys.filter startsPrefix).foldl (fun s key => s.invalidate key) s

def clear (s : SwrCache κ ν) : SwrCache κ ν :=
  { s with
    pending := s.refreshTimers.entries.foldl (fun p e => p.delete e.2) s.pending
    refreshTimers := .empty
    entries := .empty
    refreshHandlers := .empty
    totalBytes := 0 }

/-! ## Refreshes -/

/-- A pending timer fires, while no other callback runs. The handler starts if the key has an entry and a
handler. -/
def fire (timer : ℕ) (s : SwrCache κ ν) : Option (SwrCache κ ν) :=
  match s.running, s.pending.get timer with
  | none, some key =>
    let s := { s.clearTimeout timer with refreshTimers := s.refreshTimers.delete key }
    match s.entries.get key with
    | none => some s
    | some entry =>
      match s.refreshHandlers.get key with
      | some opts => some { s with running := some ⟨timer, key, entry.ref, entry.size, opts⟩ }
      | none => some { s with entries := s.entries.set key { entry with refreshing := false } }
  | _, _ => none

/-- The entry that a refresh found, if it is still the one that is stored. -/
def attached (r : Refresh κ) (s : SwrCache κ ν) : Option (SwrCacheEntry ν) :=
  (s.entries.get r.key).filter fun e => e.ref = r.ref

/-- The handler returns. The entry object is changed, wherever it is by now. -/
def complete (cfg : SwrCacheOptions ν) (now : ℤ) (newValue : ν) (s : SwrCache κ ν) : Option (SwrCache κ ν) :=
  match s.running with
  | none => none
  | some r =>
    let newSize := estimateSize cfg newValue
    let s := { s with totalBytes := s.totalBytes - r.size + newSize, running := none }
    match s.attached r with
    | none => some s
    | some entry =>
      let newTtl := r.opts.ttlMs.getD (computeAdaptiveTtl cfg entry.accessCount)
      let newStale := r.opts.staleMs.getD cfg.staleMs
      some { s with
        entries := s.entries.set r.key
          { entry with
            value := newValue
            size := newSize
            freshUntil := now + newTtl
            staleUntil := now + newTtl + newStale
            currentTtl := newTtl
            refreshing := false } }

/-- The handler throws. -/
def fail (s : SwrCache κ ν) : Option (SwrCache κ ν) :=
  match s.running with
  | none => none
  | some r =>
    let s := { s with running := none }
    match s.attached r with
    | none => some s
    | some entry => some { s with entries := s.entries.set r.key { entry with refreshing := false } }

end SwrCache

/-! ## Runs -/

/-- What happens to a cache. Calls carry the time of the clock. -/
inductive CacheEvent (κ ν : Type) where
  | get (now : ℤ) (key : κ)
  | set (now : ℤ) (key : κ) (value : ν) (opts : TtlOptions)
  | setRefreshHandler (key : κ) (opts : TtlOptions)
  | getOrCompute (now : ℤ) (key : κ) (opts : TtlOptions)
  | computed (now : ℤ) (key : κ) (value : ν) (opts : TtlOptions)
  | invalidate (key : κ)
  | invalidatePrefix (startsPrefix : κ → Bool)
  | clear
  | fire (timer : ℕ)
  | complete (now : ℤ) (newValue : ν)
  | fail

variable {κ ν : Type} [DecidableEq κ]

/-- The state after an event; `none` if the event cannot happen. -/
def SwrCache.after (cfg : SwrCacheOptions ν) (s : SwrCache κ ν) : CacheEvent κ ν → Option (SwrCache κ ν)
  | .get now key => some (s.getWithPhase now key).2
  | .set now key value opts => some (s.set cfg now key value opts)
  | .setRefreshHandler key opts => some (s.setRefreshHandler key opts)
  | .getOrCompute now key opts => some (s.getOrCompute now key opts).2
  | .computed now key value opts => some (s.computed cfg now key value opts)
  | .invalidate key => some (s.invalidate key)
  | .invalidatePrefix startsPrefix => some (s.invalidatePrefix startsPrefix)
  | .clear => some s.clear
  | .fire timer => s.fire timer
  | .complete now newValue => s.complete cfg now newValue
  | .fail => s.fail

/-- One step of a run. -/
def CacheStep (cfg : SwrCacheOptions ν) (s : SwrCache κ ν) (e : CacheEvent κ ν) (s' : SwrCache κ ν) : Prop :=
  s.after cfg e = some s'

end Ariad.Intelligence
