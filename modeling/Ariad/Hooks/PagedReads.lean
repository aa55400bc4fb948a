import Mathlib.Data.List.Basic

/-!
# Hooks that read pages

A hook that loads the pages of a query one after the other. React renders it with the newest state, runs its effect
after a render that has changed the query, and every render leaves callbacks behind that see the values of that
render only.

* `PagedHook` — the parts in which such hooks differ: the state, the sets of each handler, the guards of `loadMore`.
* `Reader` — a mounted hook: its state and refs, its renders, and the requests that it has sent.
* `Reader.after` — a render, an effect, a timer, a call of a callback, the answer of a request.
-/

namespace Ariad.Hooks

/-! ## Requests -/

structure Details where
  code : Option String
  restart_from_first_page : Bool
  deriving DecidableEq

structure ApiError where
  code : ℕ
  message : String
  details : Option Details
  deriving DecidableEq

/-- What the promise of a page comes to; of an error that is not an `ApiError`, nothing is read. -/
inductive Answer (Page : Type) where
  | page (p : Page)
  | caught (error : Option ApiError)

variable {σ ι ρ Page : Type}

/-- A call of `fetchPage` with the values that its handlers have captured. -/
structure Request (ι Page : Type) where
  identity : ι
  /-- The first page and the cursor, in a request of `loadMore`. -/
  more : Option (Page × String)
  revision : ℕ
  aborted : Bool
  answer : Option (Answer Page)
  /-- The `finally` handler has run. -/
  settled : Bool
  /-- Before it was answered, another request was sent or the effect has run. -/
  superseded : Bool

def Request.cursor (r : Request ι Page) : Option String := r.more.map Prod.snd

/-- What is still on the way is superseded. -/
def supersede (rs : List (Request ι Page)) : List (Request ι Page) :=
  rs.map fun r => if r.answer.isSome then r else { r with superseded := true }

/-! ## Hooks -/

/-- The arguments of a render; `rest` are those that only the dependencies of the effect name. -/
structure Props (ι ρ : Type) where
  identity : ι
  enabled : Bool
  rest : ρ
  deriving DecidableEq

structure PagedHook (σ ι ρ Page : Type) where
  graph_revision : Page → String
  next_cursor : Page → Option String
  initial : σ
  loaded : σ → Option (ι × List Page)
  retryRevision : σ → ℕ
  /-- The effect waits for a timer before it sends its request. -/
  debounced : Bool
  /-- What the effect sets. -/
  reset : Props ι ρ → σ → σ
  /-- The handlers of the effect's request: `then` and `catch`, and `finally`. -/
  firstAnswered : ι → Answer Page → σ → σ
  firstSettled : σ → σ
  /-- The guards of `loadMore` on the values of its render, with the first page and the cursor that it uses. -/
  loadMore : Props ι ρ → σ → Option (Page × String)
  /-- What `loadMore` sets, and the handlers of its request. -/
  moreStarted : ι → σ → σ
  moreAnswered : ι → Page → Answer Page → σ → σ
  moreSettled : σ → σ
  /-- Whether `retry` calls `loadMore`, on the values of its render. -/
  retriesMore : Props ι ρ → σ → Bool
  /-- What `retry` sets otherwise. -/
  restarted : σ → σ

/-- The pages that a render exposes: those loaded for its query. -/
def PagedHook.pages [DecidableEq ι] (hook : PagedHook σ ι ρ Page) (r : Props ι ρ × σ) : List Page :=
  match hook.loaded r.2 with
  | some (identity, pages) => if identity = r.1.identity then pages else []
  | none => []

/-- A mounted hook. -/
structure Reader (σ ι ρ Page : Type) where
  /-- The state with all its updates, which the next render sees. -/
  state : σ
  /-- Every render so far, the newest one last. -/
  renders : List (Props ι ρ × σ)
  deps : Option (Props ι ρ × ℕ)
  /-- The effect of the newest render has not run yet. -/
  effectDue : Bool
  /-- The last run of the effect has left a cleanup. -/
  cleanup : Bool
  timer : Option (ι × ℕ)
  requestRevisionRef : ℕ
  /-- The request whose controller is in the ref. -/
  activeRequestRef : Option ℕ
  requests : List (Request ι Page)

inductive PageEvent (ι ρ Page : Type) where
  | render (props : Props ι ρ)
  | effect
  | timer
  /-- A call of the callback of a render. -/
  | loadMore (k : ℕ)
  | retry (k : ℕ)
  | answered (i : ℕ) (a : Answer Page)
  | settled (i : ℕ)

namespace Reader

variable (hook : PagedHook σ ι ρ Page) (w : Reader σ ι ρ Page)

def mounted : Reader σ ι ρ Page where
  state := hook.initial
  renders := []
  deps := none
  effectDue := false
  cleanup := false
  timer := none
  requestRevisionRef := 0
  activeRequestRef := none
  requests := []

/-- `activeRequestRef.current?.abort(); activeRequestRef.current = null` -/
def abortActive : Reader σ ι ρ Page :=
  match w.activeRequestRef with
  | none => w
  | some i =>
    { w with
      requests := w.requests.modify i fun r => { r with aborted := true }
      activeRequestRef := none }

def send (identity : ι) (more : Option (Page × String)) (revision : ℕ) : Reader σ ι ρ Page :=
  { w with
    requests := supersede w.requests ++ [⟨identity, more, revision, false, none, false, false⟩]
    activeRequestRef := some w.requests.length }

/-- The cleanup of the effect, if it has left one. -/
def cleanUp : Reader σ ι ρ Page :=
  if w.cleanup then
    let w := abortActive { w with timer := none }
    { w with requestRevisionRef := w.requestRevisionRef + 1 }
  else w

/-- The effect of a render, behind the cleanup of the one before. -/
def runEffect (props : Props ι ρ) : Reader σ ι ρ Page :=
  let w := w.cleanUp.abortActive
  let requestRevision := w.requestRevisionRef + 1
  let w :=
    { w with
      requestRevisionRef := requestRevision
      state := hook.reset props w.state
      effectDue := false
      cleanup := props.enabled
      requests := supersede w.requests }
  if !props.enabled then w
  else if hook.debounced then { w with timer := some (props.identity, requestRevision) }
  else w.send props.identity none requestRevision

/-- The request that `loadMore` of a render sends, if it sends one. -/
def moreRequest (r : Props ι ρ × σ) : Option (Page × String) :=
  if w.activeRequestRef.isSome then none else hook.loadMore r.1 r.2

/-- `loadMore` of a render. -/
def callLoadMore (r : Props ι ρ × σ) : Reader σ ι ρ Page :=
  match w.moreRequest hook r with
  | none => w
  | some more =>
    let requestRevision := w.requestRevisionRef + 1
    let w := { w with requestRevisionRef := requestRevision, state := hook.moreStarted r.1.identity w.state }
    w.send r.1.identity (some more) requestRevision

/-- `retry` of a render. -/
def callRetry (r : Props ι ρ × σ) : Reader σ ι ρ Page :=
  if hook.retriesMore r.1 r.2 then w.callLoadMore hook r else { w with state := hook.restarted w.state }

/-- The check at the head of every handler. -/
def dropped (r : Request ι Page) : Bool := r.aborted || r.revision ≠ w.requestRevisionRef

/-- The `then` or the `catch` handler of a request. -/
def answer (i : ℕ) (r : Request ι Page) (a : Answer Page) : Reader σ ι ρ Page :=
  { w with
    requests := w.requests.modify i fun r => { r with answer := some a }
    state :=
      if w.dropped r then w.state
      else
        match r.more with
        | none => hook.firstAnswered r.identity a w.state
        | some (first, _) => hook.moreAnswered r.identity first a w.state }

/-- The `finally` handler of a request. -/
def settle (i : ℕ) (r : Request ι Page) : Reader σ ι ρ Page :=
  let w' := { w with requests := w.requests.modify i fun r => { r with settled := true } }
  if w.dropped r then w'
  else
    { w' with
      activeRequestRef := none
      state :=
        match r.more with
        | none => hook.firstSettled w.state
        | some _ => hook.moreSettled w.state }

end Reader

namespace Reader

variable [DecidableEq ι] [DecidableEq ρ] (hook : PagedHook σ ι ρ Page) (w : Reader σ ι ρ Page)

/-- A render with the newest state. Its effect is due if one of the dependencies has changed. -/
def render (props : Props ι ρ) : Reader σ ι ρ Page :=
  let deps := some (props, hook.retryRevision w.state)
  { w with renders := w.renders ++ [(props, w.state)], deps, effectDue := w.deps ≠ deps }

/-- React runs the effect of a render before it renders again. -/
def after : PageEvent ι ρ Page → Option (Reader σ ι ρ Page)
  | .render props => if w.effectDue then none else some (w.render hook props)
  | .effect =>
    if w.effectDue then w.renders.getLast?.map fun r => w.runEffect hook r.1 else none
  | .timer => w.timer.map fun t => ({ w with timer := none } : Reader σ ι ρ Page).send t.1 none t.2
  | .loadMore k => w.renders[k]?.map (w.callLoadMore hook)
  | .retry k => w.renders[k]?.map (w.callRetry hook)
  | .answered i a =>
    match w.requests[i]? with
    | some r => if r.answer.isNone then some (w.answer hook i r a) else none
    | none => none
  | .settled i =>
    match w.requests[i]? with
    | some r => if r.answer.isSome && !r.settled then some (w.settle hook i r) else none
    | none => none

/-- One event in the life of a mounted hook. -/
def Step (w : Reader σ ι ρ Page) (e : PageEvent ι ρ Page) (w' : Reader σ ι ρ Page) : Prop := w.after hook e = some w'

end Reader

end Ariad.Hooks
