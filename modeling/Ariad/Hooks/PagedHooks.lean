import Ariad.Hooks.PagedReads
import Ariad.Javascript.Text

/-!
# The hooks of the graph view

* `useRevisionBoundPages` — the hook behind exact scopes, neighborhoods and paths.
* `useExactNodeSearch` — the debounced search in a project.
-/

namespace Ariad.Hooks

inductive LoadPhase where
  | initial
  | more
  deriving DecidableEq

structure Failure (ι : Type) where
  identity : ι
  message : String
  phase : LoadPhase
  status : Option ℕ

/-- Both hooks have this test under a name of their own. -/
def revisionMismatch : Option ApiError → Bool
  | none => false
  | some caught =>
    match caught.code == 409, caught.details with
    | true, some details => details.code = some "GRAPH_REVISION_MISMATCH" && details.restart_from_first_page
    | _, _ => false

variable {ι ρ Page : Type} [DecidableEq ι]

/-! ## Pages of one revision -/

structure PagesState (ι Page : Type) where
  loaded : Option (ι × List Page)
  failure : Option (Failure ι)
  loading : Bool
  loadingMore : Bool
  retryRevision : ℕ

/-- The arguments of the hook that are the same in every render. -/
structure PagesSpec (ι Page : Type) where
  graph_revision : Page → String
  next_cursor : Page → Option String
  /-- The message on a page that does not fit its query or the first page. -/
  validatePage : ι → Page → Option Page → Option String
  initialError : String
  moreError : String

namespace PagesState

variable (spec : PagesSpec ι Page) (s : PagesState ι Page)

def pages (identity : ι) : List Page :=
  match s.loaded with
  | some (i, pages) => if i = identity then pages else []
  | none => []

def currentFailure (identity : ι) : Option (Failure ι) :=
  match s.failure with
  | some failure => if failure.identity = identity then some failure else none
  | none => none

/-- `pages.at(-1)?.page.next_cursor`, if it is truthy. -/
def cursor (identity : ι) : Option String :=
  match (s.pages identity).getLast? with
  | some last => (spec.next_cursor last).filter (· ≠ "")
  | none => none

def failed (identity : ι) (phase : LoadPhase) (message : String) (status : Option ℕ) : PagesState ι Page :=
  { s with failure := some ⟨identity, message, phase, status⟩ }

/-- The end of the `catch` handlers. -/
def caught (identity : ι) (phase : LoadPhase) (error : String) : Option ApiError → PagesState ι Page
  | some e => s.failed identity phase e.message (some e.code)
  | none => s.failed identity phase error none

def firstAnswered (identity : ι) : Answer Page → PagesState ι Page
  | .page page =>
    match spec.validatePage identity page none with
    | some validationError => s.failed identity .initial validationError none
    | none => { s with loaded := some (identity, [page]) }
  | .caught e =>
    if revisionMismatch e then { s with retryRevision := s.retryRevision + 1 }
    else s.caught identity .initial spec.initialError e

def moreAnswered (identity : ι) (first : Page) : Answer Page → PagesState ι Page
  | .page page =>
    if spec.graph_revision page ≠ spec.graph_revision first then
      { s with loaded := none, retryRevision := s.retryRevision + 1 }
    else
      match spec.validatePage identity page (some first) with
      | some validationError => s.failed identity .more validationError none
      | none =>
        match s.loaded with
        | some (i, pages) => if i = identity then { s with loaded := some (identity, pages ++ [page]) } else s
        | none => s
  | .caught e =>
    if revisionMismatch e then { s with loaded := none, failure := none, retryRevision := s.retryRevision + 1 }
    else s.caught identity .more spec.moreError e

def loadMore (props : Props ι ρ) : Option (Page × String) :=
  match (s.pages props.identity).head?, s.cursor spec props.identity with
  | some first, some cursor => if !props.enabled || s.loading || s.loadingMore then none else some (first, cursor)
  | _, _ => none

def retriesMore (props : Props ι ρ) : Bool :=
  (s.currentFailure props.identity).map Failure.phase = some .more && (s.cursor spec props.identity).isSome

end PagesState

open PagesState in
def useRevisionBoundPages (spec : PagesSpec ι Page) : PagedHook (PagesState ι Page) ι ρ Page where
  graph_revision := spec.graph_revision
  next_cursor := spec.next_cursor
  initial := ⟨none, none, false, false, 0⟩
  loaded := PagesState.loaded
  retryRevision := PagesState.retryRevision
  debounced := false
  reset props s := { s with loaded := none, failure := none, loading := props.enabled, loadingMore := false }
  firstAnswered identity a s := s.firstAnswered spec identity a
  firstSettled s := { s with loading := false }
  loadMore props s := s.loadMore spec props
  moreStarted _ s := { s with loadingMore := true, failure := none }
  moreAnswered identity first a s := s.moreAnswered spec identity first a
  moreSettled s := { s with loadingMore := false }
  retriesMore props s := s.retriesMore spec props
  restarted s := { s with failure := none, retryRevision := s.retryRevision + 1 }

/-! ## Search -/

inductive RefreshKey where
  | string (s : String)
  | number (n : ℕ)
  | undefined
  deriving DecidableEq

/-- What a search is about; the project is missing while none is selected. -/
structure SearchContext where
  project : Option String
  query : Text
  refreshKey : RefreshKey
  deriving DecidableEq

/-- A page of a search, of which the nodes are merged by their ids. -/
structure GraphNodeSearchData (Node : Type) where
  graph_revision : String
  returned_nodes : ℕ
  truncated : Bool
  nodes : List Node
  limit : ℕ
  returned : ℕ
  next_cursor : Option String

structure SearchState (Node : Type) where
  loadedPages : Option (SearchContext × List (GraphNodeSearchData Node))
  loading : Bool
  loadingMore : Bool
  loadingContext : Option SearchContext
  loadingMoreContext : Option SearchContext
  failure : Option (Failure SearchContext)
  retryRevision : ℕ

/-- The arguments of a render of the search; the effect depends on the delay as well. -/
def searchProps (project : Option String) (query : Text) (debounceMs : ℕ) (refreshKey : RefreshKey) :
    Props SearchContext ℕ where
  identity := ⟨project, Text.trim query, refreshKey⟩
  enabled := project.getD "" ≠ "" && Text.trim query ≠ []
  rest := debounceMs

namespace SearchState

variable {Node : Type} (id : Node → ℕ) (s : SearchState Node) (context : SearchContext)

def pages : List (GraphNodeSearchData Node) :=
  match s.loadedPages with
  | some (c, pages) => if c = context then pages else []
  | none => []

def currentFailure : Option (Failure SearchContext) :=
  match s.failure with
  | some failure => if failure.identity = context then some failure else none
  | none => none

def currentLoading : Bool := s.loading && s.loadingContext = some context

def currentLoadingMore : Bool := s.loadingMore && s.loadingMoreContext = some context

/-- The nodes of all pages, each id where it comes first. -/
def mergedNodes (pages : List (GraphNodeSearchData Node)) : List Node :=
  (pages.flatMap GraphNodeSearchData.nodes).foldl
    (fun nodes node => if (nodes.map id).contains (id node) then nodes else nodes ++ [node]) []

def data : Option (GraphNodeSearchData Node) :=
  match (s.pages context).head?, (s.pages context).getLast? with
  | some first, some last =>
    let nodes := mergedNodes id (s.pages context)
    some
      { first with
        nodes
        returned_nodes := nodes.length
        truncated := last.next_cursor.isSome
        returned := nodes.length
        next_cursor := last.next_cursor }
  | _, _ => none

/-- `data?.page.next_cursor`, if it is truthy. -/
def cursor : Option String :=
  match s.data id context with
  | some data => data.next_cursor.filter (· ≠ "")
  | none => none

/-- `failureMessage` and `failureStatus` of what was caught. -/
def caught (phase : LoadPhase) (e : Option ApiError) : SearchState Node :=
  { s with
    failure := some
      ⟨context, (e.map ApiError.message).getD "Unable to search the complete project", phase, e.map ApiError.code⟩ }

def firstAnswered : Answer (GraphNodeSearchData Node) → SearchState Node
  | .page page => { s with loadedPages := some (context, [page]) }
  | .caught e => s.caught context .initial e

/-- `first` carries the revision of `data`. -/
def moreAnswered (first : GraphNodeSearchData Node) : Answer (GraphNodeSearchData Node) → SearchState Node
  | .page page =>
    if page.graph_revision ≠ first.graph_revision then
      { s with loadedPages := none, failure := none, retryRevision := s.retryRevision + 1 }
    else
      match s.loadedPages with
      | some (c, pages) => if c = context then { s with loadedPages := some (c, pages ++ [page]) } else s
      | none => s
  | .caught e =>
    if revisionMismatch e then { s with loadedPages := none, failure := none, retryRevision := s.retryRevision + 1 }
    else s.caught context .more e

def loadMore (props : Props SearchContext ℕ) : Option (GraphNodeSearchData Node × String) :=
  match s.data id props.identity, s.cursor id props.identity with
  | some data, some cursor =>
    if !props.enabled || s.currentLoading props.identity || s.currentLoadingMore props.identity then none
    else some (data, cursor)
  | _, _ => none

def retriesMore (props : Props SearchContext ℕ) : Bool :=
  (s.currentFailure props.identity).map Failure.phase = some .more && (s.cursor id props.identity).isSome

end SearchState

variable {Node : Type}

def useExactNodeSearch (id : Node → ℕ) : PagedHook (SearchState Node) SearchContext ℕ (GraphNodeSearchData Node) where
  graph_revision := GraphNodeSearchData.graph_revision
  next_cursor := GraphNodeSearchData.next_cursor
  initial := ⟨none, false, false, none, none, none, 0⟩
  loaded := SearchState.loadedPages
  retryRevision := SearchState.retryRevision
  debounced := true
  reset props s :=
    { s with
      loadedPages := none
      failure := none
      loading := props.enabled
      loadingMore := false
      loadingContext := if props.enabled then some props.identity else none
      loadingMoreContext := none }
  firstAnswered context a s := s.firstAnswered context a
  firstSettled s := { s with loading := false, loadingContext := none }
  loadMore props s := s.loadMore id props
  moreStarted context s := { s with loadingMore := true, loadingMoreContext := some context, failure := none }
  moreAnswered context first a s := s.moreAnswered context first a
  moreSettled s := { s with loadingMore := false, loadingMoreContext := none }
  retriesMore props s := s.retriesMore id props
  restarted s := { s with failure := none, retryRevision := s.retryRevision + 1 }

end Ariad.Hooks
