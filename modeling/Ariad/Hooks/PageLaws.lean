import Mathlib.Data.List.Nodup
import Ariad.Concurrency.Transitions
import Ariad.Hooks.PagedHooks
import Ariad.Relational.Positions

/-!
# Pages of one revision

What a hook exposes is a chain of pages, as long as `loadMore` is called through callbacks that have captured the
cursor of the pages that are loaded.

* `PageChain` — pages of one query and one revision, each fetched with the cursor of the one before.
* `PagedHook.Lawful` — what the handlers of a hook do to its pages.
* `Reader.Current` — the condition on the calls of `loadMore`.
* `Reader.Inv` — the invariant: a request that is not dropped continues the pages that are loaded.
* `pages_in_one_chain` — the law of both hooks, over all runs.
-/

namespace Ariad.Hooks

open List Nat

variable {σ ι ρ Page : Type} {hook : PagedHook σ ι ρ Page}

/-! ## Chains -/

/-- The page is the answer of a request that was not superseded. -/
def Fetched (rs : List (Request ι Page)) (i : ℕ) (identity : ι) (cursor : Option String) (page : Page) : Prop :=
  ∃ r, rs[i]? = some r ∧ r.identity = identity ∧ r.cursor = cursor ∧ r.answer = some (.page page) ∧
    r.superseded = false

variable (hook) in
/-- Pages of a query, with the requests that have fetched them: the first one without a cursor, and each other one
with the cursor of the page before it and of the same revision as the first. No request has given two pages. -/
inductive PageChain (rs : List (Request ι Page)) (identity : ι) : List ℕ → List Page → Prop where
  | first {i : ℕ} {page : Page} (h : Fetched rs i identity none page) : PageChain rs identity [i] [page]
  | more {is : List ℕ} {pages : List Page} {i : ℕ} {cursor : String} {page : Page}
    (chain : PageChain rs identity is pages) (new : i ∉ is) (h : Fetched rs i identity (some cursor) page)
    (next : pages.getLast?.bind hook.next_cursor = some cursor)
    (revision : pages.head?.map hook.graph_revision = some (hook.graph_revision page)) :
    PageChain rs identity (is ++ [i]) (pages ++ [page])

/-- Requests that were answered stay as they are, but for their abort and their end. -/
def Keeps (rs rs' : List (Request ι Page)) : Prop :=
  ∀ (i : ℕ) (r : Request ι Page), rs[i]? = some r → r.answer.isSome → ∃ r' : Request ι Page, rs'[i]? = some r' ∧
    r'.identity = r.identity ∧ r'.more = r.more ∧ r'.answer = r.answer ∧ r'.superseded = r.superseded

section

variable {rs rs' rs'' : List (Request ι Page)} {identity : ι} {is : List ℕ} {pages : List Page} {i : ℕ}
  {cursor : Option String} {page : Page} {r : Request ι Page}

variable {f : Request ι Page → Request ι Page}

theorem Keeps.trans (h : Keeps rs rs') (h' : Keeps rs' rs'') : Keeps rs rs'' := by
  intro i r hr ha
  obtain ⟨r', hr', h₁, h₂, h₃, h₄⟩ := h i r hr ha
  obtain ⟨r'', hr'', k₁, k₂, k₃, k₄⟩ := h' i r' hr' (h₃ ▸ ha)
  exact ⟨r'', hr'', k₁.trans h₁, k₂.trans h₂, k₃.trans h₃, k₄.trans h₄⟩

theorem keeps_append (rs new : List (Request ι Page)) : Keeps rs (rs ++ new) := by
  intro i r hr _
  refine ⟨r, ?_, rfl, rfl, rfl, rfl⟩
  rw [getElem?_append_left (List.getElem?_eq_some_iff.mp hr).1]
  exact hr

theorem keeps_supersede (rs : List (Request ι Page)) : Keeps rs (supersede rs) := by
  intro i r hr ha
  refine ⟨r, ?_, rfl, rfl, rfl, rfl⟩
  rw [supersede, getElem?_map, hr, Option.map_some, if_pos ha]

/-- A change of one request that keeps what it has fetched. -/
theorem keeps_modify (rs : List (Request ι Page)) (i : ℕ)
    (hf : ∀ r, (f r).identity = r.identity ∧ (f r).more = r.more ∧ (f r).answer = r.answer ∧
      (f r).superseded = r.superseded) : Keeps rs (rs.modify i f) := by
  intro j r hr _
  rw [getElem?_modify, hr]
  by_cases hij : i = j
  · exact ⟨f r, by simp [hij], hf r⟩
  · exact ⟨r, by simp [hij], rfl, rfl, rfl, rfl⟩

/-- A request gets its answer. -/
theorem keeps_answer (hr : rs[i]? = some r) (ha : r.answer = none) (f : Request ι Page → Request ι Page) :
    Keeps rs (rs.modify i f) := by
  intro j x hx hxa
  have hij : i ≠ j := by
    rintro rfl
    obtain rfl := Option.some.inj (hr.symm.trans hx)
    exact absurd hxa (by simp [ha])
  exact ⟨x, by simp [hx, hij], rfl, rfl, rfl, rfl⟩

theorem Fetched.keep (h : Fetched rs i identity cursor page) (hkeep : Keeps rs rs') :
    Fetched rs' i identity cursor page := by
  obtain ⟨r, hr, hid, hcursor, ha, hs⟩ := h
  obtain ⟨r', hr', h₁, h₂, h₃, h₄⟩ := hkeep i r hr (by simp [ha])
  refine ⟨r', hr', h₁.trans hid, ?_, h₃.trans ha, h₄.trans hs⟩
  rw [Request.cursor, h₂]
  exact hcursor

theorem PageChain.keep (h : PageChain hook rs identity is pages) (hkeep : Keeps rs rs') :
    PageChain hook rs' identity is pages := by
  induction h with
  | first h => exact .first (h.keep hkeep)
  | more _ new h next revision ih => exact .more ih new (h.keep hkeep) next revision

/-- Every request of a chain was answered. -/
theorem PageChain.answered (h : PageChain hook rs identity is pages) (hi : i ∈ is) :
    ∃ r, rs[i]? = some r ∧ r.answer.isSome := by
  have hfetched {j : ℕ} {cursor : Option String} {page : Page} (h : Fetched rs j identity cursor page) :
      ∃ r, rs[j]? = some r ∧ r.answer.isSome := by
    obtain ⟨r, hr, -, -, ha, -⟩ := h
    exact ⟨r, hr, by simp [ha]⟩
  induction h with
  | first h =>
    obtain rfl := mem_singleton.mp hi
    exact hfetched h
  | more _ _ h _ _ ih =>
    rcases mem_append.mp hi with hi | hi
    · exact ih hi
    · obtain rfl := mem_singleton.mp hi
      exact hfetched h

/-- Behind a page without a cursor, a chain does not go on. -/
theorem PageChain.exists_cursor {l : List Page} (h : PageChain hook rs identity is l) (hl : l = pages ++ [page]) (hne : pages ≠ []) :
    ∃ cursor, pages.getLast?.bind hook.next_cursor = some cursor := by
  cases h with
  | first h =>
    have hlength := congrArg List.length hl
    rw [length_append] at hlength
    exact absurd (length_eq_zero_iff.mp (succ_injective hlength).symm) hne
  | more _ _ _ next _ =>
    obtain rfl := (append_inj' hl rfl).1
    exact ⟨_, next⟩

end

/-! ## Lawful hooks -/

/-- The pages of a hook change only where its effect runs and where a request is answered. -/
structure PagedHook.Lawful (hook : PagedHook σ ι ρ Page) : Prop where
  initial : hook.loaded hook.initial = none
  reset : ∀ props s, hook.loaded (hook.reset props s) = none
  firstSettled : ∀ s, hook.loaded (hook.firstSettled s) = hook.loaded s
  moreStarted : ∀ identity s, hook.loaded (hook.moreStarted identity s) = hook.loaded s
  moreSettled : ∀ s, hook.loaded (hook.moreSettled s) = hook.loaded s
  restarted : ∀ s, hook.loaded (hook.restarted s) = hook.loaded s
  firstAnswered : ∀ identity a s, hook.loaded (hook.firstAnswered identity a s) = hook.loaded s ∨
    ∃ page, a = .page page ∧ hook.loaded (hook.firstAnswered identity a s) = some (identity, [page])
  moreAnswered : ∀ identity first a s, hook.loaded (hook.moreAnswered identity first a s) = hook.loaded s ∨
    hook.loaded (hook.moreAnswered identity first a s) = none ∨
    ∃ page pages, a = .page page ∧ hook.loaded s = some (identity, pages) ∧
      hook.graph_revision page = hook.graph_revision first ∧
      hook.loaded (hook.moreAnswered identity first a s) = some (identity, pages ++ [page])

theorem useRevisionBoundPages_lawful [DecidableEq ι] (spec : PagesSpec ι Page) :
    (useRevisionBoundPages spec : PagedHook (PagesState ι Page) ι ρ Page).Lawful where
  initial := rfl
  reset _ _ := rfl
  firstSettled _ := rfl
  moreStarted _ _ := rfl
  moreSettled _ := rfl
  restarted _ := rfl
  firstAnswered identity a s := by
    have hcaught (e : Option ApiError) : (s.caught identity .initial spec.initialError e).loaded = s.loaded := by
      cases e with
      | none | some e => rfl
    cases a with
    | page page =>
      simp only [useRevisionBoundPages, PagesState.firstAnswered]
      cases spec.validatePage identity page none with
      | some message => exact .inl rfl
      | none => exact .inr ⟨page, rfl, rfl⟩
    | caught e =>
      simp only [useRevisionBoundPages, PagesState.firstAnswered]
      split
      · exact .inl rfl
      · exact .inl (hcaught e)
  moreAnswered identity first a s := by
    have hcaught (e : Option ApiError) : (s.caught identity .more spec.moreError e).loaded = s.loaded := by
      cases e with
      | none | some e => rfl
    cases a with
    | page page =>
      simp only [useRevisionBoundPages, PagesState.moreAnswered]
      by_cases hrev : spec.graph_revision page = spec.graph_revision first
      · simp only [hrev, ne_eq, not_true_eq_false, if_false]
        cases spec.validatePage identity page (some first) with
        | some message => exact .inl rfl
        | none =>
          cases hloaded : s.loaded with
          | none => exact .inl hloaded
          | some l =>
            by_cases hi : l.1 = identity
            · refine .inr (.inr ⟨page, l.2, rfl, hi ▸ rfl, hrev, ?_⟩)
              simp only [hi, if_true]
            · simp only [hi, if_false]
              exact .inl hloaded
      · simp only [hrev, ne_eq, not_false_eq_true, if_true]
        exact .inr (.inl trivial)
    | caught e =>
      simp only [useRevisionBoundPages, PagesState.moreAnswered]
      split
      · exact .inr (.inl rfl)
      · exact .inl (hcaught e)

theorem useExactNodeSearch_lawful {Node : Type} (id : Node → ℕ) : (useExactNodeSearch id).Lawful where
  initial := rfl
  reset _ _ := rfl
  firstSettled _ := rfl
  moreStarted _ _ := rfl
  moreSettled _ := rfl
  restarted _ := rfl
  firstAnswered context a s := by
    cases a with
    | page page => exact .inr ⟨page, rfl, rfl⟩
    | caught e => exact .inl rfl
  moreAnswered context first a s := by
    cases a with
    | page page =>
      simp only [useExactNodeSearch, SearchState.moreAnswered]
      by_cases hrev : page.graph_revision = first.graph_revision
      · simp only [hrev, ne_eq, not_true_eq_false, if_false]
        cases hloaded : s.loadedPages with
        | none => exact .inl hloaded
        | some l =>
          by_cases hc : l.1 = context
          · refine .inr (.inr ⟨page, l.2, rfl, hc ▸ rfl, hrev, ?_⟩)
            simp only [hc, if_true]
          · simp only [hc, if_false]
            exact .inl hloaded
      · simp only [hrev, ne_eq, not_false_eq_true, if_true]
        exact .inr (.inl trivial)
    | caught e =>
      simp only [useExactNodeSearch, SearchState.moreAnswered]
      split
      · exact .inr (.inl rfl)
      · exact .inl rfl

/-! ## The invariant -/

namespace Reader

/-- `loadMore` of a render would send no request, or one that continues the pages that are loaded now for its
query: with the cursor of the last one, and with the revision of the first one to compare with. -/
def Continues (hook : PagedHook σ ι ρ Page) (s : σ) (identity : ι) : Option (Page × String) → Prop
  | none => True
  | some (first, cursor) => ∀ pages, hook.loaded s = some (identity, pages) →
    pages.getLast?.bind hook.next_cursor = some cursor ∧
      pages.head?.map hook.graph_revision = some (hook.graph_revision first)

variable (hook) in
/-- Every call of `loadMore`, also through `retry`, is one through a callback that has captured the cursor and the
revision of the pages that are loaded for its query. -/
def Current (w : Reader σ ι ρ Page) : PageEvent ι ρ Page → Prop
  | .loadMore k => ∀ r, w.renders[k]? = some r → Continues hook w.state r.1.identity (w.moreRequest hook r)
  | .retry k => ∀ r, w.renders[k]? = some r → hook.retriesMore r.1 r.2 →
    Continues hook w.state r.1.identity (w.moreRequest hook r)
  | _ => True

/-- A request that will not be dropped: its page is the first one of its query, or continues those loaded. -/
def Expected (hook : PagedHook σ ι ρ Page) (s : σ) (r : Request ι Page) : Prop :=
  (r.more = none → r.superseded = false) ∧
    (r.more.isSome → ∀ pages, hook.loaded s = some (r.identity, pages) → r.superseded = false) ∧
      Continues hook s r.identity r.more

variable (hook) in
/-- All pages, loaded now or seen by a render, are chains, and requests whose revision is that of the ref are those
to come next. While the timer is armed, nothing is loaded. -/
structure Inv (w : Reader σ ι ρ Page) : Prop where
  distinct : (w.requests.map Request.revision).Nodup
  le : ∀ r ∈ w.requests, r.revision ≤ w.requestRevisionRef
  armed : w.timer.isSome → w.cleanup
  timer : ∀ t, w.timer = some t → t.2 ≤ w.requestRevisionRef ∧ hook.loaded w.state = none ∧
    ∀ r ∈ w.requests, r.revision ≠ t.2 ∧ (r.more = none → r.revision < t.2)
  expected : ∀ r ∈ w.requests, r.answer = none → r.revision = w.requestRevisionRef → Expected hook w.state r
  loaded : ∀ l, hook.loaded w.state = some l → ∃ is, PageChain hook w.requests l.1 is l.2
  rendered : ∀ x ∈ w.renders, ∀ l, hook.loaded x.2 = some l → ∃ is, PageChain hook w.requests l.1 is l.2

section

variable {w w' : Reader σ ι ρ Page} {r : Request ι Page} {s s' : σ} {identity : ι} {more : Option (Page × String)}
  {i n : ℕ} {rs rs' : List (Request ι Page)}

theorem Continues.of_none (h : hook.loaded s = none) : Continues hook s identity more := by
  match more with
  | none => trivial
  | some (first, cursor) => exact fun pages hpages => nomatch h.symm.trans hpages

theorem Continues.of_loaded (h : hook.loaded s' = hook.loaded s) (hc : Continues hook s identity more) :
    Continues hook s' identity more := by
  match more, hc with
  | none, _ => trivial
  | some (first, cursor), hc => exact fun pages hpages => hc pages (h.symm.trans hpages)

theorem Expected.of_loaded (h : hook.loaded s' = hook.loaded s) (he : Expected hook s r) : Expected hook s' r :=
  ⟨he.1, fun hmore pages hpages => he.2.1 hmore pages (h.symm.trans hpages), he.2.2.of_loaded h⟩

/-- Chains stay chains while requests are kept. -/
theorem chains_keep (hkeep : Keeps rs rs') (h : ∀ l, hook.loaded s = some l → ∃ is, PageChain hook rs l.1 is l.2) :
    ∀ l, hook.loaded s = some l → ∃ is, PageChain hook rs' l.1 is l.2 := by
  intro l hl
  obtain ⟨is, hchain⟩ := h l hl
  exact ⟨is, hchain.keep hkeep⟩

/-- The handlers that change no page, the abort of a request and the end of one. -/
theorem Inv.modify (hs : Inv hook w)
    (hf : ∀ r, (f r).identity = r.identity ∧ (f r).more = r.more ∧ (f r).answer = r.answer ∧
      (f r).superseded = r.superseded) (hrev : ∀ r, (f r).revision = r.revision)
    (hloaded : hook.loaded s = hook.loaded w.state) (active : Option ℕ) :
    Inv hook { w with requests := w.requests.modify i f, state := s, activeRequestRef := active } where
  distinct := (Positions.map_modify hrev).symm ▸ hs.distinct
  le r hr := by
    obtain ⟨j, x, hx, ⟨-, rfl⟩ | ⟨-, rfl⟩⟩ := Positions.mem_modify hr
    · exact hs.le r (mem_of_getElem? hx)
    · exact hrev x ▸ hs.le x (mem_of_getElem? hx)
  armed := hs.armed
  timer t ht := by
    obtain ⟨hle, hnone, hother⟩ := hs.timer t ht
    refine ⟨hle, hloaded.trans hnone, fun r hr => ?_⟩
    obtain ⟨j, x, hx, ⟨-, rfl⟩ | ⟨-, rfl⟩⟩ := Positions.mem_modify hr
    · exact hother r (mem_of_getElem? hx)
    · rw [hrev, (hf x).2.1]
      exact hother x (mem_of_getElem? hx)
  expected r hr ha hr' := by
    obtain ⟨j, x, hx, ⟨-, rfl⟩ | ⟨-, rfl⟩⟩ := Positions.mem_modify hr
    · exact (hs.expected r (mem_of_getElem? hx) ha hr').of_loaded hloaded
    · obtain ⟨hid, hmore, hanswer, hsup⟩ := hf x
      have he := (hs.expected x (mem_of_getElem? hx) (hanswer ▸ ha) (hrev x ▸ hr')).of_loaded hloaded
      rw [Expected, hid, hmore, hsup]
      exact he
  loaded l hl := chains_keep (keeps_modify _ i hf) hs.loaded l (hloaded.symm.trans hl)
  rendered x hx := chains_keep (keeps_modify _ i hf) (hs.rendered x hx)

theorem revisions_supersede (rs : List (Request ι Page)) :
    (supersede rs).map Request.revision = rs.map Request.revision := by
  rw [supersede, map_map]
  refine map_congr_left fun r _ => ?_
  rw [Function.comp_apply]
  split
  · rfl
  · rfl

theorem mem_supersede (h : r ∈ supersede rs) : ∃ x ∈ rs, r.identity = x.identity ∧ r.more = x.more ∧
    r.revision = x.revision ∧ r.answer = x.answer := by
  obtain ⟨x, hx, rfl⟩ := mem_map.mp h
  refine ⟨x, hx, ?_⟩
  split
  · exact ⟨rfl, rfl, rfl, rfl⟩
  · exact ⟨rfl, rfl, rfl, rfl⟩

/-- A request is sent. The others that wait for an answer are superseded. -/
theorem Inv.send (hs : Inv hook w) (hn : n ≤ w.requestRevisionRef) (hnew : ∀ r ∈ w.requests, r.revision ≠ n)
    (htimer : ∀ t, w.timer = some t → n ≠ t.2 ∧ more.isSome)
    (hothers : n = w.requestRevisionRef ∨ hook.loaded w.state = none ∧
      ∀ r ∈ w.requests, r.answer = none → r.revision = w.requestRevisionRef → r.more.isSome)
    (hmore : n = w.requestRevisionRef → Continues hook w.state identity more) : Inv hook (w.send identity more n) := by
  have hkeep : Keeps w.requests (w.send identity more n).requests := (keeps_supersede _).trans (keeps_append _ _)
  refine ⟨?_, fun r hr => ?_, hs.armed, fun t ht => ?_, fun r hr ha hrev => ?_, chains_keep hkeep hs.loaded,
    fun x hx => chains_keep hkeep (hs.rendered x hx)⟩
  · refine Positions.nodup_append ((revisions_supersede _).symm ▸ hs.distinct) fun r hr => ?_
    obtain ⟨x, hx, -, -, hrev, -⟩ := mem_supersede hr
    exact hrev ▸ hnew x hx
  · rcases mem_append.mp hr with hr | hr
    · obtain ⟨x, hx, -, -, hrev, -⟩ := mem_supersede hr
      exact hrev ▸ hs.le x hx
    · obtain rfl := mem_singleton.mp hr
      exact hn
  · obtain ⟨hle, hnone, hother⟩ := hs.timer t ht
    refine ⟨hle, hnone, fun r hr => ?_⟩
    rcases mem_append.mp hr with hr | hr
    · obtain ⟨x, hx, -, hxmore, hrev, -⟩ := mem_supersede hr
      rw [hrev, hxmore]
      exact hother x hx
    · obtain rfl := mem_singleton.mp hr
      exact ⟨(htimer t ht).1, fun hm => absurd (htimer t ht).2 (by simpa using hm)⟩
  · rcases mem_append.mp hr with hr | hr
    · obtain ⟨x, hx, hid, hxmore, hxrev, hxa⟩ := mem_supersede hr
      rcases hothers with heq | ⟨hnone, hwaiting⟩
      · exact absurd (hxrev.symm.trans hrev) (heq ▸ hnew x hx)
      · have hsome := hwaiting x hx (hxa ▸ ha) (hxrev ▸ hrev)
        refine ⟨fun hm => ?_, fun _ _ hpages => (nomatch hnone.symm.trans hpages), .of_none hnone⟩
        rw [← hxmore, hm] at hsome
        exact absurd hsome (by simp)
    · obtain rfl := mem_singleton.mp hr
      exact ⟨fun _ => rfl, fun _ _ _ => rfl, hmore hrev⟩

/-- The revision grows: what is on the way will be dropped. -/
theorem Inv.bump (hs : Inv hook w) (hloaded : hook.loaded s = hook.loaded w.state) :
    Inv hook { w with requestRevisionRef := w.requestRevisionRef + 1, state := s } where
  distinct := hs.distinct
  le r hr := le_succ_of_le (hs.le r hr)
  armed := hs.armed
  timer t ht := by
    obtain ⟨hle, hnone, hother⟩ := hs.timer t ht
    exact ⟨le_succ_of_le hle, hloaded.trans hnone, hother⟩
  expected r hr _ hrev := absurd (hs.le r hr) (hrev ▸ not_succ_le_self _)
  loaded l hl := hs.loaded l (hloaded.symm.trans hl)
  rendered := hs.rendered

theorem Inv.abortActive (hs : Inv hook w) : Inv hook w.abortActive := by
  rw [Reader.abortActive]
  cases w.activeRequestRef with
  | none => exact hs
  | some i => exact hs.modify (f := fun r => { r with aborted := true }) (fun _ => ⟨rfl, rfl, rfl, rfl⟩) (fun _ => rfl) rfl none

theorem abortActive_eq (w : Reader σ ι ρ Page) :
    w.abortActive.state = w.state ∧ w.abortActive.timer = w.timer ∧ w.abortActive.cleanup = w.cleanup ∧
      w.abortActive.renders = w.renders := by
  rw [abortActive]
  cases w.activeRequestRef with
  | none | some i => exact ⟨rfl, rfl, rfl, rfl⟩

/-- Behind the cleanup no timer is armed. -/
theorem Inv.cleanUp (hs : Inv hook w) : Inv hook w.cleanUp ∧ w.cleanUp.timer = none := by
  rw [Reader.cleanUp]
  by_cases hclean : w.cleanup = true
  · rw [if_pos hclean]
    have hnone : Inv hook { w with timer := none } := { hs with armed := nofun, timer := nofun }
    exact ⟨hnone.abortActive.bump rfl, (abortActive_eq _).2.1⟩
  · rw [if_neg hclean]
    refine ⟨hs, Option.not_isSome_iff_eq_none.mp fun hsome => hclean (hs.armed hsome)⟩

/-- The effect: nothing is loaded, and what is on the way will be dropped. -/
theorem Inv.runEffect (hlaw : hook.Lawful) (hs : Inv hook w) (props : Props ι ρ) : Inv hook (w.runEffect hook props) := by
  obtain ⟨hclean, htimer⟩ := hs.cleanUp
  have hactive := hclean.abortActive
  have htimer' : w.cleanUp.abortActive.timer = none := (abortActive_eq _).2.1.trans htimer
  have hnone : hook.loaded (hook.reset props w.cleanUp.abortActive.state) = none := hlaw.reset _ _
  generalize hv : w.cleanUp.abortActive = v at hactive htimer' hnone
  -- the world behind the sets of the effect
  have hreset (b : Bool) : Inv hook { v with
      requestRevisionRef := v.requestRevisionRef + 1
      state := hook.reset props v.state
      effectDue := false
      cleanup := b
      requests := supersede v.requests } := by
    refine ⟨?_, fun r hr => ?_, fun h => ?_, fun t ht => (nomatch htimer'.symm.trans ht), fun r hr _ hrev => ?_,
      fun l hl => (nomatch hnone.symm.trans hl), fun x hx => chains_keep (keeps_supersede _) (hactive.rendered x hx)⟩
    · exact revisions_supersede v.requests ▸ hactive.distinct
    · obtain ⟨x, hx, -, -, hrev, -⟩ := mem_supersede hr
      exact hrev ▸ le_succ_of_le (hactive.le x hx)
    · exact absurd h (by simp [htimer'])
    · obtain ⟨x, hx, -, -, hxrev, -⟩ := mem_supersede hr
      exact absurd (hactive.le x hx) (hxrev ▸ hrev ▸ not_succ_le_self _)
  have hlt : ∀ r ∈ supersede v.requests, r.revision < v.requestRevisionRef + 1 := by
    intro r hr
    obtain ⟨x, hx, -, -, hxrev, -⟩ := mem_supersede hr
    exact hxrev ▸ lt_succ_of_le (hactive.le x hx)
  simp only [Reader.runEffect, hv]
  by_cases henabled : props.enabled = true
  · by_cases hdebounced : hook.debounced = true
    · simp only [henabled, hdebounced, Bool.not_true, Bool.false_eq_true, if_false, if_true]
      refine { hreset true with armed := fun _ => rfl, timer := fun t ht => ?_ }
      obtain rfl := Option.some.inj ht
      exact ⟨le_rfl, hnone, fun r hr => ⟨(hlt r hr).ne, fun _ => hlt r hr⟩⟩
    · simp only [henabled, hdebounced, Bool.not_true, Bool.false_eq_true, if_false]
      refine (hreset true).send le_rfl (fun r hr => (hlt r hr).ne) (fun t ht => ?_) (.inl rfl) fun _ => trivial
      exact nomatch htimer'.symm.trans ht
  · simp only [henabled, Bool.not_false, if_true]
    exact hreset false

/-- `loadMore` of a render whose callback has captured what is loaded. -/
theorem Inv.callLoadMore (hlaw : hook.Lawful) (hs : Inv hook w) (x : Props ι ρ × σ)
    (hcurrent : Continues hook w.state x.1.identity (w.moreRequest hook x)) : Inv hook (w.callLoadMore hook x) := by
  rw [Reader.callLoadMore]
  cases hmore : w.moreRequest hook x with
  | none => exact hs
  | some more =>
    have hloaded := hlaw.moreStarted x.1.identity w.state
    have hlt : ∀ r ∈ w.requests, r.revision < w.requestRevisionRef + 1 := fun r hr => lt_succ_of_le (hs.le r hr)
    refine (hs.bump hloaded).send le_rfl (fun r hr => (hlt r hr).ne) (fun t ht => ⟨?_, rfl⟩) (.inl rfl) fun _ => ?_
    · exact (lt_succ_of_le (hs.timer t ht).1).ne'
    · exact (hmore ▸ hcurrent).of_loaded hloaded

/-- The timer of the effect fires. -/
theorem Inv.fire (hs : Inv hook w) {t : ι × ℕ} (ht : w.timer = some t) :
    Inv hook (({ w with timer := none } : Reader σ ι ρ Page).send t.1 none t.2) := by
  obtain ⟨hle, hnone, hother⟩ := hs.timer t ht
  have hoff : Inv hook { w with timer := none } := { hs with armed := nofun, timer := nofun }
  refine hoff.send hle (fun r hr => (hother r hr).1) nofun (.inr ⟨hnone, fun r hr _ hrev => ?_⟩) fun _ => trivial
  -- a first request with the newest revision would be newer than the effect that has set the timer
  refine Option.isSome_iff_ne_none.mpr fun hfirst => ?_
  exact absurd (hrev ▸ (hother r hr).2 hfirst) (Nat.not_lt_of_le hle)

/-- `retry` that begins again. -/
theorem Inv.restarted (hs : Inv hook w) (hloaded : hook.loaded s = hook.loaded w.state) :
    Inv hook { w with state := s } where
  distinct := hs.distinct
  le := hs.le
  armed := hs.armed
  timer t ht := ⟨(hs.timer t ht).1, hloaded.trans (hs.timer t ht).2.1, (hs.timer t ht).2.2⟩
  expected r hr ha hrev := (hs.expected r hr ha hrev).of_loaded hloaded
  loaded l hl := hs.loaded l (hloaded.symm.trans hl)
  rendered := hs.rendered

/-- A request is answered. -/
theorem Inv.answer (hlaw : hook.Lawful) (hs : Inv hook w) (hr : w.requests[i]? = some r) (ha : r.answer = none)
    (a : Answer Page) : Inv hook (w.answer hook i r a) := by
  have hmem : r ∈ w.requests := mem_iff_getElem?.mpr ⟨i, hr⟩
  have hkeep : Keeps w.requests (w.requests.modify i fun r => { r with answer := some a }) := keeps_answer hr ha _
  -- the parts of the invariant that do not speak of the pages that are loaded
  have hset {s : σ} (hnone : ∀ t, w.timer = some t → hook.loaded s = none)
      (hothers : ∀ j x, w.requests[j]? = some x → j ≠ i → x.answer = none → x.revision = w.requestRevisionRef →
        Expected hook s x)
      (hchain : ∀ l, hook.loaded s = some l →
        ∃ is, PageChain hook (w.requests.modify i fun r => { r with answer := some a }) l.1 is l.2) :
      Inv hook { w with requests := w.requests.modify i fun r => { r with answer := some a }, state := s } := by
    refine ⟨?_, fun x hx => ?_, hs.armed, fun t ht => ?_, fun x hx hxa hrev => ?_, hchain,
      fun x hx => chains_keep hkeep (hs.rendered x hx)⟩
    · have hrevs : (w.requests.modify i fun r => { r with answer := some a }).map Request.revision =
          w.requests.map Request.revision := Positions.map_modify fun _ => rfl
      exact hrevs.symm ▸ hs.distinct
    · obtain ⟨j, y, hy, ⟨-, rfl⟩ | ⟨-, rfl⟩⟩ := Positions.mem_modify hx
      · exact hs.le x (mem_of_getElem? hy)
      · exact hs.le y (mem_of_getElem? hy)
    · obtain ⟨hle, -, hother⟩ := hs.timer t ht
      refine ⟨hle, hnone t ht, fun x hx => ?_⟩
      obtain ⟨j, y, hy, ⟨-, rfl⟩ | ⟨-, rfl⟩⟩ := Positions.mem_modify hx
      · exact hother x (mem_of_getElem? hy)
      · exact hother y (mem_of_getElem? hy)
    · obtain ⟨j, y, hy, ⟨hne, rfl⟩ | ⟨-, rfl⟩⟩ := Positions.mem_modify hx
      · exact hothers j x hy hne hxa hrev
      · exact nomatch hxa
  -- an answer that changes no page
  have hsame {s : σ} (h : hook.loaded s = hook.loaded w.state) :
      Inv hook { w with requests := w.requests.modify i fun r => { r with answer := some a }, state := s } := by
    refine hset (fun t ht => h.trans (hs.timer t ht).2.1) (fun j x hx _ hxa hrev => ?_)
      fun l hl => chains_keep hkeep hs.loaded l (h.symm.trans hl)
    exact (hs.expected x (mem_of_getElem? hx) hxa hrev).of_loaded h
  rw [Reader.answer]
  by_cases hdropped : w.dropped r = true
  · rw [if_pos hdropped]
    exact hsame rfl
  · rw [if_neg hdropped]
    have hrev : r.revision = w.requestRevisionRef := by
      simp only [dropped, Bool.or_eq_true, decide_eq_true_eq, not_or, not_not] at hdropped
      exact hdropped.2
    have he := hs.expected r hmem ha hrev
    have halone {s : σ} : ∀ j x, w.requests[j]? = some x → j ≠ i → x.answer = none →
        x.revision = w.requestRevisionRef → Expected hook s x :=
      fun j x hx hne _ hxrev => absurd (Positions.index_eq hs.distinct hx hr (hxrev.trans hrev.symm)) hne
    have hfetched {page : Page} (hpage : a = .page page) (hsup : r.superseded = false) :
        Fetched (w.requests.modify i fun r => { r with answer := some a }) i r.identity r.cursor page := by
      refine ⟨{ r with answer := some a }, ?_, rfl, rfl, congrArg some hpage, hsup⟩
      simp [hr]
    cases hmore : r.more with
    | none =>
      rcases hlaw.firstAnswered r.identity a w.state with h | ⟨page, hpage, h⟩
      · exact hsame h
      · refine hset (fun t ht => ?_) halone fun l hl => ?_
        · -- no request of the newest revision waits while the timer is armed
          obtain ⟨hle, -, hother⟩ := hs.timer t ht
          exact absurd (hrev ▸ (hother r hmem).2 hmore) (Nat.not_lt_of_le hle)
        · obtain rfl := Option.some.inj (h.symm.trans hl)
          have hcursor : r.cursor = none := by rw [Request.cursor, hmore, Option.map_none]
          exact ⟨[i], .first (hcursor ▸ hfetched hpage (he.1 hmore))⟩
    | some m =>
      obtain ⟨first, cursor⟩ := m
      rcases hlaw.moreAnswered r.identity first a w.state with h | h | ⟨page, pages, hpage, hold, hsame, h⟩
      · exact hsame h
      · exact hset (fun _ _ => h) halone fun l hl => nomatch h.symm.trans hl
      · refine hset (fun t ht => nomatch (hs.timer t ht).2.1.symm.trans hold) halone fun l hl => ?_
        obtain rfl := Option.some.inj (h.symm.trans hl)
        obtain ⟨is, hchain⟩ := hs.loaded _ hold
        have hcontinues := he.2.2
        rw [hmore] at hcontinues
        obtain ⟨hlast, hhead⟩ := hcontinues pages hold
        have hcursor : r.cursor = some cursor := by rw [Request.cursor, hmore, Option.map_some]
        have hsup := he.2.1 (by rw [hmore]; rfl) pages hold
        refine ⟨is ++ [i], .more (hchain.keep hkeep) (fun hi => ?_) (hcursor ▸ hfetched hpage hsup) hlast ?_⟩
        · obtain ⟨r', hr', hanswered⟩ := hchain.answered hi
          obtain rfl := Option.some.inj (hr.symm.trans hr')
          exact absurd hanswered (by simp [ha])
        · rw [hhead, hsame]

/-- The `finally` handler of a request. -/
theorem Inv.settle (hlaw : hook.Lawful) (hs : Inv hook w) : Inv hook (w.settle hook i r) := by
  have hmodify {s : σ} (hloaded : hook.loaded s = hook.loaded w.state) (active : Option ℕ) :=
    hs.modify (f := fun r => { r with settled := true }) (i := i) (fun _ => ⟨rfl, rfl, rfl, rfl⟩) (fun _ => rfl)
      hloaded active
  rw [Reader.settle]
  by_cases hdropped : w.dropped r = true
  · rw [if_pos hdropped]
    exact hmodify rfl w.activeRequestRef
  · rw [if_neg hdropped]
    refine hmodify ?_ none
    cases r.more with
    | none => exact hlaw.firstSettled w.state
    | some m => exact hlaw.moreSettled w.state

theorem inv_mounted (hlaw : hook.Lawful) : Inv hook (mounted hook) where
  distinct := nodup_nil
  le := nofun
  armed := nofun
  timer := nofun
  expected := nofun
  loaded _ hl := nomatch hlaw.initial.symm.trans hl
  rendered := nofun

variable [DecidableEq ι] [DecidableEq ρ]

/-- A render sees the pages that are loaded now. -/
theorem Inv.render (hs : Inv hook w) (props : Props ι ρ) : Inv hook (w.render hook props) := by
  refine { hs with rendered := fun x hx => ?_ }
  rcases mem_append.mp hx with hx | hx
  · exact hs.rendered x hx
  · obtain rfl := mem_singleton.mp hx
    exact hs.loaded

/-- One event: the invariant is kept if `loadMore` continues what is loaded. -/
theorem Inv.step (hlaw : hook.Lawful) (hs : Inv hook w) {e : PageEvent ι ρ Page}
    (h : Guarded (Current hook) (Step hook) w e w') : Inv hook w' := by
  obtain ⟨hcurrent, hstep⟩ := h
  have hafter : w.after hook e = some w' := hstep
  cases e with
  | render props =>
    rw [after] at hafter
    split at hafter
    · exact nomatch hafter
    · exact Option.some.inj hafter ▸ hs.render props
  | effect =>
    rw [after] at hafter
    split at hafter
    · obtain ⟨x, -, rfl⟩ := Option.map_eq_some_iff.mp hafter
      exact hs.runEffect hlaw x.1
    · exact nomatch hafter
  | timer =>
    obtain ⟨t, ht, rfl⟩ := Option.map_eq_some_iff.mp hafter
    exact hs.fire ht
  | loadMore k =>
    obtain ⟨x, hx, rfl⟩ := Option.map_eq_some_iff.mp hafter
    exact hs.callLoadMore hlaw x (hcurrent x hx)
  | retry k =>
    obtain ⟨x, hx, rfl⟩ := Option.map_eq_some_iff.mp hafter
    rw [callRetry]
    split
    · exact hs.callLoadMore hlaw x (hcurrent x hx ‹_›)
    · have hloaded := hlaw.restarted w.state
      exact hs.restarted hloaded
  | answered i a =>
    cases hr : w.requests[i]? with
    | none =>
      simp only [after, hr] at hafter
      exact nomatch hafter
    | some r =>
      simp only [after, hr] at hafter
      split at hafter
      · obtain rfl := Option.some.inj hafter
        exact hs.answer hlaw hr (Option.isNone_iff_eq_none.mp ‹_›) a
      · exact nomatch hafter
  | settled i =>
    cases hr : w.requests[i]? with
    | none =>
      simp only [after, hr] at hafter
      exact nomatch hafter
    | some r =>
      simp only [after, hr] at hafter
      split at hafter
      · exact Option.some.inj hafter ▸ hs.settle hlaw
      · exact nomatch hafter

end

end Reader

/-! ## The law -/

variable [DecidableEq ι]

/-- What the newest render exposes is nothing, or a chain of pages of its query. -/
def PagesLaw (hook : PagedHook σ ι ρ Page) (w : Reader σ ι ρ Page) : Prop :=
  ∀ r, w.renders.getLast? = some r →
    hook.pages r = [] ∨ ∃ is, PageChain hook w.requests r.1.identity is (hook.pages r)

theorem Reader.Inv.law {w : Reader σ ι ρ Page} (hs : w.Inv hook) : PagesLaw hook w := by
  intro r hr
  have hmem : r ∈ w.renders := mem_of_getLast? hr
  rw [PagedHook.pages]
  cases hl : hook.loaded r.2 with
  | none => exact .inl rfl
  | some l =>
    by_cases hid : l.1 = r.1.identity
    · obtain ⟨is, hchain⟩ := hs.rendered r hmem l hl
      simp only [hid, if_true]
      exact .inr ⟨is, hid ▸ hchain⟩
    · simp only [hid, if_false]
      exact .inl trivial

variable [DecidableEq ρ]

theorem PagedHook.Lawful.pagesLaw (hlaw : hook.Lawful) {es : List (PageEvent ι ρ Page)} {w : Reader σ ι ρ Page}
    (h : Runs (Guarded (Reader.Current hook) (Reader.Step hook)) (Reader.mounted hook) es w) : PagesLaw hook w :=
  (h.invariant (fun _ _ _ hs hstep => hs.step hlaw hstep) (Reader.inv_mounted hlaw)).law

/-- **Neither hook ever mixes pages**, in any run in which `loadMore` is called through callbacks that have captured
what is loaded. -/
theorem pages_in_one_chain (spec : PagesSpec ι Page) {Node : Type} (id : Node → ℕ) :
    (∀ (es : List (PageEvent ι ρ Page)) (w : Reader (PagesState ι Page) ι ρ Page),
      Runs (Guarded (Reader.Current (useRevisionBoundPages spec)) (Reader.Step (useRevisionBoundPages spec)))
        (Reader.mounted (useRevisionBoundPages spec)) es w → PagesLaw (useRevisionBoundPages spec) w) ∧
    ∀ (es : List (PageEvent SearchContext ℕ (GraphNodeSearchData Node)))
      (w : Reader (SearchState Node) SearchContext ℕ (GraphNodeSearchData Node)),
      Runs (Guarded (Reader.Current (useExactNodeSearch id)) (Reader.Step (useExactNodeSearch id)))
        (Reader.mounted (useExactNodeSearch id)) es w → PagesLaw (useExactNodeSearch id) w :=
  ⟨fun _ _ h => (useRevisionBoundPages_lawful spec).pagesLaw h, fun _ _ h => (useExactNodeSearch_lawful id).pagesLaw h⟩

/-! ## Callbacks of an earlier render -/

/-- Pages that are a revision and a cursor. -/
def plainSpec : PagesSpec String (String × Option String) where
  graph_revision := Prod.fst
  next_cursor := Prod.snd
  validatePage _ _ _ := none
  initialError := "Unable to load exact scope"
  moreError := "Unable to load more"

/-- The pages of a scope. -/
abbrev scopeHook : PagedHook (PagesState String (String × Option String)) String Unit (String × Option String) :=
  useRevisionBoundPages plainSpec

def scopeProps : Props String Unit := ⟨"scope", true, ()⟩

/-- The first page is loaded and shown. -/
def firstPage : List (PageEvent String Unit (String × Option String)) :=
  [.render scopeProps, .effect, .answered 0 (.page ("r1", some "c1")), .settled 0, .render scopeProps]

/-- The second page is loaded, which the callback of the render that shows the first one has asked for. -/
def secondPage : List (PageEvent String Unit (String × Option String)) :=
  [.answered 1 (.page ("r1", none)), .settled 1]

def shown : List (PageEvent String Unit (String × Option String)) := secondPage ++ [.render scopeProps]

/-- A search that finds one page. -/
def searchRun : List (PageEvent SearchContext ℕ (GraphNodeSearchData ℕ)) :=
  [.render (searchProps (some "p") ['q'] 180 .undefined), .effect, .timer,
    .answered 0 (.page ⟨"r1", 1, false, [7], 50, 1, none⟩), .settled 0,
    .render (searchProps (some "p") ['q'] 180 .undefined)]

theorem pages_in_one_chain_shown :
    (∃ w, w.renders.getLast?.map scopeHook.pages = some [("r1", some "c1"), ("r1", none)] ∧ PagesLaw scopeHook w) ∧
    ∃ w, w.renders.getLast?.map (fun r => ((useExactNodeSearch id).pages r).length) = some 1 ∧
      PagesLaw (useExactNodeSearch id) w := by
  constructor
  · obtain ⟨w₁, hfirst, hcurrent, w₂, hmore, w, hsecond, hpages⟩ : ∃ w₁,
        firstPage.foldlM (Reader.after scopeHook) (Reader.mounted scopeHook) = some w₁ ∧
        Reader.Current scopeHook w₁ (.loadMore 1) ∧ ∃ w₂, w₁.after scopeHook (.loadMore 1) = some w₂ ∧
        ∃ w, shown.foldlM (Reader.after scopeHook) w₂ = some w ∧
        w.renders.getLast?.map scopeHook.pages = some [("r1", some "c1"), ("r1", none)] := by
      refine ⟨_, rfl, fun r hr => ?_, _, rfl, _, rfl, rfl⟩
      obtain rfl := Option.some.inj hr
      intro pages hpages
      obtain rfl := (Prod.mk.inj (Option.some.inj hpages)).2
      exact ⟨rfl, rfl⟩
    refine ⟨w, hpages, (pages_in_one_chain plainSpec (id : ℕ → ℕ)).1 (firstPage ++ .loadMore 1 :: shown) w ?_⟩
    refine ((Runs.of_foldlM hfirst).guarded fun e he s => ?_).append
      (.cons ⟨hcurrent, hmore⟩ ((Runs.of_foldlM hsecond).guarded fun e he s => ?_))
    · simp only [firstPage, mem_cons, not_mem_nil, or_false] at he
      rcases he with rfl | rfl | rfl | rfl | rfl
      all_goals trivial
    · simp only [shown, secondPage, mem_append, mem_cons, not_mem_nil, or_false] at he
      rcases he with (rfl | rfl) | rfl
      all_goals trivial
  · obtain ⟨w, hrun, hpages⟩ : ∃ w,
        searchRun.foldlM (Reader.after (useExactNodeSearch id)) (Reader.mounted (useExactNodeSearch id)) = some w ∧
        w.renders.getLast?.map (fun r => ((useExactNodeSearch id).pages r).length) = some 1 := ⟨_, rfl, rfl⟩
    refine ⟨w, hpages, (pages_in_one_chain (ρ := Unit) plainSpec id).2 _ w ((Runs.of_foldlM hrun).guarded fun e he s => ?_)⟩
    simp only [searchRun, mem_cons, not_mem_nil, or_false] at he
    rcases he with rfl | rfl | rfl | rfl | rfl | rfl
    all_goals trivial

/-- The second page is the last one, but it is asked for again through the same callback, before the next render. -/
def staleRun : List (PageEvent String Unit (String × Option String)) :=
  firstPage ++ .loadMore 1 :: secondPage ++
    [.loadMore 1, .answered 2 (.page ("r1", none)), .settled 2, .render scopeProps]

/-- The second page is shown twice. -/
theorem pages_repeated : ¬∀ es w, Runs (Reader.Step scopeHook) (Reader.mounted scopeHook) es w → PagesLaw scopeHook w := by
  intro hall
  obtain ⟨w, hrun, hshown⟩ : ∃ w,
      staleRun.foldlM (Reader.after scopeHook) (Reader.mounted scopeHook) = some w ∧
      w.renders.getLast?.map scopeHook.pages = some [("r1", some "c1"), ("r1", none), ("r1", none)] := ⟨_, rfl, rfl⟩
  obtain ⟨r, hlast, hpages⟩ := Option.map_eq_some_iff.mp hshown
  rcases hall staleRun w (.of_foldlM hrun) r hlast with hnil | ⟨is, hchain⟩
  · exact nomatch hpages.symm.trans hnil
  · rw [hpages] at hchain
    have hsplit : ([("r1", some "c1"), ("r1", none), ("r1", none)] : List (String × Option String)) =
        [("r1", some "c1"), ("r1", none)] ++ [("r1", none)] := rfl
    obtain ⟨cursor, hcursor⟩ := hchain.exists_cursor hsplit nofun
    exact nomatch hcursor

end Ariad.Hooks
