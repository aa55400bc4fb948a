import Mathlib.Data.Prod.Lex
import Ariad.Javascript.OrderedMap

/-!
# Keyset pagination

A query is answered in pages. A page names the key of its last row if there are more rows, and the next page has
the rows behind that key.

* `orderBy` — `ORDER BY` a key; `filter_orderBy_append`: what is behind a key.
* `pagesFrom`, `pageEnds` — a list in pages, and the rows that end a page before the last.
* `Trail` — the pages that positions lead to, and these positions.
* `Walk` — the pages of a client that sends back what it was given. `walk_iff`: it gets to the end if and only if
  every position it is given is accepted.
-/

namespace Ariad.Keyset

open List

variable {α β κ ω π : Type}

/-! ## Order -/

section Order

variable [LinearOrder β] {key : α → β} {l : List α}

def orderBy (key : α → β) (l : List α) : List α := sortBy (fun a b => compare (key a) (key b)) l

theorem orderBy_perm (key : α → β) (l : List α) : (orderBy key l).Perm l := sortBy_perm ..

@[simp] theorem mem_orderBy {a : α} : a ∈ orderBy key l ↔ a ∈ l := mem_sortBy

@[simp] theorem length_orderBy : (orderBy key l).length = l.length := length_sortBy

theorem pairwise_le_orderBy (key : α → β) (l : List α) : (orderBy key l).Pairwise fun a b => key a ≤ key b := by
  have hle : ∀ a b : α, (compare (key a) (key b)).isLE = true ↔ key a ≤ key b :=
    fun a b => Ordering.isLE_iff_ne_gt.trans compare_le_iff_le
  have : Std.Total fun a b : α => (compare (key a) (key b)).isLE = true :=
    ⟨fun a b => by
      rw [hle, hle]
      exact le_total _ _⟩
  have : IsTrans α fun a b : α => (compare (key a) (key b)).isLE = true :=
    ⟨fun a b c => by
      rw [hle, hle, hle]
      exact le_trans⟩
  exact (pairwise_insertionSort _ l).imp fun h => (hle _ _).mp h

/-- Rows with different keys are in strict order. -/
theorem pairwise_lt_orderBy (h : (l.map key).Nodup) : (orderBy key l).Pairwise fun a b => key a < key b := by
  have hnodup : ((orderBy key l).map key).Nodup := ((orderBy_perm key l).map key).nodup_iff.mpr h
  have hne : (orderBy key l).Pairwise fun a b => key a ≠ key b := pairwise_map.mp hnodup
  exact (pairwise_le_orderBy key l).imp₂ (fun _ _ hle hne => lt_of_le_of_ne hle hne) hne

theorem eq_of_perm_of_pairwise_lt {l' : List α} (h : l.Pairwise fun a b => key a < key b)
    (h' : l'.Pairwise fun a b => key a < key b) (hperm : l.Perm l') : l = l' :=
  Perm.eq_of_pairwise (fun _ _ _ _ hab hba => absurd hba (lt_asymm hab)) h h' hperm

/-- A condition may be asked before the rows are ordered, or afterwards. -/
theorem orderBy_filter (h : (l.map key).Nodup) (p : α → Bool) :
    orderBy key (l.filter p) = (orderBy key l).filter p := by
  have hsub : ((l.filter p).map key).Nodup := h.sublist (filter_sublist.map key)
  apply eq_of_perm_of_pairwise_lt (pairwise_lt_orderBy hsub) ((pairwise_lt_orderBy h).filter p)
  exact (orderBy_perm key _).trans ((orderBy_perm key l).symm.filter p)

/-- Rows in any order are ordered alike. -/
theorem orderBy_congr {l' : List α} (h : (l.map key).Nodup) (hperm : l.Perm l') : orderBy key l = orderBy key l' :=
  eq_of_perm_of_pairwise_lt (pairwise_lt_orderBy h) (pairwise_lt_orderBy ((hperm.map key).nodup_iff.mp h))
    ((orderBy_perm key l).trans (hperm.trans (orderBy_perm key l').symm))

/-- A row that few others come before or beside is one of the first rows. -/
theorem notMem_drop_orderBy [DecidableEq α] {a : α} {n : ℕ} (h : l.Nodup)
    (hfew : (l.filter fun b => b ≠ a && key b ≤ key a).length < n) : a ∉ (orderBy key l).drop n := by
  intro ha
  have hsplit := take_append_drop n (orderBy key l)
  have hnodup : (orderBy key l).Nodup := (orderBy_perm key l).nodup_iff.mpr h
  have hle := pairwise_le_orderBy key l
  rw [← hsplit] at hnodup hle
  obtain ⟨htake, -, hne⟩ := List.nodup_append.mp hnodup
  obtain ⟨-, -, hle⟩ := pairwise_append.mp hle
  have hsub : (orderBy key l).take n ⊆ l.filter fun b => b ≠ a && key b ≤ key a := by
    intro b hb
    refine mem_filter.mpr ⟨mem_orderBy.mp (mem_of_mem_take hb), ?_⟩
    rw [Bool.and_eq_true, decide_eq_true_eq, decide_eq_true_eq]
    exact ⟨hne b hb a ha, hle b hb a ha⟩
  have hlength : ((orderBy key l).take n).length = n := by
    have hpos := length_pos_of_mem ha
    rw [length_drop] at hpos
    rw [length_take]
    omega
  have hcount := htake.length_le_of_subset hsub
  omega

/-- Behind the key of the last of the first rows are the others. -/
theorem filter_append_of_pairwise {pre suf : List α} {a : α} (h : (pre ++ [a] ++ suf).Pairwise fun a b => key a < key b) :
    (pre ++ [a] ++ suf).filter (fun b => decide (key a < key b)) = suf := by
  obtain ⟨hpre, _, hlt⟩ := pairwise_append.mp h
  have hnone : (pre ++ [a]).filter (fun b => decide (key a < key b)) = [] := by
    rw [filter_eq_nil_iff]
    intro b hb
    rw [decide_eq_true_eq, not_lt]
    rcases mem_append.mp hb with hb | hb
    · exact le_of_lt ((pairwise_append.mp hpre).2.2 b hb a mem_cons_self)
    · rw [mem_singleton.mp hb]
  have hall : suf.filter (fun b => decide (key a < key b)) = suf := by
    rw [filter_eq_self]
    exact fun b hb => decide_eq_true (hlt a (by simp) b hb)
  rw [filter_append, hnone, hall, nil_append]

end Order

/-! ## Pages of a list -/

/-- A page for every `limit` rows; what a page is may depend on the rows before it. -/
def pagesFrom (page : List α → List α → π) (limit : ℕ) (pre l : List α) : List π :=
  if 0 < limit ∧ limit < l.length then
    page pre (l.take limit) :: pagesFrom page limit (pre ++ l.take limit) (l.drop limit)
  else [page pre (l.take limit)]
termination_by l.length

/-- A query asks for one row more than the page has, to see whether there are more. -/
theorem lt_length_take_succ {limit : ℕ} {l : List α} : limit < (l.take (limit + 1)).length ↔ limit < l.length := by
  rw [length_take]
  omega

theorem take_of_take_succ (limit : ℕ) (l : List α) :
    (if limit < l.length then (l.take (limit + 1)).take limit else l.take (limit + 1)) = l.take limit := by
  split
  · rw [take_take, Nat.min_eq_left (Nat.le_succ limit)]
  · rename_i h
    rw [not_lt] at h
    rw [take_of_length_le h, take_of_length_le (h.trans (Nat.le_succ limit))]

/-- The rows that end a page, that of the last page apart. -/
def pageEnds (limit : ℕ) (l : List α) : List α :=
  if 0 < limit ∧ limit < l.length then (l.take limit).getLast?.toList ++ pageEnds limit (l.drop limit) else []
termination_by l.length

theorem pageEnds_subset (limit : ℕ) (l : List α) : pageEnds limit l ⊆ l := by
  fun_induction pageEnds limit l with
  | case1 l h ih =>
    intro a ha
    rcases mem_append.mp ha with ha | ha
    · exact take_subset _ _ (mem_of_getLast? (Option.mem_toList.mp ha))
    · exact drop_subset _ _ (ih ha)
  | case2 => exact nil_subset _

theorem flatMap_pagesFrom {limit : ℕ} (page : List α → List α → π) (rows : π → List α) (hlimit : 0 < limit)
    (hrows : ∀ pre l, rows (page pre l) = l) (pre l : List α) : (pagesFrom page limit pre l).flatMap rows = l := by
  fun_induction pagesFrom page limit pre l with
  | case1 pre l h ih => rw [flatMap_cons, hrows, ih, take_append_drop]
  | case2 pre l h =>
    have hlength : l.length ≤ limit := by omega
    rw [flatMap_cons, flatMap_nil, hrows, append_nil, take_of_length_le hlength]

/-- A first page, and pages that have rows before them. -/
theorem exists_pagesFrom (page : List α → List α → π) (limit : ℕ) (pre l : List α) :
    ∃ more, pagesFrom page limit pre l = page pre (l.take limit) :: more ∧
      ∀ p ∈ more, ∃ pre' l', pre' ≠ [] ∧ p = page pre' l' := by
  fun_induction pagesFrom page limit pre l with
  | case1 pre l h ih =>
    obtain ⟨more, heq, hmore⟩ := ih
    refine ⟨_, rfl, ?_⟩
    rw [heq]
    intro p hp
    rcases mem_cons.mp hp with rfl | hp
    · refine ⟨_, _, ?_, rfl⟩
      rw [Ne, append_eq_nil_iff, take_eq_nil_iff]
      rintro ⟨_, h0 | hnil⟩
      · omega
      · simp [hnil] at h
    · exact hmore p hp
  | case2 => exact ⟨[], rfl, by simp⟩

/-! ## Positions and pages -/

/-- The pages from a position on, up to one that names no further position, and the positions that were used. -/
inductive Trail (raw : κ → π × Option κ) : Option κ → List π → List κ → Prop where
  | done : Trail raw none [] []
  | next {c : κ} {ps : List π} {cs : List κ} :
    Trail raw (raw c).2 ps cs → Trail raw (some c) ((raw c).1 :: ps) (c :: cs)

/-- The pages of a list, then those of what follows it. -/
theorem trail_pagesFrom (raw : κ → π × Option κ) (page : List α → List α → π) {limit : ℕ} {place : List α → κ}
    {pos : α → κ} {next : Option κ} {l : List α} {ps : List π} {cs : List κ} (hlimit : 0 < limit)
    (hplace : ∀ pre a, place (pre ++ [a]) = pos a)
    (hraw : ∀ pre suf, pre ++ suf = l → raw (place pre) =
      (page pre (suf.take limit), if limit < suf.length then some (place (pre ++ suf.take limit)) else next))
    (hnext : Trail raw next ps cs) (pre suf : List α) (hl : pre ++ suf = l) :
    Trail raw (some (place pre)) (pagesFrom page limit pre suf ++ ps)
      (place pre :: ((pageEnds limit suf).map pos ++ cs)) := by
  induction hn : suf.length using Nat.strong_induction_on generalizing pre suf with
  | _ n ih =>
    have hstep := hraw pre suf hl
    by_cases hlt : limit < suf.length
    · rw [if_pos hlt] at hstep
      obtain ⟨a, ha⟩ : ∃ a, (suf.take limit).getLast? = some a := by
        rw [← Option.isSome_iff_exists, getLast?_isSome, Ne, take_eq_nil_iff]
        rintro (h0 | hnil)
        · omega
        · simp [hnil] at hlt
      have hlast : place (pre ++ suf.take limit) = pos a := by
        obtain ⟨rows, hrows⟩ := getLast?_eq_some_iff.mp ha
        rw [hrows, ← append_assoc, hplace]
      have hdrop : (suf.drop limit).length < n := by
        rw [length_drop]
        omega
      have hrest := ih _ hdrop (pre ++ suf.take limit) (suf.drop limit)
        (by rw [append_assoc, take_append_drop, hl]) rfl
      rw [pagesFrom, if_pos ⟨hlimit, hlt⟩, pageEnds, if_pos ⟨hlimit, hlt⟩, ha, Option.toList_some,
        singleton_append, map_cons, cons_append, cons_append, ← hlast]
      have hfirst : (raw (place pre)).1 = page pre (suf.take limit) := by rw [hstep]
      have hsecond : (raw (place pre)).2 = some (place (pre ++ suf.take limit)) := by rw [hstep]
      rw [← hsecond] at hrest
      rw [← hfirst]
      exact .next hrest
    · rw [if_neg hlt] at hstep
      have hno : ¬ (0 < limit ∧ limit < suf.length) := fun h => hlt h.2
      rw [pagesFrom, if_neg hno, pageEnds, if_neg hno, map_nil, nil_append, singleton_append]
      have hfirst : (raw (place pre)).1 = page pre (suf.take limit) := by rw [hstep]
      have hsecond : (raw (place pre)).2 = next := by rw [hstep]
      rw [← hsecond] at hnext
      rw [← hfirst]
      exact .next hnext

/-! ## Clients -/

/-- The pages of a client that sends back the cursors it is given, up to a page without one. -/
inductive Walk (respond : Option ω → Option (π × Option ω)) : Option ω → List π → Prop where
  | last {w : Option ω} {p : π} : respond w = some (p, none) → Walk respond w [p]
  | next {w : Option ω} {p : π} {c : ω} {ps : List π} :
    respond w = some (p, some c) → Walk respond (some c) ps → Walk respond w (p :: ps)

/-- A client gets to the end if and only if every position is accepted in its encoding. -/
theorem walk_iff {respond : Option ω → Option (π × Option ω)} {raw : κ → π × Option κ} (encode : κ → ω)
    (ok : κ → Prop) {c : κ} {ps : List π} {cs : List κ} (htrail : Trail raw (some c) ps (c :: cs))
    (hyes : ∀ d ∈ cs, ok d → respond (some (encode d)) = some ((raw d).1, (raw d).2.map encode))
    (hno : ∀ d ∈ cs, ¬ ok d → respond (some (encode d)) = none) {w : Option ω}
    (hw : respond w = some ((raw c).1, (raw c).2.map encode)) (qs : List π) :
    Walk respond w qs ↔ qs = ps ∧ ∀ d ∈ cs, ok d := by
  induction cs generalizing c ps w qs with
  | nil =>
    cases htrail with
    | next hrest =>
      generalize hn : (raw c).2 = n at hrest
      rw [hn] at hw
      cases hrest
      constructor
      · intro h
        cases h with
        | last hp =>
          rw [hw] at hp
          cases hp
          exact ⟨rfl, nofun⟩
        | next hp =>
          rw [hw] at hp
          cases hp
      · rintro ⟨rfl, _⟩
        exact .last hw
  | cons d cs ih =>
    cases htrail with
    | @next _ ps _ hrest =>
      obtain hd : (raw c).2 = some d := by
        generalize (raw c).2 = n at hrest
        cases hrest
        rfl
      rw [hd] at hw hrest
      by_cases hok : ok d
      · have hih := fun qs => ih hrest (fun e he => hyes e (mem_cons_of_mem _ he))
          (fun e he => hno e (mem_cons_of_mem _ he)) (hyes d mem_cons_self hok) qs
        constructor
        · intro h
          cases h with
          | last hp =>
            rw [hw] at hp
            cases hp
          | next hp hwalk =>
            rw [hw] at hp
            cases hp
            obtain ⟨rfl, hall⟩ := (hih _).mp hwalk
            exact ⟨rfl, forall_mem_cons.mpr ⟨hok, hall⟩⟩
        · rintro ⟨rfl, hall⟩
          exact .next hw ((hih _).mpr ⟨rfl, (forall_mem_cons.mp hall).2⟩)
      · constructor
        · intro h
          cases h with
          | last hp =>
            rw [hw] at hp
            cases hp
          | next hp hwalk =>
            rw [hw] at hp
            cases hp
            -- The client has no answer to what it was given.
            cases hwalk with
            | last hp =>
              rw [hno d mem_cons_self hok] at hp
              cases hp
            | next hp =>
              rw [hno d mem_cons_self hok] at hp
              cases hp
        · exact fun h => absurd (h.2 d mem_cons_self) hok

end Ariad.Keyset
