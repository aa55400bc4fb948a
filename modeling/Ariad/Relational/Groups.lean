import Mathlib.Algebra.BigOperators.Group.List.Lemmas
import Mathlib.Algebra.Order.Ring.Int
import Mathlib.Data.List.Dedup

/-!
# Grouped rows

A query that groups answers with one row for every key that occurs. What such a query counts is a number of
rows of the table, and it stays the same in every order of the groups.

* `Rows.groups` — `GROUP BY`: the keys that occur, each with its rows.
* `sum_counts` — the counts of the groups with some keys are the number of rows with these keys.
* `map_mapIdx`, `nodup_mapIdx` — rows that are numbered.
* `Rows.least` — `MIN`.
* `reported_iff` — when a number of rows that is reported in one place is right everywhere.
-/

namespace Ariad.Rows

open List

variable {ρ κ : Type} [DecidableEq κ] {key : ρ → κ} {rows : List ρ} {k : κ}

/-- `GROUP BY`: the keys that occur, each with its rows. -/
def groups (key : ρ → κ) (rows : List ρ) : List (κ × List ρ) :=
  (rows.map key).dedup.map fun k => (k, rows.filter fun r => key r = k)

/-! ## Which groups there are -/

theorem mem_groups {g : κ × List ρ} :
    g ∈ groups key rows ↔ (∃ r ∈ rows, key r = g.1) ∧ g.2 = rows.filter fun r => key r = g.1 := by
  rw [groups, mem_map]
  constructor
  · rintro ⟨k, hk, rfl⟩
    rw [mem_dedup, mem_map] at hk
    exact ⟨hk, rfl⟩
  · rintro ⟨hk, hrows⟩
    refine ⟨g.1, ?_, by rw [← hrows]⟩
    rwa [mem_dedup, mem_map]

theorem keys_groups : (groups key rows).map Prod.fst = (rows.map key).dedup := by
  rw [groups, map_map]
  exact map_id' _

/-- No key has two groups. -/
theorem nodup_keys_groups (key : ρ → κ) (rows : List ρ) : ((groups key rows).map Prod.fst).Nodup := by
  rw [keys_groups]
  exact nodup_dedup _

theorem ne_nil_of_mem_groups {g : κ × List ρ} (h : g ∈ groups key rows) : g.2 ≠ [] := by
  obtain ⟨⟨r, hr, hk⟩, hrows⟩ := mem_groups.mp h
  rw [hrows]
  exact ne_nil_of_mem (mem_filter.mpr ⟨hr, by simpa using hk⟩)

/-! ## Counts -/

/-- The counts of the groups whose keys satisfy `p`. -/
theorem sum_counts (key : ρ → κ) (rows : List ρ) (p : κ → Bool) :
    (((groups key rows).filter fun g => p g.1).map fun g => g.2.length).sum =
      rows.countP fun r => p (key r) := by
  have hlen (k : κ) : (rows.filter fun r => key r = k).length = (rows.map key).count k := by
    rw [List.count, countP_map, countP_eq_length_filter]
    rfl
  rw [groups, filter_map, map_map]
  calc ((((rows.map key).dedup.filter p).map fun k => (rows.filter fun r => key r = k).length)).sum
      = (((rows.map key).dedup.filter p).map fun k => (rows.map key).count k).sum := by simp only [hlen]
    _ = (rows.map key).countP p := sum_map_count_dedup_filter_eq_countP p _
    _ = rows.countP fun r => p (key r) := countP_map ..

/-- All groups together count every row once. -/
theorem sum_counts_all (key : ρ → κ) (rows : List ρ) :
    ((groups key rows).map fun g => g.2.length).sum = rows.length := by
  have h := sum_counts key rows fun _ => true
  rw [filter_true, countP_true] at h
  exact h

theorem countP_or {p q : ρ → Bool} (h : ∀ r ∈ rows, p r = true → q r = false) :
    (rows.countP fun r => p r || q r) = rows.countP p + rows.countP q := by
  induction rows with
  | nil => rfl
  | cons r rows ih =>
    have hr := h r mem_cons_self
    rw [countP_cons, countP_cons, countP_cons,
      ih fun r hr => h r (mem_cons_of_mem _ hr)]
    cases hp : p r with
    | false =>
      cases q r with
      | false => simp
      | true => simp; omega
    | true => simp [hr hp]; omega

/-- The counts of keys without repetition are the count of the rows whose key is one of them. -/
theorem sum_countP {ks : List κ} {p : ρ → Bool} (h : ks.Nodup) (hp : ∀ r ∈ rows, p r = true ↔ key r ∈ ks) :
    (ks.map fun k => rows.countP fun r => key r = k).sum = rows.countP p := by
  induction ks generalizing p with
  | nil =>
    rw [map_nil, sum_nil, eq_comm, countP_eq_zero]
    exact fun r hr hpr => absurd ((hp r hr).mp hpr) not_mem_nil
  | cons k ks ih =>
    rw [nodup_cons] at h
    have htail := ih (p := fun r => p r && decide (key r ≠ k)) h.2 fun r hr => by
      rw [Bool.and_eq_true, hp r hr, mem_cons, decide_eq_true_iff]
      constructor
      · exact fun hk => hk.1.resolve_left hk.2
      · exact fun hk => ⟨.inr hk, fun hkey => h.1 (hkey ▸ hk)⟩
    rw [map_cons, sum_cons, htail, ← countP_or]
    · refine countP_congr fun r hr => ?_
      by_cases hk : key r = k
      · simp [hk, (hp r hr).mpr (hk ▸ mem_cons_self)]
      · simp [hk]
    · intro r _ hr
      simp [of_decide_eq_true hr]

/-! ## Numbered rows -/

section Numbered

variable {σ τ : Type} (f : ℕ → ρ → σ) (rows : List ρ)

/-- What does not depend on the number. -/
theorem map_mapIdx {g : σ → τ} {h : ρ → τ} (hf : ∀ i r, g (f i r) = h r) : (rows.mapIdx f).map g = rows.map h := by
  apply ext_getElem
  · simp
  · intro i _ _
    simp [hf]

/-- Rows that carry their number are told apart by it. -/
theorem nodup_mapIdx {g : σ → ℕ} (hf : ∀ i r, g (f i r) = i) : ((rows.mapIdx f).map g).Nodup := by
  have hrange : (rows.mapIdx f).map g = List.range rows.length := by
    apply ext_getElem
    · simp
    · intro i _ _
      simp [hf]
  rw [hrange]
  exact nodup_range

end Numbered

/-! ## The least element -/

/-- `MIN`, `NULL` of no rows. -/
def least (ns : List ℕ) : Option ℕ := ns.min?

theorem least_mem {ns : List ℕ} {n : ℕ} (h : least ns = some n) : n ∈ ns := min?_mem h

theorem least_isSome {ns : List ℕ} (h : ns ≠ []) : ∃ n, least ns = some n :=
  Option.isSome_iff_exists.mp (isSome_min?_of_ne_nil h)

/-! ## Counts in one place -/

/-- A condition that holds of as many rows as a weaker one. -/
theorem of_countP_eq {p q : ρ → Bool} (h : ∀ r ∈ rows, p r = true → q r = true) (heq : rows.countP p = rows.countP q) :
    ∀ r ∈ rows, q r = true → p r = true := by
  have hsplit : rows.countP q = rows.countP p + rows.countP fun r => q r && !p r := by
    rw [← countP_or fun r _ hp => by simp [hp]]
    refine countP_congr fun r hr => ?_
    have := h r hr
    cases hp : p r with
    | false => simp
    | true => simp [this hp]
  intro r hr hq
  by_contra hp
  have hzero : (rows.countP fun r => q r && !p r) = 0 := by omega
  exact countP_eq_zero.mp hzero r hr (by simp [hq, hp])

/-- Rows are counted that are due, and their number is reported at one place. It is the number of the rows that are due
at every place if these are counted, and are at this place. -/
theorem reported_iff {π : Type} [DecidableEq π] {counted due : ρ → Bool} {place : ρ → π} {reported : π}
    (hdue : ∀ r ∈ rows, counted r = true → due r = true) :
    (∀ q, (if reported = q then rows.countP counted else 0) = rows.countP fun r => due r && place r = q) ↔
      ∀ r ∈ rows, due r = true → counted r = true ∧ place r = reported := by
  have hwhole (hplace : ∀ r ∈ rows, due r = true → place r = reported) :
      (rows.countP fun r => due r && place r = reported) = rows.countP due := countP_congr fun r hr => by
    rw [Bool.and_eq_true, decide_eq_true_eq]
    exact and_iff_left_of_imp (hplace r hr)
  constructor
  · intro h
    have hplace : ∀ r ∈ rows, due r = true → place r = reported := fun r hr hd => by
      by_contra hne
      have hzero := h (place r)
      rw [if_neg (Ne.symm hne), eq_comm, countP_eq_zero] at hzero
      exact hzero r hr (by simp [hd])
    have htotal := h reported
    rw [if_pos rfl, hwhole hplace] at htotal
    exact fun r hr hd => ⟨of_countP_eq hdue htotal r hr hd, hplace r hr hd⟩
  · intro h q
    have htotal : rows.countP counted = rows.countP due :=
      countP_congr fun r hr => ⟨hdue r hr, fun hd => (h r hr hd).1⟩
    split
    · rename_i hq
      rw [← hq, hwhole fun r hr hd => (h r hr hd).2, htotal]
    · rename_i hq
      refine (countP_eq_zero.mpr fun r hr hboth => ?_).symm
      rw [Bool.and_eq_true, decide_eq_true_eq] at hboth
      exact hq ((h r hr hboth.1).2.symm.trans hboth.2)

end Ariad.Rows
