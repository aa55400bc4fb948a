import Mathlib.Data.List.Nodup
import Mathlib.Data.List.Pairwise

/-!
# Keyed rows

A table is a list of rows, and a row has a key. Here is what the statements of a program do to such a
list, and when a look-up by key finds a row.

* `Rows.get` — the first row with the key, as `SELECT … WHERE key = ? LIMIT 1`.
* `Rows.modify` — `UPDATE … WHERE key = ?`.
* appending a row, and filtering rows, are `List` operations.
-/

namespace Ariad.Rows

open List

variable {ρ κ : Type} [DecidableEq κ] (key : ρ → κ)

/-- The first row with the key. -/
def get (k : κ) (rows : List ρ) : Option ρ := rows.find? fun r => decide (key r = k)

/-- Every row with the key is changed by `f`. -/
def modify (k : κ) (f : ρ → ρ) (rows : List ρ) : List ρ :=
  rows.map fun r => if key r = k then f r else r

variable {key} {k l : κ} {rows : List ρ} {r : ρ} {f : ρ → ρ}

/-! ## Look-ups -/

theorem mem_of_get (h : get key k rows = some r) : r ∈ rows := mem_of_find?_eq_some h

theorem key_of_get (h : get key k rows = some r) : key r = k := by
  simpa using find?_some h

theorem get_eq_none_iff : get key k rows = none ↔ ∀ r ∈ rows, key r ≠ k := by
  simp [get]

/-- With unique keys a look-up finds exactly the row with the key. -/
theorem get_eq_some_iff (h : (rows.map key).Nodup) :
    get key k rows = some r ↔ r ∈ rows ∧ key r = k := by
  constructor
  · exact fun hr => ⟨mem_of_get hr, key_of_get hr⟩
  · rintro ⟨hr, rfl⟩
    cases hg : get key (key r) rows with
    | none => exact absurd rfl (get_eq_none_iff.mp hg r hr)
    | some r' => rw [inj_on_of_nodup_map h (mem_of_get hg) hr (key_of_get hg)]

/-- With unique keys a query by key has the row that a look-up finds. -/
theorem filter_key_eq (h : (rows.map key).Nodup) (k : κ) :
    (rows.filter fun r => key r = k) = (get key k rows).toList := by
  induction rows with
  | nil => rfl
  | cons r rows ih =>
    rw [map_cons, nodup_cons] at h
    by_cases hk : key r = k
    · -- No later row has the key.
      have hnone : (rows.filter fun r => key r = k) = [] := by
        rw [filter_eq_nil_iff]
        exact fun r' hr' hk' => h.1 (mem_map.mpr ⟨r', hr', (of_decide_eq_true hk').trans hk.symm⟩)
      rw [filter_cons_of_pos (by simpa using hk), hnone, get,
        find?_cons_of_pos (by simpa using hk)]
      rfl
    · rw [filter_cons_of_neg (by simpa using hk), ih h.2, get, get,
        find?_cons_of_neg (by simpa using hk)]

theorem get_append_of_none {rows' : List ρ} (h : get key k rows = none) :
    get key k (rows ++ rows') = get key k rows' := by
  rw [get, find?_append]
  rw [get] at h
  simp [h, get]

theorem get_append_of_some {rows' : List ρ} (h : get key k rows = some r) :
    get key k (rows ++ rows') = some r := by
  rw [get, find?_append]
  rw [get] at h
  simp [h]

theorem get_append_singleton_of_ne (h : key r ≠ k) : get key k (rows ++ [r]) = get key k rows := by
  cases hg : get key k rows with
  | none =>
    rw [get_append_of_none hg]
    simp [get, h]
  | some s => exact get_append_of_some hg

/-! ## Updates -/

theorem mem_modify {s : ρ} :
    s ∈ modify key k f rows ↔ (s ∈ rows ∧ key s ≠ k) ∨ ∃ r ∈ rows, key r = k ∧ f r = s := by
  simp only [modify, mem_map]
  constructor
  · rintro ⟨r, hr, rfl⟩
    split
    · exact .inr ⟨r, hr, by assumption, rfl⟩
    · exact .inl ⟨hr, by assumption⟩
  · rintro (⟨hs, hk⟩ | ⟨r, hr, hk, rfl⟩)
    · exact ⟨s, hs, by simp [hk]⟩
    · exact ⟨r, hr, by simp [hk]⟩

/-- An update that keeps a column keeps the column's values. -/
theorem map_modify {β : Type} {g : ρ → β} (hf : ∀ r, g (f r) = g r) :
    (modify key k f rows).map g = rows.map g := by
  simp only [modify, map_map]
  refine map_congr_left fun r _ => ?_
  simp only [Function.comp]
  split <;> simp [hf]

/-- Any look-up after an update that keeps the column the look-up asks for. -/
theorem get_modify {μ : Type} [DecidableEq μ] {g : ρ → μ} {m : μ} (hf : ∀ r, g (f r) = g r) :
    get g m (modify key k f rows) = (get g m rows).map fun r => if key r = k then f r else r := by
  induction rows with
  | nil => rfl
  | cons s rows ih =>
    have hs : g (if key s = k then f s else s) = g s := by split <;> simp [hf]
    simp only [get, modify, map_cons, find?_cons, hs] at ih ⊢
    split
    · rfl
    · exact ih

theorem get_modify_self (hf : ∀ r, key (f r) = key r) :
    get key k (modify key k f rows) = (get key k rows).map f := by
  rw [get_modify hf]
  cases h : get key k rows with
  | none => rfl
  | some r => simp [key_of_get h]

/-- A look-up that neither asks for an updated row nor for what it becomes. -/
theorem get_modify_of_other {μ : Type} [DecidableEq μ] {g : ρ → μ} {m : μ}
    (h : ∀ r ∈ rows, key r = k → g r ≠ m ∧ g (f r) ≠ m) : get g m (modify key k f rows) = get g m rows := by
  induction rows with
  | nil => rfl
  | cons s rows ih =>
    have hrest := ih fun r hr => h r (mem_cons_of_mem _ hr)
    simp only [get, modify, map_cons, find?_cons] at hrest ⊢
    by_cases hs : key s = k
    · obtain ⟨h1, h2⟩ := h s mem_cons_self hs
      simp only [hs, if_true, h1, h2, decide_false]
      exact hrest
    · simp only [hs, if_false]
      rw [hrest]

/-- The row that a look-up finds after it has been updated to what the look-up asks for. -/
theorem get_modify_of_new {μ : Type} [DecidableEq μ] {g : ρ → μ} {m : μ} (hkey : (rows.map key).Nodup)
    (hr : r ∈ rows) (hk : key r = k) (hf : g (f r) = m)
    (hget : get g m rows = some r ∨ get g m rows = none) : get g m (modify key k f rows) = some (f r) := by
  induction rows with
  | nil => cases hr
  | cons s rows ih =>
    simp only [map_cons, nodup_cons] at hkey
    simp only [get, modify, map_cons, find?_cons] at hget ih ⊢
    by_cases hs : key s = k
    · obtain rfl : r = s := by
        rcases mem_cons.mp hr with rfl | hr
        · rfl
        · exact absurd (mem_map.mpr ⟨r, hr, hk.trans hs.symm⟩) hkey.1
      simp [hs, hf]
    · have hr' : r ∈ rows := by
        rcases mem_cons.mp hr with rfl | hr
        · exact absurd hk hs
        · exact hr
      have hne : g s ≠ m := by
        intro hgs
        simp only [hgs, decide_true, Option.some.injEq] at hget
        rcases hget with rfl | hget
        · exact hs hk
        · cases hget
      simp only [hs, if_false, hne, decide_false] at hget ⊢
      exact ih hkey.2 hr' hget

/-- An update of the row that a look-up found. -/
theorem modify_congr {g : ρ → ρ} (h : ∀ r ∈ rows, key r = k → f r = g r) :
    modify key k f rows = modify key k g rows := by
  refine map_congr_left fun r hr => ?_
  split
  · exact h r hr (by assumption)
  · rfl

/-- An update that changes nothing. -/
theorem modify_eq_self (h : ∀ r ∈ rows, key r = k → f r = r) : modify key k f rows = rows := by
  conv_rhs => rw [← map_id rows]
  refine map_congr_left fun r hr => ?_
  split
  · simpa using h r hr (by assumption)
  · rfl

/-- With unique keys, what has none of the first keys is what comes behind them. -/
theorem filter_notMem_take (h : (rows.map key).Nodup) (n : ℕ) :
    (rows.filter fun r => key r ∉ (rows.take n).map key) = rows.drop n := by
  induction rows generalizing n with
  | nil => simp
  | cons r rows ih =>
    cases n with
    | zero => simp
    | succ n =>
      rw [map_cons, nodup_cons] at h
      rw [take_succ_cons, drop_succ_cons, map_cons, filter_cons, if_neg (by simp), ← ih h.2 n]
      refine filter_congr fun s hs => ?_
      have hne : key s ≠ key r := fun heq => h.1 (heq ▸ mem_map_of_mem hs)
      rw [decide_eq_decide, mem_cons, not_or, and_iff_right hne]

end Ariad.Rows
