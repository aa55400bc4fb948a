import Mathlib.Algebra.BigOperators.Group.List.Basic
import Mathlib.Algebra.GroupWithZero.Nat
import Mathlib.Data.List.Perm.Basic

/-!
# Lists that are made item by item

Two lists that are read off the same items, where an item has an element in one of them, in both or in neither. When
is one a permutation of the other?

* `left`, `right` — the two lists.
* `eq_of_length_of_sum` — every item with an element on the left has one on the right that weighs no more: with equal
  lengths and weights the items agree.
* `perm_iff_agree` — a permutation is what items that agree make.
-/

namespace Ariad.Matching

open List

variable {α : Type} {items : List (Option α × Option α)} {weight : α → ℕ}

def left (items : List (Option α × Option α)) : List α := items.filterMap Prod.fst

def right (items : List (Option α × Option α)) : List α := items.filterMap Prod.snd

/-- Every item agrees. -/
def Agree (items : List (Option α × Option α)) : Prop := ∀ i ∈ items, i.1 = i.2

/-- What the item has on the left it has on the right too, or something lighter. -/
def Lighter (weight : α → ℕ) (i : Option α × Option α) : Prop :=
  ∀ x, i.1 = some x → ∃ y, i.2 = some y ∧ weight y ≤ weight x ∧ (weight y = weight x → y = x)

theorem agree_cons {i : Option α × Option α} : Agree (i :: items) ↔ i.1 = i.2 ∧ Agree items := forall_mem_cons

theorem left_singleton (i : Option α × Option α) : left [i] = i.1.toList := by
  rw [left, filterMap_eq_flatMap_toList, flatMap_singleton]

section FlatMap

variable {β : Type} (l : List β) (f : β → List (Option α × Option α))

theorem left_flatMap : left (l.flatMap f) = l.flatMap fun b => left (f b) := filterMap_flatMap

theorem right_flatMap : right (l.flatMap f) = l.flatMap fun b => right (f b) := filterMap_flatMap

theorem agree_flatMap : Agree (l.flatMap f) ↔ ∀ b ∈ l, Agree (f b) := by
  constructor
  · intro h b hb i hi
    exact h i (mem_flatMap.mpr ⟨b, hb, hi⟩)
  · intro h i hi
    obtain ⟨b, hb, hi⟩ := mem_flatMap.mp hi
    exact h b hb i hi

end FlatMap

theorem left_eq_right (h : Agree items) : left items = right items := filterMap_congr h

theorem eq_of_length_of_sum (h : ∀ i ∈ items, Lighter weight i) :
    (left items).length ≤ (right items).length ∧
      ((left items).length = (right items).length →
        ((right items).map weight).sum ≤ ((left items).map weight).sum ∧
          (((right items).map weight).sum = ((left items).map weight).sum → Agree items)) := by
  induction items with
  | nil => exact ⟨Nat.le_refl _, fun _ => ⟨Nat.le_refl _, fun _ i hi => absurd hi not_mem_nil⟩⟩
  | cons i items ih =>
    obtain ⟨hle, heq⟩ := ih fun j hj => h j (mem_cons_of_mem _ hj)
    obtain ⟨x, y⟩ := i
    cases x with
    | none =>
      cases y with
      | none => exact ⟨hle, fun hlength => ⟨(heq hlength).1, fun hsum => agree_cons.mpr ⟨rfl, (heq hlength).2 hsum⟩⟩⟩
      | some y =>
        have hlt : (left items).length < (right items).length + 1 := Nat.lt_succ_of_le hle
        exact ⟨Nat.le_of_lt hlt, fun hlength => absurd hlength (Nat.ne_of_lt hlt)⟩
    | some x =>
      obtain ⟨y, rfl, hweight, hsame⟩ := h (some x, y) mem_cons_self x rfl
      refine ⟨Nat.succ_le_succ hle, fun hlength => ?_⟩
      obtain ⟨hsum, hagree⟩ := heq (Nat.succ.inj hlength)
      have hleft : ((left ((some x, some y) :: items)).map weight).sum = weight x + ((left items).map weight).sum := rfl
      have hright : ((right ((some x, some y) :: items)).map weight).sum = weight y + ((right items).map weight).sum :=
        rfl
      rw [hleft, hright]
      refine ⟨Nat.add_le_add hweight hsum, fun htotal => ?_⟩
      obtain rfl := hsame (by omega)
      exact agree_cons.mpr ⟨rfl, hagree (by omega)⟩

/-- **One list is a permutation of the other exactly if every item agrees**, provided that items whose elements are in
both lists have on the right what they have on the left, or something lighter. -/
theorem perm_iff_agree
    (h : ∀ i ∈ items, (∀ x, i.1 = some x → x ∈ right items) → (∀ y, i.2 = some y → y ∈ left items) →
      Lighter weight i) : (left items).Perm (right items) ↔ Agree items := by
  constructor
  · intro hperm
    have hlighter : ∀ i ∈ items, Lighter weight i := fun i hi =>
      h i hi (fun x hx => hperm.subset (mem_filterMap.mpr ⟨i, hi, hx⟩))
        fun y hy => hperm.symm.subset (mem_filterMap.mpr ⟨i, hi, hy⟩)
    obtain ⟨-, heq⟩ := eq_of_length_of_sum hlighter
    exact (heq hperm.length_eq).2 (hperm.map weight).sum_eq.symm
  · intro hagree
    rw [left_eq_right hagree]

end Ariad.Matching
