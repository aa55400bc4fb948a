import Mathlib.Data.List.Nodup

/-!
# Lists that are changed at a position

Objects that are only ever added and changed in place: a list in which a position is the name of an object.

* `mem_modify` — where an element of the changed list comes from.
* `map_modify` — what a change keeps.
* `index_eq` — an element is found by a value that no other one has.
* `Pointwise` — every object was there before, in a state related to the one it has now.
-/

namespace Ariad.Positions

open List Option

variable {α β : Type} {l l' : List α} {i : ℕ} {f : α → α} {x : α} {R : α → α → Prop}

theorem mem_modify (h : x ∈ l.modify i f) : ∃ j y, l[j]? = some y ∧ (j ≠ i ∧ x = y ∨ j = i ∧ x = f y) := by
  obtain ⟨j, hj⟩ := mem_iff_getElem?.mp h
  rw [getElem?_modify] at hj
  obtain ⟨y, hy, rfl⟩ := map_eq_some_iff.mp hj
  by_cases hij : i = j
  · exact ⟨j, y, hy, .inr ⟨hij.symm, if_pos hij⟩⟩
  · exact ⟨j, y, hy, .inl ⟨Ne.symm hij, if_neg hij⟩⟩

theorem map_modify {g : α → β} (h : ∀ x, g (f x) = g x) : (l.modify i f).map g = l.map g := by
  refine ext_getElem? fun j => ?_
  rw [getElem?_map, getElem?_modify, getElem?_map]
  cases l[j]? with
  | none => rfl
  | some x =>
    by_cases hij : i = j
    · simp [hij, h]
    · simp [hij]

theorem index_eq {g : α → β} {j : ℕ} {y : α} (h : (l.map g).Nodup) (hx : l[i]? = some x) (hy : l[j]? = some y)
    (heq : g x = g y) : i = j := by
  have hi : i < (l.map g).length := by
    rw [length_map]
    exact (List.getElem?_eq_some_iff.mp hx).1
  refine (getElem?_inj hi h).mp ?_
  rw [getElem?_map, getElem?_map, hx, hy, map_some, map_some, heq]

theorem nodup_append {g : α → β} (h : (l.map g).Nodup) (hnew : ∀ y ∈ l, g y ≠ g x) : ((l ++ [x]).map g).Nodup := by
  rw [map_append]
  refine List.nodup_append.mpr ⟨h, pairwise_singleton _ _, fun a ha b hb => ?_⟩
  obtain ⟨y, hy, rfl⟩ := mem_map.mp ha
  obtain rfl := mem_singleton.mp hb
  exact hnew y hy

/-- Each element of the second list stands in the first one at the same position, in an earlier state. -/
def Pointwise (R : α → α → Prop) (l l' : List α) : Prop :=
  ∀ (i : ℕ) (x' : α), l'[i]? = some x' → ∃ x, l[i]? = some x ∧ R x x'

theorem pointwise_modify (hself : ∀ x, R x x) (hf : ∀ x, l[i]? = some x → R x (f x)) :
    Pointwise R l (l.modify i f) := by
  intro j x' hx'
  rw [getElem?_modify] at hx'
  obtain ⟨x, hx, rfl⟩ := map_eq_some_iff.mp hx'
  refine ⟨x, hx, ?_⟩
  by_cases hij : i = j
  · rw [if_pos hij]
    exact hf x (hij ▸ hx)
  · rw [if_neg hij]
    exact hself x

theorem pointwise_map (hf : ∀ x, R x (f x)) : Pointwise R l (l.map f) := by
  intro j x' hx'
  rw [getElem?_map] at hx'
  obtain ⟨x, hx, rfl⟩ := map_eq_some_iff.mp hx'
  exact ⟨x, hx, hf x⟩

theorem Pointwise.exists_mem (h : Pointwise R l l') {x' : α} (hx' : x' ∈ l') : ∃ x ∈ l, R x x' := by
  obtain ⟨j, hj⟩ := mem_iff_getElem?.mp hx'
  obtain ⟨x, hx, hR⟩ := h j x' hj
  exact ⟨x, mem_of_getElem? hx, hR⟩

end Ariad.Positions
