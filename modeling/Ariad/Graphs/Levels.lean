import Mathlib.Data.Set.Basic
import Mathlib.Order.Basic

/-!
# Levels of a search in breadth

The nodes that a walk of some length reaches, and those that no shorter one does.

* `Walk` — a walk of a length.
* `ball`, `sphere` — the nodes up to a distance, and at it.
* `ball_succ`, `sphere_succ` — the next level is found from the nodes of the last one.
* `mem_ball_of_sphere_eq_empty` — nothing lies behind an empty level.
* `sphere_congr`, `mem_sphere_flip` — steps from a node to itself do not count; the way back is as long.
-/

namespace Ariad.Levels

open Nat

variable {ν : Type} {R : ν → ν → Prop} {a b c : ν} {m n : ℕ}

inductive Walk (R : ν → ν → Prop) (a : ν) : ℕ → ν → Prop where
  | nil : Walk R a 0 a
  | snoc {n : ℕ} {b c : ν} : Walk R a n b → R b c → Walk R a (n + 1) c

theorem walk_zero : Walk R a 0 b ↔ b = a := by
  constructor
  · rintro ⟨⟩
    rfl
  · rintro rfl
    exact .nil

theorem walk_succ : Walk R a (n + 1) c ↔ ∃ b, Walk R a n b ∧ R b c := by
  constructor
  · rintro (_ | ⟨hwalk, hstep⟩)
    exact ⟨_, hwalk, hstep⟩
  · rintro ⟨b, hwalk, hstep⟩
    exact .snoc hwalk hstep

/-- A walk with a step before it. -/
theorem Walk.cons (hstep : R a b) (h : Walk R b n c) : Walk R a (n + 1) c := by
  induction h with
  | nil => exact .snoc .nil hstep
  | snoc _ hlast ih => exact .snoc ih hlast

/-- The nodes at a distance of at most `n`. -/
def ball (R : ν → ν → Prop) (a : ν) (n : ℕ) : Set ν := {b | ∃ m ≤ n, Walk R a m b}

/-- The nodes at distance `n`. -/
def sphere (R : ν → ν → Prop) (a : ν) (n : ℕ) : Set ν := {b | Walk R a n b ∧ ∀ m < n, ¬Walk R a m b}

theorem mem_ball_zero : b ∈ ball R a 0 ↔ b = a := by
  constructor
  · rintro ⟨m, hm, hwalk⟩
    obtain rfl := le_zero.mp hm
    exact walk_zero.mp hwalk
  · exact fun h => ⟨0, le_refl 0, walk_zero.mpr h⟩

theorem mem_sphere_zero : b ∈ sphere R a 0 ↔ b = a :=
  ⟨fun h => walk_zero.mp h.1, fun h => ⟨walk_zero.mpr h, fun _ hm => absurd hm (Nat.not_lt_zero _)⟩⟩

theorem sphere_subset_ball (n : ℕ) : sphere R a n ⊆ ball R a n := fun _ h => ⟨n, le_refl n, h.1⟩

/-- A node of the ball is on one of its spheres. -/
theorem exists_sphere (h : b ∈ ball R a n) : ∃ m ≤ n, b ∈ sphere R a m := by
  obtain ⟨m, hm, hwalk⟩ := h
  induction m using Nat.strong_induction_on with
  | _ m ih =>
    by_cases hless : ∃ k < m, Walk R a k b
    · obtain ⟨k, hk, hshort⟩ := hless
      exact ih k hk (le_trans (le_of_lt hk) hm) hshort
    · exact ⟨m, hm, hwalk, fun k hk hshort => hless ⟨k, hk, hshort⟩⟩

/-- A node outside the ball that is a step away from it is a step away from its last sphere. -/
theorem mem_sphere_of_step (hb : b ∈ ball R a n) (hstep : R b c) (hc : c ∉ ball R a n) : b ∈ sphere R a n := by
  obtain ⟨m, hm, hsphere⟩ := exists_sphere hb
  rcases lt_or_eq_of_le hm with hlt | rfl
  · exact absurd ⟨m + 1, hlt, .snoc hsphere.1 hstep⟩ hc
  · exact hsphere

theorem ball_succ : c ∈ ball R a (n + 1) ↔ c ∈ ball R a n ∨ ∃ b ∈ sphere R a n, R b c := by
  constructor
  · rintro ⟨m, hm, hwalk⟩
    by_cases hin : c ∈ ball R a n
    · exact .inl hin
    · have hm : m = n + 1 := le_antisymm hm (not_le.mp fun h => hin ⟨m, h, hwalk⟩)
      obtain ⟨b, hb, hstep⟩ := walk_succ.mp (hm ▸ hwalk)
      exact .inr ⟨b, mem_sphere_of_step ⟨n, le_refl n, hb⟩ hstep hin, hstep⟩
  · rintro (⟨m, hm, hwalk⟩ | ⟨b, hb, hstep⟩)
    · exact ⟨m, le_trans hm (le_succ n), hwalk⟩
    · exact ⟨n + 1, le_refl _, .snoc hb.1 hstep⟩

theorem sphere_succ : c ∈ sphere R a (n + 1) ↔ c ∉ ball R a n ∧ ∃ b ∈ sphere R a n, R b c := by
  constructor
  · rintro ⟨hwalk, hshort⟩
    have hout : c ∉ ball R a n := fun ⟨m, hm, h⟩ => hshort m (lt_succ_of_le hm) h
    exact ⟨hout, (ball_succ.mp ⟨n + 1, le_refl _, hwalk⟩).resolve_left hout⟩
  · rintro ⟨hout, b, hb, hstep⟩
    exact ⟨.snoc hb.1 hstep, fun m hm h => hout ⟨m, le_of_lt_succ hm, h⟩⟩

/-- Behind an empty level there is nothing. -/
theorem mem_ball_of_sphere_eq_empty (h : ∀ c, c ∉ sphere R a (n + 1)) (hwalk : Walk R a m b) : b ∈ ball R a n := by
  induction hwalk with
  | nil => exact ⟨0, Nat.zero_le n, .nil⟩
  | snoc _ hstep ih =>
    by_contra hout
    exact h _ (sphere_succ.mpr ⟨hout, _, mem_sphere_of_step ih hstep hout, hstep⟩)

/-- A node has one distance. -/
theorem sphere_unique (hm : b ∈ sphere R a m) (hn : b ∈ sphere R a n) : m = n :=
  le_antisymm (not_lt.mp fun h => hm.2 n h hn.1) (not_lt.mp fun h => hn.2 m h hm.1)

theorem sphere_eq_empty_of_le (h : ∀ c, c ∉ sphere R a n) (hle : n ≤ m) : c ∉ sphere R a m := by
  induction m, hle using le_induction generalizing c with
  | base => exact h c
  | succ m _ ih =>
    intro hc
    obtain ⟨-, b, hb, -⟩ := sphere_succ.mp hc
    exact ih hb

theorem mem_sphere_iff_ball : b ∈ sphere R a n ↔ b ∈ ball R a n ∧ ∀ m < n, b ∉ ball R a m := by
  constructor
  · intro h
    exact ⟨sphere_subset_ball n h, fun m hm ⟨k, hk, hwalk⟩ => h.2 k (lt_of_le_of_lt hk hm) hwalk⟩
  · rintro ⟨⟨m, hm, hwalk⟩, hout⟩
    rcases lt_or_eq_of_le hm with hlt | rfl
    · exact absurd ⟨m, le_refl m, hwalk⟩ (hout m hlt)
    · exact ⟨hwalk, fun k hk h => hout k hk ⟨k, le_refl k, h⟩⟩

/-! ## Other relations with the same distances -/

variable {S : ν → ν → Prop}

theorem ball_subset_ball (h : ∀ a b, a ≠ b → R a b → S a b) : ball R a n ⊆ ball S a n := by
  rintro b ⟨m, hm, hwalk⟩
  have hball : b ∈ ball S a m := by
    clear hm
    induction hwalk with
    | nil => exact ⟨0, le_refl 0, .nil⟩
    | @snoc m b c _ hstep ih =>
      obtain ⟨k, hk, hwalk⟩ := ih
      by_cases hbc : b = c
      · exact ⟨k, le_succ_of_le hk, hbc ▸ hwalk⟩
      · exact ⟨k + 1, succ_le_succ hk, .snoc hwalk (h b c hbc hstep)⟩
  obtain ⟨k, hk, hwalk⟩ := hball
  exact ⟨k, le_trans hk hm, hwalk⟩

/-- Relations that agree on different nodes have the same distances. -/
theorem sphere_congr (h : ∀ a b, a ≠ b → (R a b ↔ S a b)) : b ∈ sphere R a n ↔ b ∈ sphere S a n := by
  have hball (m : ℕ) : ball R a m = ball S a m :=
    Set.Subset.antisymm (ball_subset_ball fun x y hxy => (h x y hxy).mp)
      (ball_subset_ball fun x y hxy => (h x y hxy).mpr)
  simp only [mem_sphere_iff_ball, hball]

theorem Walk.flip (h : Walk (fun x y => R y x) a n b) : Walk R b n a := by
  induction h with
  | nil => exact .nil
  | snoc _ hstep ih => exact .cons hstep ih

theorem walk_flip : Walk (fun x y => R y x) a n b ↔ Walk R b n a := ⟨Walk.flip, Walk.flip⟩

theorem mem_sphere_flip : b ∈ sphere (fun x y => R y x) a n ↔ a ∈ sphere R b n := by
  simp only [sphere, Set.mem_ofPred_eq, walk_flip]

/-- The last step of a shortest walk starts at the distance before. -/
theorem Walk.mem_sphere_of_step (hwalk : Walk R a n b) (hstep : R b c) (hc : c ∈ sphere R a (n + 1)) :
    b ∈ sphere R a n :=
  ⟨hwalk, fun m hm hshort => hc.2 (m + 1) (succ_lt_succ hm) (.snoc hshort hstep)⟩

end Ariad.Levels
