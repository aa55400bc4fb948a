import Mathlib.Data.List.Perm.Subperm
import Mathlib.Logic.Relation
import Ariad.Javascript.OrderedMap

/-!
# Union and find

A map of parents. A search for the root of a node shortens the way of the nodes it passes; a union puts one root
below another. The loops are bounded by the size of the map.

* `Leads` — the way from a node to its root. `Leads.le_size`: the bound on the loops.
* `Rooted` — every node has the root that a function says.
* `findRoot_spec`, `union_spec` — what the operations do to the roots.
* `Represents` — two nodes have the same root if and only if they are connected.
-/

namespace Ariad.UnionFind

open List

variable {ν : Type} [DecidableEq ν]

/-- `parent.get(x) ?? x` -/
def parentOf (parent : OrderedMap ν ν) (x : ν) : ν := (parent.get x).getD x

/-- The loop up to a root, for at most `left` steps. -/
def climb (parent : OrderedMap ν ν) : ℕ → ν → Option ν
  | 0, x => if parentOf parent x = x then some x else none
  | left + 1, x => if parentOf parent x = x then some x else climb parent left (parentOf parent x)

/-- The loop that puts every node on the way below the root, for at most `left` steps. -/
def compress (root : ν) : ℕ → ν → OrderedMap ν ν → Option (OrderedMap ν ν)
  | 0, current, parent => if parentOf parent current = root then some parent else none
  | left + 1, current, parent =>
    if parentOf parent current = root then some parent
    else compress root left (parentOf parent current) (parent.set current root)

def findRoot (parent : OrderedMap ν ν) (id : ν) : Option (ν × OrderedMap ν ν) :=
  match climb parent parent.size id with
  | none => none
  | some root => (compress root parent.size id parent).map fun parent => (root, parent)

def union (parent : OrderedMap ν ν) (source target : ν) : Option (OrderedMap ν ν) :=
  match findRoot parent source with
  | none => none
  | some (sourceRoot, parent) =>
    match findRoot parent target with
    | none => none
    | some (targetRoot, parent) => some (if sourceRoot = targetRoot then parent else parent.set targetRoot sourceRoot)

/-! ## Ways to the root -/

/-- `n` steps lead from `x` to its root. -/
inductive Leads (parent : OrderedMap ν ν) : ℕ → ν → ν → Prop where
  | root {x : ν} : parentOf parent x = x → Leads parent 0 x x
  | step {n : ℕ} {x r : ν} : parentOf parent x ≠ x → Leads parent n (parentOf parent x) r → Leads parent (n + 1) x r

variable {parent : OrderedMap ν ν} {m n left : ℕ} {x y r s : ν}

theorem Leads.isRoot (h : Leads parent n x r) : parentOf parent r = r := by
  induction h with
  | root h => exact h
  | step _ _ ih => exact ih

theorem Leads.unique (h : Leads parent n x r) (h' : Leads parent m x s) : n = m ∧ r = s := by
  induction h generalizing m with
  | root hroot =>
    cases h' with
    | root => exact ⟨rfl, rfl⟩
    | step hne => exact absurd hroot hne
  | step hne _ ih =>
    cases h' with
    | root hroot => exact absurd hroot hne
    | step _ hrest =>
      obtain ⟨rfl, rfl⟩ := ih hrest
      exact ⟨rfl, rfl⟩

theorem mem_keys_of_parentOf_ne (h : parentOf parent x ≠ x) : x ∈ parent.keys := by
  by_contra hno
  refine h ?_
  rw [parentOf, OrderedMap.get_eq_none_iff.mpr hno, Option.getD_none]

/-- A way passes different keys of the map. -/
theorem Leads.exists_keys (h : Leads parent n x r) : ∃ l : List ν, l.Nodup ∧ l.length = n ∧
    ∀ y ∈ l, y ∈ parent.keys ∧ ∃ m ≤ n, ∃ s, Leads parent m y s := by
  induction h with
  | root => exact ⟨[], nodup_nil, rfl, nofun⟩
  | @step n x r hne hrest ih =>
    obtain ⟨l, hnodup, hlength, hl⟩ := ih
    have hlead : Leads parent (n + 1) x r := .step hne hrest
    refine ⟨x :: l, nodup_cons.mpr ⟨fun hx => ?_, hnodup⟩, by rw [length_cons, hlength], ?_⟩
    · -- The ways from the nodes behind `x` are shorter.
      obtain ⟨-, m, hm, s, hs⟩ := hl x hx
      obtain ⟨rfl, -⟩ := hlead.unique hs
      omega
    · intro y hy
      rcases mem_cons.mp hy with rfl | hy
      · exact ⟨mem_keys_of_parentOf_ne hne, n + 1, le_refl _, r, hlead⟩
      · obtain ⟨hkey, m, hm, hs⟩ := hl y hy
        exact ⟨hkey, m, Nat.le_succ_of_le hm, hs⟩

theorem Leads.le_size (h : Leads parent n x r) : n ≤ parent.size := by
  obtain ⟨l, hnodup, rfl, hl⟩ := h.exists_keys
  have hsubperm := subperm_of_subset hnodup fun y hy => (hl y hy).1
  exact hsubperm.length_le.trans_eq (length_map ..)

theorem climb_eq (h : Leads parent n x r) (hleft : n ≤ left) : climb parent left x = some r := by
  induction h generalizing left with
  | root hroot =>
    cases left with
    | zero => rw [climb, if_pos hroot]
    | succ left => rw [climb, if_pos hroot]
  | step hne _ ih =>
    cases left with
    | zero => omega
    | succ left =>
      rw [climb, if_neg hne]
      exact ih (Nat.le_of_succ_le_succ hleft)

/-! ## New parents -/

theorem parentOf_set (k v : ν) : parentOf (parent.set k v) x = if x = k then v else parentOf parent x := by
  rw [parentOf, OrderedMap.get_set]
  split
  · rfl
  · rfl

/-- A node on the way is put below its root: every node keeps its root. -/
theorem Leads.set_root (hx : Leads parent n x r) (hne : x ≠ r) (hy : Leads parent m y s) :
    ∃ l, Leads (parent.set x r) l y s := by
  induction hy with
  | @root z hroot =>
    refine ⟨0, .root ?_⟩
    rw [parentOf_set, if_neg, hroot]
    rintro rfl
    exact hne (hx.unique (.root hroot)).2.symm
  | @step k z s hstep hrest ih =>
    by_cases hz : z = x
    · subst hz
      obtain ⟨-, rfl⟩ := hx.unique (.step hstep hrest)
      have hr : parentOf (parent.set z r) r = r := by rw [parentOf_set, if_neg hne.symm, hx.isRoot]
      have hzr : parentOf (parent.set z r) z = r := by rw [parentOf_set, if_pos rfl]
      refine ⟨1, .step (hzr.trans_ne hne.symm) ?_⟩
      rw [hzr]
      exact .root hr
    · obtain ⟨l, hl⟩ := ih
      have hzp : parentOf (parent.set x r) z = parentOf parent z := by rw [parentOf_set, if_neg hz]
      refine ⟨l + 1, .step (hzp.trans_ne hstep) ?_⟩
      rwa [hzp]

/-- The rest of the way does not change. -/
theorem Leads.set_behind (hx : Leads parent n x r) (hy : Leads parent m y s) (hlt : m < n) :
    Leads (parent.set x r) m y s := by
  induction hy with
  | @root z hroot =>
    refine .root ?_
    rw [parentOf_set, if_neg, hroot]
    rintro rfl
    exact absurd (hx.unique (.root hroot)).1 (Nat.ne_of_gt hlt)
  | @step k z s hstep hrest ih =>
    have hz : z ≠ x := by
      rintro rfl
      exact absurd (hx.unique (.step hstep hrest)).1 (Nat.ne_of_gt hlt)
    have hzp : parentOf (parent.set x r) z = parentOf parent z := by rw [parentOf_set, if_neg hz]
    refine .step (hzp.trans_ne hstep) ?_
    rw [hzp]
    exact ih (Nat.lt_of_succ_lt hlt)

/-- A root is put below another one. -/
theorem Leads.set_union (hr : parentOf parent r = r) (hs : parentOf parent s = s) (hne : s ≠ r) {q : ν}
    (hy : Leads parent m y q) : ∃ l, Leads (parent.set r s) l y (if q = r then s else q) := by
  induction hy with
  | @root z hroot =>
    by_cases hz : z = r
    · subst hz
      have hzs : parentOf (parent.set z s) z = s := by rw [parentOf_set, if_pos rfl]
      have hss : parentOf (parent.set z s) s = s := by rw [parentOf_set, if_neg hne, hs]
      rw [if_pos rfl]
      refine ⟨1, .step (hzs.trans_ne hne) ?_⟩
      rw [hzs]
      exact .root hss
    · rw [if_neg hz]
      refine ⟨0, .root ?_⟩
      rw [parentOf_set, if_neg hz, hroot]
  | @step k z q hstep _ ih =>
    obtain ⟨l, hl⟩ := ih
    have hz : z ≠ r := by
      rintro rfl
      exact hstep hr
    have hzp : parentOf (parent.set r s) z = parentOf parent z := by rw [parentOf_set, if_neg hz]
    refine ⟨l + 1, .step (hzp.trans_ne hstep) ?_⟩
    rwa [hzp]

/-! ## Operations -/

/-- Every node leads to the root that the function says. -/
def Rooted (parent : OrderedMap ν ν) (root : ν → ν) : Prop := ∀ x, ∃ n, Leads parent n x (root x)

variable {root : ν → ν}

theorem compress_spec (h : Rooted parent root) (hx : Leads parent n x r) (hleft : n ≤ left) :
    ∃ parent', compress r left x parent = some parent' ∧ Rooted parent' root := by
  induction left generalizing n x parent with
  | zero =>
    obtain rfl := Nat.le_zero.mp hleft
    cases hx with
    | root hroot => exact ⟨parent, by rw [compress, if_pos hroot], h⟩
  | succ left ih =>
    rw [compress]
    split
    · exact ⟨parent, rfl, h⟩
    · rename_i hne
      cases hx with
      | root hroot => exact absurd hroot hne
      | @step n _ _ hstep hrest =>
        have hlead : Leads parent (n + 1) x r := .step hstep hrest
        have hxr : x ≠ r := by
          rintro rfl
          exact hstep hlead.isRoot
        refine ih (fun y => ?_) (hlead.set_behind hrest (Nat.lt_succ_self n)) (Nat.le_of_succ_le_succ hleft)
        obtain ⟨m, hy⟩ := h y
        exact hlead.set_root hxr hy

theorem findRoot_spec (h : Rooted parent root) (x : ν) :
    ∃ parent', findRoot parent x = some (root x, parent') ∧ Rooted parent' root := by
  obtain ⟨n, hx⟩ := h x
  obtain ⟨parent', hcompress, hrooted⟩ := compress_spec h hx hx.le_size
  refine ⟨parent', ?_, hrooted⟩
  rw [findRoot, climb_eq hx hx.le_size]
  dsimp only
  rw [hcompress]
  rfl

/-- The roots after a union. -/
def link (root : ν → ν) (source target : ν) (x : ν) : ν := if root x = root target then root source else root x

theorem union_spec (h : Rooted parent root) (source target : ν) :
    ∃ parent', union parent source target = some parent' ∧ Rooted parent' (link root source target) := by
  obtain ⟨parent₁, hsource, h₁⟩ := findRoot_spec h source
  obtain ⟨parent₂, htarget, h₂⟩ := findRoot_spec h₁ target
  rw [union, hsource]
  dsimp only
  rw [htarget]
  refine ⟨_, rfl, fun x => ?_⟩
  split
  · rename_i heq
    have hsame : link root source target x = root x := by
      rw [link]
      split
      · rename_i hx
        rw [heq, hx]
      · rfl
    rw [hsame]
    exact h₂ x
  · rename_i hne
    obtain ⟨n, hx⟩ := h₂ x
    obtain ⟨_, hs⟩ := h₂ source
    obtain ⟨_, ht⟩ := h₂ target
    exact hx.set_union ht.isRoot hs.isRoot hne

/-- Every node by itself. -/
theorem rooted_self (h : ∀ k v, parent.get k = some v → v = k) : Rooted parent id := by
  refine fun x => ⟨0, .root ?_⟩
  rw [parentOf]
  cases hget : parent.get x with
  | none => rfl
  | some v => exact h x v hget

/-! ## Components -/

/-- Two nodes have the same root if and only if they are connected. -/
def Represents (root : ν → ν) (R : ν → ν → Prop) : Prop := ∀ x y, root x = root y ↔ Relation.EqvGen R x y

variable {R : ν → ν → Prop}

omit [DecidableEq ν] in
theorem represents_id (h : ∀ x y, ¬R x y) : Represents (id : ν → ν) R := by
  intro x y
  constructor
  · rintro rfl
    exact .refl _
  · intro hxy
    induction hxy with
    | rel a b hab => exact absurd hab (h a b)
    | refl => rfl
    | symm _ _ _ ih => exact ih.symm
    | trans _ _ _ _ _ ih ih' => exact ih.trans ih'

theorem Represents.link (h : Represents root R) (source target : ν) :
    Represents (link root source target) fun a b => R a b ∨ (a = source ∧ b = target) := by
  have hmono {a b : ν} (hab : Relation.EqvGen R a b) :
      Relation.EqvGen (fun a b => R a b ∨ (a = source ∧ b = target)) a b := hab.mono fun _ _ => .inl
  have hnew : Relation.EqvGen (fun a b => R a b ∨ (a = source ∧ b = target)) source target := .rel _ _ (.inr ⟨rfl, rfl⟩)
  -- A node is connected with a node that had its new root before.
  have hto (x : ν) : ∃ z, root z = UnionFind.link root source target x ∧
      Relation.EqvGen (fun a b => R a b ∨ (a = source ∧ b = target)) x z := by
    rw [UnionFind.link]
    split
    · rename_i hx
      exact ⟨source, rfl, (hmono ((h x target).mp hx)).trans _ _ _ hnew.symm⟩
    · exact ⟨x, rfl, .refl x⟩
  intro x y
  constructor
  · intro heq
    obtain ⟨a, ha, hxa⟩ := hto x
    obtain ⟨b, hb, hyb⟩ := hto y
    exact (hxa.trans _ _ _ (hmono ((h a b).mp (ha.trans (heq.trans hb.symm))))).trans _ _ _ hyb.symm
  · intro hxy
    induction hxy with
    | rel a b hab =>
      rw [UnionFind.link, UnionFind.link]
      rcases hab with hab | ⟨rfl, rfl⟩
      · rw [(h a b).mpr (.rel a b hab)]
      · rw [if_pos (rfl : root b = root b)]
        split
        · rfl
        · rfl
    | refl => rfl
    | symm _ _ _ ih => exact ih.symm
    | trans _ _ _ _ _ ih ih' => exact ih.trans ih'

end Ariad.UnionFind
