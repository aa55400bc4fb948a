import Mathlib.Algebra.BigOperators.Group.List.Basic
import Mathlib.Algebra.Order.Ring.Int
import Mathlib.Data.List.Sort
import Ariad.Relational.Rows

/-!
# Maps that keep the order of insertion

* `OrderedMap` — a `Map`: entries in the order of their first insertion, no key twice.
* `set` — in its place if the key is there, at the end otherwise; `delete`; `get`; `has`.
* `total` — a sum over the values, and what `set` and `delete` do to it.
* `sortBy` — `Array.prototype.sort` with a comparison, and `ORDER BY`.
-/

open List

namespace Ariad

/-! ## Sorting -/

variable {α : Type} {cmp : α → α → Ordering} {l : List α} {a : α}

def sortBy (cmp : α → α → Ordering) (l : List α) : List α := l.insertionSort fun a b => (cmp a b).isLE = true

variable {ρ : Type}

theorem sortBy_perm (cmp : α → α → Ordering) (l : List α) : (sortBy cmp l).Perm l := perm_insertionSort ..

@[simp] theorem mem_sortBy : a ∈ sortBy cmp l ↔ a ∈ l := (sortBy_perm cmp l).mem_iff

@[simp] theorem length_sortBy : (sortBy cmp l).length = l.length := (sortBy_perm cmp l).length_eq

end Ariad

namespace Ariad

/-- A `Map`. -/
structure OrderedMap (κ ν : Type) where
  /-- The entries, the one that was inserted first at the head. -/
  entries : List (κ × ν)
  nodup : (entries.map Prod.fst).Nodup
  deriving DecidableEq

namespace OrderedMap

variable {κ ν : Type}

/-- `new Map()`. -/
def empty : OrderedMap κ ν := ⟨[], List.nodup_nil⟩

def keys (m : OrderedMap κ ν) : List κ := m.entries.map Prod.fst

def size (m : OrderedMap κ ν) : ℕ := m.entries.length

/-- The sum of a number over the values. -/
def total (f : ν → ℤ) (m : OrderedMap κ ν) : ℤ := (m.entries.map fun e => f e.2).sum

@[simp] theorem entries_empty : (empty : OrderedMap κ ν).entries = [] := rfl

@[simp] theorem total_empty (f : ν → ℤ) : (empty : OrderedMap κ ν).total f = 0 := rfl

/-- The entries for which the condition holds; a loop deletes the others. -/
def filter (keep : κ → ν → Bool) (m : OrderedMap κ ν) : OrderedMap κ ν :=
  ⟨m.entries.filter fun e => keep e.1 e.2, m.nodup.sublist (List.filter_sublist.map _)⟩

/-- Entries without the oldest ones, as long as there are `bound` of them. -/
def dropOldest (bound : ℕ) : List (κ × ν) → List (κ × ν)
  | [] => []
  | e :: rest => if bound ≤ rest.length + 1 then dropOldest bound rest else e :: rest

theorem dropOldest_suffix (bound : ℕ) (l : List (κ × ν)) : dropOldest bound l <:+ l := by
  induction l with
  | nil => exact suffix_rfl
  | cons e l ih =>
    rw [dropOldest]
    split
    · exact ih.trans (suffix_cons e l)
    · exact suffix_rfl

/-- `while (m.size >= bound) m.delete(m.keys().next().value)` -/
def makeRoom (bound : ℕ) (m : OrderedMap κ ν) : OrderedMap κ ν :=
  ⟨dropOldest bound m.entries, m.nodup.sublist ((dropOldest_suffix bound m.entries).sublist.map _)⟩

variable [DecidableEq κ] {m : OrderedMap κ ν} {k l : κ} {v w : ν}

def get (k : κ) (m : OrderedMap κ ν) : Option ν := (Rows.get Prod.fst k m.entries).map Prod.snd

def has (k : κ) (m : OrderedMap κ ν) : Bool := (m.get k).isSome

def delete (k : κ) (m : OrderedMap κ ν) : OrderedMap κ ν :=
  ⟨m.entries.filter fun e => e.1 ≠ k, m.nodup.sublist (List.filter_sublist.map _)⟩

/-- `set` of a key that is there. -/
def replace (k : κ) (v : ν) (m : OrderedMap κ ν) : OrderedMap κ ν :=
  ⟨Rows.modify Prod.fst k (fun _ => (k, v)) m.entries, by
    have hkeys : (Rows.modify Prod.fst k (fun _ => (k, v)) m.entries).map Prod.fst =
        m.entries.map Prod.fst := by
      rw [Rows.modify, List.map_map]
      refine List.map_congr_left fun e _ => ?_
      by_cases he : e.1 = k
      · simp [he]
      · simp [he]
    exact hkeys ▸ m.nodup⟩

/-- The key and the value behind all others. -/
def push (k : κ) (v : ν) (m : OrderedMap κ ν) : OrderedMap κ ν :=
  ⟨(m.delete k).entries ++ [(k, v)], by
    rw [List.map_append, List.map_singleton]
    refine List.nodup_append.mpr ⟨(m.delete k).nodup, List.nodup_singleton k, ?_⟩
    intro a ha b hb hab
    obtain ⟨e, he, rfl⟩ := List.mem_map.mp ha
    obtain rfl := List.mem_singleton.mp hb
    have := (List.mem_filter.mp he).2
    simp [hab] at this⟩

def set (k : κ) (v : ν) (m : OrderedMap κ ν) : OrderedMap κ ν := if m.has k then m.replace k v else m.push k v

/-! ## Look-ups -/

theorem get_eq_some_iff : m.get k = some v ↔ (k, v) ∈ m.entries := by
  rw [get, Option.map_eq_some_iff]
  constructor
  · rintro ⟨e, he, rfl⟩
    obtain ⟨hmem, rfl⟩ := (Rows.get_eq_some_iff m.nodup).mp he
    exact hmem
  · exact fun h => ⟨(k, v), (Rows.get_eq_some_iff m.nodup).mpr ⟨h, rfl⟩, rfl⟩

theorem get_eq_none_iff : m.get k = none ↔ k ∉ m.keys := by
  rw [get, Option.map_eq_none_iff, Rows.get_eq_none_iff, keys, mem_map]
  constructor
  · rintro h ⟨e, he, rfl⟩
    exact h e he rfl
  · exact fun h e he hk => h ⟨e, he, hk⟩

theorem has_iff : m.has k = true ↔ ∃ v, m.get k = some v := Option.isSome_iff_exists

theorem has_eq_false_iff : m.has k = false ↔ m.get k = none := by simp [has]

theorem mem_keys_iff : k ∈ m.keys ↔ ∃ v, m.get k = some v := by
  rw [← not_iff_not, ← get_eq_none_iff, ← Option.not_isSome_iff_eq_none, Option.isSome_iff_exists]

@[simp] theorem get_empty : (empty : OrderedMap κ ν).get k = none := rfl

/-! ## Deletion -/

theorem entries_delete : (m.delete k).entries = m.entries.filter fun e => e.1 ≠ k := rfl

@[simp] theorem get_delete_self : (m.delete k).get k = none := by
  rw [get_eq_none_iff, keys, mem_map]
  rintro ⟨e, he, rfl⟩
  simpa using (mem_filter.mp he).2

theorem get_delete_of_ne (h : l ≠ k) : (m.delete k).get l = m.get l := by
  have key (v : ν) : (m.delete k).get l = some v ↔ m.get l = some v := by
    rw [get_eq_some_iff, get_eq_some_iff, delete, mem_filter]
    simp [h]
  exact Option.ext key

theorem get_delete : (m.delete k).get l = if l = k then none else m.get l := by
  split
  · rename_i h
    rw [h, get_delete_self]
  · rename_i h
    exact get_delete_of_ne h

theorem delete_of_get_none (h : m.get k = none) : m.delete k = m := by
  have hall : m.entries.filter (fun e => e.1 ≠ k) = m.entries := by
    rw [filter_eq_self]
    intro e he
    have hk : k ∉ m.keys := get_eq_none_iff.mp h
    exact decide_eq_true fun hek => hk (mem_map.mpr ⟨e, he, hek⟩)
  cases m
  simpa [delete] using hall

/-! ## Insertion -/

theorem get_push : (m.push k v).get l = if l = k then some v else m.get l := by
  have key (w : ν) : (m.push k v).get l = some w ↔ (if l = k then some v else m.get l) = some w := by
    rw [get_eq_some_iff, push, mem_append, ← get_eq_some_iff, get_delete, mem_singleton]
    by_cases h : l = k
    · simp [h, eq_comm]
    · simp [h]
  exact Option.ext key

theorem get_replace (h : m.has k = true) : (m.replace k v).get l = if l = k then some v else m.get l := by
  obtain ⟨u, hu⟩ := has_iff.mp h
  have key (w : ν) : (m.replace k v).get l = some w ↔ (if l = k then some v else m.get l) = some w := by
    rw [get_eq_some_iff, replace, Rows.mem_modify]
    by_cases hl : l = k
    · subst hl
      rw [if_pos rfl]
      constructor
      · rintro (⟨-, hne⟩ | ⟨e, -, -, he⟩)
        · exact absurd rfl hne
        · exact congrArg some (Prod.ext_iff.mp he).2
      · intro hw
        obtain rfl := Option.some.inj hw
        exact Or.inr ⟨(l, u), get_eq_some_iff.mp hu, rfl, rfl⟩
    · rw [if_neg hl, get_eq_some_iff]
      constructor
      · rintro (⟨he, -⟩ | ⟨e, -, -, he⟩)
        · exact he
        · exact absurd (Prod.ext_iff.mp he).1.symm hl
      · exact fun he => Or.inl ⟨he, hl⟩
  exact Option.ext key

theorem get_set : (m.set k v).get l = if l = k then some v else m.get l := by
  rw [set]
  split
  · rename_i h
    exact get_replace h
  · exact get_push

@[simp] theorem get_set_self : (m.set k v).get k = some v := by simp [get_set]

theorem get_set_of_ne (h : l ≠ k) : (m.set k v).get l = m.get l := by simp [get_set, h]

theorem set_of_get_none (h : m.get k = none) : m.set k v = m.push k v := by
  rw [set, has_eq_false_iff.mpr h]
  rfl

theorem entries_push_of_get_none (h : m.get k = none) : (m.push k v).entries = m.entries ++ [(k, v)] := by
  change (m.delete k).entries ++ [(k, v)] = _
  rw [delete_of_get_none h]

/-! ## Sizes and sums -/

theorem entries_replace : (m.replace k v).entries = Rows.modify Prod.fst k (fun _ => (k, v)) m.entries := rfl

/-- The entry of a key, and what is before and behind it. -/
theorem exists_split (h : m.get k = some w) :
    ∃ older newer, m.entries = older ++ (k, w) :: newer ∧ (m.delete k).entries = older ++ newer ∧
      ∀ v, (m.replace k v).entries = older ++ (k, v) :: newer := by
  obtain ⟨older, newer, he⟩ := append_of_mem (get_eq_some_iff.mp h)
  have hnodup := m.nodup
  rw [he, map_append, map_cons, nodup_middle, nodup_cons, mem_append,
    not_or] at hnodup
  obtain ⟨⟨holder, hnewer⟩, -⟩ := hnodup
  have hne (l : List (κ × ν)) (hl : k ∉ l.map Prod.fst) : l.filter (fun e => e.1 ≠ k) = l := by
    rw [filter_eq_self]
    exact fun e hmem => decide_eq_true fun hek => hl (mem_map.mpr ⟨e, hmem, hek⟩)
  have hid (v : ν) (l : List (κ × ν)) (hl : k ∉ l.map Prod.fst) :
      Rows.modify Prod.fst k (fun _ => (k, v)) l = l :=
    Rows.modify_eq_self fun e hmem hek => absurd (mem_map.mpr ⟨e, hmem, hek⟩) hl
  refine ⟨older, newer, he, ?_, fun v => ?_⟩
  · rw [entries_delete, he, filter_append, hne older holder, filter_cons_of_neg (by simp),
      hne newer hnewer]
  · rw [entries_replace, he, Rows.modify, map_append, map_cons, ← Rows.modify, ← Rows.modify,
      hid v older holder, hid v newer hnewer]
    simp

theorem total_delete (f : ν → ℤ) : (m.delete k).total f = m.total f - (m.get k).elim 0 f := by
  cases h : m.get k with
  | none => simp [delete_of_get_none h]
  | some v =>
    obtain ⟨older, newer, he, hd, -⟩ := exists_split h
    rw [total, total, he, hd]
    simp
    omega

theorem size_delete (h : m.get k = some v) : (m.delete k).size + 1 = m.size := by
  obtain ⟨older, newer, he, hd, -⟩ := exists_split h
  rw [size, size, he, hd]
  simp
  omega

theorem size_delete_le : (m.delete k).size ≤ m.size := length_filter_le ..

theorem set_delete : (m.delete k).set k v = m.push k v := by
  have hd : (m.delete k).delete k = m.delete k := delete_of_get_none get_delete_self
  rw [set_of_get_none get_delete_self]
  simp only [push, hd]

theorem total_push (f : ν → ℤ) : (m.push k v).total f = (m.delete k).total f + f v := by
  simp [total, push]

theorem size_push : (m.push k v).size = (m.delete k).size + 1 := by simp [size, push]

theorem total_replace (f : ν → ℤ) (h : m.get k = some w) : (m.replace k v).total f = m.total f - f w + f v := by
  obtain ⟨older, newer, he, -, hr⟩ := exists_split h
  rw [total, total, hr, he]
  simp
  omega

/-- The oldest entry goes. -/
theorem entries_delete_head {rest : List (κ × ν)} (h : m.entries = (k, v) :: rest) : (m.delete k).entries = rest := by
  have hnodup := m.nodup
  rw [h, map_cons, nodup_cons] at hnodup
  rw [entries_delete, h, filter_cons_of_neg (by simp), filter_eq_self]
  exact fun e he => decide_eq_true fun hek => hnodup.1 (mem_map.mpr ⟨e, he, hek⟩)

theorem size_replace : (m.replace k v).size = m.size := by simp [size, replace, Rows.modify]

/-! ## Bounded maps -/

theorem get_filter {keep : κ → ν → Bool} (h : (m.filter keep).get k = some v) : m.get k = some v :=
  get_eq_some_iff.mpr (mem_filter.mp (get_eq_some_iff.mp h)).1

theorem get_makeRoom {bound : ℕ} (h : (m.makeRoom bound).get k = some v) : m.get k = some v :=
  get_eq_some_iff.mpr ((dropOldest_suffix bound m.entries).subset (get_eq_some_iff.mp h))

/-! ## Loops that collect into a map -/

/-- A loop that sets, for every row, the value under the row's key: a key has what its rows made of it. -/
theorem get_foldl_set (key : ρ → κ) (f : ρ → Option ν → ν) (rows : List ρ) :
    (rows.foldl (fun m r => m.set (key r) (f r (m.get (key r)))) m).get k =
      (rows.filter fun r => key r = k).foldl (fun o r => some (f r o)) (m.get k) := by
  induction rows generalizing m with
  | nil => rfl
  | cons r rows ih =>
    rw [foldl_cons, ih, get_set]
    by_cases hk : key r = k
    · rw [if_pos hk.symm, filter_cons_of_pos (by simpa using hk), foldl_cons, hk]
    · rw [if_neg (Ne.symm hk), filter_cons_of_neg (by simpa using hk)]

/-- A loop that sets a value for every row, if no two rows have one key. -/
theorem entries_foldl_set (key : ρ → κ) (f : ρ → ν) {rows : List ρ} (h : (m.keys ++ rows.map key).Nodup) :
    (rows.foldl (fun m r => m.set (key r) (f r)) m).entries = m.entries ++ rows.map fun r => (key r, f r) := by
  induction rows generalizing m with
  | nil => simp
  | cons r rows ih =>
    rw [map_cons] at h
    have hnone : m.get (key r) = none :=
      get_eq_none_iff.mpr fun hmem => (List.nodup_append.mp h).2.2 _ hmem _ mem_cons_self rfl
    have hset : (m.set (key r) (f r)).entries = m.entries ++ [(key r, f r)] := by
      rw [set_of_get_none hnone, entries_push_of_get_none hnone]
    have hkeys : (m.set (key r) (f r)).keys = m.keys ++ [key r] := by rw [keys, hset, map_append]; rfl
    rw [foldl_cons, ih, hset, append_assoc]
    · rfl
    · rw [hkeys, append_assoc]
      exact h

/-- The number of rows of each key: `m.set(k, (m.get(k) ?? 0) + 1)` for every row. -/
def tally {ρ : Type} (key : ρ → κ) (rows : List ρ) : OrderedMap κ ℕ :=
  rows.foldl (fun m r => m.set (key r) ((m.get (key r)).getD 0 + 1)) empty

theorem get_tally (key : ρ → κ) (rows : List ρ) {n : ℕ} :
    (tally key rows).get k = some n ↔ (∃ r ∈ rows, key r = k) ∧ n = rows.countP fun r => key r = k := by
  have hcount (rows : List ρ) (o : Option ℕ) :
      rows.foldl (fun o _ => some (o.getD 0 + 1)) o = if rows = [] then o else some (o.getD 0 + rows.length) := by
    induction rows generalizing o with
    | nil => rfl
    | cons r rows ih =>
      rw [foldl_cons, ih, if_neg (cons_ne_nil _ _)]
      split
      · rename_i hnil
        rw [hnil]
        rfl
      · simp
        omega
  rw [tally, get_foldl_set key fun _ o => o.getD 0 + 1, hcount, get_empty, countP_eq_length_filter]
  split
  · rename_i hnil
    rw [filter_eq_nil_iff] at hnil
    constructor
    · rintro ⟨⟩
    · rintro ⟨⟨r, hr, hk⟩, -⟩
      exact absurd (by simpa using hk) (hnil r hr)
  · rename_i hne
    obtain ⟨r, hr⟩ := exists_mem_of_ne_nil _ hne
    have hex : ∃ r ∈ rows, key r = k := ⟨r, (mem_filter.mp hr).1, by simpa using (mem_filter.mp hr).2⟩
    rw [Option.some.injEq, Option.getD_none, Nat.zero_add, and_iff_right hex]
    exact eq_comm

/-- The values of the rows of each key, in their order. -/
def collect {ρ : Type} (key : ρ → κ) (value : ρ → ν) (rows : List ρ) : OrderedMap κ (List ν) :=
  rows.foldl (fun m r => m.set (key r) ((m.get (key r)).getD [] ++ [value r])) empty

theorem get_collect (key : ρ → κ) (value : ρ → ν) (rows : List ρ) :
    ((collect key value rows).get k).getD [] = (rows.filter fun r => key r = k).map value := by
  have hcollect (rows : List ρ) (o : Option (List ν)) :
      (rows.foldl (fun o r => some (o.getD [] ++ [value r])) o).getD [] = o.getD [] ++ rows.map value := by
    induction rows generalizing o with
    | nil => simp
    | cons r rows ih => simp [ih]
  rw [collect, get_foldl_set key fun r o => o.getD [] ++ [value r], hcollect]
  rfl

/-- A row is collected under its key. -/
theorem exists_mem_collect {key : ρ → κ} {value : ρ → ν} {rows : List ρ} {v : ν} :
    (∃ e ∈ (collect key value rows).entries, e.1 = k ∧ v ∈ e.2) ↔ ∃ r ∈ rows, key r = k ∧ value r = v := by
  have hmem : v ∈ ((collect key value rows).get k).getD [] ↔ ∃ r ∈ rows, key r = k ∧ value r = v := by
    rw [get_collect, mem_map]
    simp [and_assoc]
  rw [← hmem]
  constructor
  · rintro ⟨⟨l, values⟩, he, rfl, hv⟩
    rw [get_eq_some_iff.mpr he]
    exact hv
  · intro hv
    cases hget : (collect key value rows).get k with
    | none => simp [hget] at hv
    | some values => exact ⟨(k, values), get_eq_some_iff.mp hget, rfl, by simpa [hget] using hv⟩

/-- A loop that sets, for every row, a value of the row's key: afterwards a key of a row has such a value. -/
theorem get_foldl_set_of_mem {P : κ → ν → Prop} (key : ρ → κ) {f : OrderedMap κ ν → ρ → ν} {rows : List ρ}
    (hf : ∀ m, ∀ r ∈ rows, P (key r) (f m r)) (h : (∃ r ∈ rows, key r = k) ∨ ∃ v, m.get k = some v ∧ P k v) :
    ∃ v, (rows.foldl (fun m r => m.set (key r) (f m r)) m).get k = some v ∧ P k v := by
  induction rows generalizing m with
  | nil => exact h.resolve_left fun ⟨r, hr, _⟩ => not_mem_nil hr
  | cons r rows ih =>
    rw [foldl_cons]
    refine ih (fun m q hq => hf m q (mem_cons_of_mem r hq)) ?_
    by_cases hk : k = key r
    · exact .inr ⟨f m r, by rw [hk, get_set_self], hk ▸ hf m r mem_cons_self⟩
    · rw [get_set_of_ne hk]
      refine h.imp_left fun ⟨q, hq, hqk⟩ => ⟨q, ?_, hqk⟩
      exact (mem_cons.mp hq).resolve_left fun heq => hk (heq ▸ hqk).symm

theorem get_foldl_set_of_forall_ne (key : ρ → κ) {f : OrderedMap κ ν → ρ → ν} {rows : List ρ}
    (h : ∀ r ∈ rows, key r ≠ k) : (rows.foldl (fun m r => m.set (key r) (f m r)) m).get k = m.get k := by
  induction rows generalizing m with
  | nil => rfl
  | cons r rows ih =>
    rw [foldl_cons, ih fun q hq => h q (mem_cons_of_mem r hq)]
    exact get_set_of_ne (h r mem_cons_self).symm

/-- A loop over groups and the rows of each is one over the rows with their groups. -/
theorem foldl_foldl_set {γ ρ : Type} (groups : List γ) (group : γ → List ρ) (key : ρ → κ)
    (f : γ → OrderedMap κ ν → ρ → ν) :
    groups.foldl (fun m g => (group g).foldl (fun m r => m.set (key r) (f g m r)) m) m =
      (groups.flatMap fun g => (group g).map fun r => (g, r)).foldl (fun m e => m.set (key e.2) (f e.1 m e.2)) m := by
  rw [foldl_flatMap]
  simp only [foldl_map]

/-- The keys after such a loop. -/
theorem has_foldl_set {key : ρ → κ} {f : OrderedMap κ ν → ρ → ν} {rows : List ρ} :
    (rows.foldl (fun m r => m.set (key r) (f m r)) m).has k = true ↔ (∃ r ∈ rows, key r = k) ∨ m.has k = true := by
  rw [has_iff, has_iff]
  constructor
  · rintro ⟨v, hv⟩
    by_cases hk : ∃ r ∈ rows, key r = k
    · exact .inl hk
    · exact .inr ⟨v, by rwa [get_foldl_set_of_forall_ne key fun r hr hrk => hk ⟨r, hr, hrk⟩] at hv⟩
  · intro h
    obtain ⟨v, hv, -⟩ := get_foldl_set_of_mem (P := fun _ _ => True) (f := f) key (fun _ _ _ => trivial)
      (h.imp_right fun ⟨v, hv⟩ => ⟨v, hv, trivial⟩)
    exact ⟨v, hv⟩

end OrderedMap

end Ariad
