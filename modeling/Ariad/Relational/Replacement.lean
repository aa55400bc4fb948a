import Mathlib.Data.Finset.Basic
import Mathlib.Data.List.Nodup

/-!
# Lists in which an element is replaced

* `lastIndex` — the last position whose element satisfies a condition; `exists_split_of_lastIndex`: what is around it.
* `classCount` — how many elements have a class; `classCount_replace`: what a replacement does to it.
* `represented_replace` — a class is still there if the element that goes has a companion.
* `putLast` — new elements that take the last place of a list one after the other; `foldl_putLast`: only the last of
  them stays.
-/

namespace Ariad.Replacement

open List

variable {α κ : Type}

/-- A loop from the end that stops at the first position whose element satisfies the condition. -/
def lastIndex (p : α → Bool) : List α → Option ℕ
  | [] => none
  | a :: l =>
    match lastIndex p l with
    | some i => some (i + 1)
    | none => if p a then some 0 else none

theorem lastIndex_eq_none {p : α → Bool} {l : List α} : lastIndex p l = none ↔ ∀ a ∈ l, p a = false := by
  induction l with
  | nil => simp [lastIndex]
  | cons a l ih =>
    rw [lastIndex]
    cases hl : lastIndex p l with
    | some i =>
      rw [hl] at ih
      refine iff_of_false (by simp) fun h => ?_
      exact absurd (ih.mpr fun b hb => h b (mem_cons_of_mem a hb)) (by simp)
    | none =>
      have hrest := ih.mp hl
      cases hp : p a with
      | true => exact iff_of_false (by simp) fun h => by simpa [hp] using h a mem_cons_self
      | false => exact iff_of_true (by simp) (forall_mem_cons.mpr ⟨hp, hrest⟩)

theorem exists_split_of_lastIndex {p : α → Bool} {l : List α} {i : ℕ} (h : lastIndex p l = some i) :
    ∃ pre a post, l = pre ++ a :: post ∧ i = pre.length ∧ p a = true ∧ ∀ b ∈ post, p b = false := by
  induction l generalizing i with
  | nil => cases h
  | cons a l ih =>
    rw [lastIndex] at h
    cases hl : lastIndex p l with
    | some j =>
      rw [hl] at h
      obtain ⟨pre, b, post, rfl, rfl, hb, hpost⟩ := ih hl
      exact ⟨a :: pre, b, post, rfl, (Option.some.inj h).symm, hb, hpost⟩
    | none =>
      rw [hl] at h
      dsimp only at h
      split at h
      · rename_i ha
        exact ⟨[], a, l, rfl, (Option.some.inj h).symm, ha, lastIndex_eq_none.mp hl⟩
      · cases h

theorem set_split (pre post : List α) (a b : α) : (pre ++ a :: post).set pre.length b = pre ++ b :: post := by
  simp

/-! ## Classes -/

section Classes

variable [DecidableEq κ] {cls : α → κ} {pre post l : List α} {a b : α} {k : κ}

/-- The number of elements of a class. -/
def classCount (cls : α → κ) (l : List α) (k : κ) : ℕ := l.countP fun a => cls a = k

theorem classCount_pos : 0 < classCount cls l k ↔ ∃ a ∈ l, cls a = k := by
  simp [classCount, countP_pos_iff]

theorem classCount_cons : classCount cls (a :: l) k = classCount cls l k + if cls a = k then 1 else 0 := by
  rw [classCount, countP_cons]
  simp [classCount]

theorem classCount_concat : classCount cls (l ++ [b]) k = classCount cls l k + if cls b = k then 1 else 0 := by
  rw [classCount, countP_append, countP_singleton]
  simp [classCount]

theorem classCount_replace (cls : α → κ) (pre post : List α) (a b : α) (k : κ) :
    classCount cls (pre ++ b :: post) k + (if cls a = k then 1 else 0) =
      classCount cls (pre ++ a :: post) k + if cls b = k then 1 else 0 := by
  simp only [classCount, countP_append, countP_cons, decide_eq_true_eq]
  omega

/-- Every class that was there is still there. -/
theorem represented_replace (h : 1 < classCount cls (pre ++ a :: post) (cls a) ∨ cls a = cls b)
    (hk : 0 < classCount cls (pre ++ a :: post) k) : 0 < classCount cls (pre ++ b :: post) k := by
  have hreplace := classCount_replace cls pre post a b k
  by_cases hak : cls a = k
  · subst hak
    rw [if_pos rfl] at hreplace
    rcases h with h | h
    · omega
    · rw [if_pos h.symm] at hreplace
      omega
  · rw [if_neg hak] at hreplace
    omega

end Classes

/-! ## The last place -/

section LastPlace

variable [DecidableEq α]

/-- An element takes the last place, if it has none. -/
def putLast (l : List α) (c : α) : List α := if c ∈ l ∨ l = [] then l else l.dropLast ++ [c]

theorem putLast_concat (init : List α) (last c : α) :
    putLast (init ++ [last]) c = init ++ [if c ∈ init then last else c] := by
  rw [putLast, dropLast_concat]
  by_cases hinit : c ∈ init
  · simp [hinit]
  · by_cases hlast : c = last
    · simp [hlast]
    · simp [hinit, hlast]

theorem length_foldl_putLast (l cs : List α) : (cs.foldl putLast l).length = l.length := by
  induction cs generalizing l with
  | nil => rfl
  | cons c cs ih =>
    rw [foldl_cons, ih]
    rcases eq_nil_or_concat l with rfl | ⟨init, last, rfl⟩
    · simp [putLast]
    · simp [putLast_concat]

/-- Of the elements that had no place but perhaps the last one, the last has it in the end. -/
theorem foldl_putLast (init : List α) (last : α) (cs : List α) :
    cs.foldl putLast (init ++ [last]) = init ++ [(cs.filter fun c => c ∉ init).getLastD last] := by
  induction cs generalizing last with
  | nil => rfl
  | cons c cs ih =>
    rw [foldl_cons, putLast_concat, ih]
    by_cases hinit : c ∈ init
    · rw [if_pos hinit, filter_cons_of_neg (by simpa using hinit)]
    · rw [if_neg hinit, filter_cons_of_pos (by simpa using hinit), getLastD_cons]

/-- All of them have a place if at most one of them had none before the last. -/
theorem forall_mem_foldl_putLast {init cs : List α} {last : α} (h : cs.Nodup) :
    (∀ c ∈ cs, c ∈ cs.foldl putLast (init ++ [last])) ↔ (cs.filter fun c => c ∉ init).length ≤ 1 := by
  rw [foldl_putLast]
  have hnodup : (cs.filter fun c => c ∉ init).Nodup := h.filter _
  have hplace (c : α) (hc : c ∈ cs) (hinit : c ∉ init) : c ∈ cs.filter fun c => c ∉ init :=
    mem_filter.mpr ⟨hc, decide_eq_true hinit⟩
  have hout (c : α) (hc : c ∈ cs.filter fun c => c ∉ init) : c ∈ cs ∧ c ∉ init := by simpa using hc
  generalize (cs.filter fun c => c ∉ init) = outside at *
  constructor
  · intro hall
    have hlast (c : α) (hc : c ∈ outside) : c = outside.getLastD last := by
      obtain ⟨hmem, hinit⟩ := hout c hc
      simpa [hinit] using hall c hmem
    match outside, hnodup with
    | [], _ => exact Nat.zero_le _
    | [_], _ => exact le_refl _
    | a :: b :: _, hnodup =>
      have hab : a = b := (hlast a (by simp)).trans (hlast b (by simp)).symm
      simp [hab] at hnodup
  · intro hle c hc
    by_cases hinit : c ∈ init
    · exact mem_append_left _ hinit
    · have hmem := hplace c hc hinit
      obtain ⟨a, rfl⟩ := length_eq_one_iff.mp (le_antisymm hle (length_pos_of_mem hmem))
      rw [mem_singleton.mp hmem]
      simp

end LastPlace

/-- A list stays without repetitions if the new element is not in it. -/
theorem nodup_replace {f : α → κ} {pre post : List α} {a b : α} (h : ((pre ++ a :: post).map f).Nodup)
    (hb : f b ∉ (pre ++ a :: post).map f) : ((pre ++ b :: post).map f).Nodup := by
  simp only [map_append, map_cons, List.nodup_append, nodup_cons, mem_append, mem_cons,
    not_or] at h hb ⊢
  obtain ⟨hpre, ⟨ha, hpost⟩, hdisjoint⟩ := h
  refine ⟨hpre, ⟨hb.2.2, hpost⟩, fun x hx y hy => ?_⟩
  rcases hy with rfl | hy
  · exact fun hxb => hb.1 (hxb ▸ hx)
  · exact hdisjoint x hx y (.inr hy)

end Ariad.Replacement
