import Mathlib.Data.List.Infix
import Mathlib.Order.Basic

/-!
# Where a list occurs in a list

* `indexOf` — the first place from an index on, as `String.prototype.indexOf`.
* `Occurrences` — the places from left to right, where each is the first one behind the one before.
* `occurrences` — the loop that finds them; `occurrences_spec`: it finds all.
-/

namespace Ariad.Find

open List Option

section Places

variable {α : Type} {content query : List α} {start o : ℕ} {os os' : List ℕ}

/-! ## Places -/

def OccursAt (content query : List α) (o : ℕ) : Prop := query <+: content.drop o

theorem occursAt_drop : OccursAt (content.drop start) query o ↔ OccursAt content query (start + o) := by
  rw [OccursAt, OccursAt, drop_drop]

theorem OccursAt.le (h : OccursAt content query o) (hquery : query ≠ []) : o + query.length ≤ content.length := by
  have hlength := h.length_le
  rw [length_drop] at hlength
  have := length_pos_iff.mpr hquery
  omega

theorem exists_occursAt_iff : (∃ o, OccursAt content query o) ↔ query <:+: content := by
  rw [infix_iff_prefix_suffix]
  constructor
  · rintro ⟨o, ho⟩
    exact ⟨content.drop o, ho, drop_suffix ..⟩
  · rintro ⟨t, hprefix, s, rfl⟩
    exact ⟨s.length, by rwa [OccursAt, drop_left]⟩

/-- The places from an index on: each is the first one behind the one before. -/
inductive Occurrences (content query : List α) : ℕ → List ℕ → Prop
  | none {start : ℕ} : (∀ o, start ≤ o → ¬OccursAt content query o) → Occurrences content query start []
  | next {start o : ℕ} {os : List ℕ} : start ≤ o → OccursAt content query o →
      (∀ o', start ≤ o' → o' < o → ¬OccursAt content query o') →
        Occurrences content query (o + query.length) os → Occurrences content query start (o :: os)

theorem Occurrences.eq_nil_iff (h : Occurrences content query 0 os) : os = [] ↔ ¬query <:+: content := by
  rw [← exists_occursAt_iff]
  cases h with
  | none hno => exact iff_of_true rfl fun ⟨o, ho⟩ => hno o (Nat.zero_le o) ho
  | next _ ho => exact iff_of_false (cons_ne_nil _ _) fun hno => hno ⟨_, ho⟩

theorem Occurrences.occursAt (h : Occurrences content query start os) (ho : o ∈ os) : OccursAt content query o := by
  induction h with
  | none => cases ho
  | next _ hoccurs _ _ ih =>
    rcases mem_cons.mp ho with rfl | ho
    · exact hoccurs
    · exact ih ho

end Places

variable {α : Type} [DecidableEq α] {content query : List α} {start o : ℕ}

instance (content query : List α) (o : ℕ) : Decidable (OccursAt content query o) :=
  inferInstanceAs (Decidable (query <+: content.drop o))

/-! ## The first place -/

def findFirst (query : List α) : List α → Option ℕ
  | [] => if query = [] then some 0 else none
  | c :: t => if query <+: c :: t then some 0 else (findFirst query t).map (· + 1)

/-- `content.indexOf(query, start)`, or nothing for `-1`. -/
def indexOf (content query : List α) (start : ℕ) : Option ℕ := (findFirst query (content.drop start)).map (start + ·)

theorem findFirst_eq_some_iff : findFirst query content = some o ↔
    OccursAt content query o ∧ ∀ o' < o, ¬OccursAt content query o' := by
  induction content generalizing o with
  | nil =>
    rw [findFirst]
    simp only [OccursAt, drop_nil, prefix_nil]
    split
    · rename_i hnil
      rw [some_inj, eq_comm]
      refine ⟨fun ho => ⟨hnil, by omega⟩, fun h => ?_⟩
      by_contra hne
      exact h.2 0 (by omega) hnil
    · rename_i hnil
      exact iff_of_false nofun fun h => hnil h.1
  | cons c t ih =>
    rw [findFirst]
    split
    · rename_i hprefix
      rw [some_inj, eq_comm]
      refine ⟨fun ho => ⟨ho ▸ hprefix, by omega⟩, fun h => ?_⟩
      by_contra hne
      exact h.2 0 (by omega) hprefix
    · rename_i hprefix
      cases o with
      | zero =>
        refine iff_of_false (by simp) fun h => hprefix h.1
      | succ o =>
        rw [map_eq_some_iff]
        simp only [Nat.add_right_cancel_iff, exists_eq_right, ih]
        refine and_congr_right fun _ => ⟨fun h o' ho' => ?_, fun h o' ho' => h (o' + 1) (by omega)⟩
        cases o' with
        | zero => exact hprefix
        | succ o' => exact h o' (by omega)

theorem findFirst_eq_none_iff : findFirst query content = none ↔ ∀ o, ¬OccursAt content query o := by
  induction content with
  | nil => simp [findFirst, OccursAt]
  | cons c t ih =>
    rw [findFirst]
    split
    · rename_i hprefix
      exact iff_of_false nofun fun h => h 0 hprefix
    · rename_i hprefix
      rw [map_eq_none_iff, ih]
      refine ⟨fun h o => ?_, fun h o => h (o + 1)⟩
      cases o with
      | zero => exact hprefix
      | succ o => exact h o

theorem indexOf_eq_some_iff : indexOf content query start = some o ↔
    start ≤ o ∧ OccursAt content query o ∧ ∀ o', start ≤ o' → o' < o → ¬OccursAt content query o' := by
  rw [indexOf, map_eq_some_iff]
  simp only [findFirst_eq_some_iff, occursAt_drop]
  constructor
  · rintro ⟨n, ⟨hn, hfirst⟩, rfl⟩
    refine ⟨Nat.le_add_right .., hn, fun o' hle hlt => ?_⟩
    obtain ⟨m, rfl⟩ := Nat.exists_eq_add_of_le hle
    exact hfirst m (by omega)
  · rintro ⟨hle, ho, hfirst⟩
    obtain ⟨n, rfl⟩ := Nat.exists_eq_add_of_le hle
    exact ⟨n, ⟨ho, fun m hm => hfirst _ (by omega) (by omega)⟩, rfl⟩

theorem indexOf_eq_none_iff : indexOf content query start = none ↔ ∀ o, start ≤ o → ¬OccursAt content query o := by
  rw [indexOf, map_eq_none_iff, findFirst_eq_none_iff]
  simp only [occursAt_drop]
  refine ⟨fun h o hle => ?_, fun h n => h _ (Nat.le_add_right ..)⟩
  obtain ⟨n, rfl⟩ := Nat.exists_eq_add_of_le hle
  exact h n

/-! ## All places -/

/-- The loop. The first argument bounds its rounds. -/
def occurrencesFrom (content query : List α) : ℕ → ℕ → List ℕ
  | 0, _ => []
  | rounds + 1, start =>
    match indexOf content query start with
    | none => []
    | some o => o :: occurrencesFrom content query rounds (o + query.length)

def occurrences (content query : List α) : List ℕ := occurrencesFrom content query (content.length + 1) 0

theorem occurrencesFrom_spec {rounds : ℕ} (hquery : query ≠ []) (h : content.length < start + rounds) :
    Occurrences content query start (occurrencesFrom content query rounds start) := by
  have hpos := length_pos_iff.mpr hquery
  induction rounds generalizing start with
  | zero =>
    refine .none fun o hle ho => ?_
    have := ho.le hquery
    omega
  | succ rounds ih =>
    rw [occurrencesFrom]
    split
    · rename_i hnone
      exact .none (indexOf_eq_none_iff.mp hnone)
    · rename_i o hsome
      obtain ⟨hle, ho, hfirst⟩ := indexOf_eq_some_iff.mp hsome
      exact .next hle ho hfirst (ih (by omega))

/-- The loop ends by itself, and finds all places. -/
theorem occurrences_spec (hquery : query ≠ []) : Occurrences content query 0 (occurrences content query) :=
  occurrencesFrom_spec hquery (by omega)

theorem occurrences_eq_nil_iff (hquery : query ≠ []) : occurrences content query = [] ↔ ¬query <:+: content :=
  (occurrences_spec hquery).eq_nil_iff

end Ariad.Find
