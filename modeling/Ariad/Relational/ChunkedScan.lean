import Ariad.Relational.Keyset

/-!
# Scans in chunks

A generator that reads a table in chunks: every query asks for the first rows behind a cursor, and the cursor
is read off the rows that it yields.

* `chunk` — the first rows whose key is greater than a bound; none if the bound is NULL.
* `iterate` — the generator. The number counts the queries it may still make.
* `iterate_all` — with the key for a cursor it yields every row once, in order, and then stops.
* `iterate_first` — with a cursor that is not there it stops behind the first chunk.
-/

namespace Ariad.Keyset

open List Option

variable {α β σ : Type}

/-! ## The generator -/

/-- `WHERE key > ? ORDER BY key LIMIT ?`. No key is greater than NULL. -/
def chunk [LinearOrder β] (key : α → β) (limit : ℕ) (l : List α) (last : Option β) : List α :=
  (orderBy key (l.filter fun a => decide (∃ b ∈ last, b < key a))).take limit

/-- Queries until one finds nothing. Each row that is yielded moves the cursor. -/
def iterate (fetch : Option β → List σ) (cursor : σ → Option β) : ℕ → Option β → Option (List σ)
  | 0, _ => none
  | queries + 1, last =>
    match fetch last with
    | [] => some []
    | row :: rows =>
      (iterate fetch cursor queries ((row :: rows).foldl (fun _ r => cursor r) last)).map (row :: rows ++ ·)

variable {fetch : Option β → List σ} {cursor : σ → Option β}

variable {last : Option β}

theorem iterate_of_nil (h : fetch last = []) (queries : ℕ) : iterate fetch cursor (queries + 1) last = some [] := by
  simp only [iterate, h]

theorem iterate_of_concat {rows : List σ} {row : σ} (h : fetch last = rows ++ [row])
    (queries : ℕ) : iterate fetch cursor (queries + 1) last =
      (iterate fetch cursor queries (cursor row)).map (rows ++ [row] ++ ·) := by
  obtain ⟨r, rs, hcons⟩ := exists_cons_of_ne_nil (append_ne_nil_of_right_ne_nil rows (cons_ne_nil row []))
  have hlast : (r :: rs).foldl (fun _ r => cursor r) last = cursor row := by
    rw [← hcons, foldl_append, foldl_cons, foldl_nil]
  simp only [iterate, h, hcons, hlast]

/-- More queries than needed change nothing. -/
theorem iterate_mono {n m : ℕ} (hnm : n ≤ m) {l : List σ} (h : iterate fetch cursor n last = some l) :
    iterate fetch cursor m last = some l := by
  induction n generalizing m last l with
  | zero => cases h
  | succ n ih =>
    obtain ⟨m, rfl⟩ := Nat.exists_eq_add_of_le' (Nat.le_of_add_left_le hnm)
    rcases eq_nil_or_concat' (fetch last) with hnil | ⟨rows, row, hconcat⟩
    · rw [iterate_of_nil hnil] at h ⊢
      exact h
    · rw [iterate_of_concat hconcat, map_eq_some_iff] at h ⊢
      obtain ⟨rest, hrest, hl⟩ := h
      exact ⟨rest, ih (by omega) hrest, hl⟩

theorem iterate_unique {n m : ℕ} {l l' : List σ} (h : iterate fetch cursor n last = some l)
    (h' : iterate fetch cursor m last = some l') : l = l' := by
  have := iterate_mono (Nat.le_max_left n m) h
  rw [iterate_mono (Nat.le_max_right n m) h'] at this
  exact (Option.some.inj this).symm

/-! ## Chunks of a table -/

section Table

variable [LinearOrder β] {key : α → β} {limit : ℕ} {l : List α} {columns : α → σ}

@[simp] theorem chunk_none : chunk key limit l none = [] := by
  simp [chunk, orderBy, sortBy]

theorem chunk_some (h : (l.map key).Nodup) (b : β) :
    chunk key limit l (some b) = ((orderBy key l).filter fun a => decide (b < key a)).take limit := by
  simp only [chunk, mem_some_iff, exists_eq_left', orderBy_filter h]

/-- The rows behind the cursor are the ones still to come. -/
theorem iterate_behind (h : (l.map key).Nodup) (hlimit : 0 < limit)
    (hcursor : ∀ a ∈ l, cursor (columns a) = some (key a)) {pre suf : List α} {b : β}
    (hsplit : orderBy key l = pre ++ suf) (hbehind : (orderBy key l).filter (fun a => decide (b < key a)) = suf) :
    ∃ queries, iterate (fun last => (chunk key limit l last).map columns) cursor queries (some b) =
      some (suf.map columns) := by
  induction hn : suf.length using Nat.strong_induction_on generalizing pre suf b with
  | _ n ih =>
    have hchunk : (chunk key limit l (some b)).map columns = (suf.take limit).map columns := by
      rw [chunk_some h, hbehind]
    rcases eq_nil_or_concat' (suf.take limit) with hnil | ⟨rows, a, hconcat⟩
    · rw [hnil] at hchunk
      obtain rfl : suf = [] := (take_eq_nil_iff.mp hnil).resolve_left (Nat.ne_of_gt hlimit)
      exact ⟨1, iterate_of_nil hchunk 0⟩
    · have hsuf : suf = rows ++ [a] ++ suf.drop limit := by rw [← hconcat, take_append_drop]
      have hall : orderBy key l = (pre ++ rows) ++ [a] ++ suf.drop limit := by
        rw [hsplit, append_assoc, append_assoc, ← append_assoc rows, ← hsuf]
      have hmem : a ∈ orderBy key l := by
        rw [hall]
        simp
      have hrest : (orderBy key l).filter (fun c => decide (key a < key c)) = suf.drop limit := by
        rw [hall]
        exact filter_append_of_pairwise (hall ▸ pairwise_lt_orderBy h)
      have hshorter : (suf.drop limit).length < n := by
        have := congrArg List.length hsuf
        simp only [length_append, length_singleton] at this
        omega
      obtain ⟨queries, hqueries⟩ := ih _ hshorter hall hrest rfl
      rw [hconcat, map_append, map_singleton] at hchunk
      refine ⟨queries + 1, ?_⟩
      rw [iterate_of_concat hchunk, hcursor a (mem_orderBy.mp hmem), hqueries, map_some, ← map_singleton, ← map_append,
        ← map_append, ← hsuf]

/-- **A cursor that carries the key reaches every row.** -/
theorem iterate_all (h : (l.map key).Nodup) (hlimit : 0 < limit) (hcursor : ∀ a ∈ l, cursor (columns a) = some (key a))
    {start : β} (hstart : ∀ a ∈ l, start < key a) :
    ∃ queries, iterate (fun last => (chunk key limit l last).map columns) cursor queries (some start) =
      some ((orderBy key l).map columns) :=
  iterate_behind h hlimit hcursor (nil_append _).symm
    (filter_eq_self.mpr fun a ha => decide_eq_true (hstart a (mem_orderBy.mp ha)))

/-- **Without a cursor only the first chunk is read.** -/
theorem iterate_first (h : (l.map key).Nodup) (hcursor : ∀ a ∈ l, cursor (columns a) = none) {start : β}
    (hstart : ∀ a ∈ l, start < key a) (queries : ℕ) :
    iterate (fun last => (chunk key limit l last).map columns) cursor (queries + 2) (some start) =
      some (((orderBy key l).take limit).map columns) := by
  have hchunk : chunk key limit l (some start) = (orderBy key l).take limit := by
    rw [chunk_some h, filter_eq_self.mpr fun a ha => decide_eq_true (hstart a (mem_orderBy.mp ha))]
  rcases eq_nil_or_concat' ((orderBy key l).take limit) with hnil | ⟨rows, a, hconcat⟩
  · rw [iterate_of_nil (by rw [hchunk, hnil]; rfl), hnil, map_nil]
  · have htake : a ∈ (orderBy key l).take limit := hconcat ▸ mem_append_right rows (mem_singleton_self a)
    have ha : a ∈ l := mem_orderBy.mp (take_subset _ _ htake)
    have hfetch : (chunk key limit l (some start)).map columns = rows.map columns ++ [columns a] := by
      rw [hchunk, hconcat, map_append, map_singleton]
    rw [iterate_of_concat hfetch, hcursor a ha, iterate_of_nil (by rw [chunk_none, map_nil]), map_some,
      append_nil, hconcat, map_append, map_singleton]

end Table

end Ariad.Keyset
