import Ariad.Javascript.OrderedMap

/-!
# Queries over chunks of a list

A list that is too long for one statement is bound in chunks, and the rows are collected with a bound for each key.

* `chunksOf` — the chunks; `flatten_chunksOf`: together they are the list.
* `pushUpTo` — a loop that counts the rows of each key and leaves out those beyond a limit.
* `foldl_pushUpTo` — of each key it takes the first rows.
-/

namespace Ariad

open List

/-! ## Chunks -/

/-- `for (let i = 0; i < files.length; i += CHUNK) files.slice(i, i + CHUNK)` -/
def chunksOf {α : Type} (size : ℕ) (l : List α) : List (List α) :=
  (List.range ((l.length + size - 1) / size)).map fun i => (l.drop (i * size)).take size

variable {size : ℕ}

theorem length_chunk_le {α : Type} {l chunk : List α} (h : chunk ∈ chunksOf size l) : chunk.length ≤ size := by
  obtain ⟨i, -, rfl⟩ := mem_map.mp h
  exact length_take_le size _

theorem flatten_chunksOf {α : Type} (hsize : 0 < size) (l : List α) : (chunksOf size l).flatten = l := by
  have hprefix (n : ℕ) : ((List.range n).map fun i => (l.drop (i * size)).take size).flatten = l.take (n * size) := by
    induction n with
    | zero => simp
    | succ n ih =>
      rw [range_succ, map_append, flatten_append, ih, Nat.succ_mul, take_add]
      simp
  rw [chunksOf, hprefix]
  refine take_of_length_le ?_
  have hceil := Nat.lt_div_mul_add (a := l.length + size - 1) hsize
  omega

theorem mem_chunksOf {α : Type} (hsize : 0 < size) {l : List α} {a : α} :
    (∃ chunk ∈ chunksOf size l, a ∈ chunk) ↔ a ∈ l := by
  rw [← mem_flatten, flatten_chunksOf hsize]

/-- The number of chunks with an element. -/
def chunkCount {α : Type} [DecidableEq α] (size : ℕ) (l : List α) (a : α) : ℕ :=
  (chunksOf size l).countP fun chunk => a ∈ chunk

theorem chunkCount_pos {α : Type} [DecidableEq α] (hsize : 0 < size) {l : List α} {a : α} :
    0 < chunkCount size l a ↔ a ∈ l := by
  rw [chunkCount, countP_pos_iff, ← mem_chunksOf hsize]
  simp only [decide_eq_true_eq]

/-! ## Bounded pushes -/

namespace Rows

variable {ρ κ : Type} [DecidableEq κ]

/-- The row is pushed unless there are `limit` rows with its key. -/
def pushUpTo (key : ρ → κ) (limit : ℤ) (s : OrderedMap κ ℕ × List ρ) (r : ρ) : OrderedMap κ ℕ × List ρ :=
  let cnt := (s.1.get (key r)).getD 0
  if limit ≤ cnt then s else (s.1.set (key r) (cnt + 1), s.2 ++ [r])

variable (key : ρ → κ) (limit : ℤ)

theorem foldl_pushUpTo (rows : List ρ) (s : OrderedMap κ ℕ × List ρ) :
    ∃ new, (rows.foldl (pushUpTo key limit) s).2 = s.2 ++ new ∧ ∀ k, (new.filter fun r => key r = k) =
          (rows.filter fun r => key r = k).take (limit.toNat - (s.1.get k).getD 0) ∧
        ((rows.foldl (pushUpTo key limit) s).1.get k).getD 0 =
          (s.1.get k).getD 0 + (new.filter fun r => key r = k).length := by
  induction rows generalizing s with
  | nil => exact ⟨[], by simp, fun k => by simp⟩
  | cons r rows ih =>
    rw [foldl_cons]
    by_cases hfull : limit ≤ ((s.1.get (key r)).getD 0 : ℕ)
    · -- The key has its rows: this one and all later ones are left out.
      have hstep : pushUpTo key limit s r = s := if_pos hfull
      obtain ⟨new, hnew, hkeys⟩ := ih s
      refine ⟨new, by rw [hstep, hnew], fun k => ⟨?_, by rw [hstep]; exact (hkeys k).2⟩⟩
      rw [(hkeys k).1]
      by_cases hk : key r = k
      · have hzero : limit.toNat - (s.1.get k).getD 0 = 0 := by
          rw [← hk]
          omega
        rw [hzero, take_zero, take_zero]
      · rw [filter_cons_of_neg (by simpa using hk)]
    · have hstep : pushUpTo key limit s r = (s.1.set (key r) ((s.1.get (key r)).getD 0 + 1), s.2 ++ [r]) :=
        if_neg hfull
      obtain ⟨new, hnew, hkeys⟩ := ih (pushUpTo key limit s r)
      refine ⟨r :: new, by rw [hnew, hstep, append_assoc]; rfl, fun k => ?_⟩
      obtain ⟨hrows, hcount⟩ := hkeys k
      rw [hcount]
      rw [hstep, OrderedMap.get_set] at hrows ⊢
      by_cases hk : key r = k
      · subst hk
        rw [if_pos rfl, Option.getD_some] at hrows ⊢
        obtain ⟨n, hn⟩ : ∃ n, limit.toNat - (s.1.get (key r)).getD 0 = n + 1 :=
          ⟨limit.toNat - (s.1.get (key r)).getD 0 - 1, by omega⟩
        rw [filter_cons_of_pos (by simp), filter_cons_of_pos (by simp), hrows, hn, take_succ_cons,
          length_cons]
        exact ⟨by rw [show limit.toNat - ((s.1.get (key r)).getD 0 + 1) = n by omega], by omega⟩
      · rw [if_neg (Ne.symm hk)] at hrows ⊢
        rw [filter_cons_of_neg (by simpa using hk), filter_cons_of_neg (by simpa using hk)]
        exact ⟨hrows, rfl⟩

end Rows

end Ariad
