import Mathlib.Data.List.Perm.Basic
import Ariad.Relational.Rows

/-!
# A table that is derived from another

A table holds one entry for each row of another table, in any order. Triggers keep it up to date: an entry
for a new row is added, and the entry of the old row is taken out.

* `Derived` — the entries are those of the rows.
* `Derived.insert`, `Derived.update`, `Derived.delete` — what the triggers do keeps that.
-/

namespace Ariad.Rows

open List

variable {ρ κ β : Type} {key : ρ → κ} {entry : ρ → β} {rows : List ρ} {table : List β} {k : κ} {r : ρ}

/-- The table holds the entries of the rows. -/
def Derived (entry : ρ → β) (rows : List ρ) (table : List β) : Prop := table ~ rows.map entry

theorem Derived.mem_iff (h : Derived entry rows table) {e : β} : e ∈ table ↔ ∃ r ∈ rows, entry r = e := by
  rw [Perm.mem_iff h, mem_map]

theorem Derived.insert (h : Derived entry rows table) (r : ρ) :
    Derived entry (rows ++ [r]) (table ++ [entry r]) := by
  rw [Derived, map_append, map_singleton]
  exact h.append_right [entry r]

/-- The row of a key, and the rows around it. -/
theorem exists_around (hkey : (rows.map key).Nodup) (hr : r ∈ rows) :
    ∃ before behind, rows = before ++ r :: behind ∧
      ∀ s, s ∈ before ∨ s ∈ behind → key s ≠ key r := by
  obtain ⟨before, behind, rfl⟩ := append_of_mem hr
  rw [map_append, map_cons, nodup_middle, nodup_cons, mem_append] at hkey
  refine ⟨before, behind, rfl, ?_⟩
  rintro s (hs | hs) heq
  · exact hkey.1 (.inl (mem_map.mpr ⟨s, hs, heq⟩))
  · exact hkey.1 (.inr (mem_map.mpr ⟨s, hs, heq⟩))

variable [DecidableEq κ] [BEq β] [LawfulBEq β]

theorem Derived.update (h : Derived entry rows table) (hkey : (rows.map key).Nodup) (hr : r ∈ rows)
    (f : ρ → ρ) :
    Derived entry (modify key (key r) f rows) (table.erase (entry r) ++ [entry (f r)]) := by
  obtain ⟨before, behind, rfl, hne⟩ := exists_around hkey hr
  have hid (l : List ρ) (hl : ∀ s ∈ l, key s ≠ key r) : modify key (key r) f l = l :=
    modify_eq_self fun s hs hk => absurd hk (hl s hs)
  have hmod : modify key (key r) f (before ++ r :: behind) = before ++ f r :: behind := by
    have hb := hid before fun s hs => hne s (.inl hs)
    have hd := hid behind fun s hs => hne s (.inr hs)
    rw [modify] at hb hd ⊢
    rw [map_append, map_cons, hb, hd, if_pos rfl]
  have hout : table.erase (entry r) ~ (before ++ behind).map entry := by
    have hmiddle : (before ++ r :: behind).map entry ~ entry r :: (before ++ behind).map entry := by
      rw [map_append, map_cons, map_append]
      exact perm_middle
    simpa using (h.trans hmiddle).erase (entry r)
  rw [Derived, hmod]
  calc table.erase (entry r) ++ [entry (f r)]
      ~ (before ++ behind).map entry ++ [entry (f r)] := hout.append_right _
    _ ~ entry (f r) :: (before ++ behind).map entry := perm_append_singleton _ _
    _ ~ (before ++ f r :: behind).map entry := by
      rw [map_append, map_append, map_cons]
      exact perm_middle.symm

theorem Derived.delete (h : Derived entry rows table) (hkey : (rows.map key).Nodup) (hr : r ∈ rows) :
    Derived entry (rows.filter fun s => key s ≠ key r) (table.erase (entry r)) := by
  obtain ⟨before, behind, rfl, hne⟩ := exists_around hkey hr
  have hid (l : List ρ) (hl : ∀ s ∈ l, key s ≠ key r) : l.filter (fun s => key s ≠ key r) = l := by
    rw [filter_eq_self]
    exact fun s hs => decide_eq_true (hl s hs)
  have hfilter : (before ++ r :: behind).filter (fun s => key s ≠ key r) = before ++ behind := by
    rw [filter_append, filter_cons_of_neg (by simp), hid before fun s hs => hne s (.inl hs),
      hid behind fun s hs => hne s (.inr hs)]
  have hmiddle : (before ++ r :: behind).map entry ~ entry r :: (before ++ behind).map entry := by
    rw [map_append, map_cons, map_append]
    exact perm_middle
  rw [Derived, hfilter]
  simpa using (h.trans hmiddle).erase (entry r)

end Ariad.Rows
