import Mathlib.Data.List.Infix

/-!
# A disk with symbolic links

* `Disk` — a tree of files, directories and symbolic links. A location is a list of names below the
  root of the disk, and it is not followed through links: it says where an entry lies.
* `Disk.resolve` — how the operating system finds the location that a path leads to, for reading or for
  creating a file there. Links may be chained, dangle and go in circles; a limit on how many are followed
  ends every circle.
* `Disk.Hard` — a location that every path resolution reaches as it stands.
-/

namespace Ariad

open List

/-- The names from the root of the disk down to an entry. -/
abbrev Location (ν : Type) := List ν

/-- A part of the text of a link. Empty parts and `.` are left out. -/
inductive LinkPart (ν : Type) where
  | name (n : ν)
  | up
  deriving DecidableEq

/-- The text of a symbolic link. -/
structure LinkText (ν : Type) where
  absolute : Bool
  parts : List (LinkPart ν)
  deriving DecidableEq

inductive DiskEntry (ν : Type) where
  | file
  | directory
  | symlink (text : LinkText ν)
  deriving DecidableEq

inductive DiskError where
  | ENOENT
  | ENOTDIR
  | ELOOP
  | EEXIST
  | EISDIR
  deriving DecidableEq, Repr

/-- What lies where. Entries lie in directories. -/
structure Disk (ν : Type) where
  entry : Location ν → Option (DiskEntry ν)
  root : entry [] = some .directory
  parent : ∀ p n, entry (p ++ [n]) ≠ none → entry p = some .directory

namespace Disk

variable {ν : Type} (d : Disk ν)

/-- The disk with the listed entries below its root. -/
def ofEntries [DecidableEq ν] (entries : List (Location ν × DiskEntry ν))
    (h : ∀ e ∈ entries, e.1 ≠ [] ∧ (e.1.dropLast = [] ∨
      (e.1.dropLast ≠ [] ∧ entries.lookup e.1.dropLast = some .directory))) : Disk ν where
  entry p := if p = [] then some .directory else entries.lookup p
  root := rfl
  parent := by
    intro p n hne
    have hne' : entries.lookup (p ++ [n]) ≠ none := by simpa using hne
    obtain ⟨e, he⟩ := Option.ne_none_iff_exists'.mp hne'
    have hmem : (p ++ [n], e) ∈ entries := by
      clear h hne hne'
      induction entries with
      | nil => cases he
      | cons x xs ih =>
        rw [List.lookup_cons] at he
        split at he
        · rename_i heq
          obtain rfl := Option.some.inj he
          rw [beq_iff_eq.mp heq]
          exact List.mem_cons_self
        · exact List.mem_cons_of_mem _ (ih he)
    have hp := (h _ hmem).2
    rw [List.dropLast_concat] at hp
    rcases hp with rfl | ⟨hpne, hp⟩
    · rfl
    · rwa [if_neg hpne]

/-! ## Path resolution -/

/-- Resolution up to the next link. -/
inductive Leg (ν : Type) where
  | done (r : Except DiskError (Location ν))
  /-- A link was met: its text is put in front of what is left. -/
  | follow (cur : Location ν) (todo : List (LinkPart ν))

/-- Go down from a location. With `create` the last name may be missing: a file is made there. -/
def advance (create : Bool) : Location ν → List (LinkPart ν) → Leg ν
  | cur, [] => .done (.ok cur)
  | cur, .up :: rest =>
    match d.entry cur with
    | some .directory => advance create cur.dropLast rest
    | _ => .done (.error .ENOTDIR)
  | cur, .name n :: rest =>
    match d.entry cur with
    | some .directory =>
      match d.entry (cur ++ [n]) with
      | none => .done (if create && rest.isEmpty then .ok (cur ++ [n]) else .error .ENOENT)
      | some (.symlink l) => .follow (if l.absolute then [] else cur) (l.parts ++ rest)
      | some _ => advance create (cur ++ [n]) rest
    | _ => .done (.error .ENOTDIR)

/-- The location that a path leads to from `cur`, through at most `links` links. -/
def resolve (create : Bool) (links : ℕ) (cur : Location ν) (todo : List (LinkPart ν)) :
    Except DiskError (Location ν) :=
  match d.advance create cur todo with
  | .done r => r
  | .follow cur' todo' =>
    match links with
    | 0 => .error .ELOOP
    | links + 1 => resolve create links cur' todo'

variable {p : Location ν} {create : Bool} {links : ℕ}

theorem resolve_of_done {cur : Location ν} {todo : List (LinkPart ν)}
    {r : Except DiskError (Location ν)} (h : d.advance create cur todo = .done r) :
    d.resolve create links cur todo = r := by
  unfold resolve
  rw [h]

theorem resolve_congr {cur cur' : Location ν}
    {todo todo' : List (LinkPart ν)} (h : d.advance create cur todo = d.advance create cur' todo') :
    d.resolve create links cur todo = d.resolve create links cur' todo' := by
  unfold resolve
  rw [h]

/-- The names of a location as the parts of a path. -/
def parts (p : Location ν) : List (LinkPart ν) := p.map .name

variable {d}

/-! ## Hard locations -/

/-- An entry is there that is not a link. -/
def Solid (d : Disk ν) (p : Location ν) : Prop :=
  d.entry p = some .file ∨ d.entry p = some .directory

/-- Neither the entry nor any directory above it is a link. -/
def Hard (d : Disk ν) (p : Location ν) : Prop := ∀ q, q <+: p → d.Solid q

theorem hard_nil : d.Hard [] := by
  intro q hq
  rw [prefix_nil.mp hq]
  exact .inr d.root

theorem Hard.of_prefix {p q : Location ν} (h : d.Hard p) (hq : q <+: p) : d.Hard q :=
  fun r hr => h r (hr.trans hq)

theorem Hard.concat {n : ν} (h : d.Hard p) (hs : d.Solid (p ++ [n])) : d.Hard (p ++ [n]) := by
  intro q hq
  rcases prefix_concat_iff.mp hq with rfl | hq
  · exact hs
  · exact h q hq

theorem entry_of_child {n : ν} (h : d.entry (p ++ [n]) ≠ none) : d.entry p = some .directory :=
  d.parent p n h

theorem Solid.ne_none (h : d.Solid p) : d.entry p ≠ none := by
  rcases h with h | h <;> simp [h]

/-- What lies above an entry is a directory. -/
theorem Hard.directory {p q : Location ν} (h : d.Hard p) (hq : q <+: p) (hne : q ≠ p) :
    d.entry q = some .directory := by
  obtain ⟨t, rfl⟩ := hq
  cases t with
  | nil => exact absurd (append_nil q).symm hne
  | cons n t =>
    have hc : q ++ [n] <+: q ++ n :: t := ⟨t, by simp⟩
    exact entry_of_child (h _ hc).ne_none

/-- Going down a hard location meets no link. -/
theorem advance_hard (create : Bool) (cur : Location ν) (todo : List (LinkPart ν))
    (h : d.Hard (cur ++ p)) : d.advance create cur (parts p ++ todo) = d.advance create (cur ++ p) todo := by
  induction p generalizing cur with
  | nil => simp [parts]
  | cons n p ih =>
    have hdir : d.entry cur = some .directory := h.directory ⟨n :: p, rfl⟩ (by simp)
    have hsolid : d.Solid (cur ++ [n]) := h _ ⟨p, by simp⟩
    have ih' := ih (cur ++ [n]) (by simpa using h)
    simp only [parts, map_cons, cons_append, advance, hdir] at ih' ⊢
    rcases hsolid with hs | hs
    · simpa [hs] using ih'
    · simpa [hs] using ih'

/-- **A hard location is reached as it stands.** -/
theorem resolve_hard (h : d.Hard p) : d.resolve create links [] (parts p) = .ok p := by
  have := advance_hard create [] [] (by simpa using h)
  rw [append_nil, nil_append] at this
  exact resolve_of_done d (this.trans (by rw [advance]))

/-- Resolution of a path with a hard beginning goes on from there. -/
theorem resolve_append {todo : List (LinkPart ν)}
    (h : d.Hard p) : d.resolve create links [] (parts p ++ todo) = d.resolve create links p todo := by
  have := advance_hard create [] todo (by simpa using h)
  rw [nil_append] at this
  exact resolve_congr d this

end Disk

end Ariad
