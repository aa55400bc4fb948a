import Mathlib.Data.List.Lex
import Mathlib.Data.List.Basic
import Mathlib.Order.Lattice
import Ariad.Javascript.Text

/-!
# Paths

Absolute paths by their components, relative paths as `path.relative` computes them, and the order in
which JavaScript sorts path strings.

* `FileName` — a name that a directory can list.
* `AbsPath` — the names from the root of the file system down.
* `RelPath` — a path relative to the root of the project; leading `..` when it lies outside.
* `codeUnits` — the path string in UTF-16, which decides the order. It determines the path
  (`codeUnits_injective`).
-/

namespace Ariad

open List

/-- A name that a directory can list. -/
abbrev FileName := { name : String // name ≠ "" ∧ name ≠ "." ∧ name ≠ ".." ∧ '/' ∉ name.toList }

/-- An absolute path. -/
abbrev AbsPath := List FileName

/-- A path relative to the root of the project. -/
abbrev RelPath := List String

instance : LawfulBEq RelPath := inferInstance

/-! ## Relative paths -/

/-- `path.relative`. -/
def relative : AbsPath → AbsPath → RelPath
  | [], dst => dst.map Subtype.val
  | src, [] => src.map fun _ => ".."
  | a :: src, b :: dst =>
    if a = b then relative src dst
    else ((a :: src).map fun _ => "..") ++ (b :: dst).map Subtype.val

/-- The path of something below the root. -/
theorem relative_append (root p : AbsPath) : relative root (root ++ p) = p.map Subtype.val := by
  induction root with
  | nil => cases p <;> rfl
  | cons a root ih =>
    show (if a = a then relative root (root ++ p) else _) = _
    rw [if_pos rfl, ih]

/-- `isPathInside`: the relative path does not start with `..`. -/
def isPathInside (root candidate : AbsPath) : Bool :=
  (relative root candidate).head? ≠ some ".."

theorem isPathInside_iff {root p : AbsPath} : isPathInside root p = true ↔ root <+: p := by
  rw [isPathInside, decide_eq_true_iff]
  constructor
  · intro h
    induction root generalizing p with
    | nil => exact nil_prefix
    | cons a root ih =>
      cases p with
      | nil => exact absurd rfl h
      | cons b p =>
        by_cases hab : a = b
        · rw [relative, if_pos hab] at h
          rw [hab]
          exact (prefix_cons_inj b).mpr (ih h)
        · rw [relative, if_neg hab] at h
          exact absurd rfl h
  · rintro ⟨q, rfl⟩
    rw [relative_append]
    cases q with
    | nil => simp
    | cons b q =>
      simp only [map_cons, head?_cons, ne_eq, Option.some.injEq]
      exact b.2.2.2.1

/-! ## The order of path strings -/

/-- The UTF-16 code units of a path string. -/
def codeUnits (p : AbsPath) : List ℕ :=
  p.flatMap fun name => 47 :: name.val.toList.flatMap utf16

/-- The code units of a character say where it ends. -/
theorem utf16_append_inj {c d : Char} {l l' : List ℕ} (h : utf16 c ++ l = utf16 d ++ l') :
    c = d ∧ l = l' := by
  have hc := c.valid
  have hd := d.valid
  have hne : c.toNat = d.toNat → c = d := fun h => Char.toNat_inj.mp h
  simp only [UInt32.isValidChar, Nat.isValidChar] at hc hd
  have hcn : c.toNat = c.val.toNat := rfl
  have hdn : d.toNat = d.val.toNat := rfl
  simp only [utf16] at h
  split at h <;> split at h <;> simp only [cons_append, nil_append, List.cons.injEq] at h
  · exact ⟨hne h.1, h.2⟩
  · omega
  · omega
  · exact ⟨hne (by omega), h.2.2⟩

theorem forty_seven_notMem_utf16 {c : Char} (h : c ≠ '/') : 47 ∉ utf16 c := by
  intro hmem
  simp only [utf16] at hmem
  split at hmem
  · rw [mem_singleton] at hmem
    exact h (Char.toNat_inj.mp hmem.symm)
  · simp only [mem_cons, not_mem_nil, or_false] at hmem
    omega

/-- A name ends where the next slash or the end of the string is. -/
theorem name_append_inj {s t : List Char} {l l' : List ℕ} (hs : '/' ∉ s) (ht : '/' ∉ t)
    (hl : l.head? = none ∨ l.head? = some 47) (hl' : l'.head? = none ∨ l'.head? = some 47)
    (h : s.flatMap utf16 ++ l = t.flatMap utf16 ++ l') : s = t ∧ l = l' := by
  have hstart : ∀ (c : Char) (m n : List ℕ), c ≠ '/' → (n.head? = none ∨ n.head? = some 47) →
      utf16 c ++ m ≠ n := by
    rintro c m n hc hn rfl
    have hmem := forty_seven_notMem_utf16 hc
    have hne : utf16 c ≠ [] := by
      unfold utf16
      split <;> simp
    obtain ⟨x, xs, hx⟩ := exists_cons_of_ne_nil hne
    rw [hx] at hn hmem
    rcases hn with hn | hn
    · cases hn
    · cases hn
      exact hmem mem_cons_self
  induction s generalizing t with
  | nil =>
    cases t with
    | nil => exact ⟨rfl, h⟩
    | cons d t =>
      rw [flatMap_cons, append_assoc] at h
      exact absurd h.symm (hstart d _ l (fun hd => ht (hd ▸ mem_cons_self)) hl)
  | cons c s ih =>
    have hc : c ≠ '/' := fun hc => hs (hc ▸ mem_cons_self)
    cases t with
    | nil =>
      rw [flatMap_cons, append_assoc] at h
      exact absurd h (hstart c _ l' hc hl')
    | cons d t =>
      rw [flatMap_cons, flatMap_cons, append_assoc, append_assoc] at h
      obtain ⟨rfl, hrest⟩ := utf16_append_inj h
      obtain ⟨rfl, heq⟩ := ih (fun hm => hs (mem_cons_of_mem _ hm))
        (fun hm => ht (mem_cons_of_mem _ hm)) hrest
      exact ⟨rfl, heq⟩

/-- **A path string determines the path.** -/
theorem codeUnits_injective : Function.Injective codeUnits := by
  have hhead : ∀ p : AbsPath, (codeUnits p).head? = none ∨ (codeUnits p).head? = some 47 := by
    rintro (_ | ⟨name, p⟩)
    · exact .inl rfl
    · exact .inr rfl
  intro p
  induction p with
  | nil =>
    rintro (_ | ⟨name, q⟩) h
    · rfl
    · cases h
  | cons name p ih =>
    rintro (_ | ⟨name', q⟩) h
    · cases h
    · have htail : name.val.toList.flatMap utf16 ++ codeUnits p =
          name'.val.toList.flatMap utf16 ++ codeUnits q := (List.cons.inj h).2
      obtain ⟨hname, hrest⟩ := name_append_inj name.2.2.2.2 name'.2.2.2.2 (hhead p) (hhead q) htail
      rw [Subtype.ext (String.toList_inj.mp hname), ih hrest]

/-- The path string of one is before that of the other, or the same. -/
def pathLe (p q : AbsPath) : Bool := codeUnits p ≤ codeUnits q

theorem pathLe_iff {p q : AbsPath} : pathLe p q = true ↔ codeUnits p ≤ codeUnits q :=
  decide_eq_true_iff

theorem pathLe_refl (p : AbsPath) : pathLe p p = true := pathLe_iff.mpr le_rfl

theorem pathLe_trans {p q r : AbsPath} (h₁ : pathLe p q = true) (h₂ : pathLe q r = true) :
    pathLe p r = true :=
  pathLe_iff.mpr ((pathLe_iff.mp h₁).trans (pathLe_iff.mp h₂))

theorem pathLe_total (p q : AbsPath) : pathLe p q = true ∨ pathLe q p = true := by
  rw [pathLe_iff, pathLe_iff]
  exact le_total _ _

theorem pathLe_antisymm {p q : AbsPath} (h₁ : pathLe p q = true) (h₂ : pathLe q p = true) : p = q :=
  codeUnits_injective (le_antisymm (pathLe_iff.mp h₁) (pathLe_iff.mp h₂))

end Ariad
