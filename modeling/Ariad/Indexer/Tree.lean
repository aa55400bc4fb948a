import Mathlib.Data.Set.Finite.Basic
import Ariad.Indexer.Discovery

/-!
# File trees

A static file tree, what a file system that shows it answers, and the files that discovery is to find
in it: those below the root that pass the skip policy, one path for each file and language.

* `FileTree` — the entries by their canonical paths; a link carries what it resolves to.
* `Shows` — the answers of a file system that shows the tree; directories may be listed in any order.
* `SourceDir`, `Source` — the directories and files that the policy lets through.
* `Exact` — one path per file identity and language, the smallest, in sorted order.
-/

namespace Ariad

open List

/-- What is at a canonical path. -/
inductive TreeEntry where
  | file (dev ino : ℕ)
  | directory (names : List FileName)
  /-- A symbolic link, with what `realpath` makes of it. -/
  | link (resolved : Except ErrnoCode AbsPath)
  | special

namespace TreeEntry

def kind : TreeEntry → FileKind
  | .file _ _ => .regular
  | .directory _ => .directory
  | .link _ => .symlink
  | .special => .special

/-- What a path that has been resolved can lead to. -/
def Canonical (e : TreeEntry) : Prop := ∀ r, e ≠ .link r

end TreeEntry

/-- A static, finite file tree. -/
structure FileTree where
  entry : AbsPath → Option TreeEntry
  finite : {p | (entry p).isSome}.Finite
  child : ∀ p n, (entry (p ++ [n])).isSome ↔ ∃ names, entry p = some (.directory names) ∧ n ∈ names
  resolved : ∀ p t, entry p = some (.link (.ok t)) → ∃ e, entry t = some e ∧ e.Canonical

/-- **The answers of a file system that shows the tree**, at any time. -/
structure Shows (fs : FileSystem) (tree : FileTree) : Prop where
  readdir : ∀ time p names, tree.entry p = some (.directory names) →
    ∃ l, fs.readdir time p = .ok l ∧ l.Perm names
  lstat : ∀ time p e, tree.entry p = some e → fs.lstat time p = .ok e.kind
  realpath : ∀ time p e, tree.entry p = some e → e.Canonical → fs.realpath time p = .ok p
  resolve : ∀ time p r, tree.entry p = some (.link r) → fs.realpath time p = r
  stat : ∀ time p e, tree.entry p = some e → e.Canonical →
    ∃ st, fs.stat time p = .ok st ∧ st.kind = e.kind ∧
      ∀ dev ino, e = .file dev ino → st.dev = dev ∧ st.ino = ino

/-- A file system that shows the tree. -/
def FileTree.fileSystem (tree : FileTree) : FileSystem where
  readdir := fun _ p =>
    match tree.entry p with
    | some (.directory names) => .ok names
    | _ => .error (.other "ENOTDIR")
  lstat := fun _ p =>
    match tree.entry p with
    | some e => .ok e.kind
    | none => .error .ENOENT
  realpath := fun _ p =>
    match tree.entry p with
    | some (.link r) => r
    | some _ => .ok p
    | none => .error .ENOENT
  stat := fun _ p =>
    match tree.entry p with
    | some (.file dev ino) => .ok ⟨.regular, dev, ino, 0, 0⟩
    | some e => .ok ⟨e.kind, 0, 0, 0, 0⟩
    | none => .error .ENOENT

theorem FileTree.shows (tree : FileTree) : Shows tree.fileSystem tree where
  readdir := fun _ p names h => ⟨names, by simp only [fileSystem, h], .refl _⟩
  lstat := fun _ p e h => by simp only [fileSystem, h]
  realpath := fun _ p e h hc => by
    simp only [fileSystem, h]
    cases e with
    | link r => exact absurd rfl (hc r)
    | _ => rfl
  resolve := fun _ p r h => by simp only [fileSystem, h]
  stat := fun _ p e h hc => by
    simp only [fileSystem, h]
    cases e with
    | file dev ino =>
      refine ⟨_, rfl, rfl, fun dev' ino' heq => ?_⟩
      cases heq
      exact ⟨rfl, rfl⟩
    | link r => exact absurd rfl (hc r)
    | directory names => exact ⟨_, rfl, rfl, fun _ _ h => by cases h⟩
    | special => exact ⟨_, rfl, rfl, fun _ _ h => by cases h⟩

section

variable (cfg : DiscoveryConfig) (tree : FileTree) (realRoot : AbsPath)

/-- A directory at or below the root, with no excluded name on the way. -/
structure SourceDir (d : AbsPath) : Prop where
  below : ∃ q, d = realRoot ++ q ∧ ∀ n ∈ q, shouldSkipDirectory cfg n.val = false
  directory : ∃ names, tree.entry d = some (.directory names)

/-- A regular file of a supported language in such a directory, whose name is not excluded. -/
structure Source (p : AbsPath) (language : String) : Prop where
  inDir : ∃ d n, p = d ++ [n] ∧ SourceDir cfg tree realRoot d
  file : ∃ dev ino, tree.entry p = some (.file dev ino)
  kept : shouldSkipFile cfg (basename p) = false
  language : detectLanguage cfg p = some language

/-- What makes two paths the same file: device and inode, or the path where these are zero. -/
def FileTree.identity (p : AbsPath) (language : String) : IdentityKey :=
  match tree.entry p with
  | some (.file dev ino) =>
    if dev = 0 ∧ ino = 0 then .path p language else .inode dev ino language
  | _ => .path p language

/-- **The files that discovery is to find**: the smallest path of every class, sorted. -/
structure Exact (files : List AbsPath) : Prop where
  sorted : files.Pairwise fun p q => pathLe p q = true ∧ p ≠ q
  mem : ∀ p, p ∈ files ↔ ∃ language, Source cfg tree realRoot p language ∧
    ∀ p', Source cfg tree realRoot p' language →
      tree.identity p' language = tree.identity p language → pathLe p p' = true

/-- A link with a name that is not excluded, whose resolution fails with a code that discovery does not
expect of a link. -/
def BadLink (p : AbsPath) : Prop :=
  shouldSkipDirectory cfg (basename p) = false ∧ ∃ code, tree.entry p = some (.link (.error code)) ∧
    code ≠ .ENOENT ∧ code ≠ .ELOOP ∧ denied cfg code = false

end

variable {cfg : DiscoveryConfig} {tree : FileTree} {realRoot : AbsPath}

/-- The language is part of the identity. -/
def IdentityKey.language : IdentityKey → String
  | .inode _ _ l => l
  | .path _ l => l

theorem FileTree.identity_language (p : AbsPath) (l : String) : (tree.identity p l).language = l := by
  unfold FileTree.identity
  split
  · split <;> rfl
  · rfl

theorem basename_append (d : AbsPath) (n : FileName) : basename (d ++ [n]) = n.val := by
  simp [basename]

/-- A name that is not excluded leads from one source directory to the next. -/
theorem SourceDir.child {d : AbsPath} (h : SourceDir cfg tree realRoot d) {n : FileName}
    {names : List FileName} (hentry : tree.entry (d ++ [n]) = some (.directory names))
    (hskip : shouldSkipDirectory cfg n.val = false) : SourceDir cfg tree realRoot (d ++ [n]) := by
  obtain ⟨q, rfl, hq⟩ := h.below
  refine ⟨⟨q ++ [n], append_assoc _ _ _, fun m hm => ?_⟩, ⟨names, hentry⟩⟩
  rcases mem_append.mp hm with hm | hm
  · exact hq m hm
  · rw [mem_singleton.mp hm]
    exact hskip

/-- Every source directory but the root is a child of another one. -/
theorem SourceDir.parent {q : AbsPath} {n : FileName}
    (h : SourceDir cfg tree realRoot (realRoot ++ q ++ [n])) :
    SourceDir cfg tree realRoot (realRoot ++ q) ∧ shouldSkipDirectory cfg n.val = false := by
  obtain ⟨⟨q', heq, hq'⟩, ⟨names, hentry⟩⟩ := h
  have hq : q' = q ++ [n] := append_cancel_left (heq.symm.trans (append_assoc _ _ _))
  subst hq
  obtain ⟨names', hparent, -⟩ := (tree.child (realRoot ++ q) n).mp (by rw [hentry]; rfl)
  exact ⟨⟨⟨q, rfl, fun m hm => hq' m (mem_append_left _ hm)⟩, ⟨names', hparent⟩⟩,
    hq' n (by simp)⟩

/-- The name of an entry is listed in its directory. -/
theorem FileTree.listed {d : AbsPath} {n : FileName} {e : TreeEntry}
    (h : tree.entry (d ++ [n]) = some e) :
    ∃ names, tree.entry d = some (.directory names) ∧ n ∈ names :=
  (tree.child d n).mp (by rw [h]; rfl)

/-- The language of a source file is detected from its name. -/
theorem Source.language_eq {p : AbsPath} {l l' : String} (h : Source cfg tree realRoot p l)
    (h' : Source cfg tree realRoot p l') : l = l' := by
  have heq := h.language
  rw [h'.language] at heq
  exact (Option.some.inj heq).symm

/-- A target inside the root with no skipped component is where the policy lets through. -/
theorem below_of_target {t : AbsPath} (hinside : isPathInside realRoot t = true)
    (hskip : hasSkippedComponent cfg realRoot t = false) :
    ∃ q, t = realRoot ++ q ∧ ∀ n ∈ q, shouldSkipDirectory cfg n.val = false := by
  obtain ⟨q, rfl⟩ := isPathInside_iff.mp hinside
  refine ⟨q, rfl, fun n hn => ?_⟩
  rw [hasSkippedComponent, relative_append, any_eq_false] at hskip
  exact Bool.eq_false_iff.mpr (hskip _ (mem_map_of_mem hn))

/-- A file that a link leads to is found without the link as well. -/
theorem source_of_target {t : AbsPath} {language : String} {dev ino : ℕ}
    (hroot : ∃ names, tree.entry realRoot = some (.directory names))
    (hinside : isPathInside realRoot t = true) (hskip : hasSkippedComponent cfg realRoot t = false)
    (hentry : tree.entry t = some (.file dev ino)) (hkept : shouldSkipFile cfg (basename t) = false)
    (hlang : detectLanguage cfg t = some language) : Source cfg tree realRoot t language := by
  obtain ⟨q, rfl, hq⟩ := below_of_target hinside hskip
  rcases eq_nil_or_concat' q with rfl | ⟨q', n, rfl⟩
  · obtain ⟨names, hroot⟩ := hroot
    rw [append_nil, hroot] at hentry
    cases hentry
  · rw [← append_assoc] at hentry hkept hlang ⊢
    obtain ⟨names, hparent, -⟩ := FileTree.listed hentry
    exact ⟨⟨_, n, rfl, ⟨q', rfl, fun m hm => hq m (mem_append_left _ hm)⟩, ⟨names, hparent⟩⟩,
      ⟨dev, ino, hentry⟩, hkept, hlang⟩

end Ariad
