import Ariad.Indexer.Exactness

/-!
# A quiet discovery

In a static, readable tree all of whose links resolve, the walk meets nothing that it would have to
hold back: no call fails, so nothing is uncertain and no alias is broken.
-/

namespace Ariad

variable {cfg : DiscoveryConfig} {fs : FileSystem} {tree : FileTree} {realRoot : AbsPath}
  {s s' : Discovery}

namespace Discovery

/-- Nothing is uncertain and no alias is broken. -/
structure Quiet (s : Discovery) : Prop where
  errors : s.errors = []
  uncertainPaths : s.uncertainPaths = []
  uncertainSubtrees : s.uncertainSubtrees = []
  brokenAliases : s.brokenAliases = []

/-- A step that adds to none of these. -/
structure Undisturbed (s s' : Discovery) : Prop where
  errors : s'.errors = s.errors
  uncertainPaths : s'.uncertainPaths = s.uncertainPaths
  uncertainSubtrees : s'.uncertainSubtrees = s.uncertainSubtrees
  brokenAliases : s'.brokenAliases = s.brokenAliases

namespace Undisturbed

theorem refl (s : Discovery) : Undisturbed s s := ⟨rfl, rfl, rfl, rfl⟩

theorem trans {s₁ s₂ s₃ : Discovery} (h₁ : Undisturbed s₁ s₂) (h₂ : Undisturbed s₂ s₃) :
    Undisturbed s₁ s₃ :=
  ⟨h₂.errors.trans h₁.errors, h₂.uncertainPaths.trans h₁.uncertainPaths,
    h₂.uncertainSubtrees.trans h₁.uncertainSubtrees, h₂.brokenAliases.trans h₁.brokenAliases⟩

/-- `trans`, with the last step first. -/
theorem after {s₁ s₂ s₃ : Discovery} (h₂ : Undisturbed s₂ s₃) (h₁ : Undisturbed s₁ s₂) :
    Undisturbed s₁ s₃ := h₁.trans h₂

theorem quiet (h : Undisturbed s s') (hs : s.Quiet) : s'.Quiet :=
  ⟨h.errors.trans hs.errors, h.uncertainPaths.trans hs.uncertainPaths,
    h.uncertainSubtrees.trans hs.uncertainSubtrees, h.brokenAliases.trans hs.brokenAliases⟩

theorem addFileCandidate (i : IdentityKey) (p : AbsPath) : Undisturbed s (s.addFileCandidate i p) := by
  unfold Discovery.addFileCandidate
  split
  · exact ⟨rfl, rfl, rfl, rfl⟩
  · split <;> exact ⟨rfl, rfl, rfl, rfl⟩

theorem pushDirectory (p : AbsPath) : Undisturbed s (s.pushDirectory p) := by
  unfold Discovery.pushDirectory
  split <;> exact ⟨rfl, rfl, rfl, rfl⟩

section

variable (hfs : Shows fs tree)
include hfs

/-- A file that is there has an identity. -/
theorem fileIdentityWithStat {p : AbsPath} {dev ino : ℕ}
    (hp : tree.entry p = some (.file dev ino)) (language : String) : ∃ i st s',
    Discovery.fileIdentityWithStat fs p language s = (some (i, some st), s') ∧ Undisturbed s s' := by
  have hcanonical : (TreeEntry.file dev ino).Canonical := fun _ => by simp
  obtain ⟨st, hst, -, -⟩ := hfs.stat s.time p _ hp hcanonical
  simp only [Discovery.fileIdentityWithStat, hst]
  split
  · rw [hfs.realpath _ p _ hp hcanonical]
    exact ⟨_, _, _, rfl, ⟨rfl, rfl, rfl, rfl⟩⟩
  · exact ⟨_, _, _, rfl, ⟨rfl, rfl, rfl, rfl⟩⟩

theorem addFile {p : AbsPath} {dev ino : ℕ}
    (hp : tree.entry p = some (.file dev ino)) (language : String) :
    Undisturbed s (s.addFile fs realRoot p language) := by
  obtain ⟨i, st, s', hid, hs'⟩ := fileIdentityWithStat (s := s) hfs hp language
  rw [Discovery.addFile, hid]
  have hstat : Undisturbed s' { s' with fileStats := s'.fileStats.insert p st } :=
    ⟨rfl, rfl, rfl, rfl⟩
  exact (hs'.trans hstat).trans (addFileCandidate _ _)

theorem visitTarget {p t : AbsPath} {e : TreeEntry} (ht : tree.entry t = some e)
    (hcanonical : e.Canonical) : Undisturbed s (s.visitTarget cfg fs realRoot p t) := by
  obtain ⟨st, hst, hkind, -⟩ := hfs.stat s.time t e ht hcanonical
  simp only [Discovery.visitTarget, hst, hkind]
  cases e with
  | file dev ino =>
    simp only [TreeEntry.kind]
    split
    · exact ⟨rfl, rfl, rfl, rfl⟩
    · split
      · exact ⟨rfl, rfl, rfl, rfl⟩
      · exact (addFile hfs ht _).after ⟨rfl, rfl, rfl, rfl⟩
  | directory names => exact (pushDirectory _).after ⟨rfl, rfl, rfl, rfl⟩
  | link r => exact absurd rfl (hcanonical r)
  | special => exact ⟨rfl, rfl, rfl, rfl⟩

theorem visitSymlink {p t : AbsPath}
    (hp : tree.entry p = some (.link (.ok t))) :
    Undisturbed s (s.visitSymlink cfg fs realRoot p) := by
  obtain ⟨e, he, hcanonical⟩ := tree.resolved p t hp
  simp only [Discovery.visitSymlink, hfs.resolve _ _ _ hp]
  split
  · exact ⟨rfl, rfl, rfl, rfl⟩
  · split
    · exact ⟨rfl, rfl, rfl, rfl⟩
    · split
      · exact ⟨rfl, rfl, rfl, rfl⟩
      · exact (visitTarget hfs he hcanonical).after ⟨rfl, rfl, rfl, rfl⟩

section

variable (hlinks : ∀ p r, tree.entry p = some (.link r) → ∃ t, r = .ok t)
include hlinks

theorem visitEntry {d : AbsPath} {n : FileName}
    {e : TreeEntry} (he : tree.entry (d ++ [n]) = some e) :
    Undisturbed s (s.visitEntry cfg fs realRoot d n) := by
  simp only [Discovery.visitEntry, hfs.lstat _ _ _ he]
  cases e with
  | file dev ino =>
    simp only [TreeEntry.kind, Discovery.visitFile]
    split
    · exact ⟨rfl, rfl, rfl, rfl⟩
    · split
      · exact ⟨rfl, rfl, rfl, rfl⟩
      · exact (addFile hfs he _).after ⟨rfl, rfl, rfl, rfl⟩
  | directory names =>
    simp only [TreeEntry.kind, Discovery.visitDirectory]
    split
    · exact ⟨rfl, rfl, rfl, rfl⟩
    · rw [hfs.realpath _ _ _ he fun _ => by simp]
      exact (pushDirectory _).after ⟨rfl, rfl, rfl, rfl⟩
  | link r =>
    obtain ⟨t, rfl⟩ := hlinks _ _ he
    exact (visitSymlink hfs he).after ⟨rfl, rfl, rfl, rfl⟩
  | special => exact ⟨rfl, rfl, rfl, rfl⟩

theorem readDirectory {d : AbsPath}
    {names : List FileName} (hd : tree.entry d = some (.directory names)) :
    Undisturbed s (s.readDirectory cfg fs realRoot d) := by
  obtain ⟨l, hl, hperm⟩ := hfs.readdir s.time d names hd
  simp only [Discovery.readDirectory, hl]
  have hfold : ∀ (l : List FileName) (s : Discovery), (∀ n ∈ l, n ∈ names) →
      Undisturbed s (l.foldl (Discovery.visitEntry cfg fs realRoot d) s) := by
    intro l
    induction l with
    | nil => exact fun s _ => refl s
    | cons n l ih =>
      intro s hmem
      obtain ⟨e, he⟩ := Option.isSome_iff_exists.mp
        ((tree.child d n).mpr ⟨names, hd, hmem n List.mem_cons_self⟩)
      exact (visitEntry hfs hlinks he).trans (ih _ fun m hm => hmem m (List.mem_cons_of_mem _ hm))
  exact (hfold l _ fun n hn => hperm.mem_iff.mp hn).after ⟨rfl, rfl, rfl, rfl⟩

/-- The walk, by induction on the fuel: the directories on the stack are there. -/
theorem walk
    (hroot : ∃ names, tree.entry realRoot = some (.directory names)) {fuel : ℕ}
    (h : LoopOk cfg tree realRoot s) (hrun : Discovery.walk cfg fs realRoot fuel s = some s') :
    Undisturbed s s' := by
  induction fuel generalizing s with
  | zero =>
    rw [Discovery.walk] at hrun
    split at hrun
    · cases hrun
      exact refl _
    · cases hrun
  | succ fuel ih =>
    rw [Discovery.walk] at hrun
    split at hrun
    · cases hrun
      exact refl _
    · rename_i d rest hs
      have hmem : d ∈ s.visitedDirs := h.stack d (by rw [hs]; exact List.mem_cons_self)
      obtain ⟨names, hd⟩ := (h.ok.dirs d hmem).directory
      have hrest : Undisturbed s { s with stack := rest } := ⟨rfl, rfl, rfl, rfl⟩
      exact (hrest.trans (readDirectory hfs hlinks hd)).trans (ih (h.step hfs hroot hs).1 hrun)

end

end

end Undisturbed

/-- **A readable tree whose links resolve leaves nothing in doubt.** -/
theorem quiet_of_discover (hfs : Shows fs tree)
    (hlinks : ∀ p r, tree.entry p = some (.link r) → ∃ t, r = .ok t)
    (hroot : ∃ names, tree.entry realRoot = some (.directory names)) {fuel : ℕ}
    (hrun : discover cfg fs realRoot fuel = some s) : s.Quiet :=
  (Undisturbed.walk hfs hlinks hroot (.initial hroot) hrun).quiet ⟨rfl, rfl, rfl, rfl⟩

/-- Every file that was found is one. -/
theorem file_of_discover (hfs : Shows fs tree)
    (hroot : ∃ names, tree.entry realRoot = some (.directory names)) {fuel : ℕ}
    (hrun : discover cfg fs realRoot fuel = some s) {p : AbsPath} (hp : p ∈ s.files) :
    ∃ dev ino, tree.entry p = some (.file dev ino) := by
  have hinitial : LoopOk cfg tree realRoot (initial realRoot) := .initial hroot
  obtain ⟨s', hs', hloop, hnil⟩ :=
    hinitial.walk hfs hroot tree.finite.toFinset.card
      (by simp [Discovery.initial]; omega)
  obtain rfl := walk_unique hrun hs'
  obtain ⟨language, hsrc, -⟩ := ((hloop.exact hnil).mem p).mp hp
  exact hsrc.file

end Discovery

end Ariad
