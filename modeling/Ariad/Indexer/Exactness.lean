import Ariad.Indexer.Accounting
import Ariad.Indexer.Tree

/-!
# Discovery is exact on a static tree

On a file system that shows a static tree the walk ends, and it lists exactly the files that the
policy lets through, one path per class, whatever the order in which directories are listed. Aliases
add nothing: what a link leads to inside the root is reached without it as well.

* `WalkOk` — every directory and file the walk has seen is one that the policy lets through.
* `Grows` — what a step may change: directories come in with the stack, files get smaller paths.
* `Handled` — a listed name has been dealt with.

The walk is complete if no link fails with an unexpected code (`discovery_exact_iff`).
-/

namespace Ariad

open List Bool

variable {cfg : DiscoveryConfig} {fs : FileSystem} {tree : FileTree} {realRoot : AbsPath}
  {s s' : Discovery}

namespace Discovery

/-! ## The invariant -/

/-- **All that the walk has seen is let through by the policy.** -/
structure WalkOk (cfg : DiscoveryConfig) (tree : FileTree) (realRoot : AbsPath) (s : Discovery) :
    Prop where
  dirs : ∀ d ∈ s.visitedDirs, SourceDir cfg tree realRoot d
  nodup : s.visitedDirs.Nodup
  files : ∀ i p, s.visitedFiles.lookup i = some p →
    ∃ language, Source cfg tree realRoot p language ∧ tree.identity p language = i
  calls : ∀ c ∈ s.calls, c.fatal cfg = true →
    BadLink cfg tree c.path ∧ ∃ d n, c.path = d ++ [n] ∧ SourceDir cfg tree realRoot d

/-- What a step may change. -/
structure Grows (s s' : Discovery) : Prop where
  dirs : ∃ new, s'.stack = new ++ s.stack ∧ s'.visitedDirs = new ++ s.visitedDirs
  files : ∀ i p, s.visitedFiles.lookup i = some p →
    ∃ p', s'.visitedFiles.lookup i = some p' ∧ pathLe p' p = true
  calls : ∀ c ∈ s.calls, c ∈ s'.calls

variable {d : AbsPath} {p : AbsPath} {n : FileName}

variable {names : List FileName}

theorem Grows.refl (s : Discovery) : Grows s s :=
  ⟨⟨[], rfl, rfl⟩, fun _ p h => ⟨p, h, pathLe_refl p⟩, fun _ h => h⟩

theorem Grows.trans {s₁ s₂ s₃ : Discovery} (h₁ : Grows s₁ s₂) (h₂ : Grows s₂ s₃) : Grows s₁ s₃ := by
  obtain ⟨new₁, hs₁, hv₁⟩ := h₁.dirs
  obtain ⟨new₂, hs₂, hv₂⟩ := h₂.dirs
  refine ⟨⟨new₂ ++ new₁, ?_, ?_⟩, fun i p hp => ?_, fun c hc => h₂.calls c (h₁.calls c hc)⟩
  · rw [hs₂, hs₁, append_assoc]
  · rw [hv₂, hv₁, append_assoc]
  · obtain ⟨p₁, hp₁, hle₁⟩ := h₁.files i p hp
    obtain ⟨p₂, hp₂, hle₂⟩ := h₂.files i p₁ hp₁
    exact ⟨p₂, hp₂, pathLe_trans hle₂ hle₁⟩

theorem Grows.visited (h : Grows s s') (hd : d ∈ s.visitedDirs) : d ∈ s'.visitedDirs := by
  obtain ⟨new, -, hv⟩ := h.dirs
  rw [hv]
  exact mem_append_right _ hd

/-- A step that keeps the invariant. -/
structure Visit (cfg : DiscoveryConfig) (tree : FileTree) (realRoot : AbsPath) (s s' : Discovery) :
    Prop where
  ok : WalkOk cfg tree realRoot s'
  grows : Grows s s'

theorem Visit.refl (h : WalkOk cfg tree realRoot s) : Visit cfg tree realRoot s s :=
  ⟨h, .refl s⟩

theorem Visit.trans {s₁ s₂ s₃ : Discovery} (h₁ : Visit cfg tree realRoot s₁ s₂)
    (h₂ : Visit cfg tree realRoot s₂ s₃) : Visit cfg tree realRoot s₁ s₃ :=
  ⟨h₂.ok, h₁.grows.trans h₂.grows⟩

section

variable (h : WalkOk cfg tree realRoot s)
include h

/-- A step that changes none of what the invariant is about. -/
theorem WalkOk.same (hcalls : s'.calls = s.calls)
    (hstack : s'.stack = s.stack) (hdirs : s'.visitedDirs = s.visitedDirs)
    (hfiles : s'.visitedFiles = s.visitedFiles) : Visit cfg tree realRoot s s' := by
  refine ⟨⟨?_, ?_, ?_, ?_⟩, ⟨⟨[], ?_, ?_⟩, fun i p hp => ⟨p, ?_, pathLe_refl p⟩, fun c hc => ?_⟩⟩
  · rw [hdirs]
    exact h.dirs
  · rw [hdirs]
    exact h.nodup
  · rw [hfiles]
    exact h.files
  · rw [hcalls]
    exact h.calls
  · rw [hstack]
    rfl
  · rw [hdirs]
    rfl
  · rw [hfiles]
    exact hp
  · rw [hcalls]
    exact hc

/-- One more call; a fatal one is about a bad link. -/
theorem WalkOk.called (site : CallSite) (p : AbsPath) (a : Answer)
    (ha : (⟨site, p, a⟩ : FsCall).fatal cfg = true →
      BadLink cfg tree p ∧ ∃ d n, p = d ++ [n] ∧ SourceDir cfg tree realRoot d) :
    Visit cfg tree realRoot s (s.called site p a) := by
  refine ⟨⟨h.dirs, h.nodup, h.files, fun c hc hfatal => ?_⟩, ⟨⟨[], rfl, rfl⟩,
    fun i q hq => ⟨q, hq, pathLe_refl q⟩, fun c hc => mem_append_left _ hc⟩⟩
  rcases mem_append.mp hc with hc | hc
  · exact h.calls c hc hfatal
  · rw [mem_singleton.mp hc] at hfatal ⊢
    exact ha hfatal

theorem WalkOk.answered (site : CallSite) (p : AbsPath) {a : Answer}
    (ha : ∀ code, a ≠ .error code) : Visit cfg tree realRoot s (s.called site p a) := by
  refine h.called site p a fun hfatal => ?_
  cases a with
  | error code => exact absurd rfl (ha code)
  | names l => cases hfatal
  | kind k => cases hfatal
  | path q => cases hfatal
  | stat st => cases hfatal

/-! ## Directories and files -/

theorem WalkOk.pushDirectory (hp : SourceDir cfg tree realRoot p) :
    Visit cfg tree realRoot s (s.pushDirectory p) ∧ p ∈ (s.pushDirectory p).visitedDirs := by
  unfold Discovery.pushDirectory
  split
  · rename_i hmem
    exact ⟨h.same rfl rfl rfl rfl, hmem⟩
  · rename_i hmem
    refine ⟨⟨⟨fun d hd => ?_, nodup_cons.mpr ⟨hmem, h.nodup⟩, h.files, h.calls⟩,
      ⟨⟨[p], rfl, rfl⟩, fun i q hq => ⟨q, hq, pathLe_refl q⟩, fun c hc => hc⟩⟩, mem_cons_self⟩
    rcases mem_cons.mp hd with rfl | hd
    · exact hp
    · exact h.dirs d hd

/-- Of the paths of a class the smallest is kept. -/
theorem WalkOk.addFileCandidate {language : String} (hp : Source cfg tree realRoot p language) :
    Visit cfg tree realRoot s (s.addFileCandidate (tree.identity p language) p) ∧
      ∃ q, (s.addFileCandidate (tree.identity p language) p).visitedFiles.lookup
        (tree.identity p language) = some q ∧ pathLe q p = true := by
  have hinsert : ∀ i q, (s.visitedFiles.insert (tree.identity p language) p).lookup i = some q →
      i = tree.identity p language ∧ q = p ∨ s.visitedFiles.lookup i = some q := by
    intro i q hq
    by_cases hi : i = tree.identity p language
    · rw [hi, AList.lookup_insert] at hq
      cases hq
      exact .inl ⟨hi, rfl⟩
    · rw [AList.lookup_insert_ne hi] at hq
      exact .inr hq
  have hok : WalkOk cfg tree realRoot
      { s with visitedFiles := s.visitedFiles.insert (tree.identity p language) p } := by
    refine ⟨h.dirs, h.nodup, fun i q hq => ?_, h.calls⟩
    rcases hinsert i q hq with ⟨rfl, rfl⟩ | hq
    · exact ⟨language, hp, rfl⟩
    · exact h.files i q hq
  have hlookup := AList.lookup_insert (a := tree.identity p language) (b := p) s.visitedFiles
  unfold Discovery.addFileCandidate
  split
  · rename_i hnone
    refine ⟨⟨hok, ⟨⟨[], rfl, rfl⟩, fun i q hq => ?_, fun c hc => hc⟩⟩, p, hlookup, pathLe_refl p⟩
    have hne : i ≠ tree.identity p language := by
      rintro rfl
      rw [hnone] at hq
      cases hq
    exact ⟨q, (AList.lookup_insert_ne hne).trans hq, pathLe_refl q⟩
  · rename_i existing hsome
    split
    · rename_i hle
      exact ⟨h.same rfl rfl rfl rfl, existing, hsome, hle⟩
    · rename_i hnot
      have hlt : pathLe p existing = true := (pathLe_total existing p).resolve_left hnot
      refine ⟨⟨hok, ⟨⟨[], rfl, rfl⟩, fun i q hq => ?_, fun c hc => hc⟩⟩, p, hlookup,
        pathLe_refl p⟩
      by_cases hi : i = tree.identity p language
      · rw [hi, hsome] at hq
        cases hq
        exact ⟨p, by rw [hi]; exact hlookup, hlt⟩
      · exact ⟨q, (AList.lookup_insert_ne hi).trans hq, pathLe_refl q⟩

end

/-- The identity of a file of the tree. -/
theorem WalkOk.fileIdentityWithStat (hfs : Shows fs tree) (h : WalkOk cfg tree realRoot s) {dev ino : ℕ} (hp : tree.entry p = some (.file dev ino)) (language : String) :
    ∃ st s', fileIdentityWithStat fs p language s = (some (tree.identity p language, some st), s') ∧
      Visit cfg tree realRoot s s' := by
  have hcanonical : (TreeEntry.file dev ino).Canonical := fun _ => by simp
  obtain ⟨st, hst, -, hids⟩ := hfs.stat s.time p _ hp hcanonical
  obtain ⟨rfl, rfl⟩ := hids dev ino rfl
  have hv := h.answered .identity p (a := .stat st) (by simp)
  simp only [Discovery.fileIdentityWithStat, hst, FileTree.identity, hp]
  split
  · rw [hfs.realpath _ p _ hp hcanonical]
    exact ⟨st, _, rfl, hv.trans (hv.ok.answered _ _ (by simp))⟩
  · exact ⟨st, _, rfl, hv⟩

theorem WalkOk.addFile (hfs : Shows fs tree) (h : WalkOk cfg tree realRoot s)
    {language : String} (hp : Source cfg tree realRoot p language) :
    Visit cfg tree realRoot s (s.addFile fs realRoot p language) ∧
      ∃ q, (s.addFile fs realRoot p language).visitedFiles.lookup (tree.identity p language) =
        some q ∧ pathLe q p = true := by
  obtain ⟨dev, ino, hentry⟩ := hp.file
  obtain ⟨st, s₁, hid, hv₁⟩ := h.fileIdentityWithStat hfs hentry language
  have hv₂ : Visit cfg tree realRoot s₁ { s₁ with fileStats := s₁.fileStats.insert p st } :=
    hv₁.ok.same rfl rfl rfl rfl
  obtain ⟨hv₃, hfound⟩ := hv₂.ok.addFileCandidate hp
  rw [Discovery.addFile, hid]
  exact ⟨(hv₁.trans hv₂).trans hv₃, hfound⟩

/-! ## Listed names -/

/-- **A listed name has been dealt with.** -/
structure Handled (cfg : DiscoveryConfig) (tree : FileTree) (realRoot : AbsPath) (s : Discovery)
    (p : AbsPath) : Prop where
  dir : ∀ names, tree.entry p = some (.directory names) →
    shouldSkipDirectory cfg (basename p) = false → p ∈ s.visitedDirs
  file : ∀ language, Source cfg tree realRoot p language →
    ∃ q, s.visitedFiles.lookup (tree.identity p language) = some q ∧ pathLe q p = true
  link : BadLink cfg tree p → ∃ c ∈ s.calls, c.fatal cfg = true

theorem Handled.mono (h : Handled cfg tree realRoot s p) (hg : Grows s s') :
    Handled cfg tree realRoot s' p := by
  refine ⟨fun names he hskip => hg.visited (h.dir names he hskip), fun language hsrc => ?_,
    fun hbad => ?_⟩
  · obtain ⟨q, hq, hle⟩ := h.file language hsrc
    obtain ⟨q', hq', hle'⟩ := hg.files _ q hq
    exact ⟨q', hq', pathLe_trans hle' hle⟩
  · obtain ⟨c, hc, hfatal⟩ := h.link hbad
    exact ⟨c, hg.calls c hc, hfatal⟩

/-- A file is dealt with when it was added, or left out by the policy. -/
theorem Handled.of_file {dev ino : ℕ} (hp : tree.entry p = some (.file dev ino))
    (h : ∀ language, Source cfg tree realRoot p language →
      ∃ q, s.visitedFiles.lookup (tree.identity p language) = some q ∧ pathLe q p = true) :
    Handled cfg tree realRoot s p := by
  refine ⟨fun names he => ?_, h, fun hbad => ?_⟩
  · rw [hp] at he
    cases he
  · obtain ⟨-, code, he, -⟩ := hbad
    rw [hp] at he
    cases he

/-- A link is dealt with when a bad one has left a fatal call. -/
theorem Handled.of_link {r : Except ErrnoCode AbsPath}
    (hp : tree.entry p = some (.link r)) (h : BadLink cfg tree p → ∃ c ∈ s.calls, c.fatal cfg = true) :
    Handled cfg tree realRoot s p := by
  refine ⟨fun names he => ?_, fun language hsrc => ?_, h⟩
  · rw [hp] at he
    cases he
  · obtain ⟨dev, ino, he⟩ := hsrc.file
    rw [hp] at he
    cases he

section

variable (hfs : Shows fs tree)
include hfs

/-- What a link leads to. -/
theorem WalkOk.visitTarget (hroot : ∃ names, tree.entry realRoot = some (.directory names))
    (h : WalkOk cfg tree realRoot s) {p t : AbsPath} {e : TreeEntry} (ht : tree.entry t = some e)
    (hcanonical : e.Canonical) (hinside : isPathInside realRoot t = true)
    (hskip : hasSkippedComponent cfg realRoot t = false) :
    Visit cfg tree realRoot s (s.visitTarget cfg fs realRoot p t) := by
  obtain ⟨st, hst, hkind, -⟩ := hfs.stat s.time t e ht hcanonical
  have hv := h.answered .target t (a := .stat st) (by simp)
  have halias : ∀ {s : Discovery} a, WalkOk cfg tree realRoot s →
      Visit cfg tree realRoot s (s.resolvedAlias a) := fun a h => h.same rfl rfl rfl rfl
  simp only [Discovery.visitTarget, hst, hkind]
  cases e with
  | file dev ino =>
    simp only [TreeEntry.kind]
    split
    · exact hv.trans (hv.ok.same rfl rfl rfl rfl)
    · rename_i hkept
      split
      · exact hv
      · rename_i language hlang
        have ha := halias ⟨relative realRoot p, relative realRoot t, .file⟩ hv.ok
        have hsrc := source_of_target hroot hinside hskip ht (eq_false_iff.mpr hkept) hlang
        exact (hv.trans ha).trans (ha.ok.addFile hfs hsrc).1
  | directory names =>
    have ha := halias ⟨relative realRoot p, relative realRoot t, .directory⟩ hv.ok
    have hdir : SourceDir cfg tree realRoot t := ⟨below_of_target hinside hskip, ⟨names, ht⟩⟩
    exact (hv.trans ha).trans (ha.ok.pushDirectory hdir).1
  | link r => exact absurd rfl (hcanonical r)
  | special => exact hv

theorem WalkOk.visitSymlink (hroot : ∃ names, tree.entry realRoot = some (.directory names))
    (h : WalkOk cfg tree realRoot s)
    (hd : SourceDir cfg tree realRoot d) {r : Except ErrnoCode AbsPath}
    (hp : tree.entry (d ++ [n]) = some (.link r)) :
    Visit cfg tree realRoot s (s.visitSymlink cfg fs realRoot (d ++ [n])) ∧
      Handled cfg tree realRoot (s.visitSymlink cfg fs realRoot (d ++ [n])) (d ++ [n]) := by
  have hans : fs.realpath s.time (d ++ [n]) = r := hfs.resolve _ _ _ hp
  simp only [Discovery.visitSymlink, hans]
  split
  · rename_i hskip
    refine ⟨h.same rfl rfl rfl rfl, .of_link hp fun hbad => ?_⟩
    rw [hbad.1] at hskip
    cases hskip
  · rename_i hskip
    cases r with
    | ok t =>
      obtain ⟨e, ht, hcanonical⟩ := tree.resolved _ t hp
      have hv := h.answered .link (d ++ [n]) (a := .path t) (by simp)
      have hgood : ∀ s', Visit cfg tree realRoot s s' → Visit cfg tree realRoot s s' ∧
          Handled cfg tree realRoot s' (d ++ [n]) := by
        refine fun s' hv' => ⟨hv', .of_link hp fun hbad => ?_⟩
        obtain ⟨-, code, he, -⟩ := hbad
        rw [hp] at he
        cases he
      apply hgood
      dsimp only
      split
      · exact hv.trans (hv.ok.same rfl rfl rfl rfl)
      · rename_i hinside
        split
        · exact hv.trans (hv.ok.same rfl rfl rfl rfl)
        · rename_i hcomponent
          exact hv.trans (hv.ok.visitTarget hfs hroot ht hcanonical (by simpa using hinside)
            (by simpa using hcomponent))
    | error code =>
      have hcall := h.called .link (d ++ [n]) (.error code) fun hfatal => by
        simp only [FsCall.fatal, and_eq_true, bne_iff_ne, ne_eq, not_eq_true'] at hfatal
        exact ⟨⟨eq_false_iff.mpr hskip, code, hp, hfatal.1.1, hfatal.1.2, hfatal.2⟩,
          d, n, rfl, hd⟩
      have hbenign : ∀ s', code = .ENOENT ∨ code = .ELOOP → Visit cfg tree realRoot s s' →
          Visit cfg tree realRoot s s' ∧ Handled cfg tree realRoot s' (d ++ [n]) := by
        refine fun s' hcode hv' => ⟨hv', .of_link hp fun hbad => ?_⟩
        obtain ⟨-, code', he, hne₁, hne₂, -⟩ := hbad
        rw [hp] at he
        cases he
        exact absurd hcode (not_or.mpr ⟨hne₁, hne₂⟩)
      split
      · rename_i heq
        cases heq
        exact hbenign _ (.inl rfl) (hcall.trans (hcall.ok.same rfl rfl rfl rfl))
      · rename_i heq
        cases heq
        exact hbenign _ (.inr rfl) (hcall.trans (hcall.ok.same rfl rfl rfl rfl))
      · rename_i c hne₁ hne₂ heq
        cases heq
        have hfail : Visit cfg tree realRoot s
            ((s.called .link (d ++ [n]) (.error code)).fail cfg realRoot (d ++ [n]) code) := by
          refine hcall.trans ?_
          unfold Discovery.fail
          split <;> exact hcall.ok.same rfl rfl rfl rfl
        refine ⟨hfail, .of_link hp fun hbad => ?_⟩
        obtain ⟨-, code', he, hne₁, hne₂, hdenied⟩ := hbad
        rw [hp] at he
        cases he
        refine ⟨⟨.link, d ++ [n], .error code⟩, ?_, by simp [FsCall.fatal, hne₁, hne₂, hdenied]⟩
        rw [Discovery.fail, if_neg (by simp [hdenied])]
        exact mem_append_right _ (mem_singleton_self _)
      · rename_i t heq
        cases heq

theorem WalkOk.visitDirectory (h : WalkOk cfg tree realRoot s) (hd : SourceDir cfg tree realRoot d)
    (hp : tree.entry (d ++ [n]) = some (.directory names)) :
    Visit cfg tree realRoot s (s.visitDirectory cfg fs realRoot (d ++ [n])) ∧
      Handled cfg tree realRoot (s.visitDirectory cfg fs realRoot (d ++ [n])) (d ++ [n]) := by
  have hans := hfs.realpath s.time _ _ hp (fun _ => by simp)
  have hfiles : ∀ s', (shouldSkipDirectory cfg (basename (d ++ [n])) = false →
      d ++ [n] ∈ s'.visitedDirs) → Handled cfg tree realRoot s' (d ++ [n]) := by
    refine fun s' hmem => ⟨fun _ _ => hmem, fun language hsrc => ?_, fun hbad => ?_⟩
    · obtain ⟨dev, ino, he⟩ := hsrc.file
      rw [hp] at he
      cases he
    · obtain ⟨-, code, he, -⟩ := hbad
      rw [hp] at he
      cases he
  simp only [Discovery.visitDirectory, hans]
  split
  · rename_i hskip
    refine ⟨h.same rfl rfl rfl rfl, hfiles _ fun hkept => ?_⟩
    rw [hkept] at hskip
    cases hskip
  · rename_i hskip
    have hdir : SourceDir cfg tree realRoot (d ++ [n]) := hd.child hp (by
      rw [basename_append] at hskip
      exact eq_false_iff.mpr hskip)
    have hv := h.answered .directory (d ++ [n]) (a := .path (d ++ [n])) (by simp)
    obtain ⟨hpush, hmem⟩ := hv.ok.pushDirectory hdir
    exact ⟨hv.trans hpush, hfiles _ fun _ => hmem⟩

theorem WalkOk.visitFile (h : WalkOk cfg tree realRoot s) (hd : SourceDir cfg tree realRoot d) {dev ino : ℕ}
    (hp : tree.entry (d ++ [n]) = some (.file dev ino)) :
    Visit cfg tree realRoot s (s.visitFile cfg fs realRoot (d ++ [n])) ∧
      Handled cfg tree realRoot (s.visitFile cfg fs realRoot (d ++ [n])) (d ++ [n]) := by
  simp only [Discovery.visitFile]
  split
  · rename_i hskip
    refine ⟨h.same rfl rfl rfl rfl, .of_file hp fun language hsrc => ?_⟩
    rw [hsrc.kept] at hskip
    cases hskip
  · rename_i hkept
    split
    · rename_i hnone
      refine ⟨.refl h, .of_file hp fun language hsrc => ?_⟩
      rw [hsrc.language] at hnone
      cases hnone
    · rename_i language hlang
      have hsrc : Source cfg tree realRoot (d ++ [n]) language :=
        ⟨⟨d, n, rfl, hd⟩, ⟨dev, ino, hp⟩, eq_false_iff.mpr hkept, hlang⟩
      obtain ⟨hv, hfound⟩ := h.addFile hfs hsrc
      refine ⟨hv, .of_file hp fun language' hsrc' => ?_⟩
      obtain rfl : language' = language := by
        have := hsrc'.language
        rw [hlang] at this
        exact (Option.some.inj this).symm
      exact hfound

/-- **A listed name is dealt with.** -/
theorem WalkOk.visitEntry (hroot : ∃ names, tree.entry realRoot = some (.directory names))
    (h : WalkOk cfg tree realRoot s) (hd : SourceDir cfg tree realRoot d)
    (hdir : tree.entry d = some (.directory names)) (hn : n ∈ names) :
    Visit cfg tree realRoot s (s.visitEntry cfg fs realRoot d n) ∧
      Handled cfg tree realRoot (s.visitEntry cfg fs realRoot d n) (d ++ [n]) := by
  obtain ⟨e, he⟩ := Option.isSome_iff_exists.mp ((tree.child d n).mpr ⟨names, hdir, hn⟩)
  have hans := hfs.lstat s.time _ e he
  have hv := h.answered .lstat (d ++ [n]) (a := .kind e.kind) (by simp)
  simp only [Discovery.visitEntry, hans]
  cases e with
  | file dev ino =>
    obtain ⟨hv', hh⟩ := hv.ok.visitFile hfs hd he
    exact ⟨hv.trans hv', hh⟩
  | directory names' =>
    obtain ⟨hv', hh⟩ := hv.ok.visitDirectory hfs hd he
    exact ⟨hv.trans hv', hh⟩
  | link r =>
    obtain ⟨hv', hh⟩ := hv.ok.visitSymlink hfs hroot hd he
    exact ⟨hv.trans hv', hh⟩
  | special =>
    refine ⟨hv, fun names he' => ?_, fun language hsrc => ?_, fun hbad => ?_⟩
    · rw [he] at he'
      cases he'
    · obtain ⟨dev, ino, he'⟩ := hsrc.file
      rw [he] at he'
      cases he'
    · obtain ⟨-, code, he', -⟩ := hbad
      rw [he] at he'
      cases he'

end

/-! ## The walk -/

/-- A directory has been read: its names have been dealt with. -/
def Done (cfg : DiscoveryConfig) (tree : FileTree) (realRoot : AbsPath) (s : Discovery)
    (d : AbsPath) : Prop :=
  ∀ names n, tree.entry d = some (.directory names) → n ∈ names →
    Handled cfg tree realRoot s (d ++ [n])

theorem Done.mono (h : Done cfg tree realRoot s d) (hg : Grows s s') :
    Done cfg tree realRoot s' d :=
  fun names n he hn => (h names n he hn).mono hg

theorem WalkOk.foldl_visitEntry (hfs : Shows fs tree)
    (hroot : ∃ names, tree.entry realRoot = some (.directory names))
    (hd : SourceDir cfg tree realRoot d)
    (hdir : tree.entry d = some (.directory names)) (l : List FileName) (hl : l ⊆ names)
    (h : WalkOk cfg tree realRoot s) :
    Visit cfg tree realRoot s (l.foldl (Discovery.visitEntry cfg fs realRoot d) s) ∧
      ∀ n ∈ l, Handled cfg tree realRoot (l.foldl (Discovery.visitEntry cfg fs realRoot d) s)
        (d ++ [n]) := by
  induction l generalizing s with
  | nil => exact ⟨.refl h, fun n hn => absurd hn not_mem_nil⟩
  | cons m l ih =>
    obtain ⟨hv, hm⟩ := h.visitEntry hfs hroot hd hdir (hl mem_cons_self)
    obtain ⟨hv', hrest⟩ := ih (fun n hn => hl (mem_cons_of_mem _ hn)) hv.ok
    refine ⟨hv.trans hv', fun n hn => ?_⟩
    rcases mem_cons.mp hn with rfl | hn
    · exact hm.mono hv'.grows
    · exact hrest n hn

/-- **A directory is read.** -/
theorem WalkOk.readDirectory (hfs : Shows fs tree)
    (hroot : ∃ names, tree.entry realRoot = some (.directory names))
    (h : WalkOk cfg tree realRoot s) (hd : SourceDir cfg tree realRoot d) :
    Visit cfg tree realRoot s (s.readDirectory cfg fs realRoot d) ∧
      Done cfg tree realRoot (s.readDirectory cfg fs realRoot d) d := by
  obtain ⟨names, hdir⟩ := hd.directory
  obtain ⟨l, hl, hperm⟩ := hfs.readdir s.time d names hdir
  have hv := h.answered .readdir d (a := .names l) (by simp)
  obtain ⟨hv', hhandled⟩ := hv.ok.foldl_visitEntry hfs hroot hd hdir l hperm.subset
  simp only [Discovery.readDirectory, hl]
  refine ⟨hv.trans hv', fun names' n he hn => ?_⟩
  rw [hdir] at he
  cases he
  exact hhandled n (hperm.mem_iff.mpr hn)

/-- The loop of the walk: what is not on the stack is done. -/
structure LoopOk (cfg : DiscoveryConfig) (tree : FileTree) (realRoot : AbsPath) (s : Discovery) :
    Prop where
  ok : WalkOk cfg tree realRoot s
  root : realRoot ∈ s.visitedDirs
  stack : ∀ d ∈ s.stack, d ∈ s.visitedDirs
  done : ∀ d ∈ s.visitedDirs, d ∈ s.stack ∨ Done cfg tree realRoot s d

theorem LoopOk.initial (hroot : ∃ names, tree.entry realRoot = some (.directory names)) :
    LoopOk cfg tree realRoot (initial realRoot) := by
  refine ⟨⟨fun d hd => ?_, nodup_singleton _, fun i p hp => ?_, fun c hc => ?_⟩,
    mem_singleton_self _, fun d hd => hd, fun d hd => .inl hd⟩
  · rw [mem_singleton.mp hd]
    exact ⟨⟨[], (append_nil _).symm, fun n hn => absurd hn not_mem_nil⟩, hroot⟩
  · rw [show (Discovery.initial realRoot).visitedFiles = ∅ from rfl, AList.lookup_empty] at hp
    cases hp
  · cases hc

/-- **One round of the loop.** The measure counts the directories that are still to be read. -/
theorem LoopOk.step (hfs : Shows fs tree)
    (hroot : ∃ names, tree.entry realRoot = some (.directory names))
    (h : LoopOk cfg tree realRoot s) {rest : List AbsPath} (hs : s.stack = d :: rest) :
    LoopOk cfg tree realRoot ({ s with stack := rest }.readDirectory cfg fs realRoot d) ∧
      ∃ new, ({ s with stack := rest }.readDirectory cfg fs realRoot d).stack = new ++ rest ∧
        ({ s with stack := rest }.readDirectory cfg fs realRoot d).visitedDirs =
          new ++ s.visitedDirs := by
  have hmem : d ∈ s.visitedDirs := h.stack d (by rw [hs]; exact mem_cons_self)
  have hok : WalkOk cfg tree realRoot { s with stack := rest } :=
    ⟨h.ok.dirs, h.ok.nodup, h.ok.files, h.ok.calls⟩
  obtain ⟨hv, hdone⟩ := hok.readDirectory hfs hroot (h.ok.dirs d hmem)
  obtain ⟨new, hstack, hvisited⟩ := hv.grows.dirs
  refine ⟨⟨hv.ok, hv.grows.visited h.root, fun d' hd' => ?_, fun d' hd' => ?_⟩,
    new, hstack, hvisited⟩
  · rw [hstack] at hd'
    rw [hvisited]
    rcases mem_append.mp hd' with hd' | hd'
    · exact mem_append_left _ hd'
    · exact mem_append_right _ (h.stack d' (by rw [hs]; exact mem_cons_of_mem _ hd'))
  · rw [hvisited] at hd'
    rw [hstack]
    rcases mem_append.mp hd' with hd' | hd'
    · exact .inl (mem_append_left _ hd')
    · rcases h.done d' hd' with hin | hd''
      · rw [hs] at hin
        rcases mem_cons.mp hin with rfl | hin
        · exact .inr hdone
        · exact .inl (mem_append_right _ hin)
      · refine .inr (Done.mono (s := { s with stack := rest }) (fun names n he hn => ?_) hv.grows)
        exact ⟨(hd'' names n he hn).dir, (hd'' names n he hn).file, (hd'' names n he hn).link⟩

/-- **The walk ends**: every round reads a directory that has not been read. -/
theorem LoopOk.walk (hfs : Shows fs tree)
    (hroot : ∃ names, tree.entry realRoot = some (.directory names))
    (h : LoopOk cfg tree realRoot s) (fuel : ℕ)
    (hfuel : s.stack.length + tree.finite.toFinset.card ≤ fuel + s.visitedDirs.length) :
    ∃ s', walk cfg fs realRoot fuel s = some s' ∧ LoopOk cfg tree realRoot s' ∧ s'.stack = [] := by
  have hcard : ∀ {s : Discovery}, LoopOk cfg tree realRoot s →
      s.visitedDirs.length ≤ tree.finite.toFinset.card := by
    intro s h
    have hsub : s.visitedDirs.toFinset ⊆ tree.finite.toFinset := by
      intro d hd
      obtain ⟨names, hentry⟩ := (h.ok.dirs d (mem_toFinset.mp hd)).directory
      rw [Set.Finite.mem_toFinset, Set.mem_ofPred_eq, hentry]
      rfl
    have hle := Finset.card_le_card hsub
    rwa [toFinset_card_of_nodup h.ok.nodup] at hle
  induction fuel generalizing s with
  | zero =>
    have hle := hcard h
    have hnil : s.stack = [] := length_eq_zero_iff.mp (by omega)
    exact ⟨s, by rw [Discovery.walk, hnil], h, hnil⟩
  | succ fuel ih =>
    cases hs : s.stack with
    | nil => exact ⟨s, by rw [Discovery.walk, hs], h, hs⟩
    | cons d rest =>
      obtain ⟨hstep, new, hstack, hvisited⟩ := h.step hfs hroot hs
      obtain ⟨s', hrun, hs', hnil⟩ := ih hstep (by
        rw [hstack, hvisited, length_append, length_append]
        rw [hs, length_cons] at hfuel
        omega)
      refine ⟨s', ?_, hs', hnil⟩
      rw [Discovery.walk, hs]
      exact hrun

/-- The fuel does not matter once it lasts. -/
theorem walk_unique {fuel fuel' : ℕ} {s₁ s₂ : Discovery} (h₁ : walk cfg fs realRoot fuel s = some s₁)
    (h₂ : walk cfg fs realRoot fuel' s = some s₂) : s₁ = s₂ := by
  induction fuel generalizing fuel' s with
  | zero =>
    rw [Discovery.walk] at h₁ h₂
    cases hs : s.stack with
    | nil =>
      simp only [hs] at h₁ h₂
      exact (Option.some.inj h₁).symm.trans (Option.some.inj h₂)
    | cons d rest =>
      simp only [hs] at h₁
      cases h₁
  | succ fuel ih =>
    rw [Discovery.walk] at h₁ h₂
    cases hs : s.stack with
    | nil =>
      simp only [hs] at h₁ h₂
      exact (Option.some.inj h₁).symm.trans (Option.some.inj h₂)
    | cons d rest =>
      simp only [hs] at h₁ h₂
      cases fuel' with
      | zero => cases h₂
      | succ fuel' => exact ih h₁ h₂

/-! ## The result -/

/-- When the stack is empty every source directory has been visited. -/
theorem LoopOk.visited (h : LoopOk cfg tree realRoot s) (hnil : s.stack = [])
    (hd : SourceDir cfg tree realRoot d) : d ∈ s.visitedDirs := by
  obtain ⟨q, rfl, -⟩ := hd.below
  induction q using List.reverseRecOn with
  | nil =>
    rw [append_nil]
    exact h.root
  | append_singleton q n ih =>
    rw [← append_assoc] at hd ⊢
    obtain ⟨hparent, hskip⟩ := hd.parent
    have hdone : Done cfg tree realRoot s (realRoot ++ q) := by
      rcases h.done _ (ih hparent) with hin | hdone
      · rw [hnil] at hin
        cases hin
      · exact hdone
    obtain ⟨names, he⟩ := hd.directory
    obtain ⟨names', he', hn⟩ := FileTree.listed he
    exact (hdone names' n he' hn).dir names he (by rw [basename_append]; exact hskip)

theorem LoopOk.handled (h : LoopOk cfg tree realRoot s) (hnil : s.stack = []) {e : TreeEntry} (hd : SourceDir cfg tree realRoot d)
    (he : tree.entry (d ++ [n]) = some e) : Handled cfg tree realRoot s (d ++ [n]) := by
  obtain ⟨names, he', hn⟩ := FileTree.listed he
  rcases h.done d (h.visited hnil hd) with hin | hdone
  · rw [hnil] at hin
    cases hin
  · exact hdone names n he' hn

theorem mem_files : p ∈ s.files ↔ ∃ i, s.visitedFiles.lookup i = some p := by
  rw [files, mem_mergeSort, mem_map]
  constructor
  · rintro ⟨⟨i, q⟩, hmem, rfl⟩
    exact ⟨i, (AList.mem_lookup_iff).mpr hmem⟩
  · rintro ⟨i, hp⟩
    exact ⟨⟨i, p⟩, (AList.mem_lookup_iff).mp hp, rfl⟩

/-- **The files are those that discovery is to find.** -/
theorem LoopOk.exact (h : LoopOk cfg tree realRoot s) (hnil : s.stack = []) :
    Exact cfg tree realRoot s.files := by
  have hfound : ∀ p language, Source cfg tree realRoot p language →
      ∃ q, s.visitedFiles.lookup (tree.identity p language) = some q ∧ pathLe q p = true := by
    intro p language hsrc
    obtain ⟨d, n, rfl, hd⟩ := hsrc.inDir
    obtain ⟨dev, ino, he⟩ := hsrc.file
    exact (h.handled hnil hd he).file language hsrc
  constructor
  · have hnodup : s.files.Nodup := by
      rw [files, (mergeSort_perm _ _).nodup_iff]
      refine Nodup.map_on (fun x hx y hy heq => ?_) (List.NodupKeys.nodup s.visitedFiles.nodupKeys)
      obtain ⟨i, p⟩ := x
      obtain ⟨j, q⟩ := y
      obtain rfl : p = q := heq
      obtain ⟨l, hsrc, rfl⟩ := h.ok.files i p (AList.mem_lookup_iff.mpr hx)
      obtain ⟨l', hsrc', rfl⟩ := h.ok.files j p (AList.mem_lookup_iff.mpr hy)
      rw [hsrc.language_eq hsrc']
    have htrans : ∀ p q r, pathLe p q = true → pathLe q r = true → pathLe p r = true :=
      fun _ _ _ h₁ h₂ => pathLe_trans h₁ h₂
    have htotal : ∀ p q, (pathLe p q || pathLe q p) = true := fun p q => by
      rw [or_eq_true]
      exact pathLe_total p q
    have hsorted : s.files.Pairwise fun p q => pathLe p q = true :=
      pairwise_mergeSort htrans htotal _
    exact hsorted.and hnodup
  · intro p
    rw [mem_files]
    constructor
    · rintro ⟨i, hp⟩
      obtain ⟨language, hsrc, rfl⟩ := h.ok.files i p hp
      refine ⟨language, hsrc, fun p' hsrc' heq => ?_⟩
      obtain ⟨q, hq, hle⟩ := hfound p' language hsrc'
      rw [heq, hp] at hq
      cases hq
      exact hle
    · rintro ⟨language, hsrc, hleast⟩
      obtain ⟨q, hq, hle⟩ := hfound p language hsrc
      obtain ⟨language', hsrc', heq⟩ := h.ok.files _ q hq
      have hll : language' = language := by
        have := congrArg IdentityKey.language heq
        rwa [FileTree.identity_language, FileTree.identity_language] at this
      subst hll
      obtain rfl := pathLe_antisymm hle (hleast q hsrc' heq)
      exact ⟨_, hq⟩

/-- The walk is complete unless a link has failed with an unexpected code. -/
theorem LoopOk.complete_iff (h : LoopOk cfg tree realRoot s) (hnil : s.stack = [])
    (hacc : Accounted cfg realRoot s) :
    s.complete = true ↔ ∀ d n, SourceDir cfg tree realRoot d → ¬BadLink cfg tree (d ++ [n]) := by
  rw [complete, List.isEmpty_iff, hacc.errors]
  constructor
  · intro hall d n hd hbad
    obtain ⟨-, code, he, -⟩ := id hbad
    obtain ⟨c, hc, hfatal⟩ := (h.handled hnil hd he).link hbad
    rw [hall c hc] at hfatal
    cases hfatal
  · intro hgood c hc
    by_contra hne
    obtain ⟨hbad, d, n, heq, hd⟩ := h.ok.calls c hc (by simpa using hne)
    rw [heq] at hbad
    exact hgood d n hd hbad

/-- The root holds the file `a.ts` and the link `l`. -/
def linkEntry (r : Except ErrnoCode AbsPath) : AbsPath → Option TreeEntry
  | [] => some (.directory [⟨"a.ts", by decide⟩, ⟨"l", by decide⟩])
  | [n] => if n.val = "a.ts" then some (.file 1 2) else if n.val = "l" then some (.link r) else none
  | _ => none

/-- The link resolves to the file, or fails. -/
def linkTree (r : Except ErrnoCode AbsPath)
    (hr : ∀ t, r = .ok t → t = [⟨"a.ts", by decide⟩]) : FileTree where
  entry := linkEntry r
  finite := by
    refine Set.Finite.subset (Set.toFinite
      {[], [(⟨"a.ts", by decide⟩ : FileName)], [(⟨"l", by decide⟩ : FileName)]}) fun p hp => ?_
    rcases p with _ | ⟨n, _ | ⟨m, p⟩⟩
    · simp
    · rw [Set.mem_ofPred_eq, linkEntry] at hp
      split at hp
      · rename_i hn
        rw [show n = ⟨"a.ts", by decide⟩ from Subtype.ext hn]
        simp
      · split at hp
        · rename_i hn
          rw [show n = ⟨"l", by decide⟩ from Subtype.ext hn]
          simp
        · cases hp
    · cases hp
  child := by
    rintro (_ | ⟨m, p⟩) n
    · simp only [List.nil_append, linkEntry]
      split
      · rename_i hn
        simp [Subtype.ext_iff, hn]
      · rename_i hn
        split
        · rename_i hl
          simp [Subtype.ext_iff, hl]
        · rename_i hl
          simp [Subtype.ext_iff, hn, hl]
    · have hnone : linkEntry r (m :: p ++ [n]) = none := by cases p <;> rfl
      rw [hnone]
      constructor
      · intro h
        cases h
      · rintro ⟨names, h, -⟩
        cases p with
        | nil =>
          rw [linkEntry] at h
          split at h
          · cases h
          · split at h <;> cases h
        | cons _ _ => cases h
  resolved := by
    intro p t h
    have hlink : ∀ t, r = .ok t → ∃ e, linkEntry r t = some e ∧ e.Canonical := by
      intro t ht
      rw [hr t ht]
      exact ⟨.file 1 2, rfl, fun _ => by simp⟩
    rcases p with _ | ⟨n, _ | ⟨m, p⟩⟩
    · cases h
    · rw [linkEntry] at h
      split at h
      · cases h
      · split at h
        · cases h
          exact hlink t rfl
        · cases h
    · cases h

/-- The file that the link resolves to. -/
def linkedFile : AbsPath := [⟨"a.ts", by decide⟩]

/-- The file, and the link that resolves to it. -/
def linkedTree : FileTree := linkTree (.ok linkedFile) (by simp [linkedFile])

end Discovery

end Ariad
