import Mathlib.Data.Set.Finite.Basic
import Ariad.Indexer.Deletions

/-!
# What a discovery accounts for

Every failing call leaves a trace in the result: a fatal one an error, a broken link an alias, and some
of the others a subtree that is held back (`Accounted`). Three kinds of failure hold back the path at
most (`Unguarded`): a listed name that `lstat` does not find, a file whose identity cannot be had, and
a directory that resolves to another one which cannot be read. So the walk accounts for all it saw
exactly when every such path lies below one whose subtree is held back (`accountsFor_iff`).
-/

namespace Ariad

open List

variable {cfg : DiscoveryConfig} {fs : FileSystem} {realRoot : AbsPath} {s s' : Discovery}

/-! ## Relative paths are faithful -/

/-- How far a relative path goes up. -/
def ups (p : RelPath) : ℕ := (p.takeWhile (· = "..")).length

variable {p : AbsPath} {site : CallSite} {code : ErrnoCode}

theorem ups_map_val (p : AbsPath) : ups (p.map Subtype.val) = 0 := by
  cases p with
  | nil => rfl
  | cons b p => simp [ups, b.2.2.2.1]

theorem ups_up (src dst : AbsPath) : ups ((src.map fun _ => "..") ++ dst.map Subtype.val) = src.length := by
  induction src with
  | nil => exact ups_map_val dst
  | cons a src ih => simpa [ups] using ih

/-- A relative path goes up as far as the root is below the last common directory. -/
theorem ups_relative_le (src dst : AbsPath) : ups (relative src dst) ≤ src.length := by
  induction src generalizing dst with
  | nil =>
    have h : relative [] dst = dst.map Subtype.val := by cases dst <;> rfl
    rw [h, ups_map_val]
    exact Nat.zero_le _
  | cons a src ih =>
    cases dst with
    | nil =>
      have h := ups_up (a :: src) []
      rw [map_nil, append_nil] at h
      exact h.le
    | cons b dst =>
      rw [relative]
      split
      · exact (ih dst).trans (Nat.le_succ _)
      · exact (ups_up (a :: src) (b :: dst)).le

theorem relative_cons_self (a : FileName) (src dst : AbsPath) : relative (a :: src) (a :: dst) = relative src dst := by
  rw [relative, if_pos rfl]

/-- Outside of the first component the relative path goes all the way up. -/
theorem relative_cons_of_not {a : FileName} {src p : AbsPath} (h : ∀ q, p ≠ a :: q) :
    relative (a :: src) p = ((a :: src).map fun _ => "..") ++ p.map Subtype.val := by
  cases p with
  | nil => exact (append_nil _).symm
  | cons b p =>
    rw [relative, if_neg]
    rintro rfl
    exact h p rfl

/-- **A relative path determines the path.** -/
theorem relative_injective (root : AbsPath) : Function.Injective (relative root) := by
  induction root with
  | nil =>
    intro p q h
    have hnil : ∀ p, relative [] p = p.map Subtype.val := fun p => by cases p <;> rfl
    rw [hnil, hnil] at h
    exact map_injective_iff.mpr Subtype.val_injective h
  | cons a root ih =>
    have hmixed : ∀ p q, (∀ r, q ≠ a :: r) → relative (a :: root) (a :: p) ≠ relative (a :: root) q := by
      intro p q hq h
      have hle := ups_relative_le root p
      rw [relative_cons_self, relative_cons_of_not hq] at h
      rw [h, ups_up] at hle
      exact absurd hle (Nat.not_succ_le_self _)
    intro p q h
    by_cases hp : ∃ p', p = a :: p'
    · obtain ⟨p', rfl⟩ := hp
      by_cases hq : ∃ q', q = a :: q'
      · obtain ⟨q', rfl⟩ := hq
        rw [relative_cons_self, relative_cons_self] at h
        rw [ih h]
      · exact absurd h (hmixed p' q fun r hr => hq ⟨r, hr⟩)
    · have hp' : ∀ r, p ≠ a :: r := fun r hr => hp ⟨r, hr⟩
      by_cases hq : ∃ q', q = a :: q'
      · obtain ⟨q', rfl⟩ := hq
        exact absurd h.symm (hmixed q' p hp')
      · rw [relative_cons_of_not hp', relative_cons_of_not fun r hr => hq ⟨r, hr⟩] at h
        exact map_injective_iff.mpr Subtype.val_injective (append_cancel_left h)

/-! ## What a call leaves behind -/

namespace FsCall

/-- The call makes the discovery incomplete. -/
def fatal (cfg : DiscoveryConfig) (c : FsCall) : Bool :=
  match c.answer with
  | .error code =>
    match c.site with
    | .readdir => !denied cfg code
    | .lstat => code != .ENOENT && !denied cfg code
    | .link => code != .ENOENT && code != .ELOOP && !denied cfg code
    | .target => code != .ENOENT && !denied cfg code
    | .directory => code != .ENOENT && !denied cfg code
    | .identity => false
  | _ => false

/-- The call makes the walk hold back its path and all below it. -/
def guards (cfg : DiscoveryConfig) (c : FsCall) : Bool :=
  match c.answer with
  | .error code =>
    match c.site with
    | .readdir => denied cfg code
    | .lstat => denied cfg code
    | .link => denied cfg code
    | .target => code == .ENOENT || denied cfg code
    | .directory => code == .ENOENT || denied cfg code
    | .identity => false
  | _ => false

/-- The call finds a link broken. -/
def breaks (c : FsCall) : Bool :=
  c.site == .link && (c.answer == .error .ENOENT || c.answer == .error .ELOOP)

end FsCall

namespace Discovery

/-- The result shows every failing call. -/
structure Accounted (cfg : DiscoveryConfig) (realRoot : AbsPath) (s : Discovery) : Prop where
  errors : s.errors = [] ↔ ∀ c ∈ s.calls, c.fatal cfg = false
  subtrees : ∀ q, q ∈ s.uncertainSubtrees ↔
    ∃ c ∈ s.calls, c.guards cfg = true ∧ relative realRoot c.path = q
  broken : ∀ q, (∃ code, (q, code) ∈ s.brokenAliases) ↔
    ∃ c ∈ s.calls, c.breaks = true ∧ relative realRoot c.path = q

/-- What the accounts are about. -/
structure SameAccounts (s s' : Discovery) : Prop where
  calls : s'.calls = s.calls
  errors : s'.errors = s.errors
  uncertainSubtrees : s'.uncertainSubtrees = s.uncertainSubtrees
  brokenAliases : s'.brokenAliases = s.brokenAliases

theorem Accounted.same (h : Accounted cfg realRoot s) (hs : SameAccounts s s') : Accounted cfg realRoot s' := by
  obtain ⟨h₁, h₂, h₃, h₄⟩ := hs
  constructor
  · rw [h₁, h₂]
    exact h.errors
  · rw [h₁, h₃]
    exact h.subtrees
  · rw [h₁, h₄]
    exact h.broken

theorem Accounted.initial : Accounted cfg realRoot (initial realRoot) := by
  constructor
  iterate 3
    · simp [Discovery.initial]

section

variable (h : Accounted cfg realRoot s)
include h

/-- One more call, with what it adds to the result. -/
theorem Accounted.add (c : FsCall)
    (es : List (AbsPath × ErrnoCode)) (us : List RelPath) (bs : List (RelPath × ErrnoCode))
    (hcalls : s'.calls = s.calls ++ [c]) (herrors : s'.errors = s.errors ++ es)
    (hsubtrees : s'.uncertainSubtrees = s.uncertainSubtrees ++ us) (hbroken : s'.brokenAliases = s.brokenAliases ++ bs)
    (hes : es = [] ↔ c.fatal cfg = false) (hus : ∀ q, q ∈ us ↔ c.guards cfg = true ∧ relative realRoot c.path = q)
    (hbs : ∀ q, (∃ code, (q, code) ∈ bs) ↔ c.breaks = true ∧ relative realRoot c.path = q) :
    Accounted cfg realRoot s' := by
  constructor
  · rw [hcalls, herrors, append_eq_nil_iff, h.errors, hes]
    constructor
    · rintro ⟨hold, hnew⟩ c' hc'
      rcases mem_append.mp hc' with hc' | hc'
      · exact hold c' hc'
      · rw [mem_singleton.mp hc']
        exact hnew
    · intro hall
      exact ⟨fun c' hc' => hall c' (mem_append_left _ hc'), hall c (by simp)⟩
  · intro q
    rw [hcalls, hsubtrees, mem_append, h.subtrees, hus]
    simp
  · intro q
    rw [hcalls, hbroken]
    simp only [mem_append, mem_singleton, or_and_right, exists_or, exists_eq_left]
    rw [h.broken, hbs]

/-- A call that succeeds. -/
theorem Accounted.called {a : Answer} (ha : ∀ code, a ≠ .error code) : Accounted cfg realRoot (s.called site p a) := by
  have hno : ∀ code, (⟨site, p, a⟩ : FsCall).answer ≠ .error code := ha
  refine h.add ⟨site, p, a⟩ [] [] [] rfl (append_nil _).symm
    (append_nil _).symm (append_nil _).symm ?_ ?_ ?_
  · cases a <;> simp_all [FsCall.fatal]
  · intro q
    cases a <;> simp_all [FsCall.guards]
  · intro q
    have h₁ := ha .ENOENT
    have h₂ := ha .ELOOP
    simp [FsCall.breaks, h₁, h₂]

/-- A call that fails and leaves nothing behind that the accounts are about. -/
theorem Accounted.harmless (hfatal : (⟨site, p, .error code⟩ : FsCall).fatal cfg = false)
    (hguards : (⟨site, p, .error code⟩ : FsCall).guards cfg = false)
    (hbreaks : (⟨site, p, .error code⟩ : FsCall).breaks = false) :
    Accounted cfg realRoot (s.called site p (.error code)) := by
  refine h.add ⟨site, p, .error code⟩ [] [] [] rfl (append_nil _).symm
    (append_nil _).symm (append_nil _).symm ?_ ?_ ?_
  · simp [hfatal]
  · simp [hguards]
  · simp [hbreaks]

/-- A call whose code the call site does not treat specially. -/
theorem Accounted.fail (hfatal : (⟨site, p, .error code⟩ : FsCall).fatal cfg = !denied cfg code)
    (hguards : (⟨site, p, .error code⟩ : FsCall).guards cfg = denied cfg code)
    (hbreaks : (⟨site, p, .error code⟩ : FsCall).breaks = false) :
    Accounted cfg realRoot ((s.called site p (.error code)).fail cfg realRoot p code) := by
  unfold Discovery.fail
  split
  · rename_i hd
    refine h.add ⟨site, p, .error code⟩ [] [relative realRoot p] []
      rfl (append_nil _).symm rfl (append_nil _).symm ?_ ?_ ?_
    · simp [hfatal, hd]
    · simp [hguards, hd, eq_comm]
    · simp [hbreaks]
  · rename_i hd
    refine h.add ⟨site, p, .error code⟩ [(p, code)] [] [] rfl rfl
      (append_nil _).symm (append_nil _).symm ?_ ?_ ?_
    · simp [hfatal, hd]
    · simp [hguards, hd]
    · simp [hbreaks]

/-- A call that finds a vanished subtree. -/
theorem Accounted.vanished (hfatal : (⟨site, p, .error .ENOENT⟩ : FsCall).fatal cfg = false)
    (hguards : (⟨site, p, .error .ENOENT⟩ : FsCall).guards cfg = true)
    (hbreaks : (⟨site, p, .error .ENOENT⟩ : FsCall).breaks = false)
    (hs : SameAccounts ((s.called site p (.error .ENOENT)).uncertainSubtree (relative realRoot p)) s') :
    Accounted cfg realRoot s' := by
  refine Accounted.same ?_ hs
  refine h.add ⟨site, p, .error .ENOENT⟩ [] [relative realRoot p] []
    rfl (append_nil _).symm rfl (append_nil _).symm ?_ ?_ ?_
  · simp [hfatal]
  · simp [hguards, eq_comm]
  · simp [hbreaks]

/-- A call that finds a broken link. -/
theorem Accounted.brokenAlias (hcode : code = .ENOENT ∨ code = .ELOOP) : Accounted cfg realRoot
      ((s.called .link p (.error code)).brokenAlias (relative realRoot p) code) := by
  refine h.add ⟨.link, p, .error code⟩ [] [] [(relative realRoot p, code)] rfl (append_nil _).symm (append_nil _).symm rfl
    ?_ ?_ ?_
  · rcases hcode with rfl | rfl <;> simp [FsCall.fatal]
  · rcases hcode with rfl | rfl <;> simp [FsCall.guards, denied]
  · rcases hcode with rfl | rfl <;> simp [FsCall.breaks, eq_comm]

/-! ## Every step keeps the accounts -/

theorem Accounted.addFileCandidate (i : IdentityKey) (p : AbsPath) :
    Accounted cfg realRoot (s.addFileCandidate i p) := by
  unfold Discovery.addFileCandidate
  split
  · exact h.same ⟨rfl, rfl, rfl, rfl⟩
  · split
    · exact h.same ⟨rfl, rfl, rfl, rfl⟩
    · exact h.same ⟨rfl, rfl, rfl, rfl⟩

end

theorem Accounted.identity (fs : FileSystem) (h : Accounted cfg realRoot s) (p : AbsPath) (language : String) :
    Accounted cfg realRoot (fileIdentityWithStat fs p language s).2 := by
  have hfail : ∀ {s : Discovery} {code}, Accounted cfg realRoot s →
      Accounted cfg realRoot (s.called .identity p (.error code)) := fun hs =>
    hs.harmless rfl rfl rfl
  have hpath : ∀ {s : Discovery} {q}, Accounted cfg realRoot s →
      Accounted cfg realRoot (s.called .identity p (.path q)) := fun hs => hs.called (by simp)
  unfold fileIdentityWithStat
  cases fs.stat s.time p with
  | ok st =>
    have hstat : Accounted cfg realRoot (s.called .identity p (.stat st)) := h.called (by simp)
    dsimp only
    split
    · split
      · exact hpath hstat
      · exact hfail hstat
    · exact hstat
  | error c =>
    dsimp only
    split
    · exact hpath (hfail h)
    · exact hfail (hfail h)

section

variable (h : Accounted cfg realRoot s)
include h

theorem Accounted.addFile (p : AbsPath) (language : String) :
    Accounted cfg realRoot (s.addFile fs realRoot p language) := by
  have hid := h.identity fs p language
  unfold Discovery.addFile
  split
  · rename_i s' heq
    rw [heq] at hid
    exact hid.same ⟨rfl, rfl, rfl, rfl⟩
  · rename_i i s' heq
    rw [heq] at hid
    exact hid.addFileCandidate i p
  · rename_i i st s' heq
    rw [heq] at hid
    have hstat : Accounted cfg realRoot { s' with fileStats := s'.fileStats.insert p st } :=
      hid.same ⟨rfl, rfl, rfl, rfl⟩
    exact hstat.addFileCandidate i p

theorem Accounted.pushDirectory (p : AbsPath) : Accounted cfg realRoot (s.pushDirectory p) := by
  unfold Discovery.pushDirectory
  split <;> exact h.same ⟨rfl, rfl, rfl, rfl⟩

theorem Accounted.skippedPolicy : Accounted cfg realRoot s.skippedPolicy :=
  h.same ⟨rfl, rfl, rfl, rfl⟩

theorem Accounted.resolvedAlias (a : ResolvedAlias) : Accounted cfg realRoot (s.resolvedAlias a) :=
  h.same ⟨rfl, rfl, rfl, rfl⟩

theorem Accounted.visitTarget (fullPath realTarget : AbsPath) :
    Accounted cfg realRoot (s.visitTarget cfg fs realRoot fullPath realTarget) := by
  unfold Discovery.visitTarget
  dsimp only
  split
  · exact h.vanished rfl rfl rfl ⟨rfl, rfl, rfl, rfl⟩
  · rename_i c hne heq
    have hc : (c == .ENOENT) = false := by simpa using hne
    refine h.fail ?_ ?_ ?_
    · simp [FsCall.fatal, bne, hc]
    · simp [FsCall.guards, hc]
    · simp [FsCall.breaks]
  · rename_i st heq
    have hstat : Accounted cfg realRoot (s.called .target realTarget (.stat st)) :=
      h.called (by simp)
    split
    · exact (hstat.resolvedAlias _).pushDirectory _
    · split
      · exact hstat.skippedPolicy
      · split
        · exact hstat
        · exact (hstat.resolvedAlias _).addFile _ _
    · exact hstat

theorem Accounted.visitSymlink (fullPath : AbsPath) :
    Accounted cfg realRoot (s.visitSymlink cfg fs realRoot fullPath) := by
  unfold Discovery.visitSymlink
  dsimp only
  split
  · exact h.skippedPolicy
  · split
    · exact h.brokenAlias (.inl rfl)
    · exact h.brokenAlias (.inr rfl)
    · rename_i c hne₁ hne₂ heq
      have hc₁ : (c == .ENOENT) = false := by simpa using hne₁
      have hc₂ : (c == .ELOOP) = false := by simpa using hne₂
      refine h.fail ?_ ?_ ?_
      · simp [FsCall.fatal, bne, hc₁, hc₂]
      · simp [FsCall.guards]
      · simpa [FsCall.breaks] using ⟨hne₁, hne₂⟩
    · rename_i t heq
      have hpath : Accounted cfg realRoot (s.called .link fullPath (.path t)) := h.called (by simp)
      split
      · exact hpath.same ⟨rfl, rfl, rfl, rfl⟩
      · split
        · exact hpath.skippedPolicy
        · exact hpath.visitTarget _ _

theorem Accounted.visitDirectory (fullPath : AbsPath) :
    Accounted cfg realRoot (s.visitDirectory cfg fs realRoot fullPath) := by
  unfold Discovery.visitDirectory
  dsimp only
  split
  · exact h.skippedPolicy
  · split
    · exact h.vanished rfl rfl rfl ⟨rfl, rfl, rfl, rfl⟩
    · rename_i c hne heq
      have hc : (c == .ENOENT) = false := by simpa using hne
      refine h.fail ?_ ?_ ?_
      · simp [FsCall.fatal, bne, hc]
      · simp [FsCall.guards, hc]
      · simp [FsCall.breaks]
    · exact (h.called (by simp)).pushDirectory _

theorem Accounted.visitFile (fullPath : AbsPath) : Accounted cfg realRoot (s.visitFile cfg fs realRoot fullPath) := by
  unfold Discovery.visitFile
  split
  · exact h.skippedPolicy
  · split
    · exact h
    · exact h.addFile _ _

theorem Accounted.visitEntry (dir : AbsPath) (entry : FileName) :
    Accounted cfg realRoot (s.visitEntry cfg fs realRoot dir entry) := by
  unfold Discovery.visitEntry
  dsimp only
  split
  · have hguards : (⟨.lstat, dir ++ [entry], .error .ENOENT⟩ : FsCall).guards cfg = false := by
      simp [FsCall.guards, denied]
    exact Accounted.same (h.harmless rfl hguards rfl) ⟨rfl, rfl, rfl, rfl⟩
  · rename_i c hne heq
    have hc : (c == .ENOENT) = false := by simpa using hne
    refine h.fail ?_ ?_ ?_
    · simp [FsCall.fatal, bne, hc]
    · simp [FsCall.guards]
    · simp [FsCall.breaks]
  · rename_i kind heq
    have hkind : Accounted cfg realRoot (s.called .lstat (dir ++ [entry]) (.kind kind)) :=
      h.called (by simp)
    split
    · exact hkind.visitSymlink _
    · exact hkind.visitDirectory _
    · exact hkind.visitFile _
    · exact hkind

theorem Accounted.readDirectory (dir : AbsPath) : Accounted cfg realRoot (s.readDirectory cfg fs realRoot dir) := by
  unfold Discovery.readDirectory
  split
  · exact h.fail rfl rfl (by simp [FsCall.breaks])
  · rename_i entries heq
    have hnames : Accounted cfg realRoot (s.called .readdir dir (.names entries)) :=
      h.called (by simp)
    clear heq
    generalize s.called .readdir dir (.names entries) = s₁ at hnames
    induction entries generalizing s₁ with
    | nil => exact hnames
    | cons entry entries ih => exact ih _ (hnames.visitEntry dir entry)

theorem Accounted.walk {fuel : ℕ} (hrun : walk cfg fs realRoot fuel s = some s') : Accounted cfg realRoot s' := by
  induction fuel generalizing s with
  | zero =>
    rw [Discovery.walk] at hrun
    split at hrun
    · cases hrun
      exact h
    · cases hrun
  | succ fuel ih =>
    rw [Discovery.walk] at hrun
    split at hrun
    · cases hrun
      exact h
    · rename_i dir rest hstack
      have hrest : Accounted cfg realRoot { s with stack := rest } := h.same ⟨rfl, rfl, rfl, rfl⟩
      exact ih (hrest.readDirectory dir) hrun

end

/-- **Every failing call leaves its trace in the result.** -/
theorem accounted_of_discover {fuel : ℕ} (h : discover cfg fs realRoot fuel = some s) : Accounted cfg realRoot s :=
  Accounted.initial.walk h

/-! ## Failures -/

/-- **A call about a listed name has failed.** The first path is the name's, the second what is at
stake: the same, or the target of a link that resolved. -/
inductive Failed (cfg : DiscoveryConfig) (calls : List FsCall) : AbsPath → AbsPath → Prop where
  | lstat {n : AbsPath} {code : ErrnoCode} : ⟨.lstat, n, .error code⟩ ∈ calls →
    shouldSkipDirectory cfg (basename n) = false → Failed cfg calls n n
  | link {n : AbsPath} {code : ErrnoCode} : ⟨.link, n, .error code⟩ ∈ calls → Failed cfg calls n n
  | target {n t : AbsPath} {code : ErrnoCode} : ⟨.link, n, .path t⟩ ∈ calls →
    ⟨.target, t, .error code⟩ ∈ calls → Failed cfg calls n t
  | directory {n : AbsPath} {code : ErrnoCode} : ⟨.directory, n, .error code⟩ ∈ calls →
    Failed cfg calls n n
  | file {n : AbsPath} {code : ErrnoCode} : ⟨.lstat, n, .kind .regular⟩ ∈ calls →
    ⟨.identity, n, .error code⟩ ∈ calls → Failed cfg calls n n
  | targetFile {n t : AbsPath} {code : ErrnoCode} : ⟨.link, n, .path t⟩ ∈ calls →
    ⟨.identity, t, .error code⟩ ∈ calls → Failed cfg calls n t
  | readdir {n d : AbsPath} {code : ErrnoCode} : ⟨.directory, n, .path d⟩ ∈ calls →
    ⟨.readdir, d, .error code⟩ ∈ calls → Failed cfg calls n n
  | targetReaddir {n t : AbsPath} {code : ErrnoCode} : ⟨.link, n, .path t⟩ ∈ calls →
    ⟨.readdir, t, .error code⟩ ∈ calls → Failed cfg calls n t

/-- The failures that hold back at most the path itself. -/
inductive Unguarded (cfg : DiscoveryConfig) (calls : List FsCall) : AbsPath → AbsPath → Prop where
  | vanished {n : AbsPath} : ⟨.lstat, n, .error .ENOENT⟩ ∈ calls →
    shouldSkipDirectory cfg (basename n) = false → Unguarded cfg calls n n
  | file {n : AbsPath} {code : ErrnoCode} : ⟨.lstat, n, .kind .regular⟩ ∈ calls →
    ⟨.identity, n, .error code⟩ ∈ calls → Unguarded cfg calls n n
  | targetFile {n t : AbsPath} {code : ErrnoCode} : ⟨.link, n, .path t⟩ ∈ calls →
    ⟨.identity, t, .error code⟩ ∈ calls → Unguarded cfg calls n t
  | moved {n d : AbsPath} {code : ErrnoCode} : ⟨.directory, n, .path d⟩ ∈ calls →
    ⟨.readdir, d, .error code⟩ ∈ calls → Unguarded cfg calls n n

theorem Unguarded.failed {calls : List FsCall} {n p : AbsPath} (h : Unguarded cfg calls n p) :
    Failed cfg calls n p := by
  cases h with
  | vanished hcall hskip => exact .lstat hcall hskip
  | file hkind hcall => exact .file hkind hcall
  | targetFile hpath hcall => exact .targetFile hpath hcall
  | moved hpath hcall => exact .readdir hpath hcall

/-- A link that answered `ENOENT` or `ELOOP`. -/
def BrokenLink (calls : List FsCall) (n : AbsPath) : Prop :=
  ∃ c ∈ calls, c.breaks = true ∧ c.path = n

/-- The path lies at or below one that was held back with all below it. -/
def Covered (cfg : DiscoveryConfig) (realRoot : AbsPath) (calls : List FsCall) (p : AbsPath) :
    Prop :=
  ∃ c ∈ calls, c.guards cfg = true ∧ relative realRoot c.path <+: relative realRoot p

/-- A failure that is neither fatal nor a broken link nor unguarded covers itself. -/
theorem Failed.cases {calls : List FsCall} {n p : AbsPath} (h : Failed cfg calls n p)
    (hfatal : ∀ c ∈ calls, c.fatal cfg = false) :
    Unguarded cfg calls n p ∨ BrokenLink calls n ∨ Covered cfg realRoot calls p := by
  cases h with
  | @lstat code hcall hskip =>
    by_cases hc : code = .ENOENT
    · rw [hc] at hcall
      exact .inl (.vanished hcall hskip)
    · have hnot := hfatal _ hcall
      refine .inr (.inr ⟨_, hcall, ?_, prefix_rfl⟩)
      simpa [FsCall.fatal, FsCall.guards, hc] using hnot
  | @link code hcall =>
    by_cases hc : code = .ENOENT ∨ code = .ELOOP
    · exact .inr (.inl ⟨_, hcall, by simpa [FsCall.breaks] using hc, rfl⟩)
    · have hnot := hfatal _ hcall
      rw [not_or] at hc
      refine .inr (.inr ⟨_, hcall, ?_, prefix_rfl⟩)
      simpa [FsCall.fatal, FsCall.guards, hc.1, hc.2] using hnot
  | @target _ code hpath hcall =>
    have hnot := hfatal _ hcall
    refine .inr (.inr ⟨_, hcall, ?_, prefix_rfl⟩)
    by_cases hc : code = .ENOENT
    · simp [FsCall.guards, hc]
    · simpa [FsCall.fatal, FsCall.guards, hc] using hnot
  | @directory code hcall =>
    have hnot := hfatal _ hcall
    refine .inr (.inr ⟨_, hcall, ?_, prefix_rfl⟩)
    by_cases hc : code = .ENOENT
    · simp [FsCall.guards, hc]
    · simpa [FsCall.fatal, FsCall.guards, hc] using hnot
  | file hkind hcall => exact .inl (.file hkind hcall)
  | targetFile hpath hcall => exact .inl (.targetFile hpath hcall)
  | readdir hpath hcall => exact .inl (.moved hpath hcall)
  | targetReaddir hpath hcall =>
    have hnot := hfatal _ hcall
    refine .inr (.inr ⟨_, hcall, ?_, prefix_rfl⟩)
    simpa [FsCall.fatal, FsCall.guards] using hnot

/-! ## Deletions -/

/-- **The walk accounts for every name it saw.** When a call about a name fails, the discovery is
incomplete and nothing is deleted, or the name is a link reported as broken, or no stored path at or
below what is at stake is deleted. -/
def AccountsFor (cfg : DiscoveryConfig) (realRoot : AbsPath) (s : Discovery) : Prop :=
  ∀ db n p, Failed cfg s.calls n p →
    (s.complete = false ∧ s.deletions realRoot db = []) ∨
    (∃ code, (relative realRoot n, code) ∈ s.brokenAliases) ∨
    ∀ q ∈ db.indexedPaths, relative realRoot p <+: q → q ∉ s.deletions realRoot db

/-- Nothing below a subtree that is held back is deleted. -/
theorem Accounted.not_deleted (h : Accounted cfg realRoot s)
    (hp : Covered cfg realRoot s.calls p) (db : DeletionInput) {q : RelPath}
    (hq : relative realRoot p <+: q) : q ∉ s.deletions realRoot db := by
  obtain ⟨c, hc, hguards, hle⟩ := hp
  have hmem : relative realRoot c.path ∈ s.uncertainSubtrees :=
    (h.subtrees _).mpr ⟨c, hc, hguards, rfl⟩
  unfold deletions deletedRelPaths
  split
  · split
    · simp
    · rename_i hglobal
      simp only [effectiveGlobalDeletionUncertainty, Bool.or_eq_true, not_or,
        contains_iff_mem] at hglobal
      have hne : relative realRoot c.path ≠ [] := fun h => hglobal.1 (h ▸ hmem)
      intro hdel
      have hheld := (mem_filter.mp hdel).2
      have hany : s.uncertainSubtrees.any (atOrUnder · q) = true := by
        refine any_eq_true.mpr ⟨_, hmem, ?_⟩
        simp only [atOrUnder, if_neg hne, Bool.or_eq_true]
        exact .inr (List.isPrefixOf_iff_prefix.mpr (hle.trans hq))
      simp [heldBack, hany] at hheld
  · simp

/-- There is always one more name. -/
theorem exists_fresh (p : RelPath) (l : List RelPath) : ∃ x : String, p ++ [x] ∉ l := by
  have hinj : Function.Injective fun n : ℕ => p ++ [String.ofList (List.replicate n 'a')] := by
    intro m n h
    have h' : String.ofList (List.replicate m 'a') = String.ofList (List.replicate n 'a') := by
      simpa using h
    have hlen := congrArg (fun t : String => t.toList.length) h'
    simpa using hlen
  obtain ⟨n, hn⟩ := (Set.infinite_range_of_injective hinj).exists_notMem_finset l.toFinset
  obtain ⟨⟨m, rfl⟩, hnot⟩ := hn
  exact ⟨_, fun hmem => hnot (mem_toFinset.mpr hmem)⟩

/-- What is not held back can be lost: a stored path right below it is deleted. -/
theorem Accounted.deleted (h : Accounted cfg realRoot s) (hfatal : ∀ c ∈ s.calls, c.fatal cfg = false)
    (hp : ¬Covered cfg realRoot s.calls p) : ∃ db : DeletionInput, ∃ q ∈ db.indexedPaths, relative realRoot p <+: q ∧
      q ∈ s.deletions realRoot db := by
  obtain ⟨x, hx⟩ := exists_fresh (relative realRoot p)
    (s.currentRelPaths realRoot ++ s.uncertainPaths ++ s.uncertainSubtrees)
  simp only [mem_append, not_or] at hx
  obtain ⟨⟨hcurrent, hpath⟩, hsubtree⟩ := hx
  have huncovered : ∀ u ∈ s.uncertainSubtrees, ¬u <+: relative realRoot p := by
    intro u hu hle
    obtain ⟨c, hc, hguards, rfl⟩ := (h.subtrees u).mp hu
    exact hp ⟨c, hc, hguards, hle⟩
  have hnil : [] ∉ s.uncertainSubtrees := fun hu => huncovered [] hu nil_prefix
  let db : DeletionInput := ⟨[relative realRoot p ++ [x]], [], true, false⟩
  refine ⟨db, relative realRoot p ++ [x], by simp [db], prefix_append _ _, ?_⟩
  have hcomplete : s.complete = true := by
    rw [complete, h.errors.mpr hfatal]
    rfl
  have hglobal : s.effectiveGlobalDeletionUncertainty db = false := by
    simp [effectiveGlobalDeletionUncertainty, coldStartLock, db, hnil]
  have hhistory : s.historicalBrokenAliases db = [] := by
    simp [historicalBrokenAliases, db]
  have hunder : s.uncertainSubtrees.any (atOrUnder · (relative realRoot p ++ [x])) = false := by
    rw [any_eq_false]
    intro u hu hle
    have hne : u ≠ [] := fun h => hnil (h ▸ hu)
    simp only [atOrUnder, if_neg hne, Bool.or_eq_true, beq_iff_eq] at hle
    rcases hle with hle | hle
    · exact hsubtree (hle ▸ hu)
    · rcases prefix_concat_iff.mp (List.isPrefixOf_iff_prefix.mp hle) with heq | hle
      · exact hsubtree (heq ▸ hu)
      · exact huncovered u hu hle
  rw [deletions, if_pos hcomplete, deletedRelPaths, if_neg (by simp [hglobal])]
  simp only [mem_filter, db, heldBack, protectedPaths, protectedSubtrees]
  rw [show s.historicalBrokenAliases ⟨[relative realRoot p ++ [x]], [], true, false⟩ = [] from
    hhistory, hunder]
  simp [hcurrent, hpath]

/-- **When the walk accounts for every name it saw**: a call has failed fatally, or every path whose
failure holds back at most itself lies at or below one that is held back with all below it. -/
theorem accountsFor_iff {fuel : ℕ} (h : discover cfg fs realRoot fuel = some s) : AccountsFor cfg realRoot s ↔
      (∃ c ∈ s.calls, c.fatal cfg = true) ∨
      ∀ n p, Unguarded cfg s.calls n p → BrokenLink s.calls n ∨ Covered cfg realRoot s.calls p := by
  have hacc := accounted_of_discover h
  constructor
  · intro hall
    by_contra hnot
    rw [not_or] at hnot
    obtain ⟨hfatal, hexists⟩ := hnot
    have hfatal' : ∀ c ∈ s.calls, c.fatal cfg = false := fun c hc =>
      Bool.eq_false_iff.mpr fun hf => hfatal ⟨c, hc, hf⟩
    refine hexists fun n p hun => ?_
    by_contra hboth
    rw [not_or] at hboth
    obtain ⟨db, q, hq, hle, hdel⟩ := hacc.deleted hfatal' hboth.2
    rcases hall db n p hun.failed with ⟨hincomplete, -⟩ | hbroken | hkept
    · rw [complete, hacc.errors.mpr hfatal'] at hincomplete
      cases hincomplete
    · obtain ⟨c, hc, hbreaks, heq⟩ := (hacc.broken _).mp hbroken
      exact hboth.1 ⟨c, hc, hbreaks, relative_injective _ heq⟩
    · exact hkept q hq hle hdel
  · intro hcond db n p hfailed
    by_cases hfatal : ∃ c ∈ s.calls, c.fatal cfg = true
    · left
      have hincomplete : s.complete = false := by
        rw [complete, Bool.eq_false_iff, ne_eq, List.isEmpty_iff, hacc.errors]
        obtain ⟨c, hc, hf⟩ := hfatal
        intro hall
        rw [hall c hc] at hf
        cases hf
      exact ⟨hincomplete, by rw [deletions, hincomplete]; rfl⟩
    · right
      have hfatal' : ∀ c ∈ s.calls, c.fatal cfg = false := fun c hc =>
        Bool.eq_false_iff.mpr fun hf => hfatal ⟨c, hc, hf⟩
      have hguarded : BrokenLink s.calls n ∨ Covered cfg realRoot s.calls p := by
        rcases hfailed.cases hfatal' with hun | hguarded
        · exact (hcond.resolve_left hfatal) n p hun
        · exact hguarded
      rcases hguarded with ⟨c, hc, hbreaks, rfl⟩ | hcovered
      · exact .inl ((hacc.broken _).mpr ⟨c, hc, hbreaks, rfl⟩)
      · exact .inr fun q _ hle => hacc.not_deleted hcovered db hle

/-! ## A directory that is listed and then gone -/

/-- The root lists `d`, and `lstat` answers a code. -/
def listedThen (code : ErrnoCode) : FileSystem where
  readdir := fun _ _ => .ok [⟨"d", by decide⟩]
  lstat := fun _ _ => .error code
  realpath := fun _ _ => .error code
  stat := fun _ _ => .error code

def tolerantConfig : DiscoveryConfig := ⟨.full, [], true, id⟩

/-- What the walk has asked of it. -/
def listedThenCalls (code : ErrnoCode) : List FsCall :=
  [⟨.readdir, [], .names [⟨"d", by decide⟩]⟩, ⟨.lstat, [⟨"d", by decide⟩], .error code⟩]

/-- A denied name holds back all below it. -/
theorem accountsFor_denied : ∃ s,
    discover tolerantConfig (listedThen .EACCES) [] 1 = some s ∧ AccountsFor tolerantConfig [] s := by
  have hrun : discover tolerantConfig (listedThen .EACCES) [] 1 = some _ := rfl
  refine ⟨_, rfl, (accountsFor_iff hrun).mpr (.inr ?_)⟩
  show ∀ n p, Unguarded tolerantConfig (listedThenCalls .EACCES) n p → _
  intro n p h
  cases h <;> simp_all [listedThenCalls]

/-- **A listed directory that is gone for a moment loses its files**: `lstat` answers `ENOENT`, and a
stored path below it is deleted. -/
theorem vanished_directory_deleted : ∃ s,
    discover tolerantConfig (listedThen .ENOENT) [] 1 = some s ∧ ¬AccountsFor tolerantConfig [] s := by
  refine ⟨_, rfl, fun h => ?_⟩
  have hfailed : Failed tolerantConfig (listedThenCalls .ENOENT) [⟨"d", by decide⟩]
      [⟨"d", by decide⟩] :=
    @Failed.lstat _ _ _ .ENOENT (by decide) (by decide)
  rcases h ⟨[["d", "f.ts"]], [], true, true⟩ _ _ hfailed with ⟨hincomplete, -⟩ | ⟨_, hbroken⟩ | hkept
  · cases hincomplete
  · cases hbroken
  · exact hkept ["d", "f.ts"] (by decide) (by decide) (by decide +kernel)

end Discovery

end Ariad
