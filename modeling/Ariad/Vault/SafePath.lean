import Ariad.Javascript.Text
import Ariad.Posix.Disk

/-!
# Path confinement

`assertPathInsideRoot` on a disk with links, and the writes of `writeNote`.

* `realpathSync` — the resolver of the runtime, which is not the one of the operating system: it asks
  the system whether what a link leads to exists, but it takes `..` in a link's text lexically.
* `assertPathInsideRoot` — the longest part of the path that resolves, with the rest put back behind it.
* `Confined` — what is opened at the path that is returned lies inside the root.
* `DanglingInside` — where the candidate does not resolve any further, no link leads out of the root.
-/

namespace Ariad.SafePath

open List

variable (d : Disk Text) (kernelLinks : ℕ)

/-! ## The resolver of the runtime -/

/-- `path.resolve(base, …)` on names: `..` takes back the name before it, link or not. -/
def lexical (base : Location Text) (parts : List (LinkPart Text)) : Location Text :=
  parts.foldl (fun acc part => match part with
    | .name n => acc ++ [n]
    | .up => acc.dropLast) base

/-- The scan of a path up to the next link. -/
inductive Scan where
  | done (r : Except DiskError (Location Text))
  /-- The path with the link replaced, to be scanned from its start. -/
  | restart (todo : Location Text)

/-- Scan names below a location that is known to be hard. Before a link is read, `statSync` asks whether
what it leads to exists. -/
def scan : Location Text → Location Text → Scan
  | cur, [] => .done (.ok cur)
  | cur, n :: rest =>
    match d.entry cur with
    | some .directory =>
      match d.entry (cur ++ [n]) with
      | none => .done (.error .ENOENT)
      | some (.symlink l) =>
        match d.resolve false kernelLinks cur [.name n] with
        | .error e => .done (.error e)
        | .ok _ => .restart (lexical (if l.absolute then [] else cur) l.parts ++ rest)
      | some _ => scan (cur ++ [n]) rest
    | _ => .done (.error .ENOTDIR)

/-- `realpathSync` of an absolute path, through at most `links` links; it returns how many it had left. -/
def realpathSync (links : ℕ) (p : Location Text) : Except DiskError (Location Text × ℕ) :=
  match scan d kernelLinks [] p with
  | .done (.ok q) => .ok (q, links)
  | .done (.error e) => .error e
  | .restart p' =>
    match links with
    | 0 => .error .ELOOP
    | links + 1 => realpathSync links p'

/-! ## The check -/

inductive PathError where
  | traversal
  | backslash
  | outside
  | noAncestor
  | disk (e : DiskError)
  deriving DecidableEq

/-- The resolved ancestor with the remaining parts behind it. The path is given with its last name
first. -/
def nearestExistingAncestor (links : ℕ) :
    Location Text → Location Text → Except PathError (Location Text × Location Text)
  | current, parts =>
    match realpathSync d kernelLinks links current.reverse with
    | .ok (real, _) => .ok (real, parts)
    | .error .ENOENT =>
      match current with
      | [] => .error .noAncestor
      | n :: parent => nearestExistingAncestor links parent (n :: parts)
    | .error e => .error (.disk e)

def safeRealpath (links : ℕ) (absPath : Location Text) : Except PathError (Location Text) :=
  match realpathSync d kernelLinks links absPath with
  | .ok (real, _) => .ok real
  | .error .ENOENT =>
    match nearestExistingAncestor d kernelLinks links absPath.reverse [] with
    | .ok (realAncestor, remainingParts) => .ok (realAncestor ++ remainingParts)
    | .error e => .error e
  | .error e => .error (.disk e)

/-- `relative(root, candidate)` does not lead up. -/
def isPathInside (root candidate : Location Text) : Bool := decide (root <+: candidate)

/-- The names of a relative path, without empty ones and `.`. -/
def segments (relPath : Text) : Location Text :=
  (relPath.splitOn '/').filter fun s => !(s == [] || s == ".".toList)

/-- The resolved root; of a root that does not resolve, the path as it is. -/
def absRoot (links : ℕ) (rootPath : Location Text) : Location Text :=
  match realpathSync d kernelLinks links rootPath with
  | .ok (real, _) => real
  | .error _ => rootPath

def assertPathInsideRoot (links : ℕ) (rootPath : Location Text) (relPath : Text) :
    Except PathError (Location Text) :=
  if "..".toList <:+: relPath then .error .traversal
  else if relPath.contains '\\' then .error .backslash
  else
    let root := absRoot d kernelLinks links rootPath
    match safeRealpath d kernelLinks links (root ++ segments relPath) with
    | .ok realPath => if isPathInside root realPath then .ok realPath else .error .outside
    | .error e => .error e

/-! ## Writing a note -/

/-- `mkdirSync(base/todo, { recursive: true })`: the directory, and the directories that were made. A
directory that is made is empty, so every name below it is missing too. The last name of a directory to
be made is not followed when it is a link. -/
def mkdirRecursive (base : Location Text) :
    Location Text → Except DiskError (Location Text × List (Location Text))
  | [] =>
    match d.resolve false kernelLinks [] (Disk.parts base) with
    | .ok loc => if d.entry loc = some .directory then .ok (loc, []) else .error .EEXIST
    | .error e => .error e
  | n :: rest =>
    match d.resolve false kernelLinks [] (Disk.parts (base ++ [n])) with
    | .ok _ => mkdirRecursive (base ++ [n]) rest
    | .error .ENOENT =>
      match d.resolve false kernelLinks [] (Disk.parts base) with
      | .ok loc =>
        if d.entry (loc ++ [n]) = none then
          .ok (loc ++ n :: rest, rest.inits.map fun t => loc ++ n :: t)
        else .error .EEXIST
      | .error e => .error e
    | .error e => .error e

/-- `${absPath}.bak.${Date.now()}`. -/
def backupPath (absPath : Location Text) (now : Text) : Location Text :=
  absPath.dropLast ++ [absPath.getLastD [] ++ ".bak.".toList ++ now]

/-- What `writeNote` did: whether the note was written, and where the file system was written to. -/
structure NoteWrite where
  written : Bool
  touched : List (Location Text)
  deriving DecidableEq

/-- The note that is there: nothing to do (`none`), or the backup that was made. -/
def backUp (contents : Location Text → Text) (absPath : Location Text) (content : Text)
    (backupBeforeWrite : Bool) (now : Text) : Except DiskError (Option (List (Location Text))) :=
  match d.resolve false kernelLinks [] (Disk.parts absPath) with
  | .error _ => .ok (some [])
  | .ok existing =>
    if d.entry existing = some .directory then .error .EISDIR
    else if contents existing = content then .ok none
    else if backupBeforeWrite then
      match d.resolve true kernelLinks [] (Disk.parts (backupPath absPath now)) with
      | .ok loc => .ok (some [loc])
      | .error e => .error e
    else .ok (some [])

/-- The directories of the note, and the note. -/
def writeFile (absPath : Location Text) : Except DiskError (List (Location Text)) :=
  match mkdirRecursive d kernelLinks [] absPath.dropLast with
  | .error e => .error e
  | .ok (_, []) =>
    match d.resolve true kernelLinks [] (Disk.parts absPath) with
    | .ok loc => .ok [loc]
    | .error e => .error e
  | .ok (dir, made) => .ok (made ++ [dir ++ [absPath.getLastD []]])

def writeNote (contents : Location Text → Text) (links : ℕ) (vaultPath : Location Text)
    (relPath content : Text) (backupBeforeWrite : Bool) (now : Text) : Except PathError NoteWrite :=
  match assertPathInsideRoot d kernelLinks links vaultPath relPath with
  | .error e => .error e
  | .ok absPath =>
    match backUp d kernelLinks contents absPath content backupBeforeWrite now with
    | .error e => .error (.disk e)
    | .ok none => .ok ⟨false, []⟩
    | .ok (some backup) =>
      match writeFile d kernelLinks absPath with
      | .error e => .error (.disk e)
      | .ok locs => .ok ⟨true, backup ++ locs⟩

/-! ## What is touched -/

/-- **What the system opens** at the path, to read a file that is there or to create one, lies inside the
root. -/
def Confined (root p : Location Text) : Prop :=
  ∀ create loc, d.resolve create kernelLinks [] (Disk.parts p) = .ok loc → root <+: loc

/-- **Links that do not resolve lead inside the root.** The condition looks at the part of the candidate
where the resolver of the runtime reports that something is missing. When a link lies there, what it
leads to, with the rest of the candidate behind it, has to lie inside the root. -/
def DanglingInside (links : ℕ) (root candidate : Location Text) : Prop :=
  ∀ pre n rest anc left l, candidate = pre ++ n :: rest →
    realpathSync d kernelLinks links pre = .ok (anc, left) →
    realpathSync d kernelLinks links (pre ++ [n]) = .error .ENOENT →
    d.entry (anc ++ [n]) = some (.symlink l) →
    ∀ create loc, d.resolve create kernelLinks anc (Disk.parts (n :: rest)) = .ok loc → root <+: loc

/-- No link lies where the candidate does not resolve any further. -/
def NoDangling (links : ℕ) (candidate : Location Text) : Prop :=
  ∀ pre n rest anc left l, candidate = pre ++ n :: rest →
    realpathSync d kernelLinks links pre = .ok (anc, left) →
    realpathSync d kernelLinks links (pre ++ [n]) = .error .ENOENT →
    d.entry (anc ++ [n]) ≠ some (.symlink l)

/-- No link has the name of the backup of the file that the candidate resolves to. -/
def NoBackupLink (links : ℕ) (candidate : Location Text) (now : Text) : Prop :=
  ∀ q left l, realpathSync d kernelLinks links candidate = .ok (q, left) →
    d.entry (backupPath q now) ≠ some (.symlink l)

variable {d kernelLinks} {links links' : ℕ} {root p q anc : Location Text}

/-! ## The resolver's results -/

variable {locs : List (Location Text)} {rootPath : Location Text}
  {candidate remaining : Location Text} {n : Text} {rest : Location Text}

/-- What a scan that ends has found is hard. -/
theorem scan_done_hard {cur todo : Location Text} (hc : d.Hard cur)
    (h : scan d kernelLinks cur todo = .done (.ok q)) : d.Hard q := by
  induction todo generalizing cur with
  | nil =>
    obtain rfl : cur = q := by simpa [scan] using h
    exact hc
  | cons n rest ih =>
    rw [scan] at h
    split at h
    · split at h
      · cases h
      · split at h <;> cases h
      · rename_i e hlink he
        refine ih (hc.concat ?_) h
        cases e with
        | file => exact .inl he
        | directory => exact .inr he
        | symlink l => exact absurd rfl (hlink l)
    · cases h

/-- What `realpathSync` makes of a scan. -/
def resumed (d : Disk Text) (kernelLinks links : ℕ) : Scan → Except DiskError (Location Text × ℕ)
  | .done (.ok q) => .ok (q, links)
  | .done (.error e) => .error e
  | .restart p =>
    match links with
    | 0 => .error .ELOOP
    | links + 1 => realpathSync d kernelLinks links p

theorem realpathSync_eq (links : ℕ) (p : Location Text) :
    realpathSync d kernelLinks links p = resumed d kernelLinks links (scan d kernelLinks [] p) := by
  unfold realpathSync
  cases scan d kernelLinks [] p with
  | done r => cases r <;> rfl
  | restart p' => cases links <;> rfl

theorem realpathSync_hard (h : realpathSync d kernelLinks links p = .ok (q, links')) : d.Hard q := by
  induction links generalizing p with
  | zero =>
    rw [realpathSync_eq] at h
    cases hs : scan d kernelLinks [] p with
    | done r =>
      cases r with
      | error e => simp [hs, resumed] at h
      | ok r =>
        simp only [hs, resumed, Except.ok.injEq, Prod.mk.injEq] at h
        exact h.1 ▸ scan_done_hard Disk.hard_nil hs
    | restart p' => simp [hs, resumed] at h
  | succ links ih =>
    rw [realpathSync_eq] at h
    cases hs : scan d kernelLinks [] p with
    | done r =>
      cases r with
      | error e => simp [hs, resumed] at h
      | ok r =>
        simp only [hs, resumed, Except.ok.injEq, Prod.mk.injEq] at h
        exact h.1 ▸ scan_done_hard Disk.hard_nil hs
    | restart p' =>
      rw [hs, resumed] at h
      exact ih h

/-- A scan of a longer path goes on where the scan of the shorter one ended. -/
theorem scan_append (cur todo more : Location Text) :
    scan d kernelLinks cur (todo ++ more) =
      match scan d kernelLinks cur todo with
      | .done (.ok q) => scan d kernelLinks q more
      | .done (.error e) => .done (.error e)
      | .restart p' => .restart (p' ++ more) := by
  induction todo generalizing cur with
  | nil => simp [scan]
  | cons n rest ih =>
    rw [cons_append, scan, scan]
    split
    · split
      · rfl
      · split
        · rfl
        · simp
      · exact ih _
    · rfl

theorem realpathSync_bind (links : ℕ) (p more : Location Text) : realpathSync d kernelLinks links (p ++ more) =
    realpathSync d kernelLinks links p >>= fun r => resumed d kernelLinks r.2 (scan d kernelLinks r.1 more) := by
  induction links generalizing p with
  | zero =>
    rw [realpathSync_eq, realpathSync_eq, scan_append]
    cases scan d kernelLinks [] p with
    | done r => cases r <;> rfl
    | restart p' => rfl
  | succ links ih =>
    rw [realpathSync_eq, realpathSync_eq, scan_append]
    cases scan d kernelLinks [] p with
    | done r => cases r <;> rfl
    | restart p' => exact ih p'

/-- **What stands behind a resolved path is looked up in the location it resolved to.** -/
theorem realpathSync_append {more : Location Text} (h : realpathSync d kernelLinks links p = .ok (q, links')) :
    realpathSync d kernelLinks links (p ++ more) = resumed d kernelLinks links' (scan d kernelLinks q more) := by
  rw [realpathSync_bind, h]
  rfl

/-! ## The walk up -/

/-- The ancestor is hard, and the first part that is put back is missing there, or it is a link. -/
def PutBack (d : Disk Text) (anc : Location Text) : Location Text → Prop
  | [] => True
  | n :: _ => d.entry anc = some .directory ∧
      (d.entry (anc ++ [n]) = none ∨ ∃ l, d.entry (anc ++ [n]) = some (.symlink l))

theorem putBack_of_ENOENT
    (h : resumed d kernelLinks links (scan d kernelLinks anc [n]) = .error .ENOENT) :
    PutBack d anc (n :: rest) := by
  rw [scan] at h
  split at h
  · rename_i hdir
    refine ⟨hdir, ?_⟩
    split at h
    · rename_i hnone
      exact .inl hnone
    · rename_i l hl
      exact .inr ⟨l, hl⟩
    · cases h
  · cases h

/-- A path that does not resolve does not resolve when it goes on, for the same reason. -/
theorem realpathSync_error_append {e : DiskError} (more : Location Text)
    (h : realpathSync d kernelLinks links p = .error e) :
    realpathSync d kernelLinks links (p ++ more) = .error e := by
  rw [realpathSync_bind, h]
  rfl

/-- `candidate` resolves down to `anc`, and no further than that. -/
def Stopped (d : Disk Text) (kernelLinks links : ℕ) (candidate anc remaining : Location Text) : Prop :=
  ∃ pre left, candidate = pre ++ remaining ∧
    realpathSync d kernelLinks links pre = .ok (anc, left) ∧
    ∀ n rest, remaining = n :: rest → realpathSync d kernelLinks links (pre ++ [n]) = .error .ENOENT

theorem Stopped.hard
    (h : Stopped d kernelLinks links candidate anc remaining) : d.Hard anc := by
  obtain ⟨pre, left, -, hreal, -⟩ := h
  exact realpathSync_hard hreal

theorem Stopped.putBack
    (h : Stopped d kernelLinks links candidate anc remaining) : PutBack d anc remaining := by
  obtain ⟨pre, left, -, hreal, hfail⟩ := h
  cases remaining with
  | nil => exact trivial
  | cons n rest =>
    have hn := hfail n rest rfl
    rw [realpathSync_append hreal] at hn
    exact putBack_of_ENOENT hn

/-- **Where the walk up stops.** -/
theorem nearestExistingAncestor_spec {current parts remaining : Location Text}
    (hfail : ∀ n rest, parts = n :: rest →
      realpathSync d kernelLinks links (current.reverse ++ [n]) = .error .ENOENT)
    (h : nearestExistingAncestor d kernelLinks links current parts = .ok (anc, remaining)) :
    Stopped d kernelLinks links (current.reverse ++ parts) anc remaining := by
  induction current generalizing parts with
  | nil =>
    rw [nearestExistingAncestor] at h
    split at h
    · rename_i hreal
      cases h
      exact ⟨_, _, rfl, hreal, hfail⟩
    · cases h
    · cases h
  | cons n parent ih =>
    rw [nearestExistingAncestor] at h
    split at h
    · rename_i hreal
      cases h
      exact ⟨_, _, rfl, hreal, hfail⟩
    · rename_i hnone
      have hfail' : ∀ m rest, n :: parts = m :: rest →
          realpathSync d kernelLinks links (parent.reverse ++ [m]) = .error .ENOENT := by
        intro m rest heq
        obtain ⟨rfl, -⟩ := List.cons.inj heq
        simpa using hnone
      simpa using ih hfail' h
    · cases h

/-- **The path that is returned** is what the candidate resolves to, with the rest put back behind it. -/
theorem safeRealpath_spec (h : safeRealpath d kernelLinks links p = .ok q) :
    ∃ anc remaining, q = anc ++ remaining ∧ Stopped d kernelLinks links p anc remaining := by
  rw [safeRealpath] at h
  split at h
  · rename_i hreal
    cases h
    exact ⟨q, [], by simp, ⟨p, _, by simp, hreal, by simp⟩⟩
  · split at h
    · rename_i anc remaining hnear
      cases h
      have hstop := nearestExistingAncestor_spec (by simp) hnear
      exact ⟨anc, remaining, rfl, by simpa using hstop⟩
    · cases h
  · cases h

theorem assertPathInsideRoot_spec {relPath : Text}
    (h : assertPathInsideRoot d kernelLinks links rootPath relPath = .ok p) :
    absRoot d kernelLinks links rootPath <+: p ∧
      ∃ anc remaining, p = anc ++ remaining ∧
        Stopped d kernelLinks links (absRoot d kernelLinks links rootPath ++ segments relPath)
          anc remaining := by
  rw [assertPathInsideRoot] at h
  split at h
  · cases h
  · split at h
    · cases h
    · simp only at h
      split at h
      · rename_i hreal
        split at h
        · rename_i hin
          cases h
          exact ⟨by simpa [isPathInside] using hin, safeRealpath_spec hreal⟩
        · cases h
      · cases h

/-- There is one place where a candidate stops to resolve. -/
theorem Stopped.unique {candidate remaining pre rest : Location Text} {anc' : Location Text}
    {left : ℕ} (h : Stopped d kernelLinks links candidate anc remaining)
    (hc : candidate = pre ++ n :: rest)
    (hreal : realpathSync d kernelLinks links pre = .ok (anc', left))
    (hfail : realpathSync d kernelLinks links (pre ++ [n]) = .error .ENOENT) :
    anc' = anc ∧ remaining = n :: rest := by
  obtain ⟨pre', left', hc', hreal', hfail'⟩ := h
  rw [hc] at hc'
  rcases append_eq_append_iff.mp hc' with ⟨t, rfl, ht⟩ | ⟨t, rfl, ht⟩
  · -- The walk stopped lower down, though the candidate does not resolve to there.
    cases t with
    | nil =>
      rw [append_nil, hreal] at hreal'
      cases hreal'
      exact ⟨rfl, by simpa using ht.symm⟩
    | cons m t =>
      obtain ⟨rfl, -⟩ := List.cons.inj ht
      have := realpathSync_error_append t hfail
      rw [append_assoc, singleton_append, hreal'] at this
      cases this
  · cases t with
    | nil =>
      rw [append_nil, hreal'] at hreal
      cases hreal
      exact ⟨rfl, by simpa using ht⟩
    | cons m t =>
      have := realpathSync_error_append t (hfail' m (t ++ n :: rest) (by simpa using ht))
      rw [append_assoc, singleton_append, hreal] at this
      cases this

/-! ## Confinement -/

/-- Past a hard directory, a missing name is reached only to be created. -/
theorem resolve_missing {create : Bool} {rest loc : Location Text} (hhard : d.Hard anc)
    (hdir : d.entry anc = some .directory) (hn : d.entry (anc ++ [n]) = none)
    (h : d.resolve create kernelLinks [] (Disk.parts (anc ++ n :: rest)) = .ok loc) :
    rest = [] ∧ loc = anc ++ [n] := by
  rw [show Disk.parts (anc ++ n :: rest) = Disk.parts anc ++ Disk.parts (n :: rest) by
    simp [Disk.parts], Disk.resolve_append hhard] at h
  have hdone : d.advance create anc (Disk.parts (n :: rest)) =
      .done (if create && (Disk.parts rest).isEmpty then .ok (anc ++ [n]) else .error .ENOENT) := by
    simp [Disk.parts, Disk.advance, hdir, hn]
  rw [Disk.resolve_of_done d hdone] at h
  split at h
  · rename_i hc
    obtain rfl := Except.ok.inj h
    refine ⟨?_, rfl⟩
    have hempty : (Disk.parts rest).isEmpty = true := by
      simp only [Bool.and_eq_true] at hc
      exact hc.2
    simpa [Disk.parts, List.isEmpty_iff] using hempty
  · cases h

/-- **The path is confined exactly when no link that does not resolve leads out of the root.** -/
theorem confined_iff {relPath : Text}
    (h : assertPathInsideRoot d kernelLinks links rootPath relPath = .ok p) :
    Confined d kernelLinks (absRoot d kernelLinks links rootPath) p ↔
      DanglingInside d kernelLinks links (absRoot d kernelLinks links rootPath)
        (absRoot d kernelLinks links rootPath ++ segments relPath) := by
  obtain ⟨hin, anc, remaining, rfl, hstop⟩ := assertPathInsideRoot_spec h
  constructor
  · intro hconf pre n rest anc' left l hc hreal hfail hl create loc hloc
    obtain ⟨rfl, rfl⟩ := hstop.unique hc hreal hfail
    refine hconf create loc ?_
    rwa [show Disk.parts (anc' ++ n :: rest) = Disk.parts anc' ++ Disk.parts (n :: rest) by
      simp [Disk.parts], Disk.resolve_append hstop.hard]
  · intro hcond create loc hloc
    have hback := hstop.putBack
    cases remaining with
    | nil =>
      rw [append_nil, Disk.resolve_hard hstop.hard] at hloc
      cases hloc
      simpa using hin
    | cons n rest =>
      obtain ⟨hdir, hnone | ⟨l, hl⟩⟩ := hback
      · obtain ⟨rfl, rfl⟩ := resolve_missing hstop.hard hdir hnone hloc
        exact hin
      · have hhard := hstop.hard
        obtain ⟨pre, left, hc, hreal, hfail⟩ := hstop
        refine hcond pre n rest anc left l hc hreal (hfail n rest rfl) hl create loc ?_
        rwa [show Disk.parts (anc ++ n :: rest) = Disk.parts anc ++ Disk.parts (n :: rest) by
          simp [Disk.parts], Disk.resolve_append hhard] at hloc

/-! ## Writing -/

theorem mkdirRecursive_hard {base todo : Location Text} (hhard : d.Hard (base ++ todo))
    (hdir : d.entry (base ++ todo) = some .directory) :
    mkdirRecursive d kernelLinks base todo = .ok (base ++ todo, []) := by
  induction todo generalizing base with
  | nil =>
    rw [append_nil] at hhard hdir ⊢
    rw [mkdirRecursive, Disk.resolve_hard hhard]
    exact if_pos hdir
  | cons n rest ih =>
    have hhard' : d.Hard (base ++ [n] ++ rest) := by simpa using hhard
    have ih' := ih hhard' (by simpa using hdir)
    rw [mkdirRecursive, Disk.resolve_hard (hhard'.of_prefix (prefix_append _ _))]
    simpa using ih'

/-- A name that is missing in a hard directory is not resolved. -/
theorem resolve_missing_eq (hhard : d.Hard anc)
    (hdir : d.entry anc = some .directory) (hn : d.entry (anc ++ [n]) = none) :
    d.resolve false kernelLinks [] (Disk.parts (anc ++ n :: rest)) = .error .ENOENT := by
  rw [show Disk.parts (anc ++ n :: rest) = Disk.parts anc ++ Disk.parts (n :: rest) by
    simp [Disk.parts], Disk.resolve_append hhard]
  refine Disk.resolve_of_done d ?_
  simp [Disk.parts, Disk.advance, hdir, hn]

theorem mkdirRecursive_missing {base todo rest : Location Text}
    (hhard : d.Hard (base ++ todo)) (hdir : d.entry (base ++ todo) = some .directory)
    (hn : d.entry (base ++ todo ++ [n]) = none) :
    mkdirRecursive d kernelLinks base (todo ++ n :: rest) =
      .ok (base ++ todo ++ n :: rest, rest.inits.map fun t => base ++ todo ++ n :: t) := by
  induction todo generalizing base with
  | nil =>
    rw [append_nil] at hhard hdir hn ⊢
    rw [nil_append, mkdirRecursive, resolve_missing_eq hhard hdir hn, Disk.resolve_hard hhard]
    exact if_pos hn
  | cons m todo ih =>
    have hhard' : d.Hard (base ++ [m] ++ todo) := by simpa using hhard
    have ih' := ih hhard' (by simpa using hdir) (by simpa using hn)
    rw [cons_append, mkdirRecursive,
      Disk.resolve_hard (hhard'.of_prefix (prefix_append _ _))]
    simpa using ih'

/-- Below a root that is there, the walk up stops inside the root. -/
theorem prefix_of_putBack {remaining : Location Text} (hroot : d.Hard root)
    (hin : root <+: anc ++ remaining)
    (hmissing : ∀ n rest, remaining = n :: rest → ¬ d.Solid (anc ++ [n])) : root <+: anc := by
  rcases prefix_or_prefix_of_prefix hin (prefix_append anc remaining) with h | ⟨t, rfl⟩
  · exact h
  · cases t with
    | nil => simp
    | cons n t =>
      obtain ⟨s, rfl⟩ := (prefix_append_right_inj anc).mp hin
      exact absurd (hroot _ ⟨t, by simp⟩) (hmissing n (t ++ s) rfl)

/-- A file name that is no link is reached as it stands in its directory. -/
theorem resolve_beside {loc : Location Text} (hhard : d.Hard anc)
    (hl : ∀ l, d.entry (anc ++ [n]) ≠ some (.symlink l))
    (h : d.resolve true kernelLinks [] (Disk.parts (anc ++ [n])) = .ok loc) : loc = anc ++ [n] := by
  cases he : d.entry (anc ++ [n]) with
  | none =>
    have hdir : d.entry anc = some .directory := by
      by_contra hne
      rw [show Disk.parts (anc ++ [n]) = Disk.parts anc ++ Disk.parts [n] by simp [Disk.parts],
        Disk.resolve_append hhard] at h
      have hdone : d.advance true anc (Disk.parts [n]) = .done (.error .ENOTDIR) := by
        cases ha : d.entry anc with
        | none => simp [Disk.parts, Disk.advance, ha]
        | some e =>
          cases e with
          | directory => exact absurd ha hne
          | file => simp [Disk.parts, Disk.advance, ha]
          | symlink l => simp [Disk.parts, Disk.advance, ha]
      rw [Disk.resolve_of_done d hdone] at h
      cases h
    exact (resolve_missing hhard hdir he h).2
  | some e =>
    have hsolid : d.Solid (anc ++ [n]) := by
      cases e with
      | file => exact .inl he
      | directory => exact .inr he
      | symlink l => exact absurd he (hl l)
    rw [Disk.resolve_hard (hhard.concat hsolid)] at h
    exact (Except.ok.inj h).symm

theorem backUp_inside {contents : Location Text → Text} {content now : Text} {b : Bool} (hhard : d.Hard p) (hin : root <+: p) (hdir : d.entry root = some .directory)
    (hl : ∀ l, d.entry (backupPath p now) ≠ some (.symlink l))
    (h : backUp d kernelLinks contents p content b now = .ok (some locs)) :
    ∀ loc ∈ locs, root <+: loc := by
  rw [backUp, Disk.resolve_hard hhard] at h
  simp only at h
  split at h
  · cases h
  · rename_i hfile
    split at h
    · cases h
    · split at h
      · split at h
        · rename_i loc hloc
          cases h
          -- The file is not the root, so its directory lies inside the root.
          have hbelow : root <+: p.dropLast := by
            rcases eq_nil_or_concat' p with rfl | ⟨dir, n, rfl⟩
            · exact absurd d.root hfile
            · rcases prefix_concat_iff.mp hin with rfl | hin
              · exact absurd hdir hfile
              · simpa using hin
          obtain rfl := resolve_beside (hhard.of_prefix (List.dropLast_prefix p)) hl hloc
          intro loc hmem
          obtain rfl := mem_singleton.mp hmem
          exact hbelow.trans (prefix_append _ _)
        · cases h
      · cases h
        simp

theorem writeFile_existing (hhard : d.Hard p)
    (h : writeFile d kernelLinks p = .ok locs) : locs = [p] := by
  have hmk : mkdirRecursive d kernelLinks [] p.dropLast = .ok (p.dropLast, []) := by
    refine mkdirRecursive_hard (hhard.of_prefix (List.dropLast_prefix p)) ?_
    rcases eq_nil_or_concat' p with rfl | ⟨dir, n, rfl⟩
    · exact d.root
    · simpa using hhard.directory (q := dir) (prefix_append _ _) (by simp)
  rw [writeFile, hmk] at h
  simp only [Disk.resolve_hard hhard] at h
  exact (Except.ok.inj h).symm

theorem writeFile_missing
    (hhard : d.Hard anc) (hdir : d.entry anc = some .directory) (hn : d.entry (anc ++ [n]) = none)
    (h : writeFile d kernelLinks (anc ++ n :: rest) = .ok locs) : ∀ loc ∈ locs, anc <+: loc := by
  cases rest with
  | nil =>
    have hmk : mkdirRecursive d kernelLinks [] anc = .ok (anc, []) := mkdirRecursive_hard hhard hdir
    rw [writeFile, dropLast_concat, hmk] at h
    simp only at h
    split at h
    · rename_i loc hloc
      obtain rfl := (resolve_missing hhard hdir hn hloc).2
      cases h
      simp
    · cases h
  | cons m rest =>
    have hmk : mkdirRecursive d kernelLinks [] (anc ++ n :: (m :: rest).dropLast) = _ :=
      mkdirRecursive_missing hhard hdir hn
    rw [writeFile, dropLast_append_cons, dropLast_cons_of_ne_nil (by simp), hmk] at h
    split at h
    · cases h
    · rename_i hmade
      have hempty := (Prod.mk.inj (Except.ok.inj hmade)).2
      have hnil : [] ∈ (m :: rest).dropLast.inits := (mem_inits _ _).mpr nil_prefix
      rw [map_eq_nil_iff.mp hempty] at hnil
      cases hnil
    · rename_i heq
      cases heq
      cases h
      intro loc hloc
      simp only [mem_append, mem_map, mem_singleton] at hloc
      rcases hloc with ⟨t, -, rfl⟩ | rfl
      · simp
      · simp

/-- **`writeNote` stays inside the vault**, where no link stands in the way of the candidate or of the
backup. -/
theorem writeNote_inside {contents : Location Text → Text} {vaultPath : Location Text} {left : ℕ}
    {relPath content now : Text} {b : Bool} {w : NoteWrite}
    (hroot : realpathSync d kernelLinks links vaultPath = .ok (root, left))
    (hdir : d.entry root = some .directory)
    (hno : NoDangling d kernelLinks links (root ++ segments relPath))
    (hbak : NoBackupLink d kernelLinks links (root ++ segments relPath) now)
    (h : writeNote d kernelLinks contents links vaultPath relPath content b now = .ok w) :
    ∀ loc ∈ w.touched, root <+: loc := by
  have habs : absRoot d kernelLinks links vaultPath = root := by rw [absRoot, hroot]
  rw [writeNote] at h
  split at h
  · cases h
  · rename_i p hp
    obtain ⟨hin, anc, remaining, rfl, hstop⟩ := assertPathInsideRoot_spec hp
    rw [habs] at hin hstop
    have hhard := hstop.hard
    have hback := hstop.putBack
    obtain ⟨pre, left', hc, hreal, hfail⟩ := hstop
    split at h
    · cases h
    · cases h
      simp
    · rename_i backup hbackup
      split at h
      · cases h
      · rename_i locs hlocs
        cases h
        intro loc hloc
        rcases mem_append.mp hloc with hmem | hmem
        · cases remaining with
          | nil =>
            rw [append_nil] at hbackup hin hc
            exact backUp_inside hhard hin hdir (fun l => hbak anc left' l (hc ▸ hreal)) hbackup loc hmem
          | cons n rest =>
            obtain ⟨hanc, hnone | ⟨l, hl⟩⟩ := hback
            · rw [backUp, resolve_missing_eq hhard hanc hnone] at hbackup
              cases hbackup
              cases hmem
            · exact absurd hl (hno pre n rest anc left' l hc hreal (hfail n rest rfl))
        · cases remaining with
          | nil =>
            rw [append_nil] at hlocs hin
            obtain rfl := writeFile_existing hhard hlocs
            obtain rfl := mem_singleton.mp hmem
            exact hin
          | cons n rest =>
            obtain ⟨hanc, hnone | ⟨l, hl⟩⟩ := hback
            · have hinside : root <+: anc := by
                refine prefix_of_putBack (realpathSync_hard hroot) hin ?_
                intro m rest' heq hsolid
                obtain ⟨rfl, -⟩ := List.cons.inj heq
                exact hsolid.ne_none hnone
              exact hinside.trans (writeFile_missing hhard hanc hnone hlocs loc hmem)
            · exact absurd hl (hno pre n rest anc left' l hc hreal (hfail n rest rfl))

/-! ## The law -/

/-- **What `assertPathInsideRoot` promises.** The path that it returns is confined exactly when links
that do not resolve lead inside the root. With no such link on the way, and none where the backup goes,
`writeNote` does not write outside a vault that exists. -/
theorem assertPathInsideRoot_confined {relPath : Text}
    (h : assertPathInsideRoot d kernelLinks links rootPath relPath = .ok p) :
    (Confined d kernelLinks (absRoot d kernelLinks links rootPath) p ↔
      DanglingInside d kernelLinks links (absRoot d kernelLinks links rootPath)
        (absRoot d kernelLinks links rootPath ++ segments relPath)) ∧
    ∀ root left contents content b now w,
      realpathSync d kernelLinks links rootPath = .ok (root, left) → d.entry root = some .directory →
      NoDangling d kernelLinks links (root ++ segments relPath) →
      NoBackupLink d kernelLinks links (root ++ segments relPath) now →
      writeNote d kernelLinks contents links rootPath relPath content b now = .ok w →
      ∀ loc ∈ w.touched, root <+: loc :=
  ⟨confined_iff h, fun _ _ _ _ _ _ _ hroot hdir hno hbak hw =>
    writeNote_inside hroot hdir hno hbak hw⟩

/-- A vault with a dangling link to a file beside the vault. -/
def danglingVault : Disk Text :=
  Disk.ofEntries
    [(["vault".toList], .directory), (["out".toList], .directory),
      (["vault".toList, "x.md".toList],
        .symlink ⟨true, [.name "out".toList, .name "y.md".toList]⟩)] (by decide)

/-- The check passes for the link, and the note is written outside the vault. -/
theorem assertPathInsideRoot_escapes :
    (∃ p, assertPathInsideRoot danglingVault 40 40 ["vault".toList] "x.md".toList = .ok p ∧
      ¬ Confined danglingVault 40 (absRoot danglingVault 40 40 ["vault".toList]) p) ∧
    writeNote danglingVault 40 (fun _ => []) 40 ["vault".toList] "x.md".toList "text".toList false [] =
      .ok ⟨true, [["out".toList, "y.md".toList]]⟩ := by
  refine ⟨⟨["vault".toList, "x.md".toList], by rfl, ?_⟩, by rfl⟩
  intro h
  exact absurd (h true ["out".toList, "y.md".toList] (by rfl)) (by decide)

/-- A vault without links. -/
def emptyVault : Disk Text := Disk.ofEntries [(["vault".toList], .directory)] (by decide)

theorem emptyVault_no_link (q : Location Text) (l : LinkText Text) :
    emptyVault.entry q ≠ some (.symlink l) := by
  simp only [emptyVault, Disk.ofEntries, lookup_cons, lookup_nil]
  split
  · simp
  · split <;> simp

/-- The law for a new note in a vault without links. -/
theorem assertPathInsideRoot_confined_new :
    Confined emptyVault 40 ["vault".toList] ["vault".toList, "x.md".toList] ∧
      ["vault".toList] <+: ["vault".toList, "x.md".toList] := by
  have law := @assertPathInsideRoot_confined emptyVault 40 40 ["vault".toList, "x.md".toList]
    ["vault".toList] "x.md".toList (by rfl)
  refine ⟨law.1.mpr ?_, ?_⟩
  · intro pre n rest anc left l _ _ _ hl
    exact absurd hl (emptyVault_no_link _ l)
  · exact law.2 ["vault".toList] 40 (fun _ => []) "text".toList false []
      ⟨true, [["vault".toList, "x.md".toList]]⟩ (by rfl) (by rfl)
      (fun _ _ _ _ _ l _ _ _ => emptyVault_no_link _ l) (fun _ _ l _ => emptyVault_no_link _ l)
      (by rfl) _ (mem_singleton.mpr rfl)

end Ariad.SafePath
