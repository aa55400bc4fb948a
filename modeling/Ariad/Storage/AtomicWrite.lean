import Ariad.Javascript.PosixPath
import Ariad.Posix.NamedFiles

/-!
# Atomic writes of JSON files

`writeJsonAtomically` writes a temporary file, and renames it to the target. What its calls answer is given, each
when it is made; a process that dies has done the first of the actions. To close a descriptor changes no file.

* `WriterCalls` — the answers.
* `writeAll` — the loop over short writes.
* `writeJsonAtomically` — the actions on the files, and what is returned or thrown.
-/

namespace Ariad.Storage

open Posix List

inductive AtomicErrorCode where
  | ATOMIC_WRITE_FAILED
  | ATOMIC_SHORT_WRITE
  | ATOMIC_FSYNC_FAILED
  | ATOMIC_RENAME_FAILED
  | ATOMIC_DURABILITY_UNKNOWN
  | PATH_TRAVERSAL_REJECTED
  deriving DecidableEq

structure GenerationStoreError where
  code : AtomicErrorCode
  phase : Text
  project : Text
  message : Text
  deriving DecidableEq

/-- What is thrown in the body: an error of the store, or the message of another one. -/
inductive Thrown where
  | store (e : GenerationStoreError)
  | other (message : Text)

structure DirectoryIdentity where
  dev : ℕ
  ino : ℕ
  deriving DecidableEq

structure DirectoryStat where
  isSymbolicLink : Bool
  isDirectory : Bool
  identity : DirectoryIdentity
  deriving DecidableEq

/-- What `writeSync` answers. -/
inductive WriteAnswer where
  /-- It returns the number of bytes that are written, of those that are left. -/
  | wrote (count : ℕ)
  /-- It throws, and so many bytes have come through. -/
  | failed (count : ℕ) (message : Text)

/-- What the calls of the writer answer, with the message of what they throw. -/
structure WriterCalls where
  /-- `O_DIRECTORY` and `O_NOFOLLOW` are there. -/
  noFollow : Bool
  lstatFirst : Except Text DirectoryStat
  openDirectory : Except Text Unit
  fstatDirectory : Except Text DirectoryIdentity
  openTemp : Except Text Unit
  /-- The write at an offset. -/
  write : ℕ → WriteAnswer
  fsyncTemp : Except Text Unit
  closeTemp : Except Text Unit
  /-- `afterTempFsyncBeforeRename`, which is there in tests only. It throws errors of its own. -/
  hook : Except Text Unit
  lstatBeforeRename : Except Text DirectoryStat
  rename : Except Text Unit
  fsyncDirectory : Except Text Unit
  lstatAtCleanup : Except Text DirectoryStat
  unlink : Except Text Unit

structure WriteRequest where
  targetPath : Text
  /-- `resolve(targetPath, "..")` -/
  dir : Text
  /-- `randomUUID()` -/
  uuid : Text
  project : Text
  phase : Text

def WriteRequest.tmpPath (r : WriteRequest) : Text := join r.dir (".tmp-".toList ++ r.uuid ++ ".json".toList)

def WriteRequest.error (r : WriteRequest) (code : AtomicErrorCode) (message : Text) : GenerationStoreError :=
  ⟨code, r.phase, r.project, message⟩

/-- What has been done, and the variables that the handler reads. -/
structure WriterState where
  actions : List (FileAction Text) := []
  renameSucceeded : Bool := false
  directoryIdentityStillValid : Bool := true

/-- The body: what is thrown leaves the state as it is. -/
abbrev Writing := EStateM Thrown WriterState

def act (as : List (FileAction Text)) : Writing Unit := modify fun s => { s with actions := s.actions ++ as }

/-- `try { … } catch (e) { throw … }` -/
def orThrow {α : Type} (answer : Except Text α) (error : Text → GenerationStoreError) : Writing α :=
  match answer with
  | .ok a => pure a
  | .error message => throw (.store (error message))

/-- The identity of the open directory, or the message of what is thrown. -/
def openDirectoryNoFollow (path : Text) (calls : WriterCalls) : Except Text DirectoryIdentity := do
  if calls.noFollow then
    calls.openDirectory
    calls.fstatDirectory
  else
    let lstat ← calls.lstatFirst.mapError ("Cannot lstat directory \"".toList ++ path ++ "\": ".toList ++ ·)
    if lstat.isSymbolicLink then
      throw ("Path is a symlink (rejected by openDirectoryNoFollow): ".toList ++ path)
    if !lstat.isDirectory then throw ("Path is not a directory: ".toList ++ path)
    calls.openDirectory
    let fstat ← calls.fstatDirectory.mapError ("Cannot fstat directory fd \"".toList ++ path ++ "\": ".toList ++ ·)
    if lstat.identity ≠ fstat then
      throw ("Directory was swapped between lstat and open (dev/ino mismatch): ".toList ++ path)
    return fstat

section

variable (r : WriteRequest) (calls : WriterCalls) (payload : List UInt8)

/-- `at offset 3/10` -/
def atOffset (offset : ℕ) : Text :=
  " at offset ".toList ++ Nat.toDigits 10 offset ++ '/' :: Nat.toDigits 10 payload.length

/-- The exclusive open fails also where the name is taken. -/
def openTemp (files : Files Text) : Writing Unit := do
  let failed (message : Text) := r.error .ATOMIC_WRITE_FAILED ("Failed to open temp file exclusively: ".toList ++ message)
  orThrow calls.openTemp failed
  if (files r.tmpPath).isSome then
    throw (.store (failed ("EEXIST: file already exists, open '".toList ++ r.tmpPath ++ ['\''])))
  act [.create r.tmpPath]

def writeAll (offset : ℕ) : Writing Unit := do
  if offset < payload.length then
    let rest := payload.drop offset
    match calls.write offset with
    | .failed count message =>
      act ((rest.take count).map (.append r.tmpPath))
      throw (.store (r.error .ATOMIC_WRITE_FAILED
        ("writeSync failed".toList ++ atOffset payload offset ++ ": ".toList ++ message)))
    | .wrote count =>
      let written := min count rest.length
      act ((rest.take written).map (.append r.tmpPath))
      if written = 0 then
        throw (.store (r.error .ATOMIC_SHORT_WRITE
          ("writeSync returned ".toList ++ Nat.toDigits 10 written ++ atOffset payload offset)))
      else
        writeAll (offset + written)
termination_by payload.length - offset

/-- The error of a directory that cannot be confirmed. -/
def rejectDirectory {α : Type} (message : Text) : Writing α := do
  modify fun s => { s with directoryIdentityStillValid := false }
  throw (.store (r.error .PATH_TRAVERSAL_REJECTED message))

def confirmDirectory (opened : DirectoryIdentity) : Writing Unit := do
  match calls.lstatBeforeRename with
  | .error message =>
    rejectDirectory r ("Cannot lstat target directory before rename \"".toList ++ r.dir ++ "\": ".toList ++ message)
  | .ok stat =>
    if stat.isSymbolicLink then
      rejectDirectory r ("Target directory became a symlink between open and rename: ".toList ++ r.dir)
    else if stat.identity ≠ opened then
      rejectDirectory r
        ("Target directory was swapped between open and rename (dev/ino mismatch): ".toList ++ r.dir)

def runHook : Writing Unit :=
  match calls.hook with
  | .ok () => pure ()
  | .error message => throw (.other message)

def renameTemp : Writing Unit := do
  orThrow calls.rename fun message =>
    r.error .ATOMIC_RENAME_FAILED ("Failed to rename temp to target: ".toList ++ message)
  act [.rename r.tmpPath r.targetPath]
  modify fun s => { s with renameSucceeded := true }

/-- All steps, from the open directory on. -/
def writeSteps (files : Files Text) (opened : DirectoryIdentity) : Writing Unit := do
  openTemp r calls files
  writeAll r calls payload 0
  orThrow calls.fsyncTemp fun message =>
    r.error .ATOMIC_FSYNC_FAILED ("Failed to fsync temp file: ".toList ++ message)
  orThrow calls.closeTemp fun message =>
    r.error .ATOMIC_WRITE_FAILED ("Failed to close temp file: ".toList ++ message)
  runHook calls
  confirmDirectory r calls opened
  renameTemp r calls
  orThrow calls.fsyncDirectory fun message => r.error .ATOMIC_DURABILITY_UNKNOWN
    ("Directory fsync failed after rename — target may already be new, caller must re-read and diagnose: ".toList ++
      message)

end

/-- The directory is still the one that was opened. -/
def WriterCalls.confirmedAtCleanup (calls : WriterCalls) (opened : DirectoryIdentity) : Bool :=
  match calls.lstatAtCleanup with
  | .ok stat => !stat.isSymbolicLink && stat.isDirectory && stat.identity = opened
  | .error _ => false

def orphanWarning (tmpPath : Text) : Text :=
  " [WARNING: ATOMIC_TEMP_ORPHANED — temp file ".toList ++ tmpPath ++
    " may be orphaned in the original directory because the target directory was swapped; ".toList ++
    "not unlinked by path to avoid operating on the wrong directory]".toList

/-- What a call of the writer does and comes to. -/
structure WriteRun where
  actions : List (FileAction Text)
  result : Except GenerationStoreError Unit
  renameSucceeded : Bool
  /-- The temporary file is not unlinked, since it may be in another directory. -/
  orphaned : Bool

/-- The handler. -/
def handleWriteError (r : WriteRequest) (calls : WriterCalls) (opened : DirectoryIdentity) (e : Thrown)
    (s : WriterState) : WriteRun :=
  let cleanupSafe := !s.renameSucceeded && s.directoryIdentityStillValid && calls.confirmedAtCleanup opened
  let orphaned := !s.renameSucceeded && !cleanupSafe
  let warning := if orphaned then orphanWarning r.tmpPath else []
  { actions := s.actions ++ if cleanupSafe ∧ calls.unlink.isOk then [.unlink r.tmpPath] else []
    result := .error <| match e with
      | .store e => { e with message := e.message ++ warning }
      | .other message =>
        r.error .ATOMIC_WRITE_FAILED ("Failed to write JSON atomically: ".toList ++ message ++ warning)
    renameSucceeded := s.renameSucceeded
    orphaned := orphaned }

def writeJsonAtomically (r : WriteRequest) (calls : WriterCalls) (payload : List UInt8) (files : Files Text) :
    WriteRun :=
  match openDirectoryNoFollow r.dir calls with
  | .error message =>
    { actions := []
      result := .error (r.error .ATOMIC_WRITE_FAILED
        ("Failed to open target directory O_NOFOLLOW \"".toList ++ r.dir ++ "\": ".toList ++ message))
      renameSucceeded := false
      orphaned := false }
  | .ok opened =>
    match (writeSteps r calls payload files opened).run {} with
    | .ok () s => ⟨s.actions, .ok (), s.renameSucceeded, false⟩
    | .error e s => handleWriteError r calls opened e s

/-! ## What the steps do -/

/-- What a step of the body comes to, where it returns and where it throws. -/
def Meets {α : Type} (P : WriterState → Prop) (m : Writing α) (Q : α → WriterState → Prop)
    (E : Thrown → WriterState → Prop) : Prop :=
  ∀ s, P s → match m.run s with
    | .ok a t => Q a t
    | .error e t => E e t

section

variable {α β : Type} {P : WriterState → Prop} {Q : α → WriterState → Prop} {R : β → WriterState → Prop}
  {E : Thrown → WriterState → Prop} {m : Writing α} {f : α → Writing β}

theorem Meets.bind (hm : Meets P m Q E) (hf : ∀ a, Meets (Q a) (f a) R E) : Meets P (m >>= f) R E := by
  intro s hs
  have h := hm s hs
  rw [EStateM.run_bind]
  cases hrun : m.run s with
  | ok a t => rw [hrun] at h; exact hf a t h
  | error e t => rw [hrun] at h; exact h

theorem Meets.orThrow {answer : Except Text α} {error : Text → GenerationStoreError}
    (hok : ∀ a, answer = .ok a → ∀ s, P s → Q a s) (herror : ∀ message s, P s → E (.store (error message)) s) :
    Meets P (orThrow answer error) Q E := by
  intro s hs
  cases answer with
  | ok a => exact hok a rfl s hs
  | error message => exact herror message s hs

end

section

variable (r : WriteRequest) (calls : WriterCalls) (payload : List UInt8) (files : Files Text)
  (opened : DirectoryIdentity)

/-- The directory is confirmed before the rename. -/
def WriterCalls.confirmedBeforeRename : Bool :=
  match calls.lstatBeforeRename with
  | .ok stat => !stat.isSymbolicLink && stat.identity = opened
  | .error _ => false

/-- The temporary file has been made, and these bytes have been written. -/
def Written (bytes : List UInt8) (s : WriterState) : Prop :=
  s = { actions := .create r.tmpPath :: bytes.map (.append r.tmpPath) }

/-- What is thrown before the rename. -/
structure Unrenamed (e : Thrown) (s : WriterState) : Prop where
  names : ∀ a ∈ s.actions, a.names = [r.tmpPath]
  renameSucceeded : s.renameSucceeded = false
  confirmed : s.directoryIdentityStillValid = false → calls.confirmedBeforeRename opened = false
  code : ∀ e', e = .store e' → e'.code ≠ .ATOMIC_DURABILITY_UNKNOWN

/-- The rename has been made. -/
def Renamed (s : WriterState) : Prop :=
  s.actions = (.create r.tmpPath :: payload.map (.append r.tmpPath)) ++ [.rename r.tmpPath r.targetPath] ∧
    s.renameSucceeded = true

/-- What is thrown: before the rename, or for the sync of the directory behind it. -/
def Throws (e : Thrown) (s : WriterState) : Prop :=
  Unrenamed r calls opened e s ∨
    Renamed r payload s ∧ ∃ e', e = .store e' ∧ e'.code = .ATOMIC_DURABILITY_UNKNOWN

variable {r calls payload files opened} {bytes : List UInt8} {s : WriterState}

theorem Written.names (h : Written r bytes s) : ∀ a ∈ s.actions, a.names = [r.tmpPath] := by
  obtain rfl := h
  intro a ha
  obtain rfl | ⟨byte, -, rfl⟩ := by simpa using ha
  · rfl
  · rfl

theorem Throws.of_actions {e : Thrown} (hnames : ∀ a ∈ s.actions, a.names = [r.tmpPath])
    (hrename : s.renameSucceeded = false) (hvalid : s.directoryIdentityStillValid = true)
    (hcode : ∀ e', e = .store e' → e'.code ≠ .ATOMIC_DURABILITY_UNKNOWN) : Throws r calls payload opened e s :=
  .inl ⟨hnames, hrename, fun h => absurd (hvalid.symm.trans h) nofun, hcode⟩

theorem code_ne {code : AtomicErrorCode} {message : Text} (hcode : code ≠ .ATOMIC_DURABILITY_UNKNOWN) :
    ∀ e', Thrown.store (r.error code message) = .store e' → e'.code ≠ .ATOMIC_DURABILITY_UNKNOWN := by
  rintro e' he
  cases he
  exact hcode

theorem Written.throws {e : Thrown} (h : Written r bytes s)
    (hcode : ∀ e', e = .store e' → e'.code ≠ .ATOMIC_DURABILITY_UNKNOWN) : Throws r calls payload opened e s := by
  refine .of_actions h.names ?_ ?_ hcode <;> rw [h]

theorem meets_openTemp : Meets (· = {}) (openTemp r calls files) (fun _ => Written r [])
    (Throws r calls payload opened) := by
  rintro s rfl
  have hthrow (message : Text) : Throws r calls payload opened (.store (r.error .ATOMIC_WRITE_FAILED message)) {} :=
    .of_actions (fun a ha => absurd ha not_mem_nil) rfl rfl (code_ne nofun)
  rw [openTemp]
  cases calls.openTemp with
  | error message => exact hthrow _
  | ok =>
    cases (files r.tmpPath).isSome with
    | true => exact hthrow _
    | false => exact rfl

theorem meets_act (more : List UInt8) : Meets (Written r bytes) (act (more.map (.append r.tmpPath)))
    (fun _ => Written r (bytes ++ more)) (Throws r calls payload opened) := by
  rintro s rfl
  change Written r (bytes ++ more) { ({} : WriterState) with actions := _ }
  rw [Written, map_append, cons_append]

/-- Every turn of the loop writes what is behind the bytes that are written, or ends. -/
theorem meets_writeAll (offset : ℕ) (hle : offset ≤ payload.length) :
    Meets (Written r (payload.take offset)) (writeAll r calls payload offset) (fun _ => Written r payload)
      (Throws r calls payload opened) := by
  fun_induction writeAll r calls payload offset with
  | case1 offset hlt rest count message =>
    exact (meets_act _).bind fun _ s hs => hs.throws (code_ne nofun)
  | case2 offset hlt rest count _ written ih =>
    refine (meets_act _).bind fun _ => ?_
    split_ifs with hzero
    · exact fun s hs => hs.throws (code_ne nofun)
    · have hwritten : written ≤ payload.length - offset := (Nat.min_le_right ..).trans_eq length_drop
      rw [show payload.take offset ++ rest.take written = payload.take (offset + written) from take_add.symm]
      exact ih hzero (by omega)
  | case3 offset hge =>
    intro s hs
    rwa [take_of_length_le (Nat.le_of_not_lt hge)] at hs

theorem meets_confirmDirectory : Meets (Written r payload) (confirmDirectory r calls opened)
    (fun _ => Written r payload) (Throws r calls payload opened) := by
  intro s hs
  have hreject (message : Text) (hconfirm : calls.confirmedBeforeRename opened = false) :
      Throws r calls payload opened (.store (r.error .PATH_TRAVERSAL_REJECTED message))
        { s with directoryIdentityStillValid := false } := by
    refine .inl ⟨hs.names, ?_, fun _ => hconfirm, code_ne nofun⟩
    rw [hs]
  rw [confirmDirectory]
  cases hstat : calls.lstatBeforeRename with
  | error message => exact hreject _ (by rw [WriterCalls.confirmedBeforeRename, hstat])
  | ok stat =>
    dsimp only
    split_ifs with hlink hidentity
    · exact hreject _ (by simp [WriterCalls.confirmedBeforeRename, hstat, hlink])
    · exact hreject _ (by simp [WriterCalls.confirmedBeforeRename, hstat, hidentity])
    · exact hs

theorem meets_renameTemp : Meets (Written r payload) (renameTemp r calls) (fun _ => Renamed r payload)
    (Throws r calls payload opened) := by
  refine Meets.bind (Q := fun _ => Written r payload) (.orThrow (fun _ _ _ h => h) fun _ _ h => h.throws (code_ne nofun)) ?_
  rintro _ s rfl
  exact ⟨rfl, rfl⟩

theorem meets_writeSteps : Meets (· = {}) (writeSteps r calls payload files opened) (fun _ => Renamed r payload)
    (Throws r calls payload opened) := by
  have hthrow {answer : Except Text Unit} {code : AtomicErrorCode} {text : Text → Text}
      (hcode : code ≠ .ATOMIC_DURABILITY_UNKNOWN) :
      Meets (Written r payload) (orThrow answer fun message => r.error code (text message)) (fun _ => Written r payload)
        (Throws r calls payload opened) :=
    .orThrow (fun _ _ _ h => h) fun _ _ hs => hs.throws (code_ne hcode)
  have hhook : Meets (Written r payload) (runHook calls) (fun _ => Written r payload)
      (Throws r calls payload opened) := by
    intro s hs
    rw [runHook]
    cases calls.hook with
    | ok => exact hs
    | error message => exact hs.throws fun e' he => by cases he
  refine meets_openTemp.bind fun _ => (meets_writeAll 0 (Nat.zero_le _)).bind fun _ => ?_
  refine (hthrow (by decide)).bind fun _ => (hthrow (by decide)).bind fun _ => hhook.bind fun _ => ?_
  refine meets_confirmDirectory.bind fun _ => meets_renameTemp.bind fun _ => ?_
  exact .orThrow (fun _ _ _ h => h) fun message s h => .inr ⟨h, _, rfl, rfl⟩

/-! ## Every call -/

/-- What a call guarantees, wherever the process dies, and in the end. -/
structure Atomic (r : WriteRequest) (calls : WriterCalls) (payload : List UInt8) (files : Files Text)
    (run : WriteRun) : Prop where
  /-- The target is old or new at every point. -/
  target : ∀ k, perform (run.actions.take k) files r.targetPath = files r.targetPath ∨
    perform (run.actions.take k) files r.targetPath = some payload
  others : ∀ k path, path ≠ r.targetPath → path ≠ r.tmpPath → perform (run.actions.take k) files path = files path
  thrown : run.renameSucceeded = false → perform run.actions files r.targetPath = files r.targetPath ∧
    ∃ e, run.result = .error e ∧ e.code ≠ .ATOMIC_DURABILITY_UNKNOWN ∧
      (run.orphaned → orphanWarning r.tmpPath <:+ e.message)
  cleaned : run.renameSucceeded = false → run.orphaned = false → calls.unlink.isOk → run.actions = [] ∨
    perform run.actions files r.tmpPath = none
  orphaned : run.orphaned → ∃ opened, openDirectoryNoFollow r.dir calls = .ok opened ∧
    (calls.confirmedBeforeRename opened && calls.confirmedAtCleanup opened) = false
  renamed : run.renameSucceeded → perform run.actions files r.targetPath = some payload ∧
    perform run.actions files r.tmpPath = none ∧
    (run.result = .ok () ∨ ∃ e, run.result = .error e ∧ e.code = .ATOMIC_DURABILITY_UNKNOWN)

theorem notMem_names {as : List (FileAction Text)} (h : ∀ a ∈ as, a.names = [r.tmpPath]) {path : Text}
    (hpath : path ≠ r.tmpPath) : ∀ a ∈ as, path ∉ a.names := by
  intro a ha
  rw [h a ha, mem_singleton]
  exact hpath

theorem Renamed.atomic {run : WriteRun} (h : Renamed r payload s) (hname : r.tmpPath ≠ r.targetPath)
    (hactions : run.actions = s.actions) (hrename : run.renameSucceeded = s.renameSucceeded)
    (horphaned : run.orphaned = false)
    (hresult : run.result = .ok () ∨ ∃ e, run.result = .error e ∧ e.code = .ATOMIC_DURABILITY_UNKNOWN) :
    Atomic r calls payload files run := by
  have hwritten := perform_written files r.tmpPath payload
  have hnames := (show Written r payload _ from rfl).names
  have htrue : run.renameSucceeded ≠ false := by simp [hrename, h.2]
  refine ⟨fun k => ?_, fun k path htarget htemp => ?_, (absurd · htrue), (absurd · htrue), ?_, fun _ => ?_⟩
  · rw [hactions, h.1]
    exact replaced_throughout hname (notMem_names hnames hname.symm) hwritten (fun _ ha => absurd ha not_mem_nil) k
  · rw [hactions, h.1]
    refine perform_take_of_notMem (fun a ha => ?_) k
    rcases mem_append.mp ha with ha | ha
    · exact notMem_names hnames htemp a ha
    · rw [mem_singleton.mp ha, FileAction.names]
      simp [htarget, htemp]
  · intro htrue
    exact Bool.noConfusion (horphaned.symm.trans htrue)
  · rw [hactions, h.1, perform_append]
    exact ⟨(FileAction.apply_rename hname hwritten).1, (FileAction.apply_rename hname hwritten).2, hresult⟩

theorem Unrenamed.atomic {e : Thrown} (h : Unrenamed r calls opened e s) (hname : r.tmpPath ≠ r.targetPath)
    (hopened : openDirectoryNoFollow r.dir calls = .ok opened) :
    Atomic r calls payload files (handleWriteError r calls opened e s) := by
  have hnames : ∀ a ∈ (handleWriteError r calls opened e s).actions, a.names = [r.tmpPath] := by
    intro a ha
    rcases mem_append.mp ha with ha | ha
    · exact h.names a ha
    · split_ifs at ha
      · rw [mem_singleton.mp ha, FileAction.names]
      · cases ha
  have htarget := notMem_names hnames hname.symm
  refine ⟨fun k => .inl (perform_take_of_notMem htarget k),
    fun k path _ hpath => perform_take_of_notMem (notMem_names hnames hpath) k,
    fun _ => ⟨perform_of_notMem htarget, ?_⟩, fun _ hsafe hunlink => .inr ?_, fun horphaned => ⟨opened, hopened, ?_⟩,
    fun htrue => Bool.noConfusion (h.renameSucceeded.symm.trans htrue)⟩
  · cases e with
    | store e =>
      refine ⟨_, rfl, h.code e rfl, fun horphaned => ?_⟩
      dsimp only [handleWriteError] at horphaned ⊢
      rw [if_pos horphaned]
      exact suffix_append ..
    | other message =>
      refine ⟨_, rfl, fun hcode => AtomicErrorCode.noConfusion hcode, fun horphaned => ?_⟩
      dsimp only [handleWriteError, WriteRequest.error] at horphaned ⊢
      rw [if_pos horphaned]
      exact suffix_append ..
  · have hsafe : (!s.renameSucceeded && s.directoryIdentityStillValid && calls.confirmedAtCleanup opened) = true := by
      simpa [handleWriteError, h.renameSucceeded] using hsafe
    dsimp only [handleWriteError]
    rw [if_pos ⟨hsafe, hunlink⟩, perform_append]
    exact Function.update_self ..
  · cases hconfirm : calls.confirmedBeforeRename opened with
    | false => rfl
    | true =>
      have hvalid : s.directoryIdentityStillValid = true := by
        by_contra hfalse
        exact Bool.noConfusion (hconfirm.symm.trans (h.confirmed (Bool.eq_false_iff.mpr hfalse)))
      simpa [handleWriteError, h.renameSucceeded, hvalid] using horphaned

end

/-- **A file is replaced as a whole.** -/
theorem writeJsonAtomically_atomic (r : WriteRequest) (calls : WriterCalls) (payload : List UInt8) (files : Files Text)
    (hname : r.tmpPath ≠ r.targetPath) : Atomic r calls payload files (writeJsonAtomically r calls payload files) := by
  rw [writeJsonAtomically]
  cases hopened : openDirectoryNoFollow r.dir calls with
  | error message =>
    exact ⟨fun k => .inl (by simp), fun k path _ _ => by simp, fun _ => ⟨rfl, _, rfl, nofun, nofun⟩,
      fun _ _ _ => .inl rfl, nofun, nofun⟩
  | ok opened =>
    have hmeets : Meets (· = {}) (writeSteps r calls payload files opened) _ _ := meets_writeSteps
    replace hmeets := hmeets {} rfl
    dsimp only
    cases hrun : (writeSteps r calls payload files opened).run {} with
    | ok _ s =>
      rw [hrun] at hmeets
      exact hmeets.atomic hname rfl rfl rfl (.inl rfl)
    | error e s =>
      rw [hrun] at hmeets
      rcases hmeets with hmeets | ⟨hmeets, e', rfl, hcode⟩
      · exact hmeets.atomic hname hopened
      · refine hmeets.atomic hname ?_ rfl ?_ (.inr ⟨_, rfl, hcode⟩)
        · simp [handleWriteError, hmeets.2]
        · simp [handleWriteError, hmeets.2]

def sampleRequest : WriteRequest :=
  ⟨"/store/p/active-generation.json".toList, "/store/p".toList, "0".toList, "p".toList, "publish".toList⟩

/-- Nothing fails, and every byte takes a call of its own. -/
def calmCalls : WriterCalls where
  noFollow := true
  lstatFirst := .ok ⟨false, true, ⟨1, 2⟩⟩
  openDirectory := .ok ()
  fstatDirectory := .ok ⟨1, 2⟩
  openTemp := .ok ()
  write _ := .wrote 1
  fsyncTemp := .ok ()
  closeTemp := .ok ()
  hook := .ok ()
  lstatBeforeRename := .ok ⟨false, true, ⟨1, 2⟩⟩
  rename := .ok ()
  fsyncDirectory := .ok ()
  lstatAtCleanup := .ok ⟨false, true, ⟨1, 2⟩⟩
  unlink := .ok ()

theorem writeJsonAtomically_atomic_sample : sampleRequest.tmpPath ≠ sampleRequest.targetPath ∧
    Atomic sampleRequest calmCalls [123, 125] (fun _ => none)
      (writeJsonAtomically sampleRequest calmCalls [123, 125] fun _ => none) :=
  ⟨by decide, writeJsonAtomically_atomic _ _ _ _ (by decide)⟩

/-- **The temporary file is left** where the directory cannot be confirmed before the rename, though the cleanup
would not fail. -/
theorem temporary_left : ¬∀ (r : WriteRequest) (calls : WriterCalls) (payload : List UInt8) (files : Files Text),
    r.tmpPath ≠ r.targetPath → files r.tmpPath = none → calls.lstatAtCleanup.isOk → calls.unlink.isOk →
      (writeJsonAtomically r calls payload files).renameSucceeded = false →
        perform (writeJsonAtomically r calls payload files).actions files r.tmpPath = none := by
  intro h
  let calls := { calmCalls with lstatBeforeRename := .error "EIO".toList }
  have hend : writeAll sampleRequest calls [123] 1 = pure () := by
    rw [writeAll, if_neg (by decide)]
  have hwrite : writeAll sampleRequest calls [123] 0 = act [.append sampleRequest.tmpPath 123] := by
    rw [writeAll]
    exact congrArg (act [.append sampleRequest.tmpPath 123] >>= fun _ => ·) hend
  have hrun : writeJsonAtomically sampleRequest calls [123] (fun _ => none) =
      handleWriteError sampleRequest calls ⟨1, 2⟩ (.store (sampleRequest.error .PATH_TRAVERSAL_REJECTED
        "Cannot lstat target directory before rename \"/store/p\": EIO".toList))
        ⟨[.create sampleRequest.tmpPath, .append sampleRequest.tmpPath 123], false, false⟩ := by
    rw [writeJsonAtomically]
    dsimp only [openDirectoryNoFollow, writeSteps]
    rw [hwrite]
    rfl
  have hleft := h sampleRequest calls [123] (fun _ => none) (by decide) rfl rfl rfl
  rw [hrun] at hleft
  exact absurd (hleft rfl) (by decide)

end Ariad.Storage
