import Mathlib.Logic.Function.Basic
import Mathlib.Data.List.Basic

/-!
# Files by name

* `FileAction` — what changes a file: it is made, a byte is put behind it, it is renamed or unlinked.
* `perform` — actions in a row. A process that dies has done the first ones of them.
* `replaced_throughout` — a file that is written under another name and renamed is old or new at every point.
-/

namespace Ariad.Posix

open List Function

/-- The contents of the files. -/
abbrev Files (ν : Type) := ν → Option (List UInt8)

inductive FileAction (ν : Type) where
  | create (name : ν)
  | append (name : ν) (byte : UInt8)
  | rename (source target : ν)
  | unlink (name : ν)
  deriving DecidableEq

variable {ν : Type} [DecidableEq ν] {files : Files ν} {name temp target : ν} {as before behind : List (FileAction ν)}

/-- The names whose file it changes. -/
def FileAction.names : FileAction ν → List ν
  | create name | append name _ | unlink name => [name]
  | rename source target => [source, target]

/-- Nothing is renamed that is not there. -/
def FileAction.apply : FileAction ν → Files ν → Files ν
  | create name, files => Function.update files name (some [])
  | append name byte, files => Function.update files name ((files name).map (· ++ [byte]))
  | rename source target, files =>
    if (files source).isSome then Function.update (Function.update files source none) target (files source) else files
  | unlink name, files => Function.update files name none

def perform (as : List (FileAction ν)) (files : Files ν) : Files ν := as.foldl (fun files a => a.apply files) files

@[simp] theorem perform_nil : perform [] files = files := rfl

@[simp] theorem perform_cons (a : FileAction ν) : perform (a :: as) files = perform as (a.apply files) := rfl

theorem perform_append : perform (before ++ behind) files = perform behind (perform before files) :=
  foldl_append

/-- A file that no action names stays. -/
theorem FileAction.apply_of_notMem {a : FileAction ν} (h : name ∉ a.names) : a.apply files name = files name := by
  cases a with
  | create n => exact update_of_ne (by simpa [names] using h) _ _
  | append n byte => exact update_of_ne (by simpa [names] using h) _ _
  | unlink n => exact update_of_ne (by simpa [names] using h) _ _
  | rename source target =>
    obtain ⟨hsource, htarget⟩ : name ≠ source ∧ name ≠ target := by simpa [names] using h
    rw [apply]
    split
    · rw [update_of_ne htarget, update_of_ne hsource]
    · rfl

theorem perform_of_notMem (h : ∀ a ∈ as, name ∉ a.names) : perform as files name = files name := by
  induction as generalizing files with
  | nil => rfl
  | cons a as ih =>
    rw [perform_cons, ih fun b hb => h b (mem_cons_of_mem a hb)]
    exact FileAction.apply_of_notMem (h a mem_cons_self)

theorem perform_take_of_notMem (h : ∀ a ∈ as, name ∉ a.names) (k : ℕ) :
    perform (as.take k) files name = files name :=
  perform_of_notMem fun a ha => h a (mem_of_mem_take ha)

theorem perform_appends {content : List UInt8} (h : files name = some content) (bytes : List UInt8) :
    perform (bytes.map (.append name)) files name = some (content ++ bytes) := by
  induction bytes generalizing files content with
  | nil => rwa [append_nil]
  | cons byte bytes ih =>
    have hbyte : (FileAction.append name byte).apply files name = some (content ++ [byte]) := by
      rw [FileAction.apply, update_self, h, Option.map_some]
    rw [map_cons, perform_cons, ih hbyte, append_assoc, singleton_append]

variable (files name) in
/-- A file that is made and written. -/
theorem perform_written (bytes : List UInt8) :
    perform (.create name :: bytes.map (.append name)) files name = some bytes :=
  perform_appends (update_self ..) bytes

/-- What is renamed is the target then, and its own name is free. -/
theorem FileAction.apply_rename {payload : List UInt8} (hne : temp ≠ target) (h : files temp = some payload) :
    (rename temp target).apply files target = some payload ∧ (rename temp target).apply files temp = none := by
  rw [apply, if_pos (by rw [h]; rfl), update_self, update_of_ne hne, update_self]
  exact ⟨h, rfl⟩

/-- **Old or new at every point.** -/
theorem replaced_throughout {payload : List UInt8} (hne : temp ≠ target) (hbefore : ∀ a ∈ before, target ∉ a.names)
    (hwritten : perform before files temp = some payload) (hbehind : ∀ a ∈ behind, target ∉ a.names) (k : ℕ) :
    let point := perform ((before ++ .rename temp target :: behind).take k) files
    point target = files target ∨ point target = some payload := by
  intro point
  by_cases hk : k ≤ before.length
  · left
    simp only [point, take_append_of_le_length hk]
    exact perform_take_of_notMem hbefore k
  · right
    obtain ⟨n, hn⟩ : ∃ n, k - before.length = n + 1 := ⟨k - before.length - 1, by omega⟩
    simp only [point, take_append, take_of_length_le (Nat.le_of_not_le hk), hn, take_succ_cons]
    rw [perform_append, perform_cons, perform_take_of_notMem hbehind]
    exact (FileAction.apply_rename hne hwritten).1

end Ariad.Posix
