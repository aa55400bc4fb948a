import Ariad.Javascript.Text
import Ariad.Relational.Keyset

/-!
# Backups of a note

`writeNote` copies a note before it overwrites it, under a name that ends with the reading of the clock, and removes all
but the newest copies. The names tell which ones are the newest.

* `stamp` — the reading that is found in the name of a backup.
* `writeNote`, `pruneBackups` — one call, with any reading of the clock and any order of the directory.
* `NoteRun` — some calls one after the other, with what they overwrote.
* `StepInOrder` — the new name is not that of a recent backup, and few backups have later names than a recent one.
* `backups_kept` — in a run of such calls, the contents that were overwritten last are in the backups.
-/

namespace Ariad.Vault

open Keyset List

/-! ## Names -/

def MAX_BACKUPS_PER_FILE : ℕ := 5

/-- `String(n)` -/
def decimal : ℤ → Text
  | .ofNat n => Nat.toDigits 10 n
  | .negSucc n => '-' :: Nat.toDigits 10 (n + 1)

/-- The value of the digits in front. -/
def digitsValue (t : Text) : Option ℤ :=
  let digits := t.takeWhile Char.isDigit
  if digits = [] then none else some (Nat.ofDigitChars 10 digits 0)

/-- `parseInt(t, 10)`; without an answer, it is not a number. -/
def parseInt (t : Text) : Option ℤ :=
  match Text.trimStart t with
  | '-' :: rest => (digitsValue rest).map fun n => -n
  | '+' :: rest => digitsValue rest
  | rest => digitsValue rest

/-- `split('.bak.')` -/
def splitMarks : Text → List Text
  | [] => [[]]
  | '.' :: 'b' :: 'a' :: 'k' :: '.' :: t => [] :: splitMarks t
  | c :: t =>
    match splitMarks t with
    | [] => [[c]]
    | part :: parts => (c :: part) :: parts

/-- `parseInt(e.split('.bak.').pop() || '0', 10) || 0` -/
def stamp (name : Text) : ℤ := (parseInt ((splitMarks name).getLastD [])).getD 0

variable (baseName : Text)

def backupName (now : ℤ) : Text := baseName ++ ".bak.".toList ++ decimal now

def isBackup (name : Text) : Bool := (baseName ++ ".bak.".toList).isPrefixOf name

example : backupName "a.md".toList 1700 = "a.md.bak.1700".toList := by decide

/-! ## One call -/

/-- The order in which a directory is read. -/
structure Listing where
  order : List Text → List Text
  perm : ∀ names, (order names).Perm names

/-- A note, and the files beside it. -/
structure NoteFiles (β : Type) where
  note : Option β
  others : OrderedMap Text β

variable {β τ : Type} (decode : β → τ) (encode : τ → β)

/-- The names of the backups, the newest one first. -/
def sortedBackups (listing : Listing) (others : OrderedMap Text β) : List Text :=
  orderBy (fun name => -stamp name) ((listing.order others.keys).filter (isBackup baseName))

def pruneBackups (listing : Listing) (others : OrderedMap Text β) : OrderedMap Text β :=
  ((sortedBackups baseName listing others).drop MAX_BACKUPS_PER_FILE).foldl (fun m name => m.delete name) others

/-- What one call does with its arguments: a content, what the clock says, and how the directory is listed. -/
structure NoteCall (τ : Type) where
  content : τ
  now : ℤ
  listing : Listing

/-- The content that a call overwrites. -/
def overwritten [DecidableEq τ] (s : NoteFiles β) (call : NoteCall τ) : Option β :=
  s.note.filter fun existing => decode existing ≠ call.content

/-- A call with backups, of a path that stays inside the vault. -/
def writeNote [DecidableEq τ] (s : NoteFiles β) (call : NoteCall τ) : NoteFiles β :=
  match s.note with
  | none => { s with note := some (encode call.content) }
  | some existing =>
    if decode existing = call.content then s
    else
      { note := some (encode call.content)
        others := pruneBackups baseName call.listing (s.others.set (backupName baseName call.now) existing) }

/-! ## Runs -/

/-- The files, and what was overwritten, the last one first, each with the name of its copy. -/
structure NoteRun (β : Type) where
  files : NoteFiles β
  history : List (Text × β)

def NoteRun.step [DecidableEq τ] (r : NoteRun β) (call : NoteCall τ) : NoteRun β where
  files := writeNote baseName decode encode r.files call
  history := ((overwritten decode r.files call).map fun c => (backupName baseName call.now, c)).toList ++ r.history

def NoteRun.run [DecidableEq τ] (files : NoteFiles β) (calls : List (NoteCall τ)) : NoteRun β :=
  calls.foldl (NoteRun.step baseName decode encode) ⟨files, []⟩

/-- The contents that were overwritten last are in the backups. -/
def NoteRun.Kept (r : NoteRun β) : Prop :=
  ∀ c ∈ (r.history.map Prod.snd).take MAX_BACKUPS_PER_FILE,
    ∃ name, isBackup baseName name = true ∧ r.files.others.get name = some c

/-- The backups other than this one that are not older than it, by their names. -/
def notOlder (others : OrderedMap Text β) (name : Text) : List Text :=
  (others.keys.filter (isBackup baseName)).filter fun b => b ≠ name && stamp name ≤ stamp b

/-- **Clock readings in order**, at one call: the new copy does not replace one of the last four, and each of these five
has fewer than five backups beside it that are not older by their names. -/
def NoteRun.StepInOrder [DecidableEq τ] (r : NoteRun β) (call : NoteCall τ) : Prop :=
  ∀ existing, overwritten decode r.files call = some existing →
    let name := backupName baseName call.now
    let before := (r.history.map Prod.fst).take (MAX_BACKUPS_PER_FILE - 1)
    name ∉ before ∧ ∀ o ∈ name :: before,
      (notOlder baseName (r.files.others.set name existing) o).length < MAX_BACKUPS_PER_FILE

/-- Every call of the run is in order. -/
def NoteRun.InOrder [DecidableEq τ] (r : NoteRun β) : List (NoteCall τ) → Prop
  | [] => True
  | call :: calls => r.StepInOrder baseName decode call ∧ (r.step baseName decode encode call).InOrder calls

/-! ## What is kept -/

variable {baseName decode encode}

variable {call : NoteCall τ}

theorem isBackup_backupName (now : ℤ) : isBackup baseName (backupName baseName now) = true :=
  List.isPrefixOf_iff_prefix.mpr (prefix_append _ _)

/-- The names at the head of the history still hold their copies. -/
structure NoteRun.Held (baseName : Text) (r : NoteRun β) : Prop where
  copies : ∀ c ∈ r.history.take MAX_BACKUPS_PER_FILE, r.files.others.get c.1 = some c.2
  names : ∀ c ∈ r.history, isBackup baseName c.1 = true

theorem get_deleteAll {names : List Text} {m : OrderedMap Text β} {name : Text} :
    (names.foldl (fun m name => m.delete name) m).get name = if name ∈ names then none else m.get name := by
  induction names generalizing m with
  | nil => rfl
  | cons other names ih =>
    rw [foldl_cons, ih, OrderedMap.get_delete]
    grind

/-- A backup that few others are newer than is not removed. -/
theorem get_pruneBackups {listing : Listing} {m : OrderedMap Text β} {name : Text}
    (hfew : (notOlder baseName m name).length < MAX_BACKUPS_PER_FILE) :
    (pruneBackups baseName listing m).get name = m.get name := by
  rw [pruneBackups, get_deleteAll, if_neg]
  have hperm := (listing.perm m.keys).filter (isBackup baseName)
  have hnodup : ((listing.order m.keys).filter (isBackup baseName)).Nodup :=
    hperm.nodup_iff.mpr (m.nodup.filter _)
  apply notMem_drop_orderBy hnodup
  rw [(hperm.filter _).length_eq]
  simpa only [notOlder, neg_le_neg_iff] using hfew

/-- The backups that are left are the newest ones. -/
theorem length_pruneBackups (listing : Listing) (m : OrderedMap Text β) :
    ((pruneBackups baseName listing m).keys.filter (isBackup baseName)).length ≤ MAX_BACKUPS_PER_FILE := by
  have hsub : (pruneBackups baseName listing m).keys.filter (isBackup baseName) ⊆
      (sortedBackups baseName listing m).take MAX_BACKUPS_PER_FILE := by
    intro name hname
    obtain ⟨hkey, hbackup⟩ := mem_filter.mp hname
    obtain ⟨v, hget⟩ := OrderedMap.mem_keys_iff.mp hkey
    rw [pruneBackups, get_deleteAll] at hget
    split at hget
    · cases hget
    · rename_i hkept
      have hlisted : name ∈ sortedBackups baseName listing m :=
        mem_orderBy.mpr (mem_filter.mpr ⟨(listing.perm _).mem_iff.mpr (OrderedMap.mem_keys_iff.mpr ⟨v, hget⟩), hbackup⟩)
      rw [← take_append_drop MAX_BACKUPS_PER_FILE (sortedBackups baseName listing m)] at hlisted
      exact (mem_append.mp hlisted).resolve_right hkept
  exact (((OrderedMap.nodup _).filter _).length_le_of_subset hsub).trans (length_take_le _ _)

/-- Nothing is copied if there is no note, or if it has this content already. -/
theorem others_writeNote_of_none [DecidableEq τ] {s : NoteFiles β}
    (h : overwritten decode s call = none) : (writeNote baseName decode encode s call).others = s.others := by
  obtain ⟨note, others⟩ := s
  cases note with
  | none => rfl
  | some existing =>
    have hsame : decode existing = call.content := by simpa [overwritten] using h
    exact congrArg NoteFiles.others (if_pos hsame)

theorem others_writeNote_of_some [DecidableEq τ] {s : NoteFiles β} {existing : β}
    (h : overwritten decode s call = some existing) : (writeNote baseName decode encode s call).others =
      pruneBackups baseName call.listing (s.others.set (backupName baseName call.now) existing) := by
  obtain ⟨note, others⟩ := s
  obtain ⟨hnote, hne⟩ := Option.filter_eq_some_iff.mp h
  subst hnote
  exact congrArg NoteFiles.others (if_neg (of_decide_eq_true hne))

/-- A call that is in order keeps the copies. -/
theorem NoteRun.Held.step [DecidableEq τ] {r : NoteRun β} (h : r.Held baseName)
    (horder : r.StepInOrder baseName decode call) : (r.step baseName decode encode call).Held baseName := by
  cases hover : overwritten decode r.files call with
  | none =>
    rw [NoteRun.step, hover]
    refine ⟨fun c hc => ?_, h.names⟩
    rw [others_writeNote_of_none hover]
    exact h.copies c hc
  | some existing =>
    obtain ⟨hfresh, hfew⟩ := horder existing hover
    rw [NoteRun.step, hover]
    constructor
    · intro c hc
      rw [others_writeNote_of_some hover]
      rcases mem_cons.mp hc with rfl | hc
      · rw [get_pruneBackups (hfew _ mem_cons_self), OrderedMap.get_set_self]
      · have hc : c ∈ r.history.take (MAX_BACKUPS_PER_FILE - 1) := hc
        have hbefore : c.1 ∈ (r.history.map Prod.fst).take (MAX_BACKUPS_PER_FILE - 1) := by
          rw [← map_take]
          exact mem_map_of_mem hc
        have hne : c.1 ≠ backupName baseName call.now := fun heq => hfresh (heq ▸ hbefore)
        rw [get_pruneBackups (hfew _ (mem_cons_of_mem _ hbefore)), OrderedMap.get_set_of_ne hne]
        exact h.copies c (take_subset_take_left _ (Nat.sub_le _ _) hc)
    · intro c hc
      rcases mem_cons.mp hc with rfl | hc
      · exact isBackup_backupName _
      · exact h.names c hc

theorem NoteRun.Held.run [DecidableEq τ] {r : NoteRun β} {calls : List (NoteCall τ)} (hheld : r.Held baseName)
    (h : r.InOrder baseName decode encode calls) :
    (calls.foldl (NoteRun.step baseName decode encode) r).Held baseName := by
  induction calls generalizing r with
  | nil => exact hheld
  | cons call calls ih => exact ih (hheld.step h.1) h.2

/-- **Backups.** In a run of calls that are in order, the contents that were overwritten last are all in the backups. -/
theorem backups_kept [DecidableEq τ] (baseName : Text) (decode : β → τ) (encode : τ → β) (files : NoteFiles β)
    (calls : List (NoteCall τ)) (h : NoteRun.InOrder baseName decode encode ⟨files, []⟩ calls) :
    (NoteRun.run baseName decode encode files calls).Kept baseName := by
  have hheld : (NoteRun.run baseName decode encode files calls).Held baseName := NoteRun.Held.run ⟨nofun, nofun⟩ h
  intro c hc
  rw [← map_take] at hc
  obtain ⟨copy, hcopy, rfl⟩ := mem_map.mp hc
  exact ⟨copy.1, hheld.names copy (mem_of_mem_take hcopy), hheld.copies copy hcopy⟩

/-- Two copies at different times. -/
theorem backups_kept_two : (NoteRun.run "a.md".toList id id ⟨some [], .empty⟩
      [⟨['a'], 1, ⟨id, fun _ => .refl _⟩⟩, ⟨['b'], 2, ⟨id, fun _ => .refl _⟩⟩]).Kept "a.md".toList :=
  backups_kept _ _ _ _ _ (by
    simp only [NoteRun.InOrder, NoteRun.StepInOrder]
    decide)

/-- Two copies in one millisecond: the second one replaces the first one. -/
theorem backups_lost : ¬∀ (baseName : Text) (files : NoteFiles Text) (calls : List (NoteCall Text)),
      (NoteRun.run baseName id id files calls).Kept baseName := by
  intro h
  obtain ⟨name, -, hget⟩ := h "a.md".toList ⟨some [], .empty⟩
    [⟨['a'], 1, ⟨id, fun _ => .refl _⟩⟩, ⟨['b'], 1, ⟨id, fun _ => .refl _⟩⟩] [] (by decide)
  have hcopies : (NoteRun.run "a.md".toList id id ⟨some [], .empty⟩
      [⟨['a'], 1, ⟨id, fun _ => .refl _⟩⟩, ⟨['b'], 1, ⟨id, fun _ => .refl _⟩⟩]).files.others.entries =
        [("a.md.bak.1".toList, ['a'])] := by decide
  have hmem := OrderedMap.get_eq_some_iff.mp hget
  rw [hcopies, mem_singleton] at hmem
  exact cons_ne_nil _ _ (congrArg Prod.snd hmem).symm

/-- **What is beside a note.** At any clock, files that are not backups of the note stay as they are, every backup has
a content that was overwritten or was there at first, and after a copy there are not more than five. -/
theorem backups_bounded [DecidableEq τ] (baseName : Text) (decode : β → τ) (encode : τ → β) (files : NoteFiles β)
    (calls : List (NoteCall τ)) :
    let r := NoteRun.run baseName decode encode files calls
    (∀ name, isBackup baseName name = false → r.files.others.get name = files.others.get name) ∧
    (∀ name c, r.files.others.get name = some c → files.others.get name = some c ∨ (name, c) ∈ r.history) ∧
    (r.history ≠ [] → (r.files.others.keys.filter (isBackup baseName)).length ≤ MAX_BACKUPS_PER_FILE) := by
  induction calls using List.reverseRecOn with
  | nil => exact ⟨fun _ _ => rfl, fun _ _ h => .inl h, fun h => absurd rfl h⟩
  | append_singleton calls call ih =>
    rw [NoteRun.run, foldl_append] at *
    set r := calls.foldl (NoteRun.step baseName decode encode) ⟨files, []⟩
    cases hover : overwritten decode r.files call with
    | none => simpa [NoteRun.step, hover, others_writeNote_of_none hover] using ih
    | some existing =>
      simp only [foldl_cons, foldl_nil, NoteRun.step, hover, others_writeNote_of_some hover]
      obtain ⟨hother, hcontent, -⟩ := ih
      refine ⟨fun name hname => ?_, fun name c hget => ?_, fun _ => length_pruneBackups _ _⟩
      · have hne : name ≠ backupName baseName call.now := by
          rintro rfl
          rw [isBackup_backupName] at hname
          cases hname
        rw [pruneBackups, get_deleteAll, if_neg, OrderedMap.get_set_of_ne hne, hother name hname]
        intro hmem
        have hbackup := mem_orderBy.mp (mem_of_mem_drop hmem)
        rw [mem_filter, hname] at hbackup
        cases hbackup.2
      · rw [pruneBackups, get_deleteAll, OrderedMap.get_set] at hget
        grind

end Ariad.Vault
