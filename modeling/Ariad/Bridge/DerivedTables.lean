import Ariad.Bridge.Domains
import Ariad.Concurrency.Transitions

/-!
# The derived tables of a reader

`temp.node_domain_map` and `temp.node_degree` are made once for a project and a revision of the graph. That
they are there is noted in two fields of the reader, while the tables themselves belong to the transaction.

* `ReaderState.after` — a call of `ensureDerivedTables` statement by statement, snapshots that end well or
  throw, and commits of other connections.
* `Unspoiled` — the condition on an event: a rollback takes away no table that is noted.
* `derivedTables_coherent` — in a run of such events, tables that are noted are the ones of the visible graph.
-/

namespace Ariad.Bridge

open Option

/-! ## The tables -/

/-- A row of `temp.node_degree`. -/
structure NodeDegree where
  nodeId : ℕ
  degree : ℕ
  deriving DecidableEq

/-- The edges of the project that start or end at each node; those that do both count twice. -/
def nodeDegrees (g : CodeGraph) (project : Text) : List NodeDegree :=
  (g.projectNodes project).map fun n =>
    ⟨n.id, ((g.projectEdges project).countP fun e => e.sourceId = n.id) +
      (g.projectEdges project).countP fun e => e.targetId = n.id⟩

/-- The temporary tables of a connection. -/
structure TempTables where
  nodeDomainMap : Option (List NodeDomain)
  nodeDegree : Option (List NodeDegree)

/-- The tables of a graph. -/
def derivedTables (g : CodeGraph) (project : Text) : TempTables :=
  ⟨some (nodeDomainMap g project), some (nodeDegrees g project)⟩

/-! ## The reader -/

/-- A graph and its revision. The revision is the data version, of which the code keeps the digest. -/
structure Version where
  graph : CodeGraph
  revision : ℕ

/-- The fields in which the reader notes the tables. -/
structure Noted where
  domainMapProject : Option Text
  domainMapRevision : Option ℕ
  deriving DecidableEq

/-- An open read transaction. -/
structure Snapshot where
  seen : Version
  /-- The revision is the one before `BEGIN`, and the expected one if there is one; else nothing is read. -/
  admitted : Bool
  /-- The tables at `BEGIN`, which a rollback brings back. -/
  tables : TempTables
  /-- What was noted at `BEGIN`. -/
  noted : Noted

/-- The statements of `ensureDerivedTables`. -/
inductive BuildPhase where
  | dropMap | dropDegree | createMap | fillMap | createDegree | fillDegree
  deriving DecidableEq

/-- A call of `ensureDerivedTables` before one of its statements. -/
structure Build where
  project : Text
  revision : ℕ
  phase : BuildPhase

structure ReaderState where
  /-- What other connections have committed. -/
  current : Version
  snapshot : Option Snapshot
  tables : TempTables
  noted : Noted
  building : Option Build

def ReaderState.new (g : CodeGraph) : ReaderState := ⟨⟨g, 0⟩, none, ⟨none, none⟩, ⟨none, none⟩, none⟩

namespace ReaderState

variable (s : ReaderState)

/-- What a statement reads. -/
def visible : Version := (s.snapshot.map Snapshot.seen).getD s.current

/-- Whether a method of the reader may be called: no call is under way, and a snapshot is admitted. -/
def idle : Bool := s.building.isNone && s.snapshot.all Snapshot.admitted

/-- `ROLLBACK`: the tables are those at `BEGIN`; the fields stay. -/
def rollback (sn : Snapshot) : ReaderState := { s with
  snapshot := none
  tables := sn.tables
  building := none }

end ReaderState

/-! ## Events -/

/-- What a statement does to the tables; `none` when SQLite refuses it. -/
def BuildPhase.exec (g : CodeGraph) (project : Text) (t : TempTables) : BuildPhase → Option TempTables
  | .dropMap => some { t with nodeDomainMap := none }
  | .dropDegree => some { t with nodeDegree := none }
  | .createMap => if t.nodeDomainMap.isSome then none else some { t with nodeDomainMap := some [] }
  | .fillMap => t.nodeDomainMap.map fun rows => { t with nodeDomainMap := some (rows ++ nodeDomainMap g project) }
  | .createDegree => if t.nodeDegree.isSome then none else some { t with nodeDegree := some [] }
  | .fillDegree => t.nodeDegree.map fun rows => { t with nodeDegree := some (rows ++ nodeDegrees g project) }

def BuildPhase.next : BuildPhase → Option BuildPhase
  | .dropMap => some .dropDegree
  | .dropDegree => some .createMap
  | .createMap => some .fillMap
  | .fillMap => some .createDegree
  | .createDegree => some .fillDegree
  | .fillDegree => none

inductive ReaderEvent where
  /-- Another connection commits a graph. -/
  | commit (g : CodeGraph)
  /-- `withGraphSnapshot` begins an attempt; it has read this revision before. -/
  | begin (before : ℕ) (expected : Option ℕ)
  /-- A method calls `ensureDerivedTables`. -/
  | ensure (project : Text)
  /-- The next statement of the call, which after the last one notes the tables. -/
  | statement
  /-- The next statement fails, and with it the call and the snapshot around it. -/
  | fault
  /-- The attempt ends without an exception. -/
  | leave
  /-- The callback throws. -/
  | throw

/-- The call after a statement. -/
def ReaderState.advance (s : ReaderState) (b : Build) (t : TempTables) : ReaderState :=
  match b.phase.next with
  | some phase => { s with
      tables := t
      building := some { b with phase := phase } }
  | none => { s with
      tables := t
      noted := ⟨some b.project, some b.revision⟩
      building := none }

/-- The state after an event, `none` when it cannot happen. -/
def ReaderState.after (s : ReaderState) : ReaderEvent → Option ReaderState
  | .commit g => some { s with current := ⟨g, s.current.revision + 1⟩ }
  | .begin before expected =>
    if s.snapshot.isNone ∧ s.building.isNone then
      let admitted := before = s.current.revision ∧ (expected = none ∨ expected = some s.current.revision)
      some { s with snapshot := some ⟨s.current, decide admitted, s.tables, s.noted⟩ }
    else none
  | .ensure project =>
    if s.idle then
      if s.noted = ⟨some project, some s.visible.revision⟩ then some s
      else some { s with building := some ⟨project, s.visible.revision, .dropMap⟩ }
    else none
  | .statement => do
    let b ← s.building
    let t ← b.phase.exec s.visible.graph b.project s.tables
    return s.advance b t
  | .fault =>
    match s.building, s.snapshot with
    | some _, some sn => some (s.rollback sn)
    | some _, none => some { s with building := none }
    | none, _ => none
  | .leave =>
    match s.building, s.snapshot with
    | none, some _ => some { s with snapshot := none }
    | _, _ => none
  | .throw =>
    match s.building, s.snapshot with
    | none, some sn => some (s.rollback sn)
    | _, _ => none

def ReaderStep (s : ReaderState) (e : ReaderEvent) (s' : ReaderState) : Prop := s.after e = some s'

/-- `ensureDerivedTables(project)` returns because the tables are noted. -/
def ReaderState.Returns (s : ReaderState) (project : Text) : Prop :=
  s.idle = true ∧ s.noted = ⟨some project, some s.visible.revision⟩

/-! ## Events that spoil nothing -/

/-- A rollback of this snapshot takes away no noted table: none was noted in it, or the graph has changed
since. -/
def ReaderState.Clean (s : ReaderState) (sn : Snapshot) : Prop :=
  s.noted = sn.noted ∨ sn.seen.revision ≠ s.current.revision

/-- Outside a snapshot a call fails before it has dropped a table, or what is noted is out of date. -/
def ReaderState.Harmless (s : ReaderState) (b : Build) : Prop :=
  b.phase = .dropMap ∨ s.noted.domainMapRevision ≠ some s.current.revision

/-- The condition on an event. -/
def Unspoiled (s : ReaderState) : ReaderEvent → Prop
  | .throw => ∀ sn, s.snapshot = some sn → s.Clean sn
  | .fault =>
    (∀ sn, s.snapshot = some sn → s.Clean sn) ∧
      (s.snapshot = none → ∀ b, s.building = some b → s.Harmless b)
  | _ => True

/-! ## The invariant -/

/-- What a call has made so far. -/
def Build.Progress (b : Build) (seen : Version) (t : TempTables) : Prop :=
  match b.phase with
  | .fillMap => t.nodeDomainMap = some []
  | .createDegree => b.revision = seen.revision → t.nodeDomainMap = some (nodeDomainMap seen.graph b.project)
  | .fillDegree =>
    (b.revision = seen.revision → t.nodeDomainMap = some (nodeDomainMap seen.graph b.project)) ∧
      t.nodeDegree = some []
  | _ => True

/-- No statement of a call has changed the tables. -/
def ReaderState.Untouched (s : ReaderState) : Prop := ∀ b, s.building = some b → b.phase = .dropMap

structure ReaderInv (s : ReaderState) : Prop where
  seen : ∀ sn, s.snapshot = some sn → sn.seen.revision ≤ s.current.revision ∧
    (sn.seen.revision = s.current.revision → sn.seen = s.current)
  /-- Nothing newer than what is visible is noted. -/
  old : ∀ r, s.noted.domainMapRevision = some r → r ≤ s.visible.revision
  oldAtBegin : ∀ sn, s.snapshot = some sn → ∀ r, sn.noted.domainMapRevision = some r → r ≤ sn.seen.revision
  /-- The tables that a rollback brings back are those that were noted at `BEGIN`. -/
  saved : ∀ sn, s.snapshot = some sn → ∀ p, sn.noted = ⟨some p, some s.current.revision⟩ →
    sn.tables = derivedTables s.current.graph p
  intact : s.Untouched → ∀ p, s.noted = ⟨some p, some s.visible.revision⟩ →
    s.tables = derivedTables s.visible.graph p
  progress : ∀ b, s.building = some b → b.revision ≤ s.visible.revision ∧ b.Progress s.visible s.tables

namespace ReaderInv

variable {s s' : ReaderState} {e : ReaderEvent}

theorem new (g : CodeGraph) : ReaderInv (.new g) := by
  refine ⟨?_, ?_, ?_, ?_, ?_, ?_⟩ <;> intros <;> simp_all [ReaderState.new]

theorem visible_of_none (h : s.snapshot = none) : s.visible = s.current := by
  rw [ReaderState.visible, h]
  rfl

theorem visible_of_some {sn : Snapshot} (h : s.snapshot = some sn) : s.visible = sn.seen := by
  rw [ReaderState.visible, h]
  rfl

section

variable (h : ReaderInv s)
include h

/-- A commit of another connection leaves a snapshot as it is, and makes everything noted old. -/
theorem commit (g : CodeGraph) :
    ReaderInv { s with current := ⟨g, s.current.revision + 1⟩ } := by
  obtain hsn | ⟨sn, hsn⟩ := s.snapshot.eq_none_or_eq_some
  · have hvis := visible_of_none hsn
    have hvis' : ReaderState.visible { s with current := ⟨g, s.current.revision + 1⟩ } =
        ⟨g, s.current.revision + 1⟩ := visible_of_none hsn
    have hold (r : ℕ) (hr : s.noted.domainMapRevision = some r) : r ≤ s.current.revision := hvis ▸ h.old r hr
    refine ⟨fun sn h' => ?_, fun r hr => ?_, fun sn h' => ?_, fun sn h' => ?_, fun _ p hp => ?_, fun b hb => ?_⟩
    · cases hsn.symm.trans h'
    · rw [hvis']
      exact (hold r hr).trans (Nat.le_succ _)
    · cases hsn.symm.trans h'
    · cases hsn.symm.trans h'
    · rw [hvis'] at hp
      have := hold (s.current.revision + 1) (congrArg Noted.domainMapRevision hp)
      omega
    · obtain ⟨hrev, hprog⟩ := h.progress b hb
      rw [hvis] at hrev
      rw [hvis']
      refine ⟨hrev.trans (Nat.le_succ _), ?_⟩
      -- The revision of the call is past: what has been read since does not count.
      have hpast : ¬b.revision = s.current.revision + 1 := by omega
      rw [Build.Progress] at hprog ⊢
      split at hprog
      · rename_i hphase
        simpa only [hphase] using hprog
      · simp [hpast]
      · simp [hpast, hprog.2]
      · trivial
  · have hvis : ReaderState.visible { s with current := ⟨g, s.current.revision + 1⟩ } = s.visible :=
      (visible_of_some (s := { s with current := ⟨g, s.current.revision + 1⟩ }) hsn).trans (visible_of_some hsn).symm
    have hle := (h.seen sn hsn).1
    refine ⟨fun sn' h' => ?_, fun r hr => ?_, h.oldAtBegin, fun sn' h' p hp => ?_, fun hu p hp => ?_, fun b hb => ?_⟩
    · obtain rfl := Option.some.inj (hsn.symm.trans h')
      exact ⟨hle.trans (Nat.le_succ _), fun heq => absurd heq (by show sn.seen.revision ≠ s.current.revision + 1; omega)⟩
    · rw [hvis]
      exact h.old r hr
    · obtain rfl := Option.some.inj (hsn.symm.trans h')
      have : s.current.revision + 1 ≤ sn.seen.revision := h.oldAtBegin sn hsn _ (congrArg Noted.domainMapRevision hp)
      omega
    · rw [hvis] at hp ⊢
      exact h.intact hu p hp
    · rw [hvis]
      exact h.progress b hb

theorem begin (hs : s.snapshot = none) (hb : s.building = none) (admitted : Bool) :
    ReaderInv { s with snapshot := some ⟨s.current, admitted, s.tables, s.noted⟩ } := by
  have hvis := visible_of_none hs
  have hintact := h.intact fun b hb' => by cases hb.symm.trans hb'
  have hold := h.old
  rw [hvis] at hintact hold
  refine ⟨fun sn h' => ?_, hold, fun sn h' => ?_, fun sn h' p hp => ?_, fun _ p hp => ?_, fun b hb' => ?_⟩
  · obtain rfl := Option.some.inj h'
    exact ⟨le_rfl, fun _ => rfl⟩
  · obtain rfl := Option.some.inj h'
    exact hold
  · obtain rfl := Option.some.inj h'
    exact hintact p hp
  · exact hintact p hp
  · cases hb.symm.trans hb'

theorem ensure (hb : s.building = none) (project : Text) :
    ReaderInv { s with building := some ⟨project, s.visible.revision, .dropMap⟩ } := by
  have hintact := h.intact fun b hb' => by cases hb.symm.trans hb'
  refine ⟨h.seen, h.old, h.oldAtBegin, h.saved, fun _ => hintact, fun b hb' => ?_⟩
  obtain rfl := Option.some.inj hb'
  exact ⟨le_rfl, trivial⟩

theorem statement {b : Build} {t : TempTables} (hb : s.building = some b)
    (ht : b.phase.exec s.visible.graph b.project s.tables = some t) : ReaderInv (s.advance b t) := by
  obtain ⟨hrev, hprog⟩ := h.progress b hb
  obtain ⟨project, revision, phase⟩ := b
  -- A statement before the last one leaves what is noted, and the call goes on.
  have hgo (phase' : BuildPhase) (hne : phase' ≠ .dropMap)
      (hprog' : Build.Progress ⟨project, revision, phase'⟩ s.visible t) :
      ReaderInv { s with tables := t, building := some ⟨project, revision, phase'⟩ } := by
    refine ⟨h.seen, h.old, h.oldAtBegin, h.saved, fun hu => ?_, fun b' hb' => ?_⟩
    · exact absurd (hu _ rfl) hne
    · obtain rfl := Option.some.inj hb'
      exact ⟨hrev, hprog'⟩
  cases phase with
  | dropMap => exact hgo .dropDegree (by decide) trivial
  | dropDegree => exact hgo .createMap (by decide) trivial
  | createMap =>
    obtain ⟨-, ht⟩ := ite_none_left_eq_some.mp ht
    obtain rfl := Option.some.inj ht
    exact hgo .fillMap (by decide) rfl
  | fillMap =>
    obtain ⟨rows, hrows, rfl⟩ := map_eq_some_iff.mp ht
    obtain rfl := Option.some.inj (hrows.symm.trans hprog)
    exact hgo .createDegree (by decide) fun _ => rfl
  | createDegree =>
    obtain ⟨-, ht⟩ := ite_none_left_eq_some.mp ht
    obtain rfl := Option.some.inj ht
    exact hgo .fillDegree (by decide) ⟨hprog, rfl⟩
  | fillDegree =>
    obtain ⟨rows, hrows, rfl⟩ := map_eq_some_iff.mp ht
    obtain ⟨hmap, hdegree⟩ := hprog
    obtain rfl := Option.some.inj (hrows.symm.trans hdegree)
    refine ⟨h.seen, fun r hr => ?_, h.oldAtBegin, h.saved, fun _ p hp => ?_, (fun b hb' => nomatch hb')⟩
    · obtain rfl := Option.some.inj hr
      exact hrev
    · obtain ⟨hproject, hrevision⟩ := Noted.mk.inj hp
      obtain rfl := Option.some.inj hproject
      have hmap' := hmap (Option.some.inj hrevision)
      show TempTables.mk s.tables.nodeDomainMap _ = _
      rw [hmap']
      rfl

theorem visible_le : s.visible.revision ≤ s.current.revision := by
  cases hs : s.snapshot with
  | none => rw [visible_of_none hs]
  | some sn =>
    rw [visible_of_some hs]
    exact (h.seen sn hs).1

theorem rollback {sn : Snapshot} (hs : s.snapshot = some sn) (hclean : s.Clean sn) :
    ReaderInv (s.rollback sn) := by
  refine ⟨(fun _ h' => nomatch h'), fun r hr => ?_, (fun _ h' => nomatch h'), (fun _ h' => nomatch h'), fun _ p hp => ?_,
    (fun _ h' => nomatch h')⟩
  · exact (h.old r hr).trans h.visible_le
  · have hp : s.noted = ⟨some p, some s.current.revision⟩ := hp
    rcases hclean with hsame | hchanged
    · exact h.saved sn hs p (hsame ▸ hp)
    · -- What is noted is not newer than the snapshot, which is older than the graph.
      have hle := h.old s.current.revision (congrArg Noted.domainMapRevision hp)
      rw [visible_of_some hs] at hle
      have := (h.seen sn hs).1
      omega

theorem fault {b : Build} (hs : s.snapshot = none) (hb : s.building = some b)
    (hharm : s.Harmless b) : ReaderInv { s with building := none } := by
  refine ⟨h.seen, h.old, h.oldAtBegin, h.saved, fun _ p hp => ?_, (fun _ h' => nomatch h')⟩
  rcases hharm with hphase | hold
  · refine h.intact (fun b' hb' => ?_) p hp
    obtain rfl := Option.some.inj (hb.symm.trans hb')
    exact hphase
  · have hvis : ReaderState.visible { s with building := none } = s.current := visible_of_none hs
    rw [hvis] at hp
    exact absurd (congrArg Noted.domainMapRevision hp) hold

theorem leave {sn : Snapshot} (hs : s.snapshot = some sn) (hb : s.building = none) :
    ReaderInv { s with snapshot := none } := by
  have hintact := h.intact fun b hb' => by cases hb.symm.trans hb'
  refine ⟨(fun _ h' => nomatch h'), fun r hr => ?_, (fun _ h' => nomatch h'), (fun _ h' => nomatch h'), fun _ p hp => ?_,
    fun b hb' => by cases hb.symm.trans hb'⟩
  · exact (h.old r hr).trans h.visible_le
  · have hp : s.noted = ⟨some p, some s.current.revision⟩ := hp
    have hle := h.old s.current.revision (congrArg Noted.domainMapRevision hp)
    have hvis := visible_of_some hs
    obtain ⟨hseen, hsame⟩ := h.seen sn hs
    rw [hvis] at hle hintact
    have heq := hsame (by omega)
    rw [heq] at hintact
    exact hintact p hp

/-- An event that spoils nothing keeps the invariant. -/
theorem step (hu : Unspoiled s e) (hs : ReaderStep s e s') : ReaderInv s' := by
  rw [ReaderStep] at hs
  cases e with
  | commit g =>
    obtain rfl := Option.some.inj hs
    exact h.commit g
  | begin before expected =>
    obtain ⟨hif, hs⟩ := ite_none_right_eq_some.mp hs
    obtain rfl := Option.some.inj hs
    exact h.begin (isNone_iff_eq_none.mp hif.1) (isNone_iff_eq_none.mp hif.2) _
  | ensure project =>
    obtain ⟨hidle, hs⟩ := ite_none_right_eq_some.mp hs
    split at hs
    · obtain rfl := Option.some.inj hs
      exact h
    · obtain rfl := Option.some.inj hs
      rw [ReaderState.idle, Bool.and_eq_true] at hidle
      exact h.ensure (isNone_iff_eq_none.mp hidle.1) project
  | statement =>
    obtain ⟨b, hb, hs⟩ := bind_eq_some_iff.mp hs
    obtain ⟨t, ht, hs⟩ := bind_eq_some_iff.mp hs
    obtain rfl := Option.some.inj hs
    exact h.statement hb ht
  | fault =>
    simp only [ReaderState.after] at hs
    split at hs
    · rename_i b sn hb hsn
      obtain rfl := Option.some.inj hs
      exact h.rollback hsn (hu.1 sn hsn)
    · rename_i b hb hsn
      obtain rfl := Option.some.inj hs
      exact h.fault hsn hb (hu.2 hsn b hb)
    · cases hs
  | leave =>
    simp only [ReaderState.after] at hs
    split at hs
    · rename_i sn hb hsn
      obtain rfl := Option.some.inj hs
      exact h.leave hsn hb
    · cases hs
  | throw =>
    simp only [ReaderState.after] at hs
    split at hs
    · rename_i sn hb hsn
      obtain rfl := Option.some.inj hs
      exact h.rollback hsn (hu sn hsn)
    · cases hs

end

end ReaderInv

/-! ## Coherence -/

/-- **Coherence.** In every run whose events spoil nothing, a call that returns because the tables are noted
finds the tables of the visible graph. -/
theorem derivedTables_coherent {g : CodeGraph} {es : List ReaderEvent} {s : ReaderState} {project : Text}
    (h : Runs (Guarded Unspoiled ReaderStep) (.new g) es s) (hret : s.Returns project) :
    s.tables = derivedTables s.visible.graph project := by
  have hinv : ReaderInv s :=
    h.invariant (fun _ _ _ hi he => hi.step he.1 he.2) (ReaderInv.new g)
  obtain ⟨hidle, hnoted⟩ := hret
  rw [ReaderState.idle, Bool.and_eq_true] at hidle
  have hb := Option.isNone_iff_eq_none.mp hidle.1
  exact hinv.intact (fun b hb' => by cases hb.symm.trans hb') project hnoted

/-! ## A callback that throws -/

def emptyGraph : CodeGraph := ⟨[], [], List.nodup_nil, List.nodup_nil⟩

/-- A call of `ensureDerivedTables` to its end. -/
def wholeCall (project : Text) : List ReaderEvent := .ensure project :: List.replicate 6 .statement

/-- The tables go with the transaction and stay noted. -/
theorem derivedTables_lost :
    ¬∀ (g : CodeGraph) (es : List ReaderEvent) (s : ReaderState) (project : Text),
      Runs ReaderStep (.new g) es s → s.Returns project → s.tables = derivedTables s.visible.graph project := by
  intro h
  have hrun : Runs ReaderStep (.new emptyGraph) (.begin 0 none :: wholeCall [] ++ [.throw])
      ⟨⟨emptyGraph, 0⟩, none, ⟨none, none⟩, ⟨some [], some 0⟩, none⟩ := .of_foldlM rfl
  have htables := h _ _ _ [] hrun ⟨rfl, rfl⟩
  cases congrArg TempTables.nodeDomainMap htables

/-- A call in a snapshot that ends well. -/
theorem derivedTables_coherent_snapshot :
    ∃ s : ReaderState, s.Returns [] ∧ s.tables = derivedTables s.visible.graph [] := by
  have hrun : Runs ReaderStep (.new emptyGraph) (.begin 0 none :: wholeCall [] ++ [.leave])
      ⟨⟨emptyGraph, 0⟩, none, derivedTables emptyGraph [], ⟨some [], some 0⟩, none⟩ := .of_foldlM rfl
  have hgood : ∀ e ∈ .begin 0 none :: wholeCall [] ++ [.leave], ∀ s, Unspoiled s e := by
    intro e he s
    simp only [wholeCall, List.replicate, List.cons_append, List.nil_append, List.mem_cons, List.not_mem_nil,
      or_false] at he
    rcases he with rfl | rfl | rfl | rfl | rfl | rfl | rfl | rfl | rfl <;> trivial
  exact ⟨_, ⟨rfl, rfl⟩, derivedTables_coherent (hrun.guarded hgood) ⟨rfl, rfl⟩⟩

end Ariad.Bridge
