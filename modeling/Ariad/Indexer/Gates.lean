import Ariad.Indexer.Exactness
import Ariad.Indexer.Footprint

/-!
# The way to the gates

Until a run refuses or begins to index, it only reads. What it then knows of the project is what the
database says.

* `SameDb` — the database and the active generation are the same.
* `survey` — what a run knows at the gates.
* `holds_indexProjectWasm_of` — what holds of the refusals and behind the gates holds of the run.
-/

namespace Ariad

variable {φ χ δ α : Type}

open IndexM

/-- The database and the active generation are the same. -/
structure SameDb (w w' : IndexWorld φ χ δ) : Prop where
  db : w'.db = w.db
  active : w'.active = w.active

namespace SameDb

theorem refl (w : IndexWorld φ χ δ) : SameDb w w := ⟨rfl, rfl⟩

theorem trans {w₁ w₂ w₃ : IndexWorld φ χ δ} (h₁ : SameDb w₁ w₂) (h₂ : SameDb w₂ w₃) : SameDb w₁ w₃ :=
  ⟨h₂.db.trans h₁.db, h₂.active.trans h₁.active⟩

theorem edited (w : IndexWorld φ χ δ) (writes : List (AbsPath × Option (SourceFile χ))) :
    SameDb w (w.edited writes) := ⟨rfl, rfl⟩

end SameDb

/-- The project has some row in some table. -/
def CodeDb.hasGraphData (db : CodeDb φ χ δ) : Bool := structuralTables.any db.existsRows

/-- What a run knows that got to its gates. -/
def survey [DecidableEq φ] (opts : IndexOptions φ) (discovery : Discovery) (db : CodeDb φ χ δ) :
    Survey φ where
  opts := opts
  discovery := discovery
  input := ⟨[], db.loadAliasHistory opts.root.fingerprint, bootstrapComplete db.project,
    db.hasGraphData⟩
  projectState := if opts.incremental then db.project else none

section

variable [DecidableEq φ] {X : Extractor φ χ δ}
  {A : IndexOp φ χ δ → IndexChoice χ → IndexWorld φ χ δ → Prop} {I E : IndexWorld φ χ δ → Prop}
  {w w₀ : IndexWorld φ χ δ}

/-- A program that only reads leaves the database as it was before. -/
theorem IndexM.Only.holds_same {m : IndexM φ χ δ α} (h : m.Only IndexOp.Reads) (hw : SameDb w₀ w) :
    m.Holds X A (SameDb w₀) (fun _ => SameDb w₀) (SameDb w₀) w :=
  h.holds (fun _ ch w ho hJ _ => hJ.trans ⟨(ho.exec ch w).1, (ho.exec ch w).2⟩) hw

/-- What is read is what the database says. -/
theorem IndexM.holds_query (r : DbRead φ) (hw : SameDb w₀ w) :
    (IndexM.query r).Holds X A (SameDb w₀) (fun v w' => v = r.run w₀.db ∧ SameDb w₀ w')
      (SameDb w₀) w := by
  refine Holds.query hw (fun ch _ _ => hw.trans (.edited w ch.writes)) fun ch _ _ => ?_
  refine ⟨?_, hw.trans (.edited w ch.writes)⟩
  rw [hw.db]

theorem holds_existsAny (ts : List StructuralTable) (hw : SameDb w₀ w) :
    (existsAny ts).Holds X A (SameDb w₀) (fun b w' => b = ts.any w₀.db.existsRows ∧ SameDb w₀ w')
      (SameDb w₀) w := by
  induction ts generalizing w with
  | nil => exact Holds.pure ⟨rfl, hw⟩
  | cons t ts ih =>
    refine Holds.bind ((holds_query (.existsRows t) hw).mono ?_ fun _ h => h)
    rintro b w' ⟨rfl, hw'⟩
    split
    · rename_i h
      refine Holds.pure ⟨?_, hw'⟩
      rw [List.any_cons, show w₀.db.existsRows t = true from h]
      rfl
    · rename_i h
      have ht : w₀.db.existsRows t = false := Bool.eq_false_iff.mpr h
      refine (ih hw').mono ?_ fun _ h => h
      rintro b w'' ⟨rfl, hw''⟩
      refine ⟨?_, hw''⟩
      rw [List.any_cons, ht]
      rfl

theorem holds_readProjectState (opts : IndexOptions φ) (hw : SameDb w₀ w) :
    (opts.readProjectState : IndexM φ χ δ _).Holds X A (SameDb w₀) (fun row w' =>
      row = (if opts.incremental then w₀.db.project else none) ∧ SameDb w₀ w') (SameDb w₀) w := by
  unfold IndexOptions.readProjectState
  split
  · exact holds_query .selectProject hw
  · exact Holds.pure ⟨rfl, hw⟩

/-- A discovery that the run may have been shown. -/
def Discovered (A : IndexOp φ χ δ → IndexChoice χ → IndexWorld φ χ δ → Prop)
    (opts : IndexOptions φ) (w₀ : IndexWorld φ χ δ) (discovery : Discovery) : Prop :=
  discovery.complete = true ∧ ∃ ch w, SameDb w₀ w ∧
    A (.discoverSourceFiles opts.cfg opts.root.path) ch w ∧
      Discovery.discover opts.cfg ch.fs opts.root.path ch.fuel = some discovery

/-- **What holds of the refusals and behind the gates holds of the run.** -/
theorem holds_indexProjectWasm_of [DecidableEq δ] {opts : IndexOptions φ}
    {Q : IndexResult → IndexWorld φ χ δ → Prop} (hI : ∀ w', SameDb w w' → I w')
    (hE : ∀ w', SameDb w w' → E w')
    (hrefused : ∀ (r : IndexResult) (w' : IndexWorld φ χ δ), SameDb w w' → r.outcome ≠ .SUCCESS →
      (do markProjectStalePreservingGraph; pure r : IndexM φ χ δ IndexResult).Holds X A I Q E w')
    (hadmitted : ∀ (discovery : Discovery) (w' : IndexWorld φ χ δ), SameDb w w' →
      Discovered A opts w discovery →
      (opts.incremental = true ∨ opts.cfg.tolerant = true ∨
        (survey opts discovery w.db).hasUncertainty = false) →
      ((survey opts discovery w.db).admitted X).Holds X A I Q E w') :
    (indexProjectWasm X opts).Holds X A I Q E w := by
  have hweak : ∀ {α : Type} {m : IndexM φ χ δ α} {Q' : α → IndexWorld φ χ δ → Prop}
      {w' : IndexWorld φ χ δ}, m.Holds X A (SameDb w) Q' (SameDb w) w' →
      m.Holds X A I Q' E w' := fun h =>
    Prog.Throughout.weaken (h.mono (fun _ _ h => h) hE) hI
  have hattempt : ∀ {o : IndexOp φ χ δ} {w' : IndexWorld φ χ δ}, o.Reads → SameDb w w' →
      IndexM.Holds X A I (Proc.attempt (IndexM.perform o)) (fun _ => SameDb w) E w' := by
    intro o w' ho hw'
    refine Holds.attempt (Prog.Throughout.weaken (I := SameDb w) ?_ hI)
    exact IndexM.Only.holds_same (.perform ho) hw'
  refine Holds.bind ((hattempt (o := .assertDiscoveryRoot opts.root.path) trivial (.refl w)).mono ?_
    fun _ h => h)
  rintro (_ | _) w₁ hw₁
  · exact hrefused _ w₁ hw₁ (by simp [refusedFor])
  have hdiscover : IndexM.Holds X A I
      (Proc.attempt (IndexM.perform (.discoverSourceFiles opts.cfg opts.root.path)))
      (fun (x : Except IndexFault Discovery) w₂ => SameDb w w₂ ∧ ∀ discovery, x = .ok discovery →
        discovery.complete = true → Discovered A opts w discovery) E w₁ := by
    refine Holds.attempt (Holds.perform (hI w₁ hw₁) (fun ch _ _ => ?_) fun ch hch _ => ?_)
    · exact ⟨hw₁.trans (.edited w₁ ch.writes), fun _ h => nomatch h⟩
    · simp only [IndexOp.run]
      split
      · rename_i v w' heq
        split at heq
        · rename_i s hs
          cases heq
          refine ⟨hw₁.trans (.edited w₁ ch.writes), fun discovery h hcomplete => ?_⟩
          cases h
          exact ⟨hcomplete, ch, w₁, hw₁, hch, hs⟩
        · cases heq
      · rename_i e w' heq
        split at heq
        · cases heq
        · cases heq
          exact ⟨hw₁.trans (.edited w₁ ch.writes), fun _ h => nomatch h⟩
  refine Holds.bind (hdiscover.mono ?_ fun _ h => h)
  rintro (_ | discovery) w₂ ⟨hw₂, hdiscovered⟩
  · exact hrefused _ w₂ hw₂ (by simp [refusedFor])
  refine Holds.bind ((hweak (holds_query (.loadAliasHistory opts.root.fingerprint) hw₂)).mono ?_
    fun _ h => h)
  rintro _ w₃ ⟨rfl, hw₃⟩
  split
  · exact hrefused _ w₃ hw₃ (by simp [refusedFor])
  rename_i hcomplete
  rw [Bool.not_eq_true', Bool.not_eq_false] at hcomplete
  refine Holds.bind ((hweak (holds_query .selectProject hw₃)).mono ?_ fun _ h => h)
  rintro _ w₄ ⟨rfl, hw₄⟩
  refine Holds.bind ((hweak (holds_existsAny structuralTables hw₄)).mono ?_ fun _ h => h)
  rintro _ w₅ ⟨rfl, hw₅⟩
  dsimp only
  split
  · exact hrefused _ w₅ hw₅ (by simp [Survey.uncertainRefusal])
  rename_i hgate
  refine Holds.bind ((hweak (holds_readProjectState opts hw₅)).mono ?_ fun _ h => h)
  rintro _ w₆ ⟨rfl, hw₆⟩
  refine hadmitted discovery w₆ hw₆ (hdiscovered discovery rfl hcomplete) ?_
  by_contra hnot
  rw [not_or, not_or, Bool.not_eq_true, Bool.not_eq_true, Bool.not_eq_false] at hnot
  obtain ⟨hinc, htolerant, huncertain⟩ := hnot
  refine hgate ?_
  rw [hinc, htolerant, Bool.not_false, Bool.true_and]
  exact Bool.and_eq_true_iff.mpr ⟨huncertain, rfl⟩

end

/-! ## One file and a link to it -/

/-- One file, and nothing indexed. -/
def unindexedWorld : IndexWorld ℕ ℕ ℕ where
  disk := fun p => if p = Discovery.linkedFile then some ⟨7, 1, 1⟩ else none
  db := ⟨none, fun _ => [], [], [], []⟩
  active := none

def aliasTree : FileTree := Discovery.linkedTree

/-- The file system shows the file and the link to it, or nothing. -/
def shown (present : Bool) : FileSystem :=
  if present then aliasTree.fileSystem
  else { aliasTree.fileSystem with readdir := fun _ _ => .ok [] }

/-- An index of the whole root by one worker. -/
def wholeRoot (incremental publication : Bool) (fingerprint : ℕ) : IndexOptions ℕ :=
  ⟨incremental, ⟨[], fingerprint⟩, Discovery.tolerantConfig, 1, 1, publication⟩

/-- A run with all its choices made. -/
def followed (opts : IndexOptions ℕ) (choose : IndexOp ℕ ℕ ℕ → IndexWorld ℕ ℕ ℕ → IndexChoice ℕ)
    (w : IndexWorld ℕ ℕ ℕ) : (Except IndexFault IndexResult × PUnit) × IndexWorld ℕ ℕ ℕ :=
  (indexProjectWasm plainExtractor opts ⟨⟩).follow (indexMachine plainExtractor) 0 choose w

end Ariad
