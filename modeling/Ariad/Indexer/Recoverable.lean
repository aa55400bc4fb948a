import Ariad.Indexer.Advice

/-!
# Recovery

What calm runs end with behind the gates, and what becomes of following the advice again and again.

* `runs_full`, `runs_incremental` — one run on a readable tree.
* `Recovered` — following the advice certifies the graph within a number of further runs.
-/

namespace Ariad

variable {φ χ δ : Type} [DecidableEq φ] {X : Extractor φ χ δ} {tree : FileTree}
  {w : IndexWorld φ χ δ}

open IndexM

/-! ## Calm choices -/

/-- A root that cannot be listed ends the walk at once. -/
theorem Discovery.discover_unlisted {cfg : DiscoveryConfig} {fs : FileSystem} {root : AbsPath}
    {c : ErrnoCode} (h : ∀ time, fs.readdir time root = .error c) : (Discovery.discover cfg fs root 1).isSome := by
  have hstack : ∀ s : Discovery, s.stack = [] → (Discovery.walk cfg fs root 0 s).isSome := by
    intro s hs
    rw [Discovery.walk, hs]
    rfl
  refine hstack _ ?_
  simp only [Discovery.readDirectory, h, Discovery.fail]
  split <;> rfl

omit [DecidableEq φ] in
/-- There is a calm choice for every operation. -/
theorem CalmChoice.exists (o : IndexOp φ χ δ) : ∃ ch, CalmChoice (χ := χ) tree o ch := by
  have hgo : ∀ fuel, (∀ cfg root, o = .discoverSourceFiles cfg root →
      (Discovery.discover cfg tree.fileSystem root fuel).isSome) →
      ∃ ch, CalmChoice (χ := χ) tree o ch :=
    fun fuel h => ⟨⟨false, [], tree.fileSystem, fuel⟩, rfl, rfl, tree.shows, h⟩
  cases o with
  | discoverSourceFiles cfg root =>
    by_cases hdir : ∃ names, tree.entry root = some (.directory names)
    · have hinitial : Discovery.LoopOk cfg tree root (Discovery.initial root) := .initial hdir
      obtain ⟨s, hs, -, -⟩ := hinitial.walk tree.shows hdir
        tree.finite.toFinset.card (by simp [Discovery.initial]; omega)
      refine hgo tree.finite.toFinset.card fun cfg' root' h => ?_
      cases h
      rw [Discovery.discover, hs]
      rfl
    · refine hgo 1 fun cfg' root' h => ?_
      cases h
      refine Discovery.discover_unlisted (c := .other "ENOTDIR") fun time => ?_
      simp only [FileTree.fileSystem]
      split
      · rename_i names hnames
        exact absurd ⟨names, hnames⟩ hdir
      · rfl
  | _ =>
    refine hgo 0 fun cfg' root' h => ?_
    cases h

/-- A calm run ends, so that both of what it ends with come together. -/
theorem IndexM.Ends.exists_and {α : Type} {m : IndexM φ χ δ α}
    {Q Q' : α → IndexWorld φ χ δ → Prop} (h : m.Ends X tree Q w) (h' : m.Ends X tree Q' w) :
    ∃ a w', Q a w' ∧ Q' a w' := by
  obtain ⟨⟨e | a, l⟩, w', hQ, hQ'⟩ := (Prog.Throughout.and h h').exists fun o _ => CalmChoice.exists o
  · exact hQ.elim
  · exact ⟨a, w', hQ, hQ'⟩

/-- Calm runs leave the files as they are. -/
theorem IndexM.Ends.still {α : Type} {m : IndexM φ χ δ α} {Q : α → IndexWorld φ χ δ → Prop}
    (h : m.Ends X tree Q w) : m.Ends X tree (fun a w' => Q a w' ∧ w'.disk = w.disk) w := by
  have hstep : ∀ (o : IndexOp φ χ δ) (ch : IndexChoice χ) (w' : IndexWorld φ χ δ),
      w'.disk = w.disk → CalmChoice tree o ch →
      ((indexMachine X).exec 0 o ch w').2.disk = w.disk := by
    intro o ch w' hw hch
    show (o.exec X ch w').2.disk = w.disk
    rw [IndexOp.exec, hch.succeeds, hch.still, if_neg Bool.false_ne_true, ← hw]
    cases o with
    | discoverSourceFiles cfg root => simp only [IndexOp.run]; split <;> rfl
    | statFile p => simp only [IndexOp.run]; split <;> rfl
    | readFile p => simp only [IndexOp.run]; split <;> rfl
    | _ => rfl
  have hdisk := Prog.Throughout.preserved (M := indexMachine X) (t := 0)
    (A := fun o ch _ => CalmChoice tree o ch) (I := fun w' => w'.disk = w.disk) (m ⟨⟩) rfl hstep
  refine Prog.Throughout.mono ((Prog.Throughout.and h hdisk).weaken fun _ h => h.1) ?_
  rintro ⟨e | a, l⟩ w' ⟨hQ, hw⟩
  · exact hQ
  · exact ⟨hQ, hw⟩

/-! ## The gates -/

variable {v : Survey φ}

theorem Survey.ends_hasPublishedSnapshot :
    (v.hasPublishedSnapshot : IndexM φ χ δ Bool).Ends X tree (fun _ w' => w' = w) w := by
  unfold Survey.hasPublishedSnapshot
  split
  · exact Ends.pure rfl
  · split
    · refine Ends.bind (Ends.query ?_)
      split
      · exact Ends.query rfl
      · exact Ends.pure rfl
    · exact Ends.pure rfl

/-- The stored fingerprint is what it was when it was read, so the refusal is recorded. -/
theorem Survey.ends_rootChangedRefusal {row : ProjectRow φ} {published : φ}
    (hrow : w.db.project = some row) (hfp : row.rootFingerprint = some published) :
    (v.rootChangedRefusal published).Ends X tree (fun r _ => r.recovery = some .full_reindex) w := by
  refine Ends.bind (v.ends_hasPublishedSnapshot.mono ?_)
  rintro snapshot w' rfl
  refine Ends.bind (Ends.bind (Ends.attempt (Ends.bind (Ends.execute ?_))))
  have hadmits : (MarkGuard.fingerprintIs published).admits row.rootFingerprint = true := by
    simp [MarkGuard.admits, hfp]
  simp only [DbWrite.run, hrow, hadmits, if_true]
  exact Ends.pure rfl

/-- There is a row without a fingerprint, so the refusal is recorded. -/
theorem Survey.ends_rootIdentityUnknownRefusal {row : ProjectRow φ}
    (hrow : w.db.project = some row) (hfp : row.rootFingerprint = none) :
    v.rootIdentityUnknownRefusal.Ends X tree (fun r _ => r.recovery = some .full_reindex) w := by
  refine Ends.bind (v.ends_hasPublishedSnapshot.mono ?_)
  rintro snapshot w' rfl
  refine Ends.bind (Ends.bind (Ends.attempt (Ends.bind (Ends.execute ?_))))
  have hadmits : (MarkGuard.fingerprintIsNull).admits row.rootFingerprint = true := by
    simp [MarkGuard.admits, hfp]
  simp only [DbWrite.run, hrow, hadmits, if_true]
  exact Ends.pure rfl

/-- What a run ends with that cannot record its refusal. -/
def Unrecorded (w : IndexWorld φ χ δ) (r : IndexResult) (w' : IndexWorld φ χ δ) : Prop :=
  r.outcome = .FAILED ∧ r.failure = some .PERSIST_FAILURE ∧ r.recovery = some .none ∧ w' = w

/-- There is no row that could be marked stale. -/
theorem Survey.ends_rootIdentityUnknownRefusal_none (hrow : w.db.project = none) :
    v.rootIdentityUnknownRefusal.Ends X tree (Unrecorded w) w := by
  refine Ends.bind (v.ends_hasPublishedSnapshot.mono ?_)
  rintro snapshot w' rfl
  refine Ends.bind (Ends.bind (Ends.attempt (Ends.bind (Ends.execute ?_))))
  simp only [DbWrite.run, hrow]
  refine Ends.bind (Ends.query ?_)
  simp only [DbRead.run, hrow]
  exact Ends.pure ⟨rfl, rfl, rfl, rfl⟩

/-! ## One run -/

section

variable [DecidableEq δ]

/-- **A full run certifies the graph.** -/
theorem runs_full {opts : IndexOptions φ} (hfull : opts.incremental = false)
    (hread : Readable X tree opts.root.path w.disk) : (indexProjectWasm X opts).Ends X tree (fun _ => Certified) w := by
  refine ends_indexProjectWasm hread fun discovery hq hfiles => ?_
  have hstate : (survey opts discovery w.db).projectState = none := by
    simp [survey, hfull]
  have hfp : (survey opts discovery w.db).publishedRootFingerprint = none := by
    simp [Survey.publishedRootFingerprint, hstate]
  have hknown : (survey opts discovery w.db).rootIdentityUnknown = false := by
    simp [Survey.rootIdentityUnknown, survey, hfull]
  simp only [Survey.admitted, hfp, hknown, Bool.false_eq_true, if_false]
  refine (Survey.ends_index hq hfiles).mono fun r w' h => ?_
  rwa [show (survey opts discovery w.db).opts.incremental = false from hfull,
    if_neg Bool.false_ne_true] at h

/-- The row said stale before the run. -/
def CodeDb.isStale (db : CodeDb φ χ δ) : Bool :=
  (db.project.bind ProjectRow.crossFileCallsStale) = some 1

/-- There are rows of files, and no row of `projects`. -/
def CodeDb.isOrphaned (db : CodeDb φ χ δ) : Prop := db.project = none ∧ db.hasGraphData = true

instance (db : CodeDb φ χ δ) : Decidable db.isOrphaned :=
  decidable_of_iff (db.project.isNone = true ∧ db.hasGraphData = true) (by
    rw [CodeDb.isOrphaned, Option.isNone_iff_eq_none])

/-- **An incremental run certifies the graph, or gives advice**; unless there is no row of `projects`
that could be marked. -/
theorem runs_incremental {opts : IndexOptions φ} (hinc : opts.incremental = true)
    (hread : Readable X tree opts.root.path w.disk) : (indexProjectWasm X opts).Ends X tree (fun r w' =>
      if w.db.isOrphaned then Unrecorded w r w' else Advised w.db.isStale r w') w := by
  refine ends_indexProjectWasm hread fun discovery hq hfiles => ?_
  have hstate : (survey opts discovery w.db).projectState = w.db.project := by
    simp [survey, hinc]
  have hindex : ((survey opts discovery w.db).index X).Ends X tree (Advised w.db.isStale) w := by
    refine (Survey.ends_index hq hfiles).mono fun r w' h => ?_
    rw [show (survey opts discovery w.db).opts.incremental = true from hinc, if_pos rfl,
      Survey.existingStale, hstate] at h
    exact h
  have hfp : (survey opts discovery w.db).publishedRootFingerprint =
      w.db.project.bind ProjectRow.rootFingerprint := by
    rw [Survey.publishedRootFingerprint, hstate]
  have hdata : (survey opts discovery w.db).input.hasExistingGraphData = w.db.hasGraphData := rfl
  cases hrow : w.db.project with
  | none =>
    have hnone : (survey opts discovery w.db).publishedRootFingerprint = none := by
      rw [hfp, hrow]
      rfl
    simp only [Survey.admitted, hnone, Survey.rootIdentityUnknown, hdata, Option.isNone_none,
      show (survey opts discovery w.db).opts.incremental = true from hinc, Bool.true_and]
    split
    · rename_i h
      have horphan : w.db.isOrphaned := ⟨hrow, h⟩
      simp only [if_pos horphan]
      exact Survey.ends_rootIdentityUnknownRefusal_none hrow
    · rename_i h
      have hkept : ¬w.db.isOrphaned := fun horphan => h horphan.2
      simp only [if_neg hkept]
      exact hindex
  | some row =>
    have hkept : ¬w.db.isOrphaned := fun h => by cases hrow.symm.trans h.1
    simp only [if_neg hkept]
    have hadvised : ∀ (r : IndexResult) (w' : IndexWorld φ χ δ), r.recovery = some .full_reindex →
        Advised w.db.isStale r w' := fun _ _ h => .inr (.inl h)
    cases hpublished : row.rootFingerprint with
    | none =>
      have hnone : (survey opts discovery w.db).publishedRootFingerprint = none := by
        rw [hfp, hrow]
        exact hpublished
      simp only [Survey.admitted, hnone]
      split
      · exact (Survey.ends_rootIdentityUnknownRefusal hrow hpublished).mono hadvised
      · exact hindex
    | some published =>
      have hsome : (survey opts discovery w.db).publishedRootFingerprint = some published := by
        rw [hfp, hrow]
        exact hpublished
      simp only [Survey.admitted, hsome]
      split
      · exact (Survey.ends_rootChangedRefusal hrow hpublished).mono hadvised
      · exact hindex

/-! ## Run after run -/

/-- The run that an advice stands for: whether it is an incremental one. -/
def Recovery.nextIncremental : Recovery → Option Bool
  | .retry_incremental => some true
  | .full_reindex => some false
  | .fix_filesystem => Option.none
  | .none => Option.none

/-- **The graph is certified**, or the result advises a run, and after every such run it is so within
one run less. -/
def Recovered (X : Extractor φ χ δ) (tree : FileTree) (root : Root φ) :
    ℕ → IndexResult → IndexWorld φ χ δ → Prop
  | 0, _, w => Certified w
  | n + 1, r, w => Certified w ∨
      ∃ incremental, r.recovery.bind Recovery.nextIncremental = some incremental ∧
        ∀ opts : IndexOptions φ, opts.root = root → opts.incremental = incremental →
          (indexProjectWasm X opts).Ends X tree (Recovered X tree root n) w

theorem Recovered.of_certified {root : Root φ} {n : ℕ} {r : IndexResult} (h : Certified w) :
    Recovered X tree root n r w := by
  cases n with
  | zero => exact h
  | succ n => exact .inl h

theorem Recovered.of_full {root : Root φ} {n : ℕ} {r : IndexResult}
    (hread : Readable X tree root.path w.disk) (hr : r.recovery = some .full_reindex) :
    Recovered X tree root (n + 1) r w := by
  refine .inr ⟨false, by rw [hr]; rfl, ?_⟩
  rintro opts rfl hfull
  exact (runs_full hfull hread).mono fun r w' h => .of_certified h

/-- Another incremental run is advised at most once. -/
theorem Advised.recovered {root : Root φ} {n : ℕ} {existingStale : Bool} {r : IndexResult}
    (hread : Readable X tree root.path w.disk) (h : Advised existingStale r w) : Recovered X tree root (n + 2) r w := by
  rcases h with h | h | ⟨-, hr, row, hrow, hstale⟩
  · exact .of_certified h
  · exact .of_full hread h
  · refine .inr ⟨true, by rw [hr]; rfl, ?_⟩
    rintro opts rfl hinc
    -- the row is there and says stale, so the next run certifies the graph or advises a full one
    have hkept : ¬w.db.isOrphaned := fun h => by cases hrow.symm.trans h.1
    have hold : w.db.isStale = true := by
      simp [CodeDb.isStale, hrow, hstale]
    refine (runs_incremental hinc hread).still.mono ?_
    rintro r' w' ⟨hpost, hdisk⟩
    rw [if_neg hkept, hold] at hpost
    rw [← hdisk] at hread
    rcases hpost with h | h | ⟨h, -⟩
    · exact .of_certified h
    · exact .of_full hread h
    · cases h

end

/-! ## One file and a link to it -/

/-- The files, and rows of the file in the tables. -/
def aliasWorld (project : Option (ProjectRow ℕ)) : IndexWorld ℕ ℕ ℕ where
  disk := unindexedWorld.disk
  db :=
    { project := project
      table := fun t => if t = .nodes then [⟨["a.ts"], 1, 7⟩] else []
      fileHashes := [⟨["a.ts"], 7, some 1, 1, 1⟩]
      crossFileEdges := []
      aliasHistory := [] }
  active := none

theorem aliasTree_readable (project : Option (ProjectRow ℕ)) :
    Readable plainExtractor aliasTree [] (aliasWorld project).disk where
  directory := ⟨_, rfl⟩
  links := by
    intro p r h
    rcases p with _ | ⟨n, _ | ⟨m, p⟩⟩
    · cases h
    · change Discovery.linkEntry _ [n] = _ at h
      rw [Discovery.linkEntry] at h
      split at h
      · cases h
      · split at h
        · cases h
          exact ⟨_, rfl⟩
        · cases h
    · cases h
  files := by
    intro p dev ino h
    rcases p with _ | ⟨n, _ | ⟨m, p⟩⟩
    · cases h
    · change Discovery.linkEntry _ [n] = _ at h
      rw [Discovery.linkEntry] at h
      split at h
      · rename_i hn
        obtain rfl : n = ⟨"a.ts", by decide⟩ := Subtype.ext hn
        exact ⟨⟨7, 1, 1⟩, rfl, rfl⟩
      · split at h <;> cases h
    · cases h

end Ariad
