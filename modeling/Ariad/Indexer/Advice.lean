import Ariad.Indexer.CodeDbLaws
import Ariad.Indexer.Gates
import Ariad.Indexer.Quiet

/-!
# Following the advice

Runs on a static, readable file tree without broken links, all of whose files can be parsed, with no
faults and no other runs. A full run certifies the graph; an incremental run certifies it or gives
advice, and following the advice certifies it.

* `CalmChoice` — nothing fails, nothing is written, and discovery is shown the tree.
* `Ends` — what a run ends with under such choices.
-/

namespace Ariad

open List

variable {φ χ δ α β : Type} [DecidableEq φ]

/-- Nothing fails, nothing is written, and discovery is shown the tree and ends. -/
structure CalmChoice (tree : FileTree) (o : IndexOp φ χ δ) (ch : IndexChoice χ) : Prop where
  succeeds : ch.fails = false
  still : ch.writes = []
  shows : Shows ch.fs tree
  ends : ∀ cfg root, o = .discoverSourceFiles cfg root →
    (Discovery.discover cfg ch.fs root ch.fuel).isSome

namespace IndexM

/-- Every calm run of the program ends normally, with `Q`. -/
def Ends (X : Extractor φ χ δ) (tree : FileTree) (m : IndexM φ χ δ α)
    (Q : α → IndexWorld φ χ δ → Prop) (w : IndexWorld φ χ δ) : Prop :=
  m.Holds X (fun o ch _ => CalmChoice tree o ch) (fun _ => True) Q (fun _ => False) w

variable {X : Extractor φ χ δ} {tree : FileTree} {m : IndexM φ χ δ α} {f : α → IndexM φ χ δ β}
  {Q Q' : α → IndexWorld φ χ δ → Prop} {R : β → IndexWorld φ χ δ → Prop} {w : IndexWorld φ χ δ}

variable {result : ExtractionResult} {x : AbsPath × Option (HashUpdate δ)} {file : SourceFile χ}
  {initialized : Bool}

theorem Ends.mono (h : m.Ends X tree Q w) (hQ : ∀ a w, Q a w → Q' a w) : m.Ends X tree Q' w :=
  Holds.mono h hQ fun _ h => h

theorem Ends.pure {a : α} (h : Q a w) : (Pure.pure a : IndexM φ χ δ α).Ends X tree Q w := h

theorem Ends.bind (h : m.Ends X tree (fun a w => (f a).Ends X tree R w) w) :
    IndexM.Ends X tree (m >>= f) R w := Holds.bind h

theorem Ends.attempt {R : Except IndexFault α → IndexWorld φ χ δ → Prop}
    (h : m.Ends X tree (fun a => R (.ok a)) w) : IndexM.Ends X tree (Proc.attempt m) R w :=
  Holds.attempt (Holds.mono h (fun _ _ h => h) fun _ h => h.elim)

theorem Ends.tryCatch {handler : IndexFault → IndexM φ χ δ α} (h : m.Ends X tree Q w) :
    IndexM.Ends X tree (MonadExcept.tryCatch m handler) Q w :=
  Holds.tryCatch (Holds.mono h (fun _ _ h => h) fun _ h => h.elim)

theorem Ends.perform {o : IndexOp φ χ δ} {Q : o.Val → IndexWorld φ χ δ → Prop}
    (h : ∀ ch, CalmChoice tree o ch → match o.run X ch w with
      | (.ok v, w') => Q v w'
      | (.error _, _) => False) : (perform o).Ends X tree Q w := by
  refine Holds.perform trivial (fun ch hch hf => ?_) fun ch hch _ => ?_
  · rw [hch.succeeds] at hf
    cases hf
  · rw [hch.still]
    exact h ch hch

theorem Ends.query {r : DbRead φ} {Q : r.Val φ δ → IndexWorld φ χ δ → Prop} (h : Q (r.run w.db) w) :
    (IndexM.query r).Ends X tree Q w :=
  Ends.perform fun _ _ => h

theorem Ends.execute {u : DbWrite φ χ δ} {Q : Bool → IndexWorld φ χ δ → Prop}
    (h : Q (u.run X w.db).2 { w with db := (u.run X w.db).1 }) : (execute u).Ends X tree Q w :=
  Ends.perform fun _ _ => h

theorem Ends.statFile {p : AbsPath} {Q : FileMeta → IndexWorld φ χ δ → Prop}
    (hp : w.disk p = some file) (h : Q ⟨file.mtimeNs, file.size⟩ w) :
    (IndexM.statFile p).Ends X tree Q w := by
  refine Ends.perform fun _ _ => ?_
  simp only [IndexOp.run, hp]
  exact h

theorem Ends.readFile {p : AbsPath} {Q : χ → IndexWorld φ χ δ → Prop}
    (hp : w.disk p = some file) (h : Q file.content w) : (IndexM.readFile p).Ends X tree Q w := by
  refine Ends.perform fun _ _ => ?_
  simp only [IndexOp.run, hp]
  exact h

/-- The same is true of every element, and the world stays as it is. -/
theorem Ends.forEach {f : α → IndexM φ χ δ β} {B : β → Prop} (as : List α)
    (hstep : ∀ a ∈ as, (f a).Ends X tree (fun b w' => B b ∧ w' = w) w)
    {R : List β → IndexWorld φ χ δ → Prop} (hend : ∀ bs, (∀ b ∈ bs, B b) → R bs w) :
    (IndexM.forEach f as).Ends X tree R w := by
  have key : (IndexM.forEach f as).Ends X tree (fun bs w' => (∀ b ∈ bs, B b) ∧ w' = w) w := by
    clear hend
    induction as with
    | nil => exact Ends.pure ⟨fun b hb => absurd hb not_mem_nil, rfl⟩
    | cons a as ih =>
      refine Ends.bind ((hstep a mem_cons_self).mono ?_)
      rintro b _ ⟨hb, rfl⟩
      refine Ends.bind ((ih fun a' ha' => hstep a' (mem_cons_of_mem _ ha')).mono ?_)
      rintro bs _ ⟨hbs, rfl⟩
      refine Ends.pure ⟨fun b' hb' => ?_, rfl⟩
      rcases mem_cons.mp hb' with rfl | hb'
      · exact hb
      · exact hbs b' hb'
  exact key.mono fun bs w' h => by
    obtain ⟨hbs, rfl⟩ := h
    exact hend bs hbs

/-- Every element has its value, and the world stays as it is. -/
theorem Ends.forEach_eq {f : α → IndexM φ χ δ β} (g : α → β) (as : List α)
    (hstep : ∀ a ∈ as, (f a).Ends X tree (fun b w' => b = g a ∧ w' = w) w) :
    (IndexM.forEach f as).Ends X tree (fun bs w' => bs = as.map g ∧ w' = w) w := by
  induction as with
  | nil => exact Ends.pure ⟨rfl, rfl⟩
  | cons a as ih =>
    refine Ends.bind ((hstep a mem_cons_self).mono ?_)
    rintro _ _ ⟨rfl, rfl⟩
    refine Ends.bind ((ih fun a' ha' => hstep a' (mem_cons_of_mem _ ha')).mono ?_)
    rintro _ _ ⟨rfl, rfl⟩
    exact Ends.pure ⟨rfl, rfl⟩

end IndexM

open IndexM

/-! ## What a discovery leaves to the run -/

variable {X : Extractor φ χ δ} {tree : FileTree} {w : IndexWorld φ χ δ} {v : Survey φ}

theorem Discovery.Quiet.coldStartLock {s : Discovery} (h : s.Quiet) (db : DeletionInput) :
    s.coldStartLock db = false := by
  simp [Discovery.coldStartLock, h.brokenAliases]

omit [DecidableEq φ] in
theorem Survey.hasEffectiveHistoricalBrokenAliases_quiet (h : v.discovery.Quiet) :
    v.hasEffectiveHistoricalBrokenAliases = false := by
  simp [Survey.hasEffectiveHistoricalBrokenAliases, Survey.effectiveHistoricalBrokenAliases,
    Discovery.historicalBrokenAliases, h.brokenAliases]

omit [DecidableEq φ] in
theorem Survey.hasUncertainty_quiet (h : v.discovery.Quiet) : v.hasUncertainty = false := by
  simp [Survey.hasUncertainty, h.uncertainPaths, h.uncertainSubtrees,
    Discovery.effectiveGlobalDeletionUncertainty, h.coldStartLock,
    Survey.hasEffectiveHistoricalBrokenAliases_quiet h]

omit [DecidableEq φ] in
/-- The advice of a run on a quiet discovery without extraction errors. -/
theorem Survey.classify_quiet (h : v.discovery.Quiet) (initialized : Bool) :
    v.classify false initialized =
      if v.semanticsStale then some (.SEMANTICS_MISMATCH, .full_reindex)
      else if !initialized || v.existingStale then some (.PREVIOUSLY_STALE, .full_reindex)
      else none := by
  simp only [Survey.classify, classifyStaleReason, h.coldStartLock,
    Survey.hasEffectiveHistoricalBrokenAliases_quiet h, Survey.hasUncertainty_quiet h,
    Bool.false_eq_true, if_false]
  cases v.semanticsStale <;> cases initialized <;> cases v.existingStale <;> rfl

/-! ## Extraction -/

/-- Every file that discovery found can be read and parsed. -/
def Survey.FilesReadable (X : Extractor φ χ δ) (v : Survey φ) (disk : AbsPath → Option (SourceFile χ)) :
    Prop :=
  ∀ f ∈ v.discovery.files, ∃ file, disk f = some file ∧
    X.extracts (v.relPath f) file.content = true

/-- A file that did not fail. -/
def FileOutcome.Good : FileOutcome χ δ → Prop
  | .failed _ => False
  | _ => True

theorem FileOutcome.errors_good {os : List (FileOutcome χ δ)} (h : ∀ o ∈ os, o.Good) :
    FileOutcome.errors os = [] := by
  rw [FileOutcome.errors, filterMap_eq_nil_iff]
  intro o ho
  have hgood := h o ho
  cases o with
  | failed p => exact hgood.elim
  | _ => rfl

omit [DecidableEq φ] in
theorem extractContent_good {u : FileUpdate χ δ} (h : X.extracts u.path u.content = true) :
    (extractContent X u).Good := by
  rw [extractContent, if_pos h]
  trivial

/-- What a full run has read before it looks at any file. -/
def prefetched (w : IndexWorld φ χ δ) (files : List AbsPath) : List (AbsPath × χ) :=
  files.filterMap fun f => (w.disk f).map fun file => (f, file.content)

omit [DecidableEq φ] in
theorem lookup_prefetched {files : List AbsPath} {f : AbsPath}
    (hf : f ∈ files)
    (h : w.disk f = some file) : (prefetched w files).lookup f = some file.content := by
  induction files with
  | nil => cases hf
  | cons g files ih =>
    by_cases hg : f = g
    · subst hg
      simp [prefetched, h]
    · have hmem : f ∈ files := (mem_cons.mp hf).resolve_left hg
      have hrest := ih hmem
      unfold prefetched at hrest ⊢
      rw [filterMap_cons]
      split
      · exact hrest
      · rename_i x hx
        obtain ⟨file', -, rfl⟩ := Option.map_eq_some_iff.mp hx
        rw [lookup_cons, beq_eq_false_iff_ne.mpr hg]
        exact hrest

theorem ends_prefetch {files : List AbsPath} (h : ∀ f ∈ files, ∃ file, w.disk f = some file) :
    (prefetch files).Ends X tree (fun cache w' => cache = prefetched w files ∧ w' = w) w := by
  refine Ends.bind ((Ends.forEach_eq (fun f => (w.disk f).map fun file => (f, file.content)) files
    fun f hf => ?_).mono ?_)
  · obtain ⟨file, hfile⟩ := h f hf
    refine Ends.bind (Ends.attempt (Ends.readFile hfile ?_))
    refine Ends.pure ⟨?_, rfl⟩
    rw [hfile]
    rfl
  · rintro _ _ ⟨rfl, rfl⟩
    refine Ends.pure ⟨?_, rfl⟩
    rw [prefetched, filterMap_map]
    rfl

theorem Survey.ends_extractFile [DecidableEq δ] (h : v.FilesReadable X w.disk) {cache : List
    (AbsPath × χ)}
    (hcache : v.opts.incremental = false → cache = prefetched w v.discovery.files) {f : AbsPath}
    (hf : f ∈ v.discovery.files) :
    (v.extractFile X cache f).Ends X tree (fun o w' => o.Good ∧ w' = w) w := by
  obtain ⟨file, hfile, hext⟩ := h f hf
  refine Ends.tryCatch (Ends.bind (Ends.statFile hfile ?_))
  split
  · refine Ends.bind (Ends.query ?_)
    split
    · split
      · exact Ends.pure ⟨trivial, rfl⟩
      · refine Ends.bind (Ends.readFile hfile ?_)
        dsimp only
        split
        · exact Ends.pure ⟨trivial, rfl⟩
        · exact Ends.pure ⟨extractContent_good hext, rfl⟩
    · refine Ends.bind (Ends.readFile hfile ?_)
      exact Ends.pure ⟨extractContent_good hext, rfl⟩
  · rename_i hfull
    rw [hcache (Bool.eq_false_iff.mpr hfull), lookup_prefetched hf hfile]
    exact Ends.pure ⟨extractContent_good hext, rfl⟩

/-- What an extraction does that finds no errors: the row of the project stays. -/
def Extracted (w : IndexWorld φ χ δ) (r : ExtractionResult) (w' : IndexWorld φ χ δ) : Prop :=
  r.errors = [] ∧ w'.db.project = w.db.project ∧ w'.disk = w.disk

theorem Survey.ends_fileContents (h : v.FilesReadable X w.disk) :
    v.fileContents.Ends X tree (fun cache w' =>
      (v.opts.incremental = false → cache = prefetched w v.discovery.files) ∧ w' = w) w := by
  unfold Survey.fileContents
  split
  · rename_i hinc
    refine Ends.pure ⟨fun hfull => ?_, rfl⟩
    rw [hfull] at hinc
    cases hinc
  · refine (ends_prefetch fun f hf => ?_).mono fun cache w' hw => ⟨fun _ => hw.1, hw.2⟩
    obtain ⟨file, hfile, -⟩ := h f hf
    exact ⟨file, hfile⟩

theorem Survey.ends_extractFromFilesWasm [DecidableEq δ] (h : v.FilesReadable X w.disk) :
    (v.extractFromFilesWasm X).Ends X tree (Extracted w) w := by
  unfold Survey.extractFromFilesWasm
  split
  · exact Ends.pure ⟨rfl, rfl, rfl⟩
  · refine Ends.bind ((v.ends_fileContents h).mono ?_)
    rintro cache _ ⟨hcache, rfl⟩
    refine Ends.bind (Ends.forEach _ (fun f hf => v.ends_extractFile h hcache hf) fun os hos => ?_)
    refine Ends.bind (Ends.execute (Ends.pure ?_))
    exact ⟨FileOutcome.errors_good hos, (CodeDb.SameTrust.extractionTx _ _ _ _).project, rfl⟩

theorem Survey.ends_resolveFileStat (h : v.FilesReadable X w.disk) {f : AbsPath}
    (hf : f ∈ v.discovery.files) :
    (v.resolveFileStat f).Ends X tree (fun _ w' => w' = w) w := by
  obtain ⟨file, hfile, -⟩ := h f hf
  unfold Survey.resolveFileStat
  split
  · exact Ends.pure rfl
  · exact Ends.statFile hfile rfl

/-- A file that is handed to a worker was found by discovery, and its row is its own. -/
def Survey.Handed (v : Survey φ) (o : SkipOutcome δ) : Prop :=
  ∀ f pending, o = .index f pending →
    f ∈ v.discovery.files ∧ ∀ h, pending = some h → h.path = v.relPath f

theorem Survey.ends_skipPass [DecidableEq δ] (h : v.FilesReadable X w.disk) (bulkMeta : List
    (FileHash φ δ)) {f : AbsPath}
    (hf : f ∈ v.discovery.files) :
    (v.skipPass X bulkMeta f).Ends X tree (fun o w' => v.Handed o ∧ w' = w) w := by
  obtain ⟨file, hfile, -⟩ := h f hf
  have hskipped : v.Handed (.skipped : SkipOutcome δ) := fun _ _ he => nomatch he
  have hmeta : ∀ u : HashUpdate δ, v.Handed (.metadataOnly u) := fun _ _ _ he => nomatch he
  unfold Survey.skipPass
  dsimp only
  split
  · refine Ends.bind ((v.ends_resolveFileStat h hf).mono ?_)
    rintro m _ rfl
    split
    · exact Ends.pure ⟨hskipped, rfl⟩
    · refine Ends.bind (Ends.query (Ends.bind (Ends.readFile hfile ?_)))
      have hindex : v.Handed (.index f (some (readHash X (v.relPath f) m file.content))) := by
        intro g pending he
        cases he
        refine ⟨hf, fun u hu => ?_⟩
        cases hu
        rfl
      split
      · split
        · exact Ends.pure ⟨hmeta _, rfl⟩
        · exact Ends.pure ⟨hindex, rfl⟩
      · exact Ends.pure ⟨hindex, rfl⟩
  · refine Ends.pure ⟨fun g pending he => ?_, rfl⟩
    cases he
    exact ⟨hf, fun u hu => nomatch hu⟩

omit [DecidableEq φ] in
theorem Survey.handed_toIndex {os : List (SkipOutcome δ)} (h : ∀ o ∈ os, v.Handed o) (hx : x ∈ SkipOutcome.toIndex os) :
    x.1 ∈ v.discovery.files ∧ ∀ u, x.2 = some u → u.path = v.relPath x.1 := by
  obtain ⟨o, ho, hox⟩ := mem_filterMap.mp hx
  cases o with
  | index g pending =>
    cases hox
    exact h _ ho g pending rfl
  | _ => cases hox

theorem Survey.ends_workerFile (h : v.FilesReadable X w.disk)
    (hx : x.1 ∈ v.discovery.files ∧ ∀ u, x.2 = some u → u.path = v.relPath x.1) :
    (v.workerFile X x).Ends X tree (fun o w' => o.Good ∧ w' = w) w := by
  obtain ⟨file, hfile, hext⟩ := h x.1 hx.1
  refine Ends.tryCatch (Ends.bind (Ends.readFile hfile (Ends.bind (Ends.statFile hfile ?_))))
  refine Ends.pure ⟨extractContent_good ?_, rfl⟩
  obtain ⟨f, _ | u⟩ := x
  · exact hext
  · show X.extracts u.path file.content = true
    rw [hx.2 u rfl]
    exact hext

theorem ends_executeIf {b : Bool} {u : DbWrite φ χ δ} {Q : PUnit → IndexWorld φ χ δ → Prop}
    (h : Q ⟨⟩ (if b then { w with db := (u.run X w.db).1 } else w)) :
    (executeIf b u).Ends X tree Q w := by
  unfold executeIf
  split
  · rename_i hb
    rw [if_pos hb] at h
    exact Ends.bind (Ends.execute (Ends.pure h))
  · rename_i hb
    rw [if_neg hb] at h
    exact Ends.pure h

theorem Survey.ends_indexParallel [DecidableEq δ] (h : v.FilesReadable X w.disk) :
    (v.indexParallel X).Ends X tree (Extracted w) w := by
  have hbulk : (v.bulkMeta : IndexM φ χ δ _).Ends X tree (fun _ w' => w' = w) w := by
    unfold Survey.bulkMeta
    split
    · exact Ends.query rfl
    · exact Ends.pure rfl
  refine Ends.bind (hbulk.mono ?_)
  rintro bulkMeta w rfl
  refine Ends.bind (Ends.forEach _ (fun f hf => v.ends_skipPass h bulkMeta hf) fun os hos => ?_)
  dsimp only
  split
  · refine Ends.bind (ends_executeIf (Ends.pure ⟨rfl, ?_, ?_⟩))
    · split
      · exact (CodeDb.SameTrust.upsertHashes _ _).project
      · rfl
    · split <;> rfl
  · have hscope : (scopedFiles v.opts.incremental (SkipOutcome.changed os) :
        IndexM φ χ δ _).Ends X tree (fun _ w' => w' = w) w := by
      unfold scopedFiles
      split
      · exact Ends.bind (Ends.query (Ends.pure rfl))
      · exact Ends.pure rfl
    refine Ends.bind (hscope.mono ?_)
    rintro scope w rfl
    refine Ends.bind (Ends.query ?_)
    refine Ends.bind (Ends.forEach _
      (fun x hx => v.ends_workerFile h (v.handed_toIndex hos hx)) fun rs hrs => ?_)
    refine Ends.bind (Ends.execute (Ends.pure ?_))
    exact ⟨FileOutcome.errors_good hrs, (CodeDb.SameTrust.streamingTx _ _ _ _ _ _).project, rfl⟩

theorem Survey.ends_extract [DecidableEq δ] (h : v.FilesReadable X w.disk) (useParallel : Bool) :
    (v.extract X useParallel).Ends X tree (Extracted w) w := by
  unfold Survey.extract
  split
  · exact v.ends_indexParallel h
  · exact v.ends_extractFromFilesWasm h

/-! ## What a run ends with -/

/-- The row says that the graph is certified fresh. -/
def Certified (w : IndexWorld φ χ δ) : Prop :=
  ∃ row, w.db.project = some row ∧ row.crossFileCallsStale = some 0

/-- The row says that the graph is stale. -/
def MarkedStale (w : IndexWorld φ χ δ) : Prop :=
  ∃ row, w.db.project = some row ∧ row.crossFileCallsStale = some 1

/-- What an incremental run ends with: the graph is certified, or a full run is advised; another
incremental run is advised only if the row was not stale before and is now. -/
def Advised (existingStale : Bool) (r : IndexResult) (w : IndexWorld φ χ δ) : Prop :=
  Certified w ∨ r.recovery = some .full_reindex ∨
    existingStale = false ∧ r.recovery = some .retry_incremental ∧ MarkedStale w

omit [DecidableEq φ] in
/-- A run that wrote a stale trust state without errors and without uncertainty. -/
theorem Survey.advised_stale (hq : v.discovery.Quiet) {r : IndexResult}
    (hr : r.recovery = ((v.classify false initialized).map Prod.snd <|> some .retry_incremental))
    (hw : MarkedStale w) : Advised v.existingStale r w := by
  rw [v.classify_quiet hq] at hr
  by_cases hsem : v.semanticsStale = true
  · rw [if_pos hsem] at hr
    exact .inr (.inl hr)
  · rw [if_neg hsem] at hr
    by_cases hold : (!initialized || v.existingStale) = true
    · rw [if_pos hold] at hr
      exact .inr (.inl hr)
    · rw [if_neg hold] at hr
      rw [Bool.or_eq_true, not_or] at hold
      exact .inr (.inr ⟨Bool.eq_false_iff.mpr hold.2, hr, hw⟩)

omit [DecidableEq φ] in
theorem markedStale_updateProjectStats (db : CodeDb φ χ δ) (rootPath : AbsPath) (initialized : Bool)
    (version : ℤ) (hasIndexError : Bool) (hdb : w.db =
      db.updateProjectStats rootPath true initialized version hasIndexError none none none) :
    MarkedStale w := by
  rw [MarkedStale, hdb]
  refine ⟨_, rfl, ?_⟩
  dsimp only
  split <;> rfl

theorem Survey.ends_conclude {stale initialized : Bool}
    {Q : IndexResult → IndexWorld φ χ δ → Prop}
    (h : ∀ r w', w'.db = w.db → w'.disk = w.disk →
      r.recovery = (((if stale then v.classify (!result.errors.isEmpty) initialized else none).map
        Prod.snd) <|> if stale then some .retry_incremental else none) → Q r w') :
    (v.conclude result stale initialized).Ends X tree Q w := by
  unfold Survey.conclude
  have hpublish : (v.publish (!result.errors.isEmpty) stale : IndexM φ χ δ _).Ends X tree
      (fun _ w' => w'.db = w.db ∧ w'.disk = w.disk) w := by
    unfold Survey.publish
    split
    · refine Ends.bind (Ends.attempt (Ends.perform fun _ _ => ?_))
      exact Ends.pure ⟨rfl, rfl⟩
    · exact Ends.pure ⟨rfl, rfl⟩
  refine Ends.bind (hpublish.mono ?_)
  rintro _ w' ⟨hdb, hdisk⟩
  exact Ends.pure (h _ w' hdb hdisk rfl)

/-- The end of an incremental run of the main path. -/
theorem Survey.ends_afterExtraction [DecidableEq δ] (hq : v.discovery.Quiet)
    (hinc : v.opts.incremental = true)
    (deleted : List RelPath) (herrors : result.errors = []) :
    (v.afterExtraction deleted result).Ends X tree (Advised v.existingStale) w := by
  unfold Survey.afterExtraction
  refine Ends.bind (ends_executeIf ?_)
  dsimp only
  split
  · refine Ends.bind (Ends.execute (v.ends_conclude fun r w' hdb _ hr => ?_))
    rw [herrors] at hr
    exact v.advised_stale hq hr (markedStale_updateProjectStats _ _ _ _ _ hdb)
  · refine Ends.bind (Ends.attempt (Ends.execute (v.ends_conclude fun r w' hdb _ _ => .inl ?_)))
    unfold Certified
    rw [hdb]
    exact ⟨_, rfl, rfl⟩

/-- The end of a full run. -/
theorem Survey.ends_afterExtraction_full [DecidableEq δ] (hfull : v.opts.incremental = false)
    (deleted : List RelPath) (herrors : result.errors = []) :
    (v.afterExtraction deleted result).Ends X tree (fun _ => Certified) w := by
  unfold Survey.afterExtraction
  refine Ends.bind (ends_executeIf ?_)
  dsimp only
  have hfresh : v.mainStale deleted result = false := by
    simp [Survey.mainStale, hfull, herrors]
  rw [hfresh, if_neg Bool.false_ne_true]
  refine Ends.bind (Ends.attempt (Ends.execute (v.ends_conclude fun r w' hdb _ _ => ?_)))
  unfold Certified
  rw [hdb]
  exact ⟨_, rfl, rfl⟩

omit [DecidableEq φ] in
/-- A run that wrote its trust state without uncertainty, and had a reason if it ended stale. -/
theorem Survey.advised_finished (hq : v.discovery.Quiet)
    (h : v.semanticsStale = true ∨ initialized = false ∨ v.existingStale = true) :
    Advised v.existingStale (v.finished true initialized) w := by
  refine .inr (.inl ?_)
  simp only [Survey.finished, if_true, v.classify_quiet hq]
  by_cases hsem : v.semanticsStale = true
  · rw [if_pos hsem]
    rfl
  · rw [if_neg hsem, if_pos]
    · rfl
    · rcases h with h | rfl | h
      · exact absurd h hsem
      · rfl
      · rw [h, Bool.or_true]

theorem Survey.ends_noOpPath [DecidableEq δ] (hq : v.discovery.Quiet) :
    (v.noOpPath).Ends X tree (Advised v.existingStale) w := by
  unfold Survey.noOpPath
  refine Ends.bind (Ends.execute ?_)
  simp only [v.hasUncertainty_quiet hq, Bool.or_false]
  split
  · rename_i hstale
    refine Ends.pure (v.advised_finished hq ?_)
    rw [Bool.or_eq_true] at hstale
    rcases hstale with h | h
    · exact .inr (.inr h)
    · exact .inl h
  · exact Ends.bind (Ends.attempt (Ends.execute (Ends.pure (.inl ⟨_, rfl, rfl⟩))))

omit [DecidableEq φ] in
/-- The deletion-only path ends stale for a reason that the advice is about. -/
theorem Survey.deletionStale_quiet (hq : v.discovery.Quiet)
    (h : v.deletionStale initialized (!v.semanticsStale && initialized) = true) :
    v.semanticsStale = true ∨ initialized = false ∨ v.existingStale = true := by
  revert h
  simp only [Survey.deletionStale, v.hasUncertainty_quiet hq]
  cases v.semanticsStale <;> cases initialized <;> simp

theorem Survey.ends_deletionOnlyPath [DecidableEq δ] (hq : v.discovery.Quiet)
    (deleted : List RelPath) :
    (v.deletionOnlyPath deleted).Ends X tree (Advised v.existingStale) w := by
  unfold Survey.deletionOnlyPath
  refine Ends.bind (Ends.execute (Ends.bind (Ends.query (Ends.bind (Ends.execute ?_)))))
  dsimp only
  split
  · rename_i hstale
    refine Ends.bind (Ends.execute (Ends.pure (v.advised_finished hq ?_)))
    simp only [DbWrite.run, CodeDb.cleanupTx_resolved] at hstale
    exact v.deletionStale_quiet hq hstale
  · exact Ends.bind (Ends.attempt (Ends.execute (Ends.pure (.inl ⟨_, rfl, rfl⟩))))

theorem Survey.ends_mainPath [DecidableEq δ] (hq : v.discovery.Quiet)
    (h : v.FilesReadable X w.disk) (useParallel : Bool)
    (deleted : List RelPath) : (v.mainPath X useParallel deleted).Ends X tree (fun r w' =>
      if v.opts.incremental then Advised v.existingStale r w' else Certified w') w := by
  unfold Survey.mainPath
  refine Ends.bind (Ends.attempt ((v.ends_extract h useParallel).mono ?_))
  rintro result w' ⟨herrors, -, -⟩
  refine Ends.tryCatch ?_
  cases hinc : v.opts.incremental with
  | true => exact v.ends_afterExtraction hq hinc deleted herrors
  | false => exact v.ends_afterExtraction_full hinc deleted herrors

theorem Survey.ends_estimatedFilesToIndex [DecidableEq δ] (h : v.FilesReadable X w.disk) :
    (v.estimatedFilesToIndex : IndexM φ χ δ ℕ).Ends X tree (fun _ w' => w' = w) w := by
  unfold Survey.estimatedFilesToIndex
  split
  · refine Ends.bind (Ends.query (Ends.bind (Ends.forEach (B := fun _ => True) _ (fun f hf => ?_)
      fun _ _ => Ends.pure rfl)))
    exact Ends.bind ((v.ends_resolveFileStat h hf).mono fun _ _ hw => Ends.pure ⟨trivial, hw⟩)
  · exact Ends.pure rfl

theorem Survey.ends_index [DecidableEq δ] (hq : v.discovery.Quiet) (h : v.FilesReadable X w.disk) :
    (v.index X).Ends X tree (fun r w' =>
      if v.opts.incremental then Advised v.existingStale r w' else Certified w') w := by
  unfold Survey.index
  refine Ends.bind (Ends.execute ?_)
  refine Ends.bind (Ends.mono (v.ends_estimatedFilesToIndex ?_) ?_)
  · exact h
  rintro estimated _ rfl
  refine Ends.bind (ends_executeIf ?_)
  have hdeleted : ∀ w : IndexWorld φ χ δ,
      (v.readDeletedRelPaths : IndexM φ χ δ _).Ends X tree (fun _ w' => w' = w) w := by
    intro w
    unfold Survey.readDeletedRelPaths
    split
    · exact Ends.bind (Ends.query (Ends.pure rfl))
    · exact Ends.pure rfl
  refine Ends.bind ((hdeleted _).mono ?_)
  rintro deleted _ rfl
  split
  · rename_i hinc
    rw [Bool.and_eq_true] at hinc
    rw [hinc.1]
    split
    · exact v.ends_noOpPath hq
    · exact v.ends_deletionOnlyPath hq deleted
  · refine v.ends_mainPath hq ?_ _ _
    split <;> exact h

/-! ## The gates -/

/-- A file tree that can be read and parsed: the root is a directory, every link resolves, and every
file has a text that can be extracted. -/
structure Readable (X : Extractor φ χ δ) (tree : FileTree) (root : AbsPath)
    (disk : AbsPath → Option (SourceFile χ)) : Prop where
  directory : ∃ names, tree.entry root = some (.directory names)
  links : ∀ p r, tree.entry p = some (.link r) → ∃ t, r = .ok t
  files : ∀ p dev ino, tree.entry p = some (.file dev ino) →
    ∃ file, disk p = some file ∧ X.extracts (relative root p) file.content = true

theorem ends_existsAny (ts : List StructuralTable) :
    (existsAny ts).Ends X tree (fun b w' =>
      b = ts.any w.db.existsRows ∧ w' = w) w := by
  induction ts with
  | nil => exact Ends.pure ⟨rfl, rfl⟩
  | cons t ts ih =>
    refine Ends.bind (Ends.query ?_)
    split
    · rename_i h
      refine Ends.pure ⟨?_, rfl⟩
      rw [any_cons, show w.db.existsRows t = true from h]
      rfl
    · rename_i h
      have ht : w.db.existsRows t = false := Bool.eq_false_iff.mpr h
      refine ih.mono fun b w' hb => ⟨?_, hb.2⟩
      rw [any_cons, ht, hb.1]
      rfl

/-- **A calm run gets to its gates**, and knows what is in the database. -/
theorem ends_indexProjectWasm [DecidableEq δ] {opts : IndexOptions φ}
    {Q : IndexResult → IndexWorld φ χ δ → Prop}
    (hread : Readable X tree opts.root.path w.disk)
    (h : ∀ discovery : Discovery, discovery.Quiet →
      (survey opts discovery w.db).FilesReadable X w.disk →
      ((survey opts discovery w.db).admitted X).Ends X tree Q w) :
    (indexProjectWasm X opts).Ends X tree Q w := by
  unfold indexProjectWasm
  refine Ends.bind (Ends.attempt (Ends.perform fun _ _ => ?_))
  refine Ends.bind (Ends.attempt (Ends.perform fun ch hch => ?_))
  obtain ⟨s, hs⟩ := Option.isSome_iff_exists.mp (hch.ends _ _ rfl)
  simp only [IndexOp.run, hs]
  have hq := Discovery.quiet_of_discover hch.shows hread.links hread.directory hs
  have hfiles : (survey opts s w.db).FilesReadable X w.disk := by
    intro f hf
    obtain ⟨dev, ino, he⟩ := Discovery.file_of_discover hch.shows hread.directory hs hf
    exact hread.files f dev ino he
  refine Ends.bind (Ends.query ?_)
  have hcomplete : s.complete = true := by
    rw [Discovery.complete, hq.errors]
    rfl
  rw [hcomplete, if_neg (by simp)]
  unfold surveyAndIndex
  refine Ends.bind (Ends.query (Ends.bind ((ends_existsAny structuralTables).mono ?_)))
  rintro _ w' ⟨rfl, rfl⟩
  dsimp only
  rw [Survey.hasUncertainty_quiet hq]
  rw [if_neg (by simp)]
  have hstate : (opts.readProjectState : IndexM φ χ δ _).Ends X tree (fun row w'' =>
      row = (if opts.incremental then w'.db.project else none) ∧ w'' = w') w' := by
    unfold IndexOptions.readProjectState
    split
    · exact Ends.query ⟨rfl, rfl⟩
    · exact Ends.pure ⟨rfl, rfl⟩
  refine Ends.bind (hstate.mono ?_)
  rintro _ w'' ⟨rfl, rfl⟩
  exact h s hq hfiles

end Ariad
