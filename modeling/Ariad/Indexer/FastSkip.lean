import Ariad.Indexer.Entries
import Ariad.Indexer.RootIdentity
import Ariad.Indexer.Traced

/-!
# Files that are skipped

An incremental run skips a file if its `mtime_ns` and size are the stored ones, and keeps the rows of a
file whose text has the stored digest. Whether the rows are of the text that the file has depends on what
was read when.

* `Thins` — a write that leaves what is stored of a file, or drops it.
* `Vouched` — the stored `mtime_ns` of a file stands for the text of its rows.
* `undisturbed` — the runs in which that is kept.
* `SkipSound` — what is skipped has the rows of its text.
-/

namespace Ariad

open List

variable {φ χ δ α β : Type} {X : Extractor φ χ δ} {db db' db'' : CodeDb φ χ δ}

open IndexM

/-! ## Writes that store nothing new -/

namespace CodeDb

/-- The write leaves what is stored of a file, or drops it. -/
def Thins (db db' : CodeDb φ χ δ) : Prop := ∀ p, SameAt db db' p ∨ db'.Absent p

namespace Thins

variable {A : IndexOp φ χ δ → IndexChoice χ → IndexState φ χ δ → Prop} {hs : List (HashUpdate δ)}
  {x : AbsPath × Option (HashUpdate δ)} {u : HashUpdate δ}

theorem refl (db : CodeDb φ χ δ) : Thins db db := fun p => .inl (.refl db p)

theorem trans (h : Thins db db') (h' : Thins db' db'') : Thins db db'' := by
  intro p
  rcases h' p with hsame | habsent
  · rcases h p with hsame' | habsent
    · exact .inl (hsame'.trans hsame)
    · exact .inr (hsame.absent habsent)
  · exact .inr habsent

theorem of_rows (htable : db'.table = db.table) (hhashes : db'.fileHashes = db.fileHashes) :
    Thins db db' := fun _ => .inl (.of_rows htable hhashes)

theorem sameRows (h : SameRows db db') : Thins db db' := .of_rows h.table h.fileHashes

theorem clearProjectData (db : CodeDb φ χ δ) : Thins db db.clearProjectData :=
  fun _ => .inr ⟨rfl, fun _ => rfl⟩

theorem resolveCrossFile (incremental initialized : Bool) (scope : Option (List RelPath)) :
    Thins db (db.resolveCrossFile X incremental initialized scope).1 := by
  unfold CodeDb.resolveCrossFile
  split
  · split
    · exact .of_rows rfl rfl
    · split
      · exact .refl db
      · split
        · exact .of_rows rfl rfl
        · exact .refl db
  · exact .of_rows rfl rfl

theorem coherent (h : Thins db db') (hdb : db.Coherent X) : db'.Coherent X := by
  intro p
  rcases h p with hsame | habsent
  · rcases hdb p with habsent | ⟨e, c, hs⟩
    · exact .inl (hsame.absent habsent)
    · exact .inr ⟨e, c, hsame.stored hs⟩
  · exact .inl habsent

theorem deleteFiles (hdb : db.Coherent X) (paths : List RelPath) : Thins db (db.deleteFiles paths) := by
  intro p
  by_cases hp : p ∈ paths
  · exact .inr (hdb.absent_deleteFiles hp)
  · exact .inl (sameAt_deleteFiles hp)

theorem cleanupTx (hdb : db.Coherent X) (paths : List RelPath) (semanticsStale initialized : Bool) :
    Thins db (db.cleanupTx X paths semanticsStale initialized).1 := by
  refine (deleteFiles hdb paths).trans ?_
  unfold CodeDb.cleanupTx
  dsimp only
  split
  · exact .of_rows rfl rfl
  · split
    · exact .of_rows rfl rfl
    · exact .refl _

theorem deleteTx (hdb : db.Coherent X) (paths : List RelPath) (semanticsStale : Bool) :
    Thins db (db.deleteTx X paths semanticsStale) := by
  refine (deleteFiles hdb paths).trans ?_
  unfold CodeDb.deleteTx
  dsimp only
  split
  · exact .of_rows rfl rfl
  · split
    · exact .of_rows rfl rfl
    · exact .refl _

theorem noOpTx (semanticsStale noOpStale : Bool) (rootPath : AbsPath) (initialized : Bool) (version : ℤ)
    (hasIndexError : Bool) :
    Thins db (db.noOpTx semanticsStale noOpStale rootPath initialized version hasIndexError) := by
  unfold CodeDb.noOpTx
  cases semanticsStale <;> cases noOpStale <;> exact .of_rows rfl rfl

theorem markTx (version : ℤ) : Thins db (db.markTx version) := by
  unfold CodeDb.markTx
  split <;> exact .of_rows rfl rfl

end Thins

end CodeDb

/-- The operation writes no rows of files. -/
def IndexOp.Thins : IndexOp φ χ δ → Prop
  | .write (.extractionTx _ _ _ _) => False
  | .write (.streamingTx _ _ _ _ _ _) => False
  | .write (.metadataTx _ _) => False
  | _ => True

theorem IndexOp.Reads.thins {o : IndexOp φ χ δ} (h : o.Reads) : o.Thins := by
  cases o with
  | write u => exact h.elim
  | publishGenerationSnapshot => exact h.elim
  | _ => trivial

theorem IndexOp.Thins.exec [DecidableEq φ] {o : IndexOp φ χ δ} (ho : o.Thins) (ch : IndexChoice χ)
    {w : IndexWorld φ χ δ} (hdb : w.db.Coherent X) : w.db.Thins (o.exec X ch w).2.db := by
  by_cases hreads : o.Reads
  · rw [(hreads.exec ch w).1]
    exact .refl _
  unfold IndexOp.exec
  split
  · exact .refl _
  · cases o with
    | write u =>
      cases u with
      | markStale guard =>
        simp only [IndexOp.run, DbWrite.run]
        split
        · exact .refl _
        · split
          · exact .sameRows .markStale
          · exact .refl _
      | markTx version => exact .markTx version
      | premark rootPath => exact .sameRows (.premark rootPath)
      | clearProjectData => exact .clearProjectData _
      | noOpTx => exact .noOpTx _ _ _ _ _ _
      | cleanupTx => exact .cleanupTx hdb _ _ _
      | deleteTx => exact .deleteTx hdb _ _
      | updateProjectStats => exact .sameRows (.updateProjectStats _ _ _ _ _ _ _ _)
      | commitAliasStateAtomically => exact .sameRows (.commitAliasStateAtomically _ _ _ _ _ _ _)
      | _ => exact ho.elim
    | publishGenerationSnapshot => exact .refl _
    | _ => exact absurd trivial hreads

/-! ## What the stored times stand for -/

section

variable (X : Extractor φ χ δ) (rootOf : φ → AbsPath)

/-- **The stored time of a file stands for the text of its rows.** `rootOf` says which directory a
fingerprint is of. -/
structure Vouched (s : IndexState φ χ δ) : Prop where
  coherent : s.world.db.Coherent X
  agree : s.ReadsAgree
  vouches : ∀ p h c m, s.world.db.Stored X (relative (rootOf h.root) p) h c → h.mtimeNs = some m →
    s.Vouches p m c

/-- What is stored of a file after a write: what was, nothing, or a text that the time stands for. -/
def Accounted (s : IndexState φ χ δ) (db db' : CodeDb φ χ δ) : Prop :=
  ∀ p, CodeDb.SameAt db db' p ∨ db'.Absent p ∨ ∃ h c, db'.Stored X p h c ∧
    ∀ q m, relative (rootOf h.root) q = p → h.mtimeNs = some m → s.Vouches q m c

end

/-- **A run is left undisturbed**: every write gives the file an `mtime_ns` that it was not seen with; a
file is as it was when the run reads it again, or asks for its metadata behind a full read; and no full
run writes rows where another root is stored. -/
def undisturbed (opts : IndexOptions φ) (o : IndexOp φ χ δ) (ch : IndexChoice χ)
    (s : IndexState φ χ δ) : Prop :=
  s.Fresh ch.writes ∧ s.Steady opts.incremental (s.world.edited ch.writes).disk o ∧
    KeepsRoot o s.world.db

/-- Between two runs files are written. -/
def EditedBetween (s s' : IndexState φ χ δ) : Prop :=
  ∃ writes, s.Fresh writes ∧ s' = ⟨s.world.edited writes, s.trace⟩

section

variable {rootOf : φ → AbsPath} {opts : IndexOptions φ} {s s' s₀ : IndexState φ χ δ}
  {o : IndexOp φ χ δ} {ch : IndexChoice χ}

theorem Accounted.of_thins (h : db.Thins db') : Accounted X rootOf s db db' := by
  intro p
  rcases h p with hsame | habsent
  · exact .inl hsame
  · exact .inr (.inl habsent)

theorem Accounted.thins (h : Accounted X rootOf s db db') (h' : db'.Thins db'') : Accounted X rootOf s db db'' := by
  intro p
  rcases h' p with hsame | habsent
  · rcases h p with hsame' | habsent | ⟨e, c, hs, hv⟩
    · exact .inl (hsame'.trans hsame)
    · exact .inr (.inl (hsame.absent habsent))
    · exact .inr (.inr ⟨e, c, hsame.stored hs, hv⟩)
  · exact .inr (.inl habsent)

theorem Accounted.behind (h : db.Thins db') (h' : Accounted X rootOf s db' db'') : Accounted X rootOf s db db'' := by
  intro p
  rcases h' p with hsame | hrest
  · rcases h p with hsame' | habsent
    · exact .inl (hsame'.trans hsame)
    · exact .inr (.inl (hsame.absent habsent))
  · exact .inr hrest

theorem Vouched.of_accounted (hsha : Function.Injective X.sha256) (h : Vouched X rootOf s)
    (hdb : Accounted X rootOf s s.world.db s'.world.db) (hagree : s'.ReadsAgree)
    (hkeeps : ∀ p m c, s.Vouches p m c → s'.Vouches p m c) : Vouched X rootOf s' where
  agree := hagree
  coherent := by
    intro p
    rcases hdb p with hsame | habsent | ⟨e, c, hs, -⟩
    · rcases h.coherent p with habsent | ⟨e, c, hs⟩
      · exact .inl (hsame.absent habsent)
      · exact .inr ⟨e, c, hsame.stored hs⟩
    · exact .inl habsent
    · exact .inr ⟨e, c, hs⟩
  vouches := by
    intro p e c m hs hm
    rcases hdb (relative (rootOf e.root) p) with hsame | habsent | ⟨e', c', hs', hv⟩
    · refine hkeeps p m c (h.vouches p e c m ?_ hm)
      exact CodeDb.SameAt.stored ⟨hsame.hash.symm, fun t => (hsame.rows t).symm⟩ hs
    · cases hs.hash.symm.trans habsent.hash
    · obtain ⟨rfl, rfl⟩ := hs.inj hsha hs'
      exact hkeeps p m c (hv p m rfl hm)

theorem Vouched.edited (hsha : Function.Injective X.sha256) (h : Vouched X rootOf s)
    (he : EditedBetween s s') : Vouched X rootOf s' := by
  obtain ⟨writes, hfresh, rfl⟩ := he
  exact h.of_accounted hsha (.of_thins (.refl _)) h.agree
    fun _ _ _ hv => hv.of_edited hfresh rfl fun _ hm => hm

theorem Vouched.killed (hsha : Function.Injective X.sha256) (h : Vouched X rootOf s) :
    Vouched X rootOf (s.step .killed s.world) := by
  have hfresh : s.Fresh [] := fun x hx => nomatch hx
  refine h.of_accounted hsha (.of_thins (.refl _)) (h.agree.step rfl ?_)
    fun _ _ _ hv => hv.step hfresh rfl
  intro p f hf
  cases hf

/-- The run has got on, and has written nothing. -/
structure Reached (X : Extractor φ χ δ) (rootOf : φ → AbsPath) (s₀ s : IndexState φ χ δ) : Prop where
  vouched : Vouched X rootOf s
  later : IndexState.Later s₀ s
  db : s.world.db = s₀.world.db

theorem Reached.refl (h : Vouched X rootOf s) : Reached X rootOf s s := ⟨h, .refl s, rfl⟩

theorem Reached.trans (h : Reached X rootOf s₀ s) (h' : Reached X rootOf s s') :
    Reached X rootOf s₀ s' := ⟨h'.vouched, h.later.trans h'.later, h'.db.trans h.db⟩

variable [DecidableEq φ]

/-- **The step lemma.** -/
theorem Vouched.after (hsha : Function.Injective X.sha256) (h : Vouched X rootOf s)
    (hA : undisturbed opts o ch s) (hdb : Accounted X rootOf s s.world.db (o.exec X ch s.world).2.db) :
    Vouched X rootOf (s.after X o ch) :=
  h.of_accounted hsha hdb (h.agree.after X hA.2.1)
    fun _ _ _ hv => hv.step hA.1 (o.exec_disk X ch s.world)

/-- The step lemma for what writes no rows of files. -/
theorem Vouched.after_thins (hsha : Function.Injective X.sha256) (h : Vouched X rootOf s)
    (hA : undisturbed opts o ch s) (ho : o.Thins) : Vouched X rootOf (s.after X o ch) :=
  h.after hsha hA (.of_thins (ho.exec ch h.coherent))

theorem Reached.after (hsha : Function.Injective X.sha256) (h : Vouched X rootOf s)
    (ho : o.Reads) (hstart : o.isStart = false) (hA : undisturbed opts o ch s) :
    Reached X rootOf s (s.after X o ch) := by
  have hdb : (o.exec X ch s.world).2.db = s.world.db := (ho.exec ch s.world).1
  refine ⟨h.after hsha hA ?_, .after X hstart hA.1, hdb⟩
  rw [hdb]
  exact .of_thins (.refl _)

/-- Run by run: what the next part of the run is about starts where this one ends. -/
theorem IndexM.HoldsOn.from {m : IndexM φ χ δ α} {P : α → IndexState φ χ δ → Prop} (hs : Reached X rootOf s₀ s)
    (h : m.HoldsOn X A (Vouched X rootOf) (fun a s' => Reached X rootOf s s' ∧ P a s') (Reached X rootOf s) s) :
    m.HoldsOn X A (Vouched X rootOf) (fun a s' => Reached X rootOf s₀ s' ∧ Reached X rootOf s s' ∧ P a s')
      (Reached X rootOf s₀) s :=
  h.mono (fun _ _ h => ⟨hs.trans h.1, h⟩) fun _ h => hs.trans h

/-- What is found out of every element is still known at the end. -/
theorem IndexM.HoldsOn.collect {f : α → IndexM φ χ δ β} {P : IndexState φ χ δ → β → Prop}
    {as : List α} (hs₀ : Vouched X rootOf s₀) (hlater : ∀ s s' b, IndexState.Later s s' → P s b → P s' b)
    (hf : ∀ a ∈ as, ∀ s, Reached X rootOf s₀ s → (f a).HoldsOn X A (Vouched X rootOf)
      (fun b s' => Reached X rootOf s s' ∧ P s' b) (Reached X rootOf s) s) :
    (IndexM.forEach f as).HoldsOn X A (Vouched X rootOf)
      (fun bs s => Reached X rootOf s₀ s ∧ ∀ b ∈ bs, P s b) (Reached X rootOf s₀) s₀ := by
  refine .forEach (fun bs s => Reached X rootOf s₀ s ∧ ∀ b ∈ bs, P s b) as ?_
    ⟨.refl hs₀, fun _ h => nomatch h⟩ fun _ _ h => h
  rintro a ha bs s ⟨hs, hbs⟩
  refine (HoldsOn.from hs (hf a ha s hs)).mono ?_ fun _ h => h
  rintro b s' ⟨hs', hnext, hb⟩
  refine ⟨hs', fun b' hb' => ?_⟩
  rcases mem_append.mp hb' with hb' | hb'
  · exact hlater s s' b' hnext.later (hbs b' hb')
  · rw [mem_singleton.mp hb']
    exact hb

/-- What holds throughout a procedure that nobody disturbs, and in its end. -/
abbrev IndexM.Vouches (X : Extractor φ χ δ) (rootOf : φ → AbsPath) (opts : IndexOptions φ) (m : IndexM φ χ δ α)
    (Q : α → IndexState φ χ δ → Prop) (E : IndexState φ χ δ → Prop) (s : IndexState φ χ δ) : Prop :=
  m.HoldsOn X (undisturbed opts) (Vouched X rootOf) Q E s

/-- The same, where nothing else is said of the end. -/
abbrev IndexM.Keeps (X : Extractor φ χ δ) (rootOf : φ → AbsPath) (opts : IndexOptions φ) (m : IndexM φ χ δ α)
    (s : IndexState φ χ δ) : Prop :=
  m.Vouches X rootOf opts (fun _ => Vouched X rootOf) (Vouched X rootOf) s

section

variable (opts) (hsha : Function.Injective X.sha256)

include hsha

theorem holdsOn_query (r : DbRead φ) (hs : Vouched X rootOf s) :
    (query r).Vouches X rootOf opts
      (fun v s' => Reached X rootOf s s' ∧ v = r.run s.world.db) (Reached X rootOf s) s :=
  .perform hs (fun _ hA => .after hsha hs trivial rfl hA)
    fun _ _ hA hv => ⟨.after hsha hs trivial rfl hA, IndexOp.exec_read X hv⟩

/-- `stat` sees the file; behind a full read it is the version that was read. -/
theorem holdsOn_statFile (p : AbsPath) (hs : Vouched X rootOf s) :
    (statFile p).Vouches X rootOf opts
      (fun m s' => Reached X rootOf s s' ∧ m.mtimeNs ∈ s'.seenTimes p ∧
        (opts.incremental = false → ∀ f ∈ s.versionsRead p, s'.Vouches p m.mtimeNs f.content))
      (Reached X rootOf s) s := by
  refine .perform hs (fun _ hA => .after hsha hs trivial rfl hA) fun ch m hA hm => ?_
  obtain ⟨f, hf, rfl⟩ := IndexOp.exec_statFile X hm
  have hdisk : (s.after X (.statFile p) ch).world.disk p = some f := by
    rw [← hf, ← IndexOp.exec_disk X (.statFile p)]
    rfl
  have hseen : f.mtimeNs ∈ (s.after X (.statFile p) ch).seenTimes p :=
    IndexState.mem_seenTimes_step hdisk
  refine ⟨.after hsha hs trivial rfl hA, hseen, fun hfull g hg => ?_⟩
  obtain rfl : f = g := Option.some.inj (hf.symm.trans (hA.2.1 hfull g hg))
  exact .now hdisk hseen

/-- What is read is a version that was read, and times that have been seen stand for its text. -/
theorem holdsOn_readFile (p : AbsPath) (hs : Vouched X rootOf s) :
    (readFile p).Vouches X rootOf opts
      (fun c s' => Reached X rootOf s s' ∧ ∃ f ∈ s'.versionsRead p, c = f.content ∧
        ∀ m ∈ s.seenTimes p, s'.Vouches p m f.content) (Reached X rootOf s) s := by
  refine .perform hs (fun _ hA => .after hsha hs trivial rfl hA) fun ch c hA hc => ?_
  obtain ⟨f, hf, rfl⟩ := IndexOp.exec_readFile X hc
  have hreached : Reached X rootOf s (s.after X (.readFile p) ch) := .after hsha hs trivial rfl hA
  have hdisk : (s.after X (.readFile p) ch).world.disk p = some f := by
    rw [← hf, ← IndexOp.exec_disk X (.readFile p)]
    rfl
  have hread : f ∈ (s.after X (.readFile p) ch).versionsRead p := by
    have hversion : versionRead (⟨0, .op (.readFile p) (IndexOp.exec X (.readFile p) ch s.world).1,
        s.world, (IndexOp.exec X (.readFile p) ch s.world).2⟩ : IndexEvent φ χ δ) p = some f := by
      rw [hc]
      exact (if_pos rfl).trans hdisk
    rw [IndexState.after, IndexState.versionsRead_step rfl, hversion]
    exact mem_cons_self
  exact ⟨hreached, f, hread, rfl, fun m hm => .now hdisk (hreached.later.seenTimes p hm)⟩

end

/-! ## What is known of the files that were read -/

/-- What is to be written of a file is of a version that was read, and the time stands for it. -/
structure ReadAs (X : Extractor φ χ δ) (rootOf : φ → AbsPath) (root : φ) (s : IndexState φ χ δ)
    (u : HashUpdate δ) (c : χ) : Prop where
  hash : u.hash = X.sha256 c
  source : ∃ p, u.path = relative (rootOf root) p ∧ (∃ f ∈ s.versionsRead p, f.content = c) ∧
    s.Vouches p u.mtimeNs c

/-- The same is stored of the file already. -/
def Restored (X : Extractor φ χ δ) (rootOf : φ → AbsPath) (root : φ) (db : CodeDb φ χ δ)
    (s : IndexState φ χ δ) (u : HashUpdate δ) : Prop :=
  ∃ c old, ReadAs X rootOf root s u c ∧ db.Stored X u.path old c

/-- What is known of the outcome of a file. -/
def Sourced (X : Extractor φ χ δ) (rootOf : φ → AbsPath) (opts : IndexOptions φ) (db : CodeDb φ χ δ)
    (s : IndexState φ χ δ) : FileOutcome χ δ → Prop
  | .extracted u => ReadAs X rootOf opts.root.fingerprint s u.toHashUpdate u.content
  | .metadataOnly u => opts.incremental = true ∧ Restored X rootOf opts.root.fingerprint db s u
  | _ => True

section

variable {root : φ}

omit [DecidableEq φ] in
theorem ReadAs.later {c : χ} (h : ReadAs X rootOf root s u c)
    (hlater : IndexState.Later s s') : ReadAs X rootOf root s' u c := by
  obtain ⟨p, hpath, ⟨f, hf, hc⟩, hv⟩ := h.source
  exact ⟨h.hash, p, hpath, ⟨f, hlater.versionsRead p hf, hc⟩, hlater.vouches _ _ _ hv⟩

omit [DecidableEq φ] in
theorem Restored.later (h : Restored X rootOf root db s u)
    (hlater : IndexState.Later s s') : Restored X rootOf root db s' u := by
  obtain ⟨c, old, hread, hold⟩ := h
  exact ⟨c, old, hread.later hlater, hold⟩

omit [DecidableEq φ] in
theorem Sourced.later {x : FileOutcome χ δ} (h : Sourced X rootOf opts db s x)
    (hlater : IndexState.Later s s') : Sourced X rootOf opts db s' x := by
  cases x with
  | extracted u => exact ReadAs.later h hlater
  | metadataOnly u => exact ⟨h.1, Restored.later h.2 hlater⟩
  | _ => trivial

omit [DecidableEq φ] in
/-- Two files with one relative path are one file, and one version of it was read. -/
theorem ReadAs.content_eq {u u' : HashUpdate δ} {c c' : χ} (hagree : s.ReadsAgree)
    (h : ReadAs X rootOf root s u c) (h' : ReadAs X rootOf root s u' c') (hpath : u.path = u'.path) : c = c' := by
  obtain ⟨p, hp, ⟨f, hf, rfl⟩, -⟩ := h.source
  obtain ⟨q, hq, ⟨g, hg, rfl⟩, -⟩ := h'.source
  obtain rfl : p = q := relative_injective _ (hp.symm.trans (hpath.trans hq))
  rw [hagree p f hf g hg]

omit [DecidableEq φ] in
theorem ReadAs.vouches {c : χ} (h : ReadAs X rootOf root s u c) (q : AbsPath)
    (hq : relative (rootOf root) q = u.path) : s.Vouches q u.mtimeNs c := by
  obtain ⟨p, hp, -, hv⟩ := h.source
  obtain rfl : q = p := relative_injective _ (hq.trans hp)
  exact hv

omit [DecidableEq φ] in
/-- **The writes of an extraction** store texts that their times stand for. -/
theorem accounted_written (incremental : Bool) {us : List (FileUpdate χ δ)}
    (hsha : Function.Injective X.sha256) (hagree : s.ReadsAgree) (hdb : db.Coherent X)
    (hfull : incremental = false → ∀ p, db.Absent p) (hus : ∀ u ∈ us, ReadAs X rootOf root s u.toHashUpdate u.content)
    (hhs : ∀ u ∈ hs, Restored X rootOf root db s u) : Accounted X rootOf s db
      ((us.foldl (CodeDb.writeFile X incremental root) db).upsertHashes root hs) := by
  have hwritten : ∀ p, CodeDb.WrittenAt X root us db
      (us.foldl (CodeDb.writeFile X incremental root) db) p := by
    refine hdb.writtenAt (fun u hu => (hus u hu).hash)
      (fun u hu u' hu' hpath => (hus u hu).content_eq hagree (hus u' hu') hpath) ?_
    intro hinc u _ t r hr
    rw [(hfull hinc u.path).rows t] at hr
    cases hr
  have hdb' := hdb.of_writtenAt hwritten
  have hstored : ∀ u ∈ hs, ∃ h c, (us.foldl (CodeDb.writeFile X incremental root) db).Stored X u.path h c ∧
      u.hash = X.sha256 c := by
    intro u hu
    obtain ⟨c, old, hread, hold⟩ := hhs u hu
    rcases hwritten u.path with ⟨-, hsame⟩ | ⟨u', hu', hpath, hs⟩
    · exact ⟨old, c, hsame.stored hold, hread.hash⟩
    · refine ⟨_, _, hs, ?_⟩
      rw [← (hread.content_eq hagree (hus u' hu') hpath.symm)]
      exact hread.hash
  intro p
  rcases hdb'.upsertHashes_at root hstored p with ⟨-, hsame⟩ | ⟨u, hu, rfl, c, hs⟩
  · rcases hwritten p with ⟨-, hsame'⟩ | ⟨u, hu, rfl, hs⟩
    · exact .inl (hsame'.trans hsame)
    · refine .inr (.inr ⟨_, _, hsame.stored hs, fun q m hq hm => ?_⟩)
      cases hm
      exact (hus u hu).vouches q hq
  · refine .inr (.inr ⟨_, _, hs, fun q m hq hm => ?_⟩)
    cases hm
    obtain ⟨c', old, hread, -⟩ := hhs u hu
    obtain rfl : c = c' := hsha (hs.digest.symm.trans hread.hash)
    exact hread.vouches q hq

omit [DecidableEq φ] in
/-- The metadata alone is written. -/
theorem accounted_metadata (hsha : Function.Injective X.sha256) (hagree : s.ReadsAgree) (hdb : db.Coherent X)
    (hhs : ∀ u ∈ hs, Restored X rootOf root db s u) : Accounted X rootOf s db (db.upsertHashes root hs) := by
  have hnone : ∀ u ∈ ([] : List (FileUpdate χ δ)), ReadAs X rootOf root s u.toHashUpdate u.content :=
    fun _ h => nomatch h
  exact accounted_written true hsha hagree hdb (fun h => nomatch h) hnone hhs

omit [DecidableEq φ] in
/-- The same of the transaction of the workers; that of a full run starts from nothing. -/
theorem accounted_streamingTx {incremental initialized : Bool} {scope : Option (List RelPath)}
    {us : List (FileUpdate χ δ)} (hsha : Function.Injective X.sha256) (hagree : s.ReadsAgree) (hdb : db.Coherent X)
    (hus : ∀ u ∈ us, ReadAs X rootOf root s u.toHashUpdate u.content)
    (hhs : ∀ u ∈ hs, incremental = true ∧ Restored X rootOf root db s u) :
    Accounted X rootOf s db (db.streamingTx X incremental root us hs initialized scope).1 := by
  have hstart : db.Thins (if incremental then db else db.clearProjectData) := by
    split
    · exact .refl db
    · exact .clearProjectData db
  have habsent : incremental = false →
      ∀ p, (if incremental then db else db.clearProjectData).Absent p := by
    intro hinc p
    rw [hinc]
    exact ⟨rfl, fun _ => rfl⟩
  refine Accounted.thins (.behind hstart ?_) (.resolveCrossFile incremental initialized scope)
  by_cases hnone : us = []
  · rw [if_pos hnone, hnone]
    exact .of_thins (.refl _)
  · rw [if_neg hnone]
    refine accounted_written incremental hsha hagree (hstart.coherent hdb) habsent hus fun u hu => ?_
    obtain ⟨rfl, hrestored⟩ := hhs u hu
    exact hrestored

end

/-! ## Extraction -/

section

variable [DecidableEq δ] {v : Survey φ} {p : AbsPath}

omit [DecidableEq φ] [DecidableEq δ] in
theorem sourced_extractContent {u : FileUpdate χ δ}
    (h : ReadAs X rootOf opts.root.fingerprint s u.toHashUpdate u.content) :
    Sourced X rootOf opts db s (extractContent X u) := by
  unfold extractContent
  split
  · exact h
  · trivial

omit [DecidableEq φ] [DecidableEq δ] in
/-- A file that was read, with a time that stands for it. -/
theorem readAs_readHash (hroot : rootOf v.opts.root.fingerprint = v.rootPath) {m : FileMeta}
    {f : SourceFile χ} (hf : f ∈ s.versionsRead p) (hv : s.Vouches p m.mtimeNs f.content) :
    ReadAs X rootOf v.opts.root.fingerprint s (readHash X (v.relPath p) m f.content) f.content where
  hash := rfl
  source := by
    refine ⟨p, ?_, ⟨f, hf, rfl⟩, hv⟩
    rw [hroot]
    rfl

section

variable (hsha : Function.Injective X.sha256) (hroot : rootOf v.opts.root.fingerprint = v.rootPath)

include hsha hroot

/-- **One file of `extractFromFilesWasm`.** -/
theorem Survey.holdsOn_extractFile {cache : List (AbsPath × χ)} (hs : Vouched X rootOf s)
    (hcache : ∀ c, cache.lookup p = some c → ∃ f ∈ s.versionsRead p, f.content = c) :
    (v.extractFile X cache p).Vouches X rootOf v.opts
      (fun x s' => Reached X rootOf s s' ∧ Sourced X rootOf v.opts s.world.db s' x) (Reached X rootOf s) s := by
  refine .tryCatch (.bind ((holdsOn_statFile _ hsha p hs).mono ?_ fun s' h => .pure ⟨h, trivial⟩))
  rintro m s₁ ⟨hs₁, hm, hfull⟩
  split
  · rename_i hinc
    refine .bind ((HoldsOn.from hs₁ (holdsOn_query _ hsha (.selectHash (v.relPath p)) hs₁.vouched)).mono ?_
      fun s' h => .pure ⟨h, trivial⟩)
    rintro existing s₂ ⟨hs₂, hstep, rfl⟩
    have hm₂ := hstep.later.seenTimes p hm
    have hread := HoldsOn.from hs₂ (holdsOn_readFile v.opts hsha p hs₂.vouched)
    split
    · rename_i existing hexisting
      split
      · exact .pure ⟨hs₂, trivial⟩
      · refine .bind (hread.mono ?_ fun s' h => .pure ⟨h, trivial⟩)
        rintro _ s₃ ⟨hs₃, hstep₃, f, hf, rfl, hv⟩
        have hsource := readAs_readHash (X := X) hroot hf (hv _ hm₂)
        dsimp only
        split
        · rename_i hdigest
          -- the stored rows are of the text that was read, since their digest is that of the text
          have hstored : s.world.db.hashOf (v.relPath p) = some existing := by
            rw [← hs₁.db]
            exact hexisting
          obtain ⟨c, hc⟩ := hs.coherent.stored hstored
          obtain rfl : c = f.content := hsha (hc.digest.symm.trans hdigest)
          exact .pure ⟨hs₃, hinc, _, existing, hsource, hc⟩
        · exact .pure ⟨hs₃, sourced_extractContent hsource⟩
    · refine .bind (hread.mono ?_ fun s' h => .pure ⟨h, trivial⟩)
      rintro _ s₃ ⟨hs₃, hstep₃, f, hf, rfl, hv⟩
      exact .pure ⟨hs₃, sourced_extractContent (readAs_readHash hroot hf (hv _ hm₂))⟩
  · rename_i hinc
    split
    · rename_i c hc
      obtain ⟨f, hf, rfl⟩ := hcache c hc
      refine .pure ⟨hs₁, sourced_extractContent ?_⟩
      exact readAs_readHash hroot (hs₁.later.versionsRead p hf)
        (hfull (Bool.eq_false_iff.mpr hinc) f hf)
    · exact .pure ⟨hs₁, trivial⟩

omit hroot [DecidableEq δ] in
/-- A transaction that accounts for what it writes. -/
theorem holdsOn_execute {u : DbWrite φ χ δ} (hs : Vouched X rootOf s)
    (hdb : Accounted X rootOf s s.world.db (u.run X s.world.db).1) :
    (execute u).Keeps X rootOf opts s := by
  have hafter : ∀ ch, undisturbed opts (.write u) ch s → Vouched X rootOf (s.after X (.write u) ch) := by
    intro ch hA
    refine hs.after hsha hA ?_
    unfold IndexOp.exec
    split
    · exact .of_thins (.refl _)
    · exact hdb
  exact .perform hs hafter fun ch _ hA _ => hafter ch hA

omit hroot [DecidableEq δ] in
theorem holdsOn_prefetch (files : List AbsPath) (hs : Vouched X rootOf s) :
    (prefetch files : IndexM φ χ δ _).Vouches X rootOf opts
      (fun cache s' => Reached X rootOf s s' ∧ ∀ y ∈ cache, ∃ f ∈ s'.versionsRead y.1, f.content = y.2)
      (Reached X rootOf s) s := by
  refine .bind ((HoldsOn.collect (P := fun s' (x : Option (AbsPath × χ)) => ∀ y ∈ x,
    ∃ f ∈ s'.versionsRead y.1, f.content = y.2) hs ?_ ?_).mono ?_ fun _ h => h)
  · intro s s' x hlater h y hy
    obtain ⟨f, hf, hc⟩ := h y hy
    exact ⟨f, hlater.versionsRead _ hf, hc⟩
  · intro p _ s' hs'
    refine .bind (.attempt ((holdsOn_readFile _ hsha p hs'.vouched).mono ?_ ?_))
    · rintro _ s'' ⟨hs'', f, hf, rfl, -⟩
      refine .pure ⟨hs'', fun y hy => ?_⟩
      cases hy
      exact ⟨f, hf, rfl⟩
    · exact fun s'' hs'' => .pure ⟨hs'', fun y hy => nomatch hy⟩
  · rintro xs s' ⟨hs', hxs⟩
    refine .pure ⟨hs', fun y hy => ?_⟩
    obtain ⟨x, hx, hxy⟩ := mem_filterMap.mp hy
    exact hxs x hx y hxy

/-- **The sequential extraction.** -/
theorem Survey.holdsOn_extractFromFilesWasm (hs : Vouched X rootOf s)
    (hfull : v.opts.incremental = false → ∀ p, s.world.db.Absent p) :
    (v.extractFromFilesWasm X).Keeps X rootOf v.opts s := by
  have hcontents : (v.fileContents : IndexM φ χ δ _).Vouches X rootOf v.opts
      (fun cache s' => Reached X rootOf s s' ∧ ∀ y ∈ cache, ∃ f ∈ s'.versionsRead y.1, f.content = y.2)
      (Reached X rootOf s) s := by
    unfold Survey.fileContents
    split
    · exact .pure ⟨.refl hs, fun _ h => nomatch h⟩
    · exact holdsOn_prefetch hsha _ hs
  unfold Survey.extractFromFilesWasm
  split
  · exact .pure hs
  refine .bind (hcontents.mono ?_ fun _ h => h.vouched)
  rintro cache s₁ ⟨hs₁, hcache⟩
  refine .bind ((HoldsOn.collect (P := Sourced X rootOf v.opts s.world.db) hs₁.vouched
    (fun _ _ _ hlater h => h.later hlater) fun p _ s₂ hs₂ => ?_).mono ?_ fun _ h => h.vouched)
  · refine (v.holdsOn_extractFile hsha hroot hs₂.vouched ?_).mono ?_ fun _ h => h
    · intro c hc
      obtain ⟨l, l', rfl, -⟩ := lookup_eq_some_iff.mp hc
      obtain ⟨f, hf, hfc⟩ := hcache (p, c) (by simp)
      exact ⟨f, hs₂.later.versionsRead p hf, hfc⟩
    · rintro x s₃ ⟨hs₃, hx⟩
      rw [hs₂.db, hs₁.db] at hx
      exact ⟨hs₃, hx⟩
  · rintro xs s₂ ⟨hs₂, hxs⟩
    have hdb := hs₂.db.trans hs₁.db
    refine .bind ((holdsOn_execute hsha hs₂.vouched ?_).mono (fun _ _ h => .pure h) fun _ h => h)
    refine Accounted.thins (accounted_written _ hsha hs₂.vouched.agree hs₂.vouched.coherent ?_ ?_ ?_)
      (.resolveCrossFile _ _ _)
    · rwa [hdb]
    · intro u hu
      obtain ⟨x, hx, hxu⟩ := mem_filterMap.mp hu
      cases x <;> cases hxu
      exact hxs _ hx
    · intro u hu
      obtain ⟨x, hx, hxu⟩ := mem_filterMap.mp hu
      cases x <;> cases hxu
      rw [hdb]
      exact (hxs _ hx).2

/-! ## Workers -/

/-- The times that a discovery found have been seen. -/
def Reported (d : Discovery) (s : IndexState φ χ δ) : Prop :=
  ∀ p st, d.fileStats.lookup p = some st → st.mtimeNs ∈ s.seenTimes p

/-- What is known of a file that a worker is to extract. -/
def Survey.Pending (v : Survey φ) (X : Extractor φ χ δ) (s : IndexState φ χ δ)
    (x : AbsPath × Option (HashUpdate δ)) : Prop :=
  match x.2 with
  | none => v.opts.incremental = false
  | some u => u.path = v.relPath x.1 ∧ ∃ f ∈ s.versionsRead x.1, u.hash = X.sha256 f.content ∧
    s.Vouches x.1 u.mtimeNs f.content

/-- What is known of the outcome of the skip pass. -/
def Survey.SkipSourced (v : Survey φ) (X : Extractor φ χ δ) (rootOf : φ → AbsPath)
    (db : CodeDb φ χ δ) (s : IndexState φ χ δ) : SkipOutcome δ → Prop
  | .skipped => True
  | .metadataOnly u => v.opts.incremental = true ∧
    Restored X rootOf v.opts.root.fingerprint db s u
  | .index p u => v.Pending X s (p, u)

omit hsha hroot [DecidableEq φ] [DecidableEq δ] in
theorem Reported.later {d : Discovery} (h : Reported d s) (hlater : IndexState.Later s s') :
    Reported d s' := fun p st hst => hlater.seenTimes p (h p st hst)

omit hsha hroot [DecidableEq φ] [DecidableEq δ] in
theorem Survey.Pending.later (h : v.Pending X s x) (hlater : IndexState.Later s s') : v.Pending X s' x := by
  unfold Survey.Pending at h ⊢
  split
  · rename_i hx
    rwa [hx] at h
  · rename_i u hx
    rw [hx] at h
    obtain ⟨hpath, f, hf, hhash, hv⟩ := h
    exact ⟨hpath, f, hlater.versionsRead _ hf, hhash, hlater.vouches _ _ _ hv⟩

omit hsha hroot [DecidableEq φ] [DecidableEq δ] in
theorem Survey.SkipSourced.later {x : SkipOutcome δ} (h : v.SkipSourced X rootOf db s x)
    (hlater : IndexState.Later s s') : v.SkipSourced X rootOf db s' x := by
  cases x with
  | skipped => trivial
  | metadataOnly u => exact ⟨h.1, h.2.later hlater⟩
  | index p u => exact Survey.Pending.later h hlater

omit hroot [DecidableEq δ] in
theorem Survey.holdsOn_resolveFileStat (hs : Vouched X rootOf s) (hdiscovered : Reported v.discovery s) :
    (v.resolveFileStat p).Vouches X rootOf opts
      (fun m s' => Reached X rootOf s s' ∧ m.mtimeNs ∈ s'.seenTimes p) (Reached X rootOf s) s := by
  unfold Survey.resolveFileStat
  split
  · rename_i st hst
    exact .pure ⟨.refl hs, hdiscovered p st hst⟩
  · exact (holdsOn_statFile _ hsha p hs).mono (fun _ _ h => ⟨h.1, h.2.1⟩) fun _ h => h

/-- **One file in the skip pass.** -/
theorem Survey.holdsOn_skipPass (hs : Vouched X rootOf s) (hdiscovered : Reported v.discovery s)
    (bulkMeta : List (FileHash φ δ)) : (v.skipPass X bulkMeta p).Vouches X rootOf v.opts
      (fun x s' => Reached X rootOf s s' ∧ v.SkipSourced X rootOf s.world.db s' x) (Reached X rootOf s) s := by
  unfold Survey.skipPass
  split
  · rename_i hinc
    refine .bind ((v.holdsOn_resolveFileStat hsha hs hdiscovered).mono ?_ fun _ h => h)
    rintro m s₁ ⟨hs₁, hm⟩
    split
    · exact .pure ⟨hs₁, trivial⟩
    refine .bind ((HoldsOn.from hs₁ (holdsOn_query _ hsha (.selectHash (v.relPath p)) hs₁.vouched)).mono ?_
      fun _ h => h)
    rintro existing s₂ ⟨hs₂, hstep, rfl⟩
    refine .bind ((HoldsOn.from hs₂ (holdsOn_readFile _ hsha p hs₂.vouched)).mono ?_ fun _ h => h)
    rintro _ s₃ ⟨hs₃, -, f, hf, rfl, hv⟩
    have hvouches := hv _ (hstep.later.seenTimes p hm)
    have hpending : v.Pending X s₃ (p, some (readHash X (v.relPath p) m f.content)) :=
      ⟨rfl, f, hf, rfl, hvouches⟩
    dsimp only
    split
    · rename_i row hrow
      split
      · rename_i hdigest
        -- as in the sequential extraction: the digest says that the stored rows are of this text
        have hstored : s.world.db.hashOf (v.relPath p) = some row := by
          rw [← hs₁.db]
          exact hrow
        obtain ⟨c, hc⟩ := hs.coherent.stored hstored
        obtain rfl : c = f.content := hsha (hc.digest.symm.trans hdigest)
        exact .pure ⟨hs₃, hinc, _, row, readAs_readHash hroot hf hvouches, hc⟩
      · exact .pure ⟨hs₃, hpending⟩
    · exact .pure ⟨hs₃, hpending⟩
  · rename_i hinc
    exact .pure ⟨.refl hs, Bool.eq_false_iff.mpr hinc⟩

omit [DecidableEq δ] in
/-- **One file in a worker.** -/
theorem Survey.holdsOn_workerFile (hs : Vouched X rootOf s) (hx : v.Pending X s x) :
    (v.workerFile X x).Vouches X rootOf v.opts
      (fun y s' => Reached X rootOf s s' ∧ Sourced X rootOf v.opts s.world.db s' y) (Reached X rootOf s) s := by
  obtain ⟨p, pending⟩ := x
  refine .tryCatch (.bind ((holdsOn_readFile _ hsha p hs).mono ?_ fun s' h => .pure ⟨h, trivial⟩))
  rintro _ s₁ ⟨hs₁, f, hf, rfl, -⟩
  refine .bind ((HoldsOn.from hs₁ (holdsOn_statFile _ hsha p hs₁.vouched)).mono ?_
    fun s' h => .pure ⟨h, trivial⟩)
  rintro m s₂ ⟨hs₂, hstep, -, hfull⟩
  have hf₂ := hstep.later.versionsRead p hf
  refine .pure ⟨hs₂, sourced_extractContent ?_⟩
  have hpending := hx.later hs₂.later
  cases pending with
  | none => exact readAs_readHash hroot hf₂ (hfull hpending f hf)
  | some u =>
    -- the main thread and the worker have read one version
    obtain ⟨hpath, g, hg, hhash, hv⟩ := hpending
    obtain rfl : g = f := hs₂.vouched.agree p g hg f hf₂
    refine ⟨hhash, p, ?_, ⟨g, hg, rfl⟩, hv⟩
    rw [hroot]
    exact hpath

/-- **The extraction by workers.** -/
theorem Survey.holdsOn_indexParallel (hs : Vouched X rootOf s) (hdiscovered : Reported v.discovery s) :
    (v.indexParallel X).Keeps X rootOf v.opts s := by
  have hmeta : (v.bulkMeta : IndexM φ χ δ _).Vouches X rootOf v.opts
      (fun _ s' => Reached X rootOf s s') (Reached X rootOf s) s := by
    unfold Survey.bulkMeta
    split
    · exact (holdsOn_query _ hsha .loadBulkHashMeta hs).mono (fun _ _ h => h.1) fun _ h => h
    · exact .pure (.refl hs)
  refine .bind (hmeta.mono ?_ fun _ h => h.vouched)
  intro bulkMeta s₁ hs₁
  refine .bind ((HoldsOn.collect (P := v.SkipSourced X rootOf s.world.db) hs₁.vouched
    (fun _ _ _ hlater h => h.later hlater) fun p _ s₂ hs₂ => ?_).mono ?_ fun _ h => h.vouched)
  · refine (v.holdsOn_skipPass hsha hroot hs₂.vouched
      (hdiscovered.later (hs₁.later.trans hs₂.later)) bulkMeta).mono ?_ fun _ h => h
    rintro x s₃ ⟨hs₃, hx⟩
    rw [hs₂.db, hs₁.db] at hx
    exact ⟨hs₃, hx⟩
  rintro os s₂ ⟨hs₂, hos⟩
  have hs₂' := hs₁.trans hs₂
  have hmetadata : ∀ u ∈ SkipOutcome.hashUpdates os, v.opts.incremental = true ∧
      Restored X rootOf v.opts.root.fingerprint s.world.db s₂ u := by
    intro u hu
    obtain ⟨x, hx, hxu⟩ := mem_filterMap.mp hu
    cases x <;> cases hxu
    exact hos _ hx
  have hindex : ∀ x ∈ SkipOutcome.toIndex os, v.Pending X s₂ x := by
    intro x hx
    obtain ⟨o, ho, hox⟩ := mem_filterMap.mp hx
    cases o <;> cases hox
    exact hos _ ho
  split
  · refine .bind ?_
    unfold executeIf
    split
    · refine .bind ((holdsOn_execute hsha hs₂'.vouched ?_).mono (fun _ _ h => .pure (.pure h))
        fun _ h => h)
      refine accounted_metadata hsha hs₂'.vouched.agree hs₂'.vouched.coherent fun u hu => ?_
      rw [hs₂'.db]
      exact (hmetadata u hu).2
    · exact .pure (.pure hs₂'.vouched)
  have hscoped : (scopedFiles v.opts.incremental (SkipOutcome.changed os) : IndexM φ χ δ _).Vouches X rootOf v.opts (fun _ => Reached X rootOf s₂) (Reached X rootOf s₂) s₂ := by
    unfold scopedFiles
    split
    · exact .bind ((holdsOn_query _ hsha _ hs₂'.vouched).mono (fun _ _ h => .pure h.1) fun _ h => h)
    · exact .pure (.refl hs₂'.vouched)
  refine .bind (hscoped.mono ?_ fun _ h => h.vouched)
  intro scope s₃ hs₃
  refine .bind ((HoldsOn.from hs₃ (holdsOn_query _ hsha .selectProject hs₃.vouched)).mono ?_
    fun _ h => h.vouched)
  rintro row s₄ ⟨hs₄, -⟩
  refine .bind ((HoldsOn.collect (P := Sourced X rootOf v.opts s.world.db) hs₄.vouched
    (fun _ _ _ hlater h => h.later hlater) fun x hx s₅ hs₅ => ?_).mono ?_ fun _ h => h.vouched)
  · refine (v.holdsOn_workerFile hsha hroot hs₅.vouched
      ((hindex x hx).later (hs₄.later.trans hs₅.later))).mono ?_ fun _ h => h
    rintro y s₆ ⟨hs₆, hy⟩
    rw [hs₅.db, hs₄.db, hs₂'.db] at hy
    exact ⟨hs₆, hy⟩
  · rintro rs s₅ ⟨hs₅, hrs⟩
    have hdb := (hs₄.trans hs₅).db.trans hs₂'.db
    refine .bind ((holdsOn_execute hsha hs₅.vouched ?_).mono (fun _ _ h => .pure h) fun _ h => h)
    refine accounted_streamingTx hsha hs₅.vouched.agree hs₅.vouched.coherent (fun u hu => ?_)
      fun u hu => ?_
    · obtain ⟨x, hx, hxu⟩ := mem_filterMap.mp hu
      cases x <;> cases hxu
      exact hrs _ hx
    · rw [hdb]
      exact ⟨(hmetadata u hu).1, (hmetadata u hu).2.later (hs₄.trans hs₅).later⟩

/-! ## The whole run -/

omit hsha hroot [DecidableEq δ] in
theorem Reported.after {d : Discovery} (h : Reported d s) : Reported d (s.after X o ch) := by
  intro p st hst
  rw [IndexState.after, IndexState.seenTimes_step]
  exact mem_append_right _ (h p st hst)

omit hroot [DecidableEq δ] in
/-- What only thins out the rows keeps what the stored times stand for. -/
theorem holdsOn_thins {m : IndexM φ χ δ α} {P : IndexState φ χ δ → Prop} (hm : m.Only IndexOp.Thins)
    (hP : ∀ s o ch, P s → P (s.after X o ch)) (hs : Vouched X rootOf s) (hp : P s) :
    m.Vouches X rootOf opts (fun _ s => Vouched X rootOf s ∧ P s)
      (fun s => Vouched X rootOf s ∧ P s) s := by
  refine HoldsOn.weaken (I := fun s => Vouched X rootOf s ∧ P s) ?_ fun _ h => h.1
  refine .only hm (fun o ch s ho h hA => ⟨?_, hP s o ch h.2⟩) ⟨hs, hp⟩
  exact h.1.after_thins hsha hA ho

omit hroot [DecidableEq δ] in
theorem holdsOn_vouched {m : IndexM φ χ δ α} (hm : m.Only IndexOp.Thins) (hs : Vouched X rootOf s) :
    m.Keeps X rootOf opts s :=
  (holdsOn_thins (P := fun _ => True) hsha hm (fun _ _ _ h => h) hs trivial).mono (fun _ _ h => h.1)
    fun _ h => h.1

omit hsha hroot [DecidableEq φ] [DecidableEq δ] in
theorem Survey.endKind_thins : v.EndKind (IndexOp.Thins (χ := χ) (δ := δ)) where
  reads := fun _ h => h.thins
  markStale := fun _ => trivial
  premark := trivial
  noOpTx := fun _ _ _ _ _ => trivial
  cleanupTx := fun _ _ _ => trivial
  updateProjectStats := fun _ _ _ => trivial
  commit := fun _ _ => trivial
  deleteTx := fun _ _ => trivial
  publish := trivial

theorem Survey.holdsOn_mainPath (hs : Vouched X rootOf s) (hdiscovered : Reported v.discovery s)
    (useParallel : Bool) (hfull : v.opts.incremental = false → useParallel = false →
      ∀ p, s.world.db.Absent p) (deleted : List RelPath) :
    (v.mainPath X useParallel deleted).Keeps X rootOf v.opts s := by
  have hextract : (v.extract X useParallel).Keeps X rootOf v.opts s := by
    cases useParallel
    · exact v.holdsOn_extractFromFilesWasm hsha hroot hs fun hinc => hfull hinc rfl
    · exact v.holdsOn_indexParallel hsha hroot hs hdiscovered
  refine .bind (.attempt (hextract.mono (fun result s hs => ?_) fun s hs => ?_))
  · exact holdsOn_vouched hsha (only_extracted v.endKind_thins deleted result) hs
  · exact holdsOn_vouched hsha (only_crashed (fun _ => trivial) _) hs

/-- **A run that was not refused.** -/
theorem Survey.holdsOn_index (hs : Vouched X rootOf s) (hdiscovered : Reported v.discovery s) :
    (v.index X).Keeps X rootOf v.opts s := by
  have hkind := v.endKind_thins (χ := χ) (δ := δ)
  have hthins : ∀ {β : Type} {m : IndexM φ χ δ β} {s : IndexState φ χ δ}, m.Only IndexOp.Thins →
      Vouched X rootOf s → Reported v.discovery s →
      m.Vouches X rootOf v.opts
        (fun _ s => Vouched X rootOf s ∧ Reported v.discovery s) (Vouched X rootOf) s :=
    fun hm hs hd => (holdsOn_thins hsha hm (fun _ _ _ h => h.after) hs hd).mono (fun _ _ h => h)
      fun _ h => h.1
  refine .bind ((hthins (.perform hkind.premark) hs hdiscovered).mono ?_ fun _ h => h)
  rintro _ s₁ ⟨hs₁, hd₁⟩
  refine .bind ((hthins (v.only_estimatedFilesToIndex hkind.reads) hs₁ hd₁).mono ?_ fun _ h => h)
  rintro estimated s₂ ⟨hs₂, hd₂⟩
  have hclear : (executeIf (!v.opts.incremental && !decide (1 < v.opts.workers ∧ 20 < estimated))
      .clearProjectData : IndexM φ χ δ PUnit).Vouches X rootOf v.opts
      (fun _ s => Vouched X rootOf s ∧ Reported v.discovery s ∧ (v.opts.incremental = false →
        decide (1 < v.opts.workers ∧ 20 < estimated) = false → ∀ p, s.world.db.Absent p))
      (Vouched X rootOf) s₂ := by
    unfold executeIf
    split
    · refine .bind (.perform hs₂ ?_ fun ch b hA hb => .pure ⟨?_, hd₂.after, fun _ _ p => ?_⟩)
      · exact fun ch hA => hs₂.after_thins hsha hA trivial
      · exact hs₂.after_thins hsha hA trivial
      · have hdb : (s₂.after X (.write .clearProjectData) ch).world.db =
            s₂.world.db.clearProjectData := by
          show (IndexOp.exec X (.write .clearProjectData) ch s₂.world).2.db = _
          unfold IndexOp.exec at hb ⊢
          split at hb
          · cases hb
          · rw [if_neg ‹_›]
            rfl
        rw [hdb]
        exact ⟨rfl, fun _ => rfl⟩
    · rename_i hcond
      refine .pure ⟨hs₂, hd₂, fun hinc hpar => absurd ?_ hcond⟩
      rw [hinc, hpar]
      rfl
  refine .bind (hclear.mono ?_ fun _ h => h)
  rintro _ s₃ ⟨hs₃, hd₃, habsent⟩
  have hdeleted : (v.readDeletedRelPaths : IndexM φ χ δ _).Vouches X rootOf v.opts (fun _ s => Vouched X rootOf s ∧ Reported v.discovery s ∧
        (v.opts.incremental = false → decide (1 < v.opts.workers ∧ 20 < estimated) = false →
          ∀ p, s.world.db.Absent p)) (Vouched X rootOf) s₃ := by
    unfold Survey.readDeletedRelPaths
    split
    · rename_i hinc
      refine .bind ((holdsOn_query _ hsha .selectIndexedPaths hs₃).mono (fun _ s h => .pure ?_)
        fun _ h => h.vouched)
      exact ⟨h.1.vouched, hd₃.later h.1.later, fun hfull => absurd (hinc.symm.trans hfull) (by simp)⟩
    · exact .pure ⟨hs₃, hd₃, habsent⟩
  refine .bind (hdeleted.mono ?_ fun _ h => h)
  rintro deleted s₄ ⟨hs₄, hd₄, habsent⟩
  split
  · split
    · exact holdsOn_vouched hsha (only_noOpPath hkind.toFastKind) hs₄
    · exact holdsOn_vouched hsha (only_deletionOnlyPath hkind.toFastKind deleted) hs₄
  · exact v.holdsOn_mainPath hsha hroot hs₄ hd₄ _ habsent deleted

end

/-- The run behind the gates on the root. -/
theorem Survey.holdsOn_admitted (hsha : Function.Injective X.sha256)
    (hroot : rootOf v.opts.root.fingerprint = v.rootPath) (hs : Vouched X rootOf s)
    (hdiscovered : Reported v.discovery s) :
    (v.admitted X).Keeps X rootOf v.opts s := by
  unfold Survey.admitted
  split
  · split
    · exact holdsOn_vouched hsha (v.only_rootChangedRefusal (fun _ h => h.thins) (fun _ => trivial) _) hs
    · exact v.holdsOn_index hsha hroot hs hdiscovered
  · split
    · exact holdsOn_vouched hsha (v.only_rootIdentityUnknownRefusal (fun _ h => h.thins) fun _ => trivial)
        hs
    · exact v.holdsOn_index hsha hroot hs hdiscovered

/-- **One run.** -/
theorem holdsOn_indexProjectWasm (hsha : Function.Injective X.sha256)
    (hroot : rootOf opts.root.fingerprint = opts.root.path) (hs : Vouched X rootOf s) :
    (indexProjectWasm X opts).Keeps X rootOf opts s := by
  have hrefused : ∀ (r : IndexResult) (s : IndexState φ χ δ), Vouched X rootOf s →
      (do markProjectStalePreservingGraph; pure r : IndexM φ χ δ IndexResult).Keeps X rootOf opts s :=
    fun r s hs => holdsOn_vouched hsha (.bind (only_markProjectStalePreservingGraph (fun _ h => h.thins)
      fun _ => trivial) fun _ => .pure _) hs
  have hreads : ∀ {β : Type} {m : IndexM φ χ δ β} {d : Discovery} {s : IndexState φ χ δ},
      m.Only IndexOp.Thins → Vouched X rootOf s → Reported d s →
      m.Vouches X rootOf opts
        (fun _ s => Vouched X rootOf s ∧ Reported d s) (Vouched X rootOf) s :=
    fun hm hs hd => (holdsOn_thins hsha hm (fun _ _ _ h => h.after) hs hd).mono (fun _ _ h => h)
      fun _ h => h.1
  refine .bind (.attempt ((holdsOn_vouched hsha
    (.perform (o := .assertDiscoveryRoot opts.root.path) trivial) hs).mono (fun _ s₁ hs₁ => ?_)
    fun s hs => hrefused _ s hs))
  refine .bind (.attempt (.perform hs₁ (fun ch hA => hrefused _ _ ?_) fun ch discovery hA hd => ?_))
  · exact hs₁.after_thins hsha hA trivial
  have hs₂ : Vouched X rootOf (s₁.after X (.discoverSourceFiles opts.cfg opts.root.path) ch) :=
    hs₁.after_thins hsha hA trivial
  have hreported : Reported discovery
      (s₁.after X (.discoverSourceFiles opts.cfg opts.root.path) ch) := by
    intro p st hst
    rw [IndexState.after, IndexState.seenTimes_step, hd]
    refine mem_append_left _ (mem_append_right _ ?_)
    exact mem_map_of_mem (Option.mem_toList.mpr hst)
  refine .bind ((hreads (.query (fun _ h => h.thins) _) hs₂ hreported).mono ?_ fun _ h => h)
  rintro history s₃ ⟨hs₃, hd₃⟩
  split
  · exact hrefused _ s₃ hs₃
  refine .bind ((hreads (.query (fun _ h => h.thins) _) hs₃ hd₃).mono ?_ fun _ h => h)
  rintro bootstrap s₄ ⟨hs₄, hd₄⟩
  refine .bind ((hreads (only_existsAny (fun _ h => h.thins) _) hs₄ hd₄).mono ?_ fun _ h => h)
  rintro hasData s₅ ⟨hs₅, hd₅⟩
  dsimp only
  split
  · exact hrefused _ s₅ hs₅
  refine .bind ((hreads (only_readProjectState (fun _ h => h.thins) opts) hs₅ hd₅).mono ?_ fun _ h => h)
  rintro row s₆ ⟨hs₆, hd₆⟩
  exact Survey.holdsOn_admitted (v := ⟨opts, discovery, ⟨[], history, bootstrapComplete bootstrap, hasData⟩,
    row⟩) hsha hroot hs₆ hd₆

end

end

/-! ## Run after run -/

/-- **What is skipped has the rows of its text**: where an incremental run of a root is let in, a file
whose metadata or whose digest are the stored ones has the rows of the text that it has. -/
def SkipSound (X : Extractor φ χ δ) (rootOf : φ → AbsPath) (s : IndexState φ χ δ) : Prop :=
  ∀ root, s.world.db.fingerprint = some root → ∀ p f h, s.world.disk p = some f →
    s.world.db.hashOf (relative (rootOf root) p) = some h →
    (fastSkippable (some h) ⟨f.mtimeNs, f.size⟩ = true ∨ h.contentHash = X.sha256 f.content) →
    s.world.db.RowsOf X (relative (rootOf root) p) f.content

section

variable {rootOf : φ → AbsPath} {s s₀ : IndexState φ χ δ}

theorem Vouched.skipSound (hsha : Function.Injective X.sha256) (h : Vouched X rootOf s)
    (hone : s.world.db.OneRoot) : SkipSound X rootOf s := by
  intro root hroot p f e hf he hskip
  have hmem : e ∈ s.world.db.fileHashes := mem_of_find?_eq_some he
  obtain rfl : e.root = root := hone.identity root hroot e.root (.inr (.inl ⟨e, hmem, rfl⟩))
  obtain ⟨c, hc⟩ := h.coherent.stored he
  rcases hskip with hskip | hdigest
  · rw [fastSkippable, Bool.and_eq_true, decide_eq_true_eq] at hskip
    rw [(h.vouches p e c f.mtimeNs hc hskip.1).content f hf rfl]
    exact hc.rows
  · obtain rfl : c = f.content := hsha (hc.digest.symm.trans hdigest)
    exact hc.rows

theorem CodeDb.coherent_of_empty (h : db.hasGraphData = false) : db.Coherent X := by
  intro p
  refine .inl ⟨?_, fun t => ?_⟩
  · rw [CodeDb.hashOf, find?_eq_none]
    intro e he
    exact absurd (.inr (.inl ⟨e, he, rfl⟩)) (db.no_root_of_empty h e.root)
  · rw [CodeDb.rowsOf, filter_eq_nil_iff]
    intro r hr
    exact absurd (.inl ⟨t, r, hr, rfl⟩) (db.no_root_of_empty h r.root)

theorem CodeDb.oneRoot_of_empty (h : db.hasGraphData = false) : db.OneRoot where
  unmixed := fun r _ hr => absurd hr (db.no_root_of_empty h r)
  identity := fun _ _ r hr => absurd hr (db.no_root_of_empty h r)

variable [DecidableEq φ] [DecidableEq δ]

/-- **Skipping is sound** in every state of every sequence of undisturbed runs, between the runs and
wherever a run is killed. -/
theorem fastSkip {runs : List (IndexOptions φ × Option (Except IndexFault IndexResult × PUnit))}
    (hsha : Function.Injective X.sha256) (hempty : s₀.world.db.hasGraphData = false)
    (hnew : s₀.trace = []) (hroots : ∀ run ∈ runs, rootOf run.1.root.fingerprint = run.1.root.path)
    (h : Sequence (indexMachine X).traced 0 (fun opts => indexProjectWasm X opts ⟨⟩) undisturbed
      EditedBetween s₀ runs s) : SkipSound X rootOf s := by
  have hvouched : Vouched X rootOf s₀ := by
    refine ⟨CodeDb.coherent_of_empty hempty, fun p f hf => ?_, fun p e c m hs => ?_⟩
    · rw [IndexState.versionsRead, IndexState.current, hnew] at hf
      cases hf
    · have hmem := mem_of_find?_eq_some hs.hash
      exact absurd (.inr (.inl ⟨e, hmem, rfl⟩)) (s₀.world.db.no_root_of_empty hempty e.root)
  suffices hs : Vouched X rootOf s ∧ s.world.db.OneRoot from hs.1.skipSound hsha hs.2
  refine h.invariant_of (I := fun s => Vouched X rootOf s ∧ s.world.db.OneRoot)
    (C := fun opts => rootOf opts.root.fingerprint = opts.root.path) hroots
    ⟨hvouched, CodeDb.oneRoot_of_empty hempty⟩ ?_ ?_ ?_
  · rintro opts s hroot ⟨hs, hone⟩
    have hskip := holdsOn_indexProjectWasm hsha hroot hs
    have hkept := oneRoot_indexProjectWasm (X := X) opts hone
    have hallowed : ∀ o ch (s : IndexState φ χ δ), undisturbed opts o ch s → rootKept o ch s.world :=
      fun _ _ _ hA => hA.2.2
    refine Prog.Throughout.mono (Prog.Throughout.and hskip (hkept.traced hallowed)) ?_
    rintro ⟨e | r, l⟩ s' hs'
    · exact hs'
    · exact hs'
  · rintro s s' ⟨hs, hone⟩ he
    refine ⟨hs.edited hsha he, ?_⟩
    obtain ⟨writes, -, rfl⟩ := he
    exact hone
  · rintro s ⟨hs, hone⟩
    exact ⟨hs.killed hsha, hone⟩

end

/-! ## A file that is written behind its read -/

section

variable {s : IndexState φ χ δ}

instance (writes : List (AbsPath × Option (SourceFile χ))) : Decidable (s.Fresh writes) :=
  inferInstanceAs (Decidable (∀ x ∈ writes, ∀ f ∈ x.2, f.mtimeNs ∉ s.seenTimes x.1))

instance [DecidableEq χ] (incremental : Bool) (disk : AbsPath → Option (SourceFile χ)) :
    (o : IndexOp φ χ δ) → Decidable (s.Steady incremental disk o)
  | .readFile p => inferInstanceAs (Decidable (∀ f ∈ s.versionsRead p, disk p = some f))
  | .statFile p =>
    inferInstanceAs (Decidable (incremental = false → ∀ f ∈ s.versionsRead p, disk p = some f))
  | .assertDiscoveryRoot _ => isTrue trivial
  | .discoverSourceFiles _ _ => isTrue trivial
  | .read _ => isTrue trivial
  | .write _ => isTrue trivial
  | .publishGenerationSnapshot => isTrue trivial

instance [DecidableEq φ] [DecidableEq χ] (opts : IndexOptions φ) (o : IndexOp φ χ δ)
    (ch : IndexChoice χ) : Decidable (undisturbed opts o ch s) :=
  inferInstanceAs (Decidable (_ ∧ _ ∧ _))

end

/-- Nothing is indexed, and nothing has happened. -/
def unindexedState : IndexState ℕ ℕ ℕ := ⟨unindexedWorld, []⟩

/-- A run in which nothing fails; `writes` says what is written before an operation. -/
def editedChoice (writes : IndexOp ℕ ℕ ℕ → List (AbsPath × Option (SourceFile ℕ)))
    (o : IndexOp ℕ ℕ ℕ) (_ : IndexState ℕ ℕ ℕ) : IndexChoice ℕ :=
  ⟨false, writes o, shown true, 2⟩

def editedRun (incremental : Bool) (writes : IndexOp ℕ ℕ ℕ → List (AbsPath × Option (SourceFile ℕ)))
    (s : IndexState ℕ ℕ ℕ) : (Except IndexFault IndexResult × PUnit) × IndexState ℕ ℕ ℕ :=
  (indexProjectWasm plainExtractor (wholeRoot incremental false 1) ⟨⟩).follow
    (indexMachine plainExtractor).traced 0 (editedChoice writes) s

/-- The file is written between the read and the `stat` of a full run. -/
def writtenBehind : IndexOp ℕ ℕ ℕ → List (AbsPath × Option (SourceFile ℕ))
  | .statFile p => [(p, some ⟨8, 2, 1⟩)]
  | _ => []

/-- The writes are fresh. -/
def freshWrites (_ : IndexOptions ℕ) (_ : IndexOp ℕ ℕ ℕ) (ch : IndexChoice ℕ) (s : IndexState ℕ ℕ ℕ) :
    Prop := s.Fresh ch.writes

instance (opts : IndexOptions ℕ) (o : IndexOp ℕ ℕ ℕ) (ch : IndexChoice ℕ) (s : IndexState ℕ ℕ ℕ) :
    Decidable (freshWrites opts o ch s) := inferInstanceAs (Decidable (s.Fresh ch.writes))

/-- **The rows of the old text under the metadata of the new one.** -/
theorem writtenBehind_not_sound : ¬∀ (runs : List (IndexOptions ℕ × Option (Except IndexFault IndexResult × PUnit)))
      (s : IndexState ℕ ℕ ℕ),
      Sequence (indexMachine plainExtractor).traced 0 (fun opts => indexProjectWasm plainExtractor opts ⟨⟩)
        freshWrites EditedBetween unindexedState runs s → SkipSound plainExtractor (fun _ => []) s := by
  intro h
  have hsound : SkipSound plainExtractor (fun _ => []) (editedRun false writtenBehind unindexedState).2 :=
    h _ _ (.run (c := wholeRoot false false 1) .start
      (Prog.follow_leads_of_allows _ _ (editedChoice writtenBehind) _ _ (by decide +kernel)))
  have hfp : (editedRun false writtenBehind unindexedState).2.world.db.fingerprint = some 1 := by
    decide +kernel
  have hdisk : (editedRun false writtenBehind unindexedState).2.world.disk Discovery.linkedFile =
      some ⟨8, 2, 1⟩ := by decide +kernel
  have hhash : (editedRun false writtenBehind unindexedState).2.world.db.hashOf ["a.ts"] =
      some ⟨["a.ts"], 7, some 2, 1, 1⟩ := by decide +kernel
  have hrows : (editedRun false writtenBehind unindexedState).2.world.db.rowsOf .nodes ["a.ts"] =
      [⟨["a.ts"], 1, 7⟩] := by decide +kernel
  have hcontent := hsound 1 hfp Discovery.linkedFile ⟨8, 2, 1⟩ ⟨["a.ts"], 7, some 2, 1, 1⟩ hdisk hhash
    (.inl (by decide))
  exact absurd (hcontent.content .nodes ⟨["a.ts"], 1, 7⟩ (by
    show _ ∈ CodeDb.rowsOf _ _ ["a.ts"]
    rw [hrows]
    exact mem_singleton_self _)).1 (by decide)

/-- The file is indexed, written, and indexed again. -/
theorem fastSkip_indexed : SkipSound plainExtractor (fun _ => []) (editedRun true (fun _ => [])
      ⟨(editedRun false (fun _ => []) unindexedState).2.world.edited [(Discovery.linkedFile, some ⟨8, 2, 1⟩)],
        (editedRun false (fun _ => []) unindexedState).2.trace⟩).2 := by
  have hinj : Function.Injective plainExtractor.sha256 := Function.injective_id
  refine fastSkip hinj rfl rfl ?_
    (.run (c := wholeRoot true false 1) (.between (.run (c := wholeRoot false false 1) .start
      (Prog.follow_leads_of_allows _ _ (editedChoice fun _ => []) _ _ (by decide +kernel)))
      ⟨[(Discovery.linkedFile, some ⟨8, 2, 1⟩)], by decide +kernel, rfl⟩)
      (Prog.follow_leads_of_allows _ _ (editedChoice fun _ => []) _ _ (by decide +kernel)))
  intro run hrun
  rcases mem_cons.mp hrun with rfl | hrun
  · rfl
  · rw [mem_singleton.mp hrun]
    rfl

end Ariad
