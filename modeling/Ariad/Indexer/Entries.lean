import Ariad.Indexer.CodeDbLaws

/-!
# What is stored of a file

A file is absent from the tables, or stored with the rows of one text and the digest of that text.

* `CodeDb.Absent`, `CodeDb.Stored` — the two cases.
* `CodeDb.Coherent` — every file is one or the other.
* `CodeDb.SameAt` — a write that does not touch a file.
-/

namespace Ariad

open List

variable {φ χ δ : Type} {X : Extractor φ χ δ} {db db' db'' : CodeDb φ χ δ} {p q : RelPath} {c : χ}
  {h : FileHash φ δ}

namespace CodeDb

/-- The rows of the file are those of the text, and no others. -/
structure RowsOf (X : Extractor φ χ δ) (db : CodeDb φ χ δ) (p : RelPath) (c : χ) : Prop where
  content : ∀ t, ∀ r ∈ db.rowsOf t p, r.content = c ∧ X.yields t p c = true
  present : ∀ t, X.yields t p c = true → db.rowsOf t p ≠ []

/-- Nothing is stored of the file. -/
structure Absent (db : CodeDb φ χ δ) (p : RelPath) : Prop where
  hash : db.hashOf p = none
  rows : ∀ t, db.rowsOf t p = []

/-- The file is stored with the rows of the text. -/
structure Stored (X : Extractor φ χ δ) (db : CodeDb φ χ δ) (p : RelPath) (h : FileHash φ δ) (c : χ) :
    Prop where
  hash : db.hashOf p = some h
  rows : db.RowsOf X p c
  digest : h.contentHash = X.sha256 c

/-- Every file is absent, or stored with the rows of one text. -/
def Coherent (X : Extractor φ χ δ) (db : CodeDb φ χ δ) : Prop :=
  ∀ p, db.Absent p ∨ ∃ h c, db.Stored X p h c

/-- The same is stored of the file. -/
structure SameAt (db db' : CodeDb φ χ δ) (p : RelPath) : Prop where
  hash : db'.hashOf p = db.hashOf p
  rows : ∀ t, db'.rowsOf t p = db.rowsOf t p

namespace SameAt

variable {paths : List RelPath}

theorem refl (db : CodeDb φ χ δ) (p : RelPath) : SameAt db db p := ⟨rfl, fun _ => rfl⟩

theorem trans (h : SameAt db db' p) (h' : SameAt db' db'' p) : SameAt db db'' p :=
  ⟨h'.hash.trans h.hash, fun t => (h'.rows t).trans (h.rows t)⟩

theorem of_rows (htable : db'.table = db.table) (hhashes : db'.fileHashes = db.fileHashes) : SameAt db db' p where
  hash := by rw [hashOf, hashOf, hhashes]
  rows := fun t => by rw [rowsOf, rowsOf, htable]

theorem absent (hsame : SameAt db db' p) (h : db.Absent p) : db'.Absent p :=
  ⟨hsame.hash.trans h.hash, fun t => (hsame.rows t).trans (h.rows t)⟩

theorem stored (hsame : SameAt db db' p) (hs : db.Stored X p h c) : db'.Stored X p h c where
  hash := hsame.hash.trans hs.hash
  rows := by
    refine ⟨fun t => ?_, fun t => ?_⟩
    · rw [hsame.rows]
      exact hs.rows.content t
    · rw [hsame.rows]
      exact hs.rows.present t
  digest := hs.digest

end SameAt

/-- A file that is stored has the text that its rows are of. -/
theorem Stored.inj {h' : FileHash φ δ} {c' : χ} (hsha : Function.Injective X.sha256)
    (hs : db.Stored X p h c) (hs' : db.Stored X p h' c') : h = h' ∧ c = c' := by
  obtain rfl : h = h' := Option.some.inj (hs.hash.symm.trans hs'.hash)
  exact ⟨rfl, hsha (hs.digest.symm.trans hs'.digest)⟩

theorem Coherent.stored (hdb : db.Coherent X) (hh : db.hashOf p = some h) : ∃ c, db.Stored X p h c := by
  rcases hdb p with habsent | ⟨h', c, hs⟩
  · cases hh.symm.trans habsent.hash
  · cases hh.symm.trans hs.hash
    exact ⟨c, hs⟩

/-- Edges inside a file come with nodes. -/
theorem Coherent.edges (hdb : db.Coherent X) (hnodes : db.rowsOf .nodes p = []) : db.rowsOf .edges p = [] := by
  rcases hdb p with habsent | ⟨h, c, hs⟩
  · exact habsent.rows .edges
  · by_contra hne
    obtain ⟨r, hr⟩ := exists_mem_of_ne_nil _ hne
    exact hs.rows.present .nodes (X.yields_edges p c (hs.rows.content .edges r hr).2) hnodes

/-! ## Writes -/

theorem find_filter {P : RelPath → Prop} [DecidablePred P] (hs : List (FileHash φ δ)) (hp : P p) :
    (hs.filter fun h => P h.path).find? (fun h => h.path = p) = hs.find? fun h => h.path = p := by
  rw [find?_filter]
  congr 1
  funext h
  by_cases hpath : h.path = p
  · simp [hpath, hp]
  · simp [hpath]

theorem hashOf_upsertHash (u : FileHash φ δ) : (db.upsertHash u).hashOf u.path = some u := by
  have hnone : (db.fileHashes.filter fun h => h.path ≠ u.path).find? (fun h => h.path = u.path) =
      none := by
    rw [find?_eq_none]
    intro h hh
    simpa using (mem_filter.mp hh).2
  rw [hashOf, upsertHash, find?_append, hnone]
  simp

theorem hashOf_upsertHash_ne {u : FileHash φ δ} (hne : p ≠ u.path) : (db.upsertHash u).hashOf p = db.hashOf p := by
  rw [hashOf, upsertHash, find?_append, find_filter (P := fun q => q ≠ u.path) db.fileHashes hne]
  simp [hashOf, hne.symm]

theorem sameAt_upsertHash {u : FileHash φ δ} (hne : p ≠ u.path) : SameAt db (db.upsertHash u) p :=
  ⟨hashOf_upsertHash_ne hne, fun _ => rfl⟩

/-- The hash of a file is written anew. -/
theorem Stored.upsertHash {u : FileHash φ δ} (hs : db.RowsOf X u.path c)
    (hdigest : u.contentHash = X.sha256 c) : (db.upsertHash u).Stored X u.path u c where
  hash := hashOf_upsertHash u
  rows := ⟨hs.content, hs.present⟩
  digest := hdigest

theorem hashOf_deleteHashes : (db.deleteHashes paths).hashOf p = if p ∈ paths then none else db.hashOf p := by
  split
  · rename_i hp
    rw [hashOf, deleteHashes, find?_eq_none]
    intro h hh
    have hnot := (mem_filter.mp hh).2
    simp only [decide_eq_true_eq] at hnot ⊢
    rintro rfl
    exact hnot hp
  · rename_i hp
    exact find_filter (P := fun q => q ∉ paths) db.fileHashes hp

theorem rowsOf_filter {P : RelPath → Prop} [DecidablePred P] (rs : List (ExtractedRows φ χ)) :
    ((rs.filter fun r => P r.path).filter fun r => r.path = p) = if P p then rs.filter fun r => r.path = p else [] := by
  rw [filter_filter]
  split
  · rename_i hp
    congr 1
    funext r
    by_cases hpath : r.path = p
    · simp [hpath, hp]
    · simp [hpath]
  · rename_i hp
    rw [filter_eq_nil_iff]
    intro r _ hr
    rw [Bool.and_eq_true, decide_eq_true_eq, decide_eq_true_eq] at hr
    exact hp (hr.1 ▸ hr.2)

theorem rowsOf_deleteNodes (t : FileTable) : (db.deleteNodes paths).rowsOf t p = match t with
    | .nodes => if p ∉ paths then db.rowsOf .nodes p else []
    | .edges => if ¬(p ∈ paths ∧ db.rowsOf .nodes p ≠ []) then db.rowsOf .edges p else [] | t => db.rowsOf t p := by
  cases t with
  | nodes => exact rowsOf_filter (P := fun q => q ∉ paths) _
  | edges => exact rowsOf_filter (P := fun p => ¬(p ∈ paths ∧ db.rowsOf .nodes p ≠ [])) _
  | _ => rfl

theorem rowsOf_deleteBindings (t : FileTable) : (db.deleteBindings paths).rowsOf t p = match t with
    | .nodes => db.rowsOf .nodes p | .edges => db.rowsOf .edges p | t => if p ∉ paths then db.rowsOf t p else [] := by
  cases t with
  | nodes => rfl
  | edges => rfl
  | _ => exact rowsOf_filter (P := fun q => q ∉ paths) _

/-- The nodes and bindings of a file are deleted, and with the nodes its edges. -/
theorem Coherent.rowsOf_delete (hdb : db.Coherent X) (hp : p ∈ paths) (t : FileTable) :
    ((db.deleteNodes paths).deleteBindings paths).rowsOf t p = [] := by
  rw [rowsOf_deleteBindings]
  cases t with
  | nodes => simp only [rowsOf_deleteNodes, if_neg (not_not_intro hp)]
  | edges =>
    simp only [rowsOf_deleteNodes]
    by_cases hnodes : db.rowsOf .nodes p = []
    · rw [if_pos fun h => h.2 hnodes]
      exact hdb.edges hnodes
    · rw [if_neg (not_not_intro ⟨hp, hnodes⟩)]
  | _ => simp only [if_neg (not_not_intro hp)]

theorem rowsOf_delete_ne (hp : p ∉ paths) (t : FileTable) :
    ((db.deleteNodes paths).deleteBindings paths).rowsOf t p = db.rowsOf t p := by
  rw [rowsOf_deleteBindings]
  cases t with
  | nodes => simp only [rowsOf_deleteNodes, if_pos hp]
  | edges => simp only [rowsOf_deleteNodes, if_pos fun h : p ∈ paths ∧ _ => hp h.1]
  | _ => simp only [rowsOf_deleteNodes, if_pos hp]

theorem Coherent.absent_deleteFiles (hdb : db.Coherent X) (hp : p ∈ paths) : (db.deleteFiles paths).Absent p where
  hash := by
    show ((db.deleteNodes paths).deleteHashes paths).hashOf p = none
    rw [hashOf_deleteHashes, if_pos hp]
  rows := hdb.rowsOf_delete hp

theorem sameAt_deleteFiles (hp : p ∉ paths) : SameAt db (db.deleteFiles paths) p where
  hash := by
    show ((db.deleteNodes paths).deleteHashes paths).hashOf p = _
    rw [hashOf_deleteHashes, if_neg hp]
    rfl
  rows := rowsOf_delete_ne hp

/-! ## Files -/

section

variable {incremental : Bool} {root : φ} {u : FileUpdate χ δ}

theorem sameAt_writeFile (hne : p ≠ u.path) : SameAt db (db.writeFile X incremental root u) p := by
  have hadded : ∀ t, ((if X.yields t u.path u.content then [ExtractedRows.mk u.path root u.content]
      else []).filter fun r => r.path = p) = [] := by
    intro t
    split
    · simp [hne.symm]
    · rfl
  have hold : SameAt db
      (if incremental then (db.deleteNodes [u.path]).deleteBindings [u.path] else db) p := by
    split
    · exact ⟨rfl, rowsOf_delete_ne (by simpa using hne)⟩
    · exact .refl db p
  refine ⟨(hashOf_upsertHash_ne (u := u.row root) hne).trans hold.hash, fun t => ?_⟩
  refine .trans ?_ (hold.rows t)
  show (_ ++ _ : List (ExtractedRows φ χ)).filter _ = _
  rw [filter_append, hadded, append_nil]
  rfl

/-- A file is written: a full run adds its rows, and an incremental run puts them in place of the old
ones. -/
theorem Coherent.stored_writeFile (hdb : db.Coherent X) (hhash : u.hash = X.sha256 u.content)
    (hfull : incremental = false → ∀ t, ∀ r ∈ db.rowsOf t u.path,
      r.content = u.content ∧ X.yields t u.path u.content = true) :
    (db.writeFile X incremental root u).Stored X u.path (u.row root) u.content := by
  refine Stored.upsertHash (u := u.row root) ?_ hhash
  have hold : ∀ t, ∀ r ∈ (if incremental then (db.deleteNodes [u.path]).deleteBindings [u.path]
      else db).rowsOf t u.path, r.content = u.content ∧ X.yields t u.path u.content = true := by
    intro t r hr
    split at hr
    · rw [hdb.rowsOf_delete (mem_singleton_self u.path)] at hr
      cases hr
    · rename_i hinc
      exact hfull (Bool.eq_false_iff.mpr hinc) t r hr
  refine ⟨fun t r hr => ?_, fun t ht => ?_⟩
  · obtain ⟨hr, hpath⟩ := mem_filter.mp hr
    rcases mem_append.mp hr with hr | hr
    · exact hold t r (mem_filter.mpr ⟨hr, hpath⟩)
    · split at hr
      · rename_i hyields
        rw [mem_singleton.mp hr]
        exact ⟨rfl, hyields⟩
      · cases hr
  · refine ne_nil_of_mem (a := ExtractedRows.mk u.path root u.content) (mem_filter.mpr ⟨?_, ?_⟩)
    · refine mem_append_right _ ?_
      rw [if_pos (show X.yields t u.path u.content = true from ht)]
      exact mem_singleton_self _
    · exact decide_eq_true rfl

/-- What is stored of a file after some files were written: what was, or what was written of it. -/
def WrittenAt (X : Extractor φ χ δ) (root : φ) (us : List (FileUpdate χ δ)) (db db' : CodeDb φ χ δ)
    (p : RelPath) : Prop :=
  (∀ u ∈ us, u.path ≠ p) ∧ SameAt db db' p ∨
    ∃ u ∈ us, u.path = p ∧ db'.Stored X p (u.row root) u.content

theorem Coherent.of_writtenAt {us : List (FileUpdate χ δ)} (hdb : db.Coherent X)
    (h : ∀ p, WrittenAt X root us db db' p) : db'.Coherent X := by
  intro p
  rcases h p with ⟨-, hsame⟩ | ⟨u, -, -, hs⟩
  · rcases hdb p with habsent | ⟨h, c, hs⟩
    · exact .inl (hsame.absent habsent)
    · exact .inr ⟨h, c, hsame.stored hs⟩
  · exact .inr ⟨_, _, hs⟩

/-- **The files of a run are written**, one after the other. Two updates of one file are of one text; a
full run finds nothing of a file, or the same text. -/
theorem Coherent.writtenAt {us : List (FileUpdate χ δ)} (hdb : db.Coherent X)
    (hhash : ∀ u ∈ us, u.hash = X.sha256 u.content)
    (hagree : ∀ u ∈ us, ∀ u' ∈ us, u.path = u'.path → u.content = u'.content)
    (hfull : incremental = false → ∀ u ∈ us, ∀ t, ∀ r ∈ db.rowsOf t u.path,
      r.content = u.content ∧ X.yields t u.path u.content = true) (p : RelPath) :
    WrittenAt X root us db (us.foldl (writeFile X incremental root) db) p := by
  induction us generalizing db with
  | nil => exact .inl ⟨(fun _ h => nomatch h), .refl db p⟩
  | cons u us ih =>
    have hmem : ∀ {u'}, u' ∈ us → u' ∈ u :: us := mem_cons_of_mem u
    have hu : (db.writeFile X incremental root u).Stored X u.path (u.row root) u.content :=
      hdb.stored_writeFile (hhash u mem_cons_self) fun hinc => hfull hinc u mem_cons_self
    have hdb' : (db.writeFile X incremental root u).Coherent X := by
      suffices h : ∀ q, WrittenAt X root [u] db (db.writeFile X incremental root u) q from
        hdb.of_writtenAt h
      intro q
      by_cases hq : u.path = q
      · subst hq
        exact .inr ⟨u, mem_singleton_self u, rfl, hu⟩
      · exact .inl ⟨by simpa using hq, sameAt_writeFile (Ne.symm hq)⟩
    have hnext : incremental = false → ∀ u' ∈ us, ∀ t,
        ∀ r ∈ (db.writeFile X incremental root u).rowsOf t u'.path,
          r.content = u'.content ∧ X.yields t u'.path u'.content = true := by
      intro hinc u' hu' t r hr
      by_cases hpath : u'.path = u.path
      · rw [hpath] at hr ⊢
        rw [← hagree u mem_cons_self u' (hmem hu') hpath.symm]
        exact hu.rows.content t r hr
      · rw [(sameAt_writeFile hpath).rows] at hr
        exact hfull hinc u' (hmem hu') t r hr
    rcases ih hdb' (fun u' h => hhash u' (hmem h)) (fun a ha b hb => hagree a (hmem ha) b (hmem hb))
      hnext with ⟨hnot, hsame⟩ | ⟨u', hu', hpath, hs⟩
    · by_cases hq : u.path = p
      · subst hq
        exact .inr ⟨u, mem_cons_self, rfl, hsame.stored hu⟩
      · refine .inl ⟨?_, (sameAt_writeFile (Ne.symm hq)).trans hsame⟩
        intro u' hu'
        rcases mem_cons.mp hu' with rfl | hu'
        · exact hq
        · exact hnot u' hu'
    · exact .inr ⟨u', hmem hu', hpath, hs⟩

variable (root) in
/-- **The metadata of files is written** whose text is the stored one. -/
theorem Coherent.upsertHashes_at {us : List (HashUpdate δ)} (hdb : db.Coherent X)
    (hstored : ∀ u ∈ us, ∃ h c, db.Stored X u.path h c ∧ u.hash = X.sha256 c) (p : RelPath) :
    (∀ u ∈ us, u.path ≠ p) ∧ SameAt db (db.upsertHashes root us) p ∨
      ∃ u ∈ us, u.path = p ∧ ∃ c, (db.upsertHashes root us).Stored X p (u.row root) c := by
  induction us generalizing db with
  | nil => exact .inl ⟨(fun _ h => nomatch h), .refl db p⟩
  | cons u us ih =>
    have hmem : ∀ {u'}, u' ∈ us → u' ∈ u :: us := mem_cons_of_mem u
    obtain ⟨h, c, hs, hdigest⟩ := hstored u mem_cons_self
    have hu : (db.upsertHash (u.row root)).Stored X u.path (u.row root) c :=
      Stored.upsertHash (u := u.row root) hs.rows hdigest
    have hsame : ∀ {q}, u.path ≠ q → SameAt db (db.upsertHash (u.row root)) q := fun hq =>
      sameAt_upsertHash (u := u.row root) (Ne.symm hq)
    have hdb' : (db.upsertHash (u.row root)).Coherent X := by
      intro q
      by_cases hq : u.path = q
      · subst hq
        exact .inr ⟨_, _, hu⟩
      · rcases hdb q with habsent | ⟨h, c, hs⟩
        · exact .inl ((hsame hq).absent habsent)
        · exact .inr ⟨h, c, (hsame hq).stored hs⟩
    have hnext : ∀ u' ∈ us, ∃ h c, (db.upsertHash (u.row root)).Stored X u'.path h c ∧
        u'.hash = X.sha256 c := by
      intro u' hu'
      obtain ⟨h', c', hs', hdigest'⟩ := hstored u' (hmem hu')
      by_cases hq : u.path = u'.path
      · rw [← hq] at hs' ⊢
        obtain rfl : h = h' := Option.some.inj (hs.hash.symm.trans hs'.hash)
        exact ⟨_, c, hu, hdigest'.trans (hs'.digest.symm.trans hs.digest)⟩
      · exact ⟨h', c', (hsame hq).stored hs', hdigest'⟩
    rcases ih hdb' hnext with ⟨hnot, hrest⟩ | ⟨u', hu', hpath, hs'⟩
    · by_cases hq : u.path = p
      · subst hq
        exact .inr ⟨u, mem_cons_self, rfl, c, hrest.stored hu⟩
      · refine .inl ⟨?_, (hsame hq).trans hrest⟩
        intro u' hu'
        rcases mem_cons.mp hu' with rfl | hu'
        · exact hq
        · exact hnot u' hu'
    · exact .inr ⟨u', hmem hu', hpath, hs'⟩

end

end CodeDb

end Ariad
