import Ariad.Human.TextIndex

/-!
# When the search sees every note

* `Coherent` — the index is that of the notes.
* `runNoteCalls_coherent` — calls keep it coherent: the triggers do what they are for.
* `search_complete` — with a coherent index the search returns every note that has all terms.
* `searchIndex_coherent_iff` — after a migration from before the index, the index is coherent exactly if
  there were no notes.
-/

namespace Ariad.Human

open Text Ariad.Rows List

variable {fts : FullText} {host : Host} {s : IndexedDb}

/-! ## The index and the notes -/

/-- The index holds every note with its texts, and nothing else. -/
def Coherent (fts : FullText) (s : IndexedDb) : Prop := Derived fts.entry s.db.nodes s.index

theorem NoteCall.run_coherent (hw : s.db.WellFormed) (h : Coherent fts s) (call : NoteCall) :
    (call.run fts host s).db.WellFormed ∧ Coherent fts (call.run fts host s) := by
  cases call with
  | createNode input now =>
    rw [NoteCall.run]
    cases hc : Human.createNode host input now s.db with
    | error e => exact ⟨hw, h⟩
    | ok r =>
      obtain ⟨row, db⟩ := r
      obtain ⟨attempt, -, -, rfl⟩ := createNode_ok hc
      exact ⟨createNode_wellFormed hw hc, h.insert row⟩
  | updateNode id input now =>
    rw [NoteCall.run]
    cases hold : s.db.getNodeById id with
    | none => exact ⟨hw, h⟩
    | some old =>
      cases hu : Human.updateNode id input now s.db with
      | error e => exact ⟨hw, h⟩
      | ok r =>
        obtain ⟨row, db⟩ := r
        cases row with
        | none => exact ⟨hw, h⟩
        | some row =>
          simp only
          split
          · exact ⟨hw, h⟩
          · rename_i hne
            refine ⟨updateNode_wellFormed hw hu, ?_⟩
            rcases updateNode_ok hu with ⟨-, hr, hempty⟩ | ⟨-, -, rfl, hr⟩
            · rcases hempty with hnone | hempty
              · cases hnone
              · exact absurd hempty hne
            · -- The row that is read back is the old one with the fields of the input.
              obtain ⟨hmem, rfl⟩ := hw.get_iff.mp hold
              have hrow : row = input.apply now old := by
                rw [Db.getNodeById, withUpdate_nodes, get_modify_self (f := input.apply now) fun _ => rfl] at hr
                have hget : get HumanNode.id old.id s.db.nodes = some old := hold
                rw [hget] at hr
                exact Option.some.inj hr
              have hd := Derived.update h hw.nodeIds hmem (input.apply now)
              rw [Coherent, withUpdate_nodes, hrow]
              exact hd
  | deleteNode id =>
    rw [NoteCall.run]
    cases hold : s.db.getNodeById id with
    | none => exact ⟨hw, h⟩
    | some old =>
      obtain ⟨hmem, rfl⟩ := hw.get_iff.mp hold
      exact ⟨hw.deleteNode old.id, Derived.delete h hw.nodeIds hmem⟩

theorem runNoteCalls_coherent (hw : s.db.WellFormed) (h : Coherent fts s) (calls : List NoteCall) :
    (runNoteCalls fts host calls s).db.WellFormed ∧ Coherent fts (runNoteCalls fts host calls s) := by
  induction calls generalizing s with
  | nil => exact ⟨hw, h⟩
  | cons call calls ih =>
    have hcall : (call.run fts host s).db.WellFormed ∧ Coherent fts (call.run fts host s) :=
      call.run_coherent hw h
    exact ih hcall.1 hcall.2

/-! ## Terms -/

/-- The tokens of the term stand one after the other in a column. -/
def FullText.Contains (fts : FullText) (term : Text) (cols : Columns) : Prop :=
  fts.tokens term ≠ [] ∧ ∃ c ∈ cols, fts.tokens term <:+: fts.tokens c

/-- What SQLite documents: quoted phrases that stand one after the other all have to match, and an order
neither adds nor drops rows. -/
structure FullText.Documented (fts : FullText) : Prop where
  query : ∀ terms : List Text, terms ≠ [] → (∀ t ∈ terms, t ≠ [] ∧ '\x00' ∉ t) →
    ∃ f, fts.query (andQuery terms) = some f ∧
      ∀ cols, (∀ t ∈ terms, fts.Contains t cols) → f cols = true
  rank : ∀ q l, (fts.rank q l).Perm l

theorem mem_of_mem_splitOnP {p : Char → Bool} {t l : Text} {c : Char} (hl : l ∈ t.splitOnP p) (hc : c ∈ l) :
    c ∈ t := by
  induction t generalizing l with
  | nil =>
    rw [splitOnP_nil, mem_singleton] at hl
    exact hl ▸ hc
  | cons d t ih =>
    rw [splitOnP_cons_eq_if_modifyHead] at hl
    split at hl
    · rcases mem_cons.mp hl with rfl | hl
      · cases hc
      · exact mem_cons_of_mem _ (ih hl hc)
    · obtain ⟨m, ms, hms⟩ := exists_cons_of_ne_nil (splitOnP_ne_nil p t)
      rw [hms, modifyHead_cons] at hl
      rw [hms] at ih
      rcases mem_cons.mp hl with rfl | hl
      · rcases mem_cons.mp hc with rfl | hc
        · exact mem_cons_self
        · exact mem_cons_of_mem _ (ih mem_cons_self hc)
      · exact mem_cons_of_mem _ (ih (mem_cons_of_mem _ hl) hc)

theorem mem_words {t l : Text} (h : l ∈ words t) : l ≠ [] ∧ ∀ c ∈ l, c ∈ t := by
  obtain ⟨hl, hne⟩ := mem_filter.mp h
  exact ⟨by simpa using hne, fun c hc => mem_of_mem_splitOnP hl hc⟩

/-- A text that is not blank has a term. -/
theorem words_ne_nil {t : Text} (h : ¬t.Blank) : words t ≠ [] := by
  induction t with
  | nil => exact absurd (by simp [Blank]) h
  | cons c t ih =>
    rw [words, splitOnP_cons_eq_if_modifyHead]
    split
    · rename_i hc
      have ht : ¬Blank t := fun hb => h fun d hd => by
        rcases mem_cons.mp hd with rfl | hd
        · exact hc
        · exact hb d hd
      rw [filter_cons_of_neg (by simp)]
      exact ih ht
    · obtain ⟨m, ms, hms⟩ := exists_cons_of_ne_nil (splitOnP_ne_nil isSpace t)
      rw [hms, modifyHead_cons, filter_cons_of_pos (by simp)]
      exact cons_ne_nil _ _

/-! ## The search -/

/-- The search returns every note of the project with all terms of the query, up to its limit. -/
def SearchesAll (fts : FullText) (s : IndexedDb) : Prop :=
  ∀ (project query : Text) (limit : ℕ), ¬query.Blank → '\x00' ∉ query →
    ∀ n ∈ s.db.nodes, n.project = project → n.status ≠ .deprecated →
      (∀ t ∈ words (trim query), fts.Contains t (fts.columns n)) →
      n ∈ searchHumanNodes fts project query limit s ∨
        (searchHumanNodes fts project query limit s).length = limit

theorem mem_take_or_length {α : Type} {l : List α} {a : α} (h : a ∈ l) (k : ℕ) :
    a ∈ l.take k ∨ (l.take k).length = k := by
  by_cases hk : k ≤ l.length
  · exact .inr (length_take_of_le hk)
  · rw [take_of_length_le (by omega)]
    exact .inl h

theorem search_complete (hdoc : fts.Documented) (h : Coherent fts s) : SearchesAll fts s := by
  intro project query limit hblank hnul n hn hproject hstatus hterms
  have htrim : trim query ≠ [] := fun ht => hblank (trim_eq_nil_iff.mp ht)
  have hsub {c : Char} (hc : c ∈ trim query) : c ∈ query :=
    ((dropWhile_suffix _).sublist).subset ((List.rdropWhile_prefix _ _).subset hc)
  have hblank' : ¬(trim query).Blank := fun hb => htrim (by rw [← trim_trim]; exact trim_eq_nil_iff.mpr hb)
  obtain ⟨f, hf, hmatch⟩ := hdoc.query (words (trim query)) (words_ne_nil hblank') fun t ht =>
    ⟨(mem_words ht).1, fun hc => hnul (hsub ((mem_words ht).2 _ hc))⟩
  -- The note is among the rows that the index finds.
  have hfound : n ∈ fts.rank (andQuery (words (trim query))) ((searchable project s.db).filter fun n =>
      s.index.any fun e => e.1 = n.id && f e.2) := by
    rw [(hdoc.rank _ _).mem_iff, mem_filter, searchable, mem_filter]
    refine ⟨⟨hn, by simp [hproject, hstatus]⟩, ?_⟩
    rw [any_eq_true]
    refine ⟨fts.entry n, h.mem_iff.mpr ⟨n, hn, rfl⟩, ?_⟩
    simp [FullText.entry, hmatch _ hterms]
  have hhits : ftsHits fts project (andQuery (words (trim query))) limit s =
      (fts.rank (andQuery (words (trim query))) ((searchable project s.db).filter fun n =>
        s.index.any fun e => e.1 = n.id && f e.2)).take limit := by
    rw [ftsHits, hf]
  rw [searchHumanNodes, if_neg htrim]
  simp only [hhits]
  rcases mem_take_or_length hfound limit with hmem | hlen
  · rw [if_pos (ne_nil_of_mem hmem)]
    exact .inl hmem
  · split
    · exact .inr hlen
    · rename_i hnil
      rw [not_not] at hnil
      rw [hnil, length_nil] at hlen
      subst hlen
      exact .inr (by simp [likeHits])

/-! ## After a migration -/

/-- In every state after the migration the index is coherent and the search is complete. -/
def IndexHolds (fts : FullText) (host : Host) (d : StoredDb) : Prop :=
  ∀ calls, Coherent fts (runNoteCalls fts host calls (openStore fts d)) ∧
    SearchesAll fts (runNoteCalls fts host calls (openStore fts d))

/-- A database of a version without the index, in which the constraints hold. -/
structure Unindexed (d : StoredDb) : Prop where
  wellFormed : d.db.WellFormed
  applied : 4 ∉ d.applied
  index : d.index = none

/-- A migration that is about other tables. -/
structure Untouched (d d' : StoredDb) : Prop where
  nodes : d'.db.nodes = d.db.nodes
  index : d'.index = d.index
  applied : 4 ∈ d'.applied ↔ 4 ∈ d.applied
  wellFormed : d.db.WellFormed → d'.db.WellFormed

theorem Untouched.refl (d : StoredDb) : Untouched d d := ⟨rfl, rfl, Iff.rfl, fun hw => hw⟩

theorem untouched_linksMigration (d : StoredDb) : Untouched d (linksMigration d) := by
  refine ⟨rfl, rfl, Iff.rfl, fun hw => ⟨hw.nodeIds, hw.nodeFresh, hw.slugs, hw.edgeIds, hw.edgeFresh,
    hw.edgeSource, hw.edgeTarget, fun l hl => ?_⟩⟩
  rcases mem_foldl_insertLink.mp hl with hl | hl
  · exact hw.linkNode l hl
  · obtain ⟨n, hn, hl⟩ := mem_flatMap.mp hl
    obtain ⟨x, -, rfl⟩ := mem_map.mp hl
    exact ⟨n, hn, rfl⟩

theorem foldl_migrations_untouched (ms : List (ℕ × (StoredDb → StoredDb)))
    (hms : ∀ m ∈ ms, m.1 ≠ 4 ∧ ∀ d, Untouched d (m.2 d)) (d : StoredDb) :
    Untouched d (ms.foldl
      (fun d m => if m.1 ∈ d.applied then d else { m.2 d with applied := d.applied ++ [m.1] }) d) := by
  induction ms generalizing d with
  | nil => exact .refl d
  | cons m ms ih =>
    obtain ⟨⟨hne, hm⟩, hrest⟩ := forall_mem_cons.mp hms
    have h := ih hrest (if m.1 ∈ d.applied then d else { m.2 d with applied := d.applied ++ [m.1] })
    rw [foldl_cons]
    split at h
    · rename_i happlied
      rw [if_pos happlied]
      exact h
    · rename_i happlied
      rw [if_neg happlied]
      refine ⟨h.nodes.trans (hm d).nodes, h.index.trans (hm d).index, h.applied.trans ?_,
        fun hw => h.wellFormed ((hm d).wellFormed hw)⟩
      simp [Ne.symm hne]

/-- A migration from a version without the index leaves the index empty: the rows that the backfill asks
for are the rows that it leaves out. -/
theorem openStore_index {d : StoredDb} (hd : Unindexed d) :
    (openStore fts d).index = [] ∧ (openStore fts d).db.nodes = d.db.nodes ∧
      (openStore fts d).db.WellFormed := by
  have hbackfill (d : StoredDb) : (d.db.nodes.filter fun n => n.id ∉ ftsRowids d) = [] := by
    rw [filter_eq_nil_iff]
    intro n hn
    simp [ftsRowids, mem_map_of_mem hn]
  obtain ⟨d', hu, hd'⟩ : ∃ d', Untouched d d' ∧ runMigrations fts d =
      if 4 ∈ d'.applied then d' else { ftsMigration fts d' with applied := d'.applied ++ [4] } := by
    refine ⟨_, foldl_migrations_untouched [(1, id), (2, id), (3, linksMigration)] ?_ d, rfl⟩
    intro m hm
    simp only [mem_cons, not_mem_nil, or_false] at hm
    rcases hm with rfl | rfl | rfl
    · exact ⟨by decide, .refl⟩
    · exact ⟨by decide, .refl⟩
    · exact ⟨by decide, untouched_linksMigration⟩
  rw [openStore, hd', if_neg (mt hu.applied.mp hd.applied)]
  simp only [ftsMigration, hbackfill, hu.index, hd.index]
  exact ⟨rfl, hu.nodes, hu.wellFormed hd.wellFormed⟩

/-- **The index holds after a migration exactly if there were no notes.** -/
theorem searchIndex_coherent_iff (hdoc : fts.Documented) {d : StoredDb} (hd : Unindexed d) :
    IndexHolds fts host d ↔ d.db.nodes = [] := by
  obtain ⟨hindex, hnodes, hw⟩ : (openStore fts d).index = [] ∧ (openStore fts d).db.nodes = d.db.nodes ∧
      (openStore fts d).db.WellFormed := openStore_index hd
  constructor
  · intro h
    have hc := (h []).1
    rw [runNoteCalls, foldl_nil, Coherent, Derived, hindex, hnodes] at hc
    exact map_eq_nil_iff.mp hc.nil_eq.symm
  · intro hnil calls
    have hc : Coherent fts (openStore fts d) := by
      rw [Coherent, Derived, hindex, hnodes, hnil]
      exact List.Perm.nil
    have hc' : Coherent fts (runNoteCalls fts host calls (openStore fts d)) :=
      (runNoteCalls_coherent hw hc calls).2
    exact ⟨hc', search_complete hdoc hc'⟩

/-! ## ASCII texts -/

/-- The phrases of a query that is made of phrases in double quotes. The first argument is the phrase that
is being read. -/
def phrases : Option Text → Text → Option (List Text)
  | none, [] => some []
  | none, c :: t => if c = '"' then phrases (some []) t else if c = ' ' then phrases none t else none
  | some _, [] => none
  | some term, '"' :: '"' :: t => phrases (some (term ++ ['"'])) t
  | some term, '"' :: t => (phrases none t).map (term :: ·)
  | some term, c :: t => phrases (some (term ++ [c])) t

/-- Words of letters and digits, in lower case. -/
def asciiTokens (t : Text) : List Text :=
  ((t.map Char.toLower).splitOnP fun c => !c.isAlphanum).filter (· ≠ [])

/-- FTS5 on ASCII words that no stemming changes, all rows with the same rank. -/
def asciiFts : FullText where
  json _ := []
  tokens := asciiTokens
  query q := (phrases none q).map fun terms cols =>
    terms.any (fun t => asciiTokens t ≠ []) && terms.all fun t =>
      asciiTokens t = [] || cols.any fun c => decide (asciiTokens t <:+: asciiTokens c)
  rank _ l := l

theorem phrases_quoted (acc term rest : Text) (h : rest.head? ≠ some '"') :
    phrases (some acc) (term.flatMap (fun c => if c = '"' then ['"', '"'] else [c]) ++ '"' :: rest) =
      (phrases none rest).map ((acc ++ term) :: ·) := by
  induction term generalizing acc with
  | nil =>
    cases rest with
    | nil => simp [phrases]
    | cons c rest =>
      have hc : c ≠ '"' := fun hc => h (by simp [hc])
      simp [phrases, hc]
  | cons c term ih =>
    by_cases hc : c = '"'
    · subst hc
      have hrest := ih (acc ++ ['"'])
      simp only [flatMap_cons, if_true, cons_append, nil_append, phrases, hrest]
      simp
    · have hrest := ih (acc ++ [c])
      simp only [flatMap_cons, hc, if_false, cons_append, nil_append]
      rw [phrases, hrest]
      · simp
      · exact fun t ht _ => hc ht
      · exact fun ht => hc ht

theorem phrases_andQuery {terms : List Text} (hne : terms ≠ []) : phrases none (andQuery terms) = some terms := by
  induction terms with
  | nil => exact absurd rfl hne
  | cons term terms ih =>
    cases terms with
    | nil =>
      have h := phrases_quoted [] term [] (by simp)
      simpa [andQuery, quoted, phrases] using h
    | cons next terms =>
      have hq : andQuery (term :: next :: terms) =
          '"' :: (term.flatMap (fun c => if c = '"' then ['"', '"'] else [c]) ++
            '"' :: (' ' :: andQuery (next :: terms))) := by
        simp [andQuery, quoted, intercalate_cons_cons]
      have h := phrases_quoted [] term (' ' :: andQuery (next :: terms)) (by simp)
      have hspace : phrases none (' ' :: andQuery (next :: terms)) = some (next :: terms) := by
        rw [phrases, if_neg (by decide), if_pos rfl]
        exact ih (by simp)
      rw [hq, phrases, if_pos rfl, h, hspace]
      rfl

theorem asciiFts_documented : asciiFts.Documented where
  query terms hne _ := by
    refine ⟨_, congrArg (Option.map _) (phrases_andQuery hne), fun cols hcontains => ?_⟩
    rw [Bool.and_eq_true, any_eq_true, all_eq_true]
    constructor
    · obtain ⟨t, ts, rfl⟩ := exists_cons_of_ne_nil hne
      exact ⟨t, mem_cons_self, decide_eq_true (hcontains t mem_cons_self).1⟩
    · intro t ht
      obtain ⟨-, c, hc, hinfix⟩ := hcontains t ht
      rw [Bool.or_eq_true, any_eq_true]
      exact .inr ⟨c, hc, decide_eq_true hinfix⟩
  rank _ _ := List.Perm.refl _

/-- A note about a login bug. -/
def loginNote : HumanNode where
  id := 1
  project := "app".toList
  label := .BugNote
  title := "Login bug".toList
  slug := "login-bug".toList
  bodyMarkdown := []
  frontmatter := .nil
  status := .active
  source := .human
  obsidianPath := some "Bugs/login-bug.md".toList
  cbmJson := []
  tags := []
  confidence := .finite 1
  sourceFile := none
  author := none
  createdAt := 0
  updatedAt := 0
  lastSyncedAt := none

/-- A database of version 3 with these notes. -/
def storedV3 (nodes : List HumanNode) : StoredDb where
  db := { Db.empty with nodes := nodes, nextNode := nodes.length + 1 }
  applied := [1, 2, 3]
  index := none

/-- A note from before the index is not found by its own words. -/
theorem searchIndex_misses_old_note : ¬IndexHolds asciiFts asciiHost (storedV3 [loginNote]) := by
  intro h
  have hfound := (h []).2 "app".toList "bug login".toList 50 (by decide) (by decide) loginNote (by decide) rfl
    (by decide) ?_
  · exact absurd hfound (by decide +kernel)
  · intro t ht
    have hwords : words (trim "bug login".toList) = ["bug".toList, "login".toList] := by decide +kernel
    rw [hwords] at ht
    simp only [mem_cons, not_mem_nil, or_false] at ht
    rcases ht with rfl | rfl
    · exact ⟨by decide +kernel, loginNote.title, by decide +kernel, by decide +kernel⟩
    · exact ⟨by decide +kernel, loginNote.title, by decide +kernel, by decide +kernel⟩

/-- The law for a database without notes. -/
theorem searchIndex_coherent_empty : IndexHolds asciiFts asciiHost (storedV3 []) :=
  (searchIndex_coherent_iff asciiFts_documented ⟨Db.WellFormed.empty, by decide, rfl⟩).mpr rfl

end Ariad.Human
