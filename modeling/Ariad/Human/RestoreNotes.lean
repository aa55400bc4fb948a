import Ariad.Human.Backup

/-!
# Notes that come back

What the import of a backup makes of its notes in an empty database. `importNote` adds a row or skips.
When as many rows are there as notes, every note was added, and then the slugs that were computed anew
are the old ones, one by one.

* `Imported` — a note that is not skipped.
* `HumanNode.Copied`, `HumanNode.Restored` — the row that stands for a note; the latter has its slug.
* `imported_iff_restorable` — when a note keeps its slug.
-/

namespace Ariad.Human

open List

variable {host : Host} {project : Text} {db db' : Db} {now : ℕ}

/-! ## Slugs that are computed anew -/

variable {n : HumanNode}

/-- When no text of the second list stands before its place in the first list, and the lists have the
same texts, they are the same list. -/
theorem eq_of_perm_of_later {α : Type} {s t : List α} (hs : s.Nodup) (hperm : s.Perm t)
    (hlater : ∀ a x b, s = a ++ x :: b → x ∉ t.take a.length) : s = t := by
  induction s generalizing t with
  | nil => exact hperm.nil_eq
  | cons x s ih =>
    cases t with
    | nil => exact absurd hperm.symm.nil_eq (by simp)
    | cons y t =>
      have hy : y = x := by
        by_contra hne
        have hmem : y ∈ s := by
          have : y ∈ x :: s := hperm.mem_iff.mpr mem_cons_self
          exact (mem_cons.mp this).resolve_left hne
        obtain ⟨a, b, rfl⟩ := append_of_mem hmem
        exact hlater (x :: a) y b rfl (by simp)
      subst hy
      have := ih (nodup_cons.mp hs).2 ((perm_cons y).mp hperm) fun a x b h hx =>
        hlater (y :: a) x b (by simp [h]) (by simp [hx])
      rw [this]

/-! ## One note -/

/-- The row that stands for the note. -/
structure HumanNode.Copied (project : Text) (n r : HumanNode) : Prop where
  project_eq : r.project = project
  label : r.label = n.label
  title : r.title = n.title
  status : r.status = n.status
  bodyMarkdown : r.bodyMarkdown = n.bodyMarkdown
  tags : r.tags = n.tags
  cbmNodeIds : r.cbmNodeIds = n.cbmNodeIds
  confidence : r.confidence = .finite 1
  sourceFile : r.sourceFile = none
  obsidianPath : r.obsidianPath = some ((nonempty n.obsidianPath).getD (obsidianPathFor n.label r.slug))

/-- What the import of a note that is not skipped comes across. -/
structure Imported (host : Host) (project : Text) (now : ℕ) (db : Db) (n row : HumanNode) : Prop where
  slugFree : db.getNodeBySlug project n.slug = none
  pathFree : ∀ p, nonempty n.obsidianPath = some p → db.getNodeByObsidianPath project p = none
  created : createNode host (n.backup.input project) now db = .ok (row, db.withNode row n.cbmNodeIds)

theorem importNote_of_imported {n row : HumanNode} (h : Imported host project now db n row) :
    importNote host project now db n.backup = db.withNode row n.cbmNodeIds := by
  rw [importNote, if_neg, if_neg, h.created]
  · cases hp : nonempty n.obsidianPath with
    | none => simp [HumanNode.backup, hp]
    | some p => simp [HumanNode.backup, hp, h.pathFree p hp]
  · simp [HumanNode.backup, h.slugFree]

/-- **A note is skipped, or a row is added for it.** -/
theorem importNote_cases (host : Host) (project : Text) (now : ℕ) (db : Db) (n : HumanNode) :
    importNote host project now db n.backup = db ∨ ∃ row, Imported host project now db n row := by
  rw [importNote]
  split
  · exact .inl rfl
  · rename_i hslug
    split
    · exact .inl rfl
    · rename_i hpath
      split
      · rename_i row db' hcreate
        refine .inr ⟨row, by simpa [HumanNode.backup] using hslug, fun p hp => ?_, ?_⟩
        · simpa [HumanNode.backup, hp] using hpath
        · obtain ⟨attempt, -, -, rfl⟩ := createNode_ok hcreate
          exact hcreate
      · exact .inl rfl

@[simp] theorem withNode_nodes (row : HumanNode) (ids : List Num) :
    (db.withNode row ids).nodes = db.nodes ++ [row] := rfl

@[simp] theorem withNode_edges (row : HumanNode) (ids : List Num) : (db.withNode row ids).edges = db.edges := rfl

theorem cbmNodeIds_valid : n.cbmNodeIds.filter validCbmId = n.cbmNodeIds := by
  simp [HumanNode.cbmNodeIds]

theorem path_eq {slug : Text} {k : ℕ} : (n.backup.input project).path slug k =
      (nonempty n.obsidianPath).getD (obsidianPathFor n.label (slugCandidate slug k)) := by
  rw [CreateHumanNodeInput.path]
  simp only [BackupNote.input, HumanNode.backup]
  cases n.obsidianPath with
  | none => rfl
  | some p => cases p <;> rfl

theorem Imported.copied {n row : HumanNode} (h : Imported host project now db n row) : n.Copied project row := by
  obtain ⟨attempt, -, rfl, -⟩ := createNode_ok h.created
  constructor
  case obsidianPath => exact congrArg some path_eq
  case cbmNodeIds => exact (cbmNodeIds_of_json rfl).trans cbmNodeIds_valid
  all_goals rfl

/-! ## All notes -/

/-- The database after the notes. -/
def restoredNotes (host : Host) (project : Text) (clock : ℕ → ℕ) (notes : List HumanNode) : Db :=
  importNotes host project clock (notes.map HumanNode.backup) Db.empty

variable {clock : ℕ → ℕ} {notes : List HumanNode}

theorem restoredNotes_concat (n : HumanNode) : restoredNotes host project clock (notes ++ [n]) =
      importNote host project (clock n.id) (restoredNotes host project clock notes) n.backup := by
  simp [restoredNotes, importNotes]
  rfl

/-- Every note was added in its turn. -/
def AllImported (host : Host) (project : Text) (clock : ℕ → ℕ) (notes : List HumanNode) : Prop :=
  ∀ before n after, notes = before ++ n :: after →
    ∃ row, Imported host project (clock n.id) (restoredNotes host project clock before) n row

theorem AllImported.of_concat (h : AllImported host project clock (notes ++ [n])) :
    AllImported host project clock notes :=
  fun before m after heq => h before m (after ++ [n]) (by simp [heq])

theorem length_restoredNotes_le (host : Host) (project : Text) (clock : ℕ → ℕ) (notes : List HumanNode) :
    (restoredNotes host project clock notes).nodes.length ≤ notes.length := by
  induction notes using List.reverseRecOn with
  | nil => simp [restoredNotes, importNotes, Db.empty]
  | append_singleton notes n ih =>
    rw [restoredNotes_concat]
    rcases importNote_cases host project (clock n.id) (restoredNotes host project clock notes)
      n with h | ⟨row, h⟩
    · rw [h, length_append]
      omega
    · rw [importNote_of_imported h]
      simp only [withNode_nodes, length_append, length_singleton]
      omega

/-- With a row for each note, every note was added. -/
theorem allImported_of_length (h : (restoredNotes host project clock notes).nodes.length = notes.length) :
    AllImported host project clock notes := by
  induction notes using List.reverseRecOn with
  | nil =>
    intro before n after heq
    simp at heq
  | append_singleton notes m ih =>
    rw [restoredNotes_concat] at h
    have hle := length_restoredNotes_le host project clock notes
    rcases importNote_cases host project (clock m.id) (restoredNotes host project clock notes)
      m with hskip | ⟨row, himp⟩
    · rw [hskip, length_append, length_singleton] at h
      omega
    · rw [importNote_of_imported himp] at h
      simp only [withNode_nodes, length_append, length_singleton] at h
      have ih' := ih (by omega)
      intro before n after heq
      rcases eq_nil_or_concat' after with rfl | ⟨after, z, rfl⟩
      · obtain ⟨rfl, hm⟩ := append_inj' heq rfl
        obtain rfl : m = n := by simpa using hm
        exact ⟨row, himp⟩
      · refine ih' before n after ?_
        have heq' : notes ++ [m] = (before ++ n :: after) ++ [z] := by simpa using heq
        exact (append_inj' heq' rfl).1

/-- The rows, one for each note. -/
theorem AllImported.copied (h : AllImported host project clock notes) :
    List.Forall₂ (HumanNode.Copied project) notes (restoredNotes host project clock notes).nodes := by
  induction notes using List.reverseRecOn with
  | nil => exact .nil
  | append_singleton notes n ih =>
    obtain ⟨row, himp⟩ := h notes n [] rfl
    rw [restoredNotes_concat, importNote_of_imported himp, withNode_nodes]
    exact rel_append (ih h.of_concat) (.cons himp.copied .nil)

theorem AllImported.edges (h : AllImported host project clock notes) :
    (restoredNotes host project clock notes).edges = [] := by
  induction notes using List.reverseRecOn with
  | nil => rfl
  | append_singleton notes n ih =>
    obtain ⟨row, himp⟩ := h notes n [] rfl
    rw [restoredNotes_concat, importNote_of_imported himp, withNode_edges]
    exact ih h.of_concat

/-! ## Notes that keep their slug -/

/-- The row that stands for the note, with the old slug. -/
def HumanNode.Restored (project : Text) (n r : HumanNode) : Prop :=
  n.Copied project r ∧ r.slug = n.slug

theorem HumanNode.Restored.view {n r : HumanNode} (h : n.Restored project r)
    (hconf : n.confidence = .finite 1) (hfile : n.sourceFile = none) : r.view = n.view := by
  obtain ⟨hc, hslug⟩ := h
  simp [HumanNode.view, hc.label, hc.title, hslug, hc.status, hc.confidence, hconf, hc.sourceFile, hfile,
    hc.bodyMarkdown, hc.tags, hc.cbmNodeIds]

theorem HumanNode.Restored.path {n r : HumanNode} (h : n.Restored project r) :
    r.obsidianPath = some n.restoredPath := by
  rw [h.1.obsidianPath, h.2, HumanNode.restoredPath]

theorem exists_of_forall₂ {α β : Type} {R : α → β → Prop} {l : List α} {m : List β} (h : List.Forall₂ R l m) :
    (∀ a ∈ l, ∃ b ∈ m, R a b) ∧ ∀ b ∈ m, ∃ a ∈ l, R a b := by
  induction h with
  | nil => simp
  | cons hab _ ih =>
    simp only [mem_cons, forall_eq_or_imp, exists_eq_or_imp]
    exact ⟨⟨.inl hab, fun a ha => .inr (ih.1 a ha)⟩, ⟨.inl hab, fun b hb => .inr (ih.2 b hb)⟩⟩

/-- A slug is free in the database of the restored notes if none of them has it. -/
theorem getNodeBySlug_restored (h : List.Forall₂ (HumanNode.Restored project) notes db.nodes)
    {slug : Text} : db.getNodeBySlug project slug = none ↔ slug ∉ notes.map HumanNode.slug := by
  rw [Db.getNodeBySlug, Rows.get_eq_none_iff]
  simp only [mem_map, not_exists, not_and, ne_eq, Prod.mk.injEq]
  constructor
  · intro hnone n hn hslug
    obtain ⟨r, hr, hc, hs⟩ := (exists_of_forall₂ h).1 n hn
    exact hnone r hr hc.project_eq (hs.trans hslug)
  · intro hnone r hr _ hslug
    obtain ⟨n, hn, -, hs⟩ := (exists_of_forall₂ h).2 r hr
    exact hnone n hn (hs.symm.trans hslug)

theorem getNodeByObsidianPath_restored (h : List.Forall₂ (HumanNode.Restored project) notes db.nodes) {path : Text} :
    db.getNodeByObsidianPath project path = none ↔ path ∉ notes.map HumanNode.restoredPath := by
  rw [Db.getNodeByObsidianPath, Rows.get_eq_none_iff]
  simp only [mem_map, not_exists, not_and, ne_eq, Prod.mk.injEq]
  constructor
  · intro hnone n hn hpath
    obtain ⟨r, hr, hres⟩ := (exists_of_forall₂ h).1 n hn
    exact hnone r hr hres.1.project_eq (by rw [hres.path, hpath])
  · intro hnone r hr _ hpath
    obtain ⟨n, hn, hres⟩ := (exists_of_forall₂ h).2 r hr
    rw [hres.path] at hpath
    exact hnone n hn (Option.some.inj hpath)

theorem freeSlug_eq_some_iff {slug : Text} {k : ℕ} : db.freeSlug project slug = some k ↔
      k < 100 ∧ db.getNodeBySlug project (slugCandidate slug k) = none ∧
        ∀ j < k, db.getNodeBySlug project (slugCandidate slug j) ≠ none := by
  rw [Db.freeSlug, find?_range_eq_some]
  simp only [mem_range, Option.isNone_iff_eq_none, Bool.not_eq_true', Option.isNone_eq_false_iff,
    ne_eq, Option.isSome_iff_ne_none]
  tauto

/-- **A note keeps its slug** exactly when it can be restored; its confidence and its source file do not
matter for that. -/
theorem imported_iff_restorable {before : List HumanNode}
    (h : List.Forall₂ (HumanNode.Restored project) before db.nodes)
    (hfresh : n.slug ∉ before.map HumanNode.slug) (hconf : n.confidence = .finite 1) (hfile : n.sourceFile = none) :
    (∃ row, Imported host project now db n row ∧ row.slug = n.slug) ↔ n.Restorable host now before := by
  constructor
  · rintro ⟨row, himp, hslug⟩
    obtain ⟨htitle, hpath, -, k, hfree, hrow, -⟩ := createNode_ok_iff.mp himp.created
    obtain ⟨hk, -, htaken⟩ := freeSlug_eq_some_iff.mp hfree
    refine ⟨htitle, hpath, ⟨k, hk, ?_, fun j hj => ?_⟩, fun p hp => ?_, hconf, hfile⟩
    · rw [← hslug, hrow]
      rfl
    · exact not_not.mp fun hnot => htaken j hj ((getNodeBySlug_restored h).mpr hnot)
    · exact (getNodeByObsidianPath_restored h).mp (himp.pathFree p hp)
  · intro hr
    obtain ⟨k, hk, hslug, htaken⟩ := hr.slug
    have hfree : db.freeSlug project (titleSlug host n.title now) = some k := by
      refine freeSlug_eq_some_iff.mpr ⟨hk, ?_, fun j hj => ?_⟩
      · rw [hslug]
        exact (getNodeBySlug_restored h).mpr hfresh
      · exact fun hnone => (getNodeBySlug_restored h).mp hnone (htaken j hj)
    have hone : validConfidence (.finite 1) := by decide
    refine ⟨_, ⟨(getNodeBySlug_restored h).mpr hfresh, fun p hp => ?_,
      createNode_ok_iff.mpr ⟨hr.title, hr.path, hone, k, hfree, rfl, rfl⟩⟩, hslug⟩
    exact (getNodeByObsidianPath_restored h).mpr (hr.free p hp)

/-- A note that can be restored adds a row with its slug, and the rows go on standing for the notes. -/
theorem restored_of_restorable (project : Text) (hslugs : (notes.map HumanNode.slug).Nodup)
    (h : ∀ before n after, notes = before ++ n :: after → n.Restorable host (clock n.id) before) :
    AllImported host project clock notes ∧
      List.Forall₂ (HumanNode.Restored project) notes (restoredNotes host project clock notes).nodes := by
  induction notes using List.reverseRecOn with
  | nil => exact ⟨fun before n after heq => by simp at heq, .nil⟩
  | append_singleton notes m ih =>
    have hm := h notes m [] rfl
    simp only [map_append, map_cons, map_nil] at hslugs
    obtain ⟨hall, hres⟩ := ih (List.nodup_append.mp hslugs).1 fun before n after heq =>
      h before n (after ++ [m]) (by simp [heq])
    have hfresh : m.slug ∉ notes.map HumanNode.slug := fun hmem =>
      (List.nodup_append.mp hslugs).2.2 _ hmem _ (mem_singleton_self _) rfl
    obtain ⟨row, himp, hslug⟩ :=
      (imported_iff_restorable hres hfresh hm.confidence hm.sourceFile).mpr hm
    constructor
    · intro before n after heq
      rcases eq_nil_or_concat' after with rfl | ⟨after, z, rfl⟩
      · obtain ⟨rfl, hn⟩ := append_inj' heq rfl
        obtain rfl : m = n := by simpa using hn
        exact ⟨row, himp⟩
      · have heq' : notes ++ [m] = (before ++ n :: after) ++ [z] := by simpa using heq
        exact hall before n after (append_inj' heq' rfl).1
    · rw [restoredNotes_concat, importNote_of_imported himp, withNode_nodes]
      exact rel_append hres (.cons ⟨himp.copied, hslug⟩ .nil)

/-- Rows are only added. -/
theorem restoredNotes_prefix (host : Host) (project : Text) (clock : ℕ → ℕ) (notes more : List HumanNode) :
    (restoredNotes host project clock notes).nodes <+: (restoredNotes host project clock (notes ++ more)).nodes := by
  induction more using List.reverseRecOn with
  | nil => simp
  | append_singleton more n ih =>
    rw [← append_assoc, restoredNotes_concat]
    rcases importNote_cases host project (clock n.id) (restoredNotes host project clock (notes ++ more))
      n with hskip | ⟨row, himp⟩
    · rwa [hskip]
    · rw [importNote_of_imported himp, withNode_nodes]
      exact ih.trans (prefix_append _ _)

theorem forall₂_restored {rows : List HumanNode} (h : List.Forall₂ (HumanNode.Copied project) notes rows)
    (hslugs : notes.map HumanNode.slug = rows.map HumanNode.slug) :
    List.Forall₂ (HumanNode.Restored project) notes rows := by
  induction h with
  | nil => exact .nil
  | cons hc _ ih =>
    simp only [map_cons, List.cons.injEq] at hslugs
    exact .cons ⟨hc, hslugs.1.symm⟩ (ih hslugs.2)

/-- With the same slugs in both databases, each note keeps its own. -/
theorem slugs_eq_of_perm (hslugs : (notes.map HumanNode.slug).Nodup) (hall : AllImported host project clock notes)
    (hperm : (notes.map HumanNode.slug).Perm ((restoredNotes host project clock notes).nodes.map HumanNode.slug)) :
    notes.map HumanNode.slug = (restoredNotes host project clock notes).nodes.map HumanNode.slug := by
  refine eq_of_perm_of_later hslugs hperm fun a x b heq hx => ?_
  obtain ⟨before, rest, rfl, rfl, hrest⟩ := map_eq_append_iff.mp heq
  obtain ⟨n, after, rfl, rfl, rfl⟩ := map_eq_cons_iff.mp hrest
  obtain ⟨row, himp⟩ := hall before n after rfl
  obtain ⟨more, hmore⟩ := restoredNotes_prefix host project clock before (n :: after)
  have hbefore : AllImported host project clock before := fun a m c h =>
    hall a m (c ++ n :: after) (by simp [h])
  have hlen := hbefore.copied.length_eq
  -- The rows of the notes before stand first, and none of them has the slug.
  rw [← hmore, map_append, length_map, take_append_of_le_length (by simp [hlen])] at hx
  rw [hlen, ← length_map HumanNode.slug, take_length] at hx
  obtain ⟨r, hr, hslug⟩ := mem_map.mp hx
  obtain ⟨m, -, hc⟩ := (exists_of_forall₂ hbefore.copied).2 r hr
  exact Rows.get_eq_none_iff.mp himp.slugFree r hr (by simp [hc.project_eq, hslug])

/-- **Notes that keep their slugs can be restored.** -/
theorem restorable_of_slugs (hslugs : (notes.map HumanNode.slug).Nodup) (hall : AllImported host project clock notes)
    (heq : notes.map HumanNode.slug = (restoredNotes host project clock notes).nodes.map HumanNode.slug)
    (hconf : ∀ n ∈ notes, n.confidence = .finite 1) (hfile : ∀ n ∈ notes, n.sourceFile = none) :
    ∀ before n after, notes = before ++ n :: after → n.Restorable host (clock n.id) before := by
  rintro before n after rfl
  obtain ⟨row, himp⟩ := hall before n after rfl
  have hbefore : AllImported host project clock before := fun a m c h =>
    hall a m (c ++ n :: after) (by simp [h])
  have hlen := hbefore.copied.length_eq
  have hstep : (restoredNotes host project clock (before ++ [n])).nodes =
      (restoredNotes host project clock before).nodes ++ [row] := by
    rw [restoredNotes_concat, importNote_of_imported himp, withNode_nodes]
  obtain ⟨more, hmore⟩ := restoredNotes_prefix host project clock (before ++ [n]) after
  rw [hstep] at hmore
  simp only [append_assoc, singleton_append] at hmore
  rw [← hmore] at heq
  simp only [map_append, map_cons] at heq
  obtain ⟨h1, h2⟩ := append_inj heq (by simp [hlen])
  simp only [List.cons.injEq] at h2
  have hres := forall₂_restored hbefore.copied h1
  simp only [map_append, map_cons] at hslugs
  have hfresh : n.slug ∉ before.map HumanNode.slug := fun hmem =>
    (List.nodup_append.mp hslugs).2.2 _ hmem _ mem_cons_self rfl
  exact (imported_iff_restorable hres hfresh (hconf n (by simp)) (hfile n (by simp))).mp
    ⟨row, himp, h2.1.symm⟩

end Ariad.Human
