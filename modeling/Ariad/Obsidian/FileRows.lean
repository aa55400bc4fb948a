import Ariad.Obsidian.FileLaws

/-!
# What a file leaves alone

The rows after a file, in their order: one row is rewritten in place, or one is appended. Hence what a
file keeps for the others: the node that a path finds, and who holds a slug.

* `importSingleFile_moves_iff` — when a file creates or updates a node.
* `FileEffect.rows` — the rows.
* `importFiles_path`, `importFiles_holder` — what other files leave.
-/

namespace Ariad.Obsidian

open Human Text Option Rows List

variable {host : Host} {project relPath : Text} {vault : Vault} {now : ℕ} {db db' : Db}

/-! ## Which outcome a file has -/

/-- A node was created or updated. -/
def Outcome.Moves (o : Outcome) : Prop := o = .created ∨ o = .updated

instance (o : Outcome) : Decidable o.Moves := inferInstanceAs (Decidable (_ ∨ _))

variable {spec : UpsertSpec} {outcome : Outcome} {slug : Text} {added : List HumanEdge} {id : ℕ}

theorem Upserted.moves {old : Option Text}
    (h : Upserted host project vault now spec db id old outcome db') : outcome.Moves := by
  cases h with
  | updated => exact .inr rfl
  | created => exact .inl rfl

/-- The node that was found, or the next one. -/
theorem Upserted.id_eq {old : Option Text}
    {existing : Option HumanNode} (h : Upserted host project vault now spec db id old outcome db')
    (hres : resolveExistingNode project vault spec.relPath (slugify host spec.title) db = .ok existing) :
    id = (existing.map HumanNode.id).getD db.nextNode := by
  cases h with
  | updated node found =>
    rw [found] at hres
    rw [← Except.ok.inj hres]
    rfl
  | created row attempt notFound created row_eq =>
    rw [notFound] at hres
    rw [← Except.ok.inj hres, row_eq]
    rfl

theorem Reads.unique {spec spec' : UpsertSpec} (h : Reads host vault relPath spec)
    (h' : Reads host vault relPath spec') : spec = spec' := by
  obtain ⟨-, content, -, hread, hparse⟩ := h
  obtain ⟨-, content', -, hread', hparse'⟩ := h'
  rw [hread, ReadNote.content.injEq] at hread'
  rw [← hread', hparse] at hparse'
  exact Except.ok.inj hparse'

theorem Reads.not_missing (h : Reads host vault relPath spec) : vault.read relPath ≠ .missing := by
  obtain ⟨-, content, -, hread, -⟩ := h
  simp [hread]

/-- The title and the path are what an update checks. -/
theorem check_update_iff (spec : UpsertSpec) :
    spec.update.check = .ok () ↔ validTitle spec.title = .ok () ∧ validObsidianPath spec.relPath = true := by
  simp only [UpdateHumanNodeInput.check, UpsertSpec.update, bind, Except.bind]
  cases validTitle spec.title with
  | error e => simp
  | ok => cases validObsidianPath spec.relPath <;> simp [pure, Except.pure, throw, throwThe, MonadExceptOf.throw]

/-- A node of the file is created when title and path are accepted and a slug is free. -/
theorem createNode_create_iff (spec : UpsertSpec) : (∃ r, createNode host (spec.create project) now db = .ok r) ↔
      spec.update.check = .ok () ∧ db.freeSlug project (titleSlug host spec.title now) ≠ none := by
  rw [check_update_iff]
  constructor
  · rintro ⟨⟨row, db'⟩, h⟩
    obtain ⟨ht, hp, -, attempt, hf, -⟩ := createNode_ok_iff.mp h
    exact ⟨⟨ht, hp⟩, fun hnone => by simp [UpsertSpec.create, hnone] at hf⟩
  · rintro ⟨⟨ht, hp⟩, hf⟩
    obtain ⟨attempt, hattempt⟩ := ne_none_iff_exists'.mp hf
    exact ⟨_, createNode_ok_iff.mpr ⟨ht, hp, rfl, attempt, hattempt, rfl, rfl⟩⟩

/-- A file moves if its node is updated or created: the links that follow are not refused. -/
theorem importSingleFile_moves_of_upsert (hdigits : ReadsDigits host) (hw : db.WellFormed)
    (hreads : Reads host vault relPath spec) {existing : Option HumanNode}
    (hres : resolveExistingNode project vault relPath (slugify host spec.title) db = .ok existing)
    (hup : upsertNode host project spec existing now db = .ok ((id, outcome), db')) (ho : outcome.Moves) :
    (importSingleFile host project vault now relPath db).1.Moves := by
  obtain ⟨hgen, content, hne, hread, hparse⟩ := hreads
  obtain rfl := parseVaultFile_relPath hparse
  rcases upsertNode_cases hw hres hup with ⟨rfl, -⟩ | ⟨hchanged, hups⟩
  · rcases ho with h | h <;> cases h
  · obtain ⟨n, hn, hp⟩ := hups.source hw
    have hw' := dropOldEdges_wellFormed (hups.wellFormed hw) id (oldObsidianPath spec.relPath existing)
    have hsource : ∃ n, (dropOldEdges id (oldObsidianPath spec.relPath existing) db').getNodeById id = some n ∧
        n.project = project := by
      refine ⟨n, ?_, hp⟩
      rw [Db.getNodeById, dropOldEdges_nodes]
      exact hn
    obtain ⟨seen, added, h1, -⟩ :=
      createEdges_added spec.relPath spec.humanBody now hdigits hw' hsource (parseWikilinks spec.humanBody)
    have hout : (importSingleFile host project vault now spec.relPath db).1 = outcome := by
      rw [importSingleFile, if_neg (by simp [hgen]), hread]
      cases content with
      | nil => exact absurd rfl hne
      | cons c t =>
        simp only
        rw [importContent, hparse]
        simp only [hres, hup, if_neg hchanged, processWikilinks, h1]
    rwa [hout]

/-- **A file that was read moves** when what it says is accepted, and the node it finds differs from it,
or it finds none and a slug is free. -/
theorem importSingleFile_moves_iff (project : Text) (now : ℕ) (hdigits : ReadsDigits host)
    (hw : db.WellFormed) (hreads : Reads host vault relPath spec) :
    (importSingleFile host project vault now relPath db).1.Moves ↔ spec.update.check = .ok () ∧
        ((∃ node, resolveExistingNode project vault relPath (slugify host spec.title) db = .ok (some node) ∧
            ¬spec.Unchanged node) ∨ (resolveExistingNode project vault relPath (slugify host spec.title) db = .ok none ∧
            db.freeSlug project (titleSlug host spec.title now) ≠ none)) := by
  have hpath := hreads.relPath_eq
  constructor
  · intro hmoves
    rcases importSingleFile_cases project vault now relPath hdigits hw with
      ⟨-, hc, hu⟩ | ⟨spec', id, outcome, added, hreads', -, old, up, linked, seen, hups, -⟩
    · exact absurd hmoves (not_or.mpr ⟨hc, hu⟩)
    · obtain rfl := hreads.unique hreads'
      cases hups with
      | updated node found mem changed accepted =>
        exact ⟨accepted, .inl ⟨node, hpath ▸ found, changed⟩⟩
      | created row attempt notFound created row_eq =>
        obtain ⟨hcheck, hf⟩ := (createNode_create_iff spec).mp ⟨_, created⟩
        exact ⟨hcheck, .inr ⟨hpath ▸ notFound, hf⟩⟩
  · rintro ⟨hcheck, ⟨node, hres, hchanged⟩ | ⟨hres, hfree⟩⟩
    · have hmem := (resolveExistingNode_mem hres).1
      have hupdate : updateNode node.id spec.update now db =
          .ok ((db.withUpdate node.id spec.update now).getNodeById node.id,
            db.withUpdate node.id spec.update now) := by
        rw [updateNode]
        simp only [hw.get_self hmem, hcheck, bind, Except.bind]
        rw [if_neg (update_not_empty spec)]
        rfl
      have hup : upsertNode host project spec (some node) now db = .ok ((node.id, .updated),
          markSynced node.id now (db.withUpdate node.id spec.update now)) := by
        rw [upsertNode, if_neg hchanged, hupdate]
      exact importSingleFile_moves_of_upsert hdigits hw hreads hres hup (.inr rfl)
    · obtain ⟨⟨row, db'⟩, hcreate⟩ := (createNode_create_iff spec).mpr ⟨hcheck, hfree⟩
      have hup : upsertNode host project spec none now db =
          .ok ((row.id, .created), markSynced row.id now db') := by
        rw [upsertNode, hcreate]
      exact importSingleFile_moves_of_upsert hdigits hw hreads hres hup (.inl rfl)

/-- **A file that does not move leaves the database**; one that moves has its effect. -/
theorem importSingleFile_effect (project : Text) (vault : Vault) (now : ℕ) (relPath : Text)
    (hdigits : ReadsDigits host) (hw : db.WellFormed) : (¬(importSingleFile host project vault now relPath db).1.Moves ∧
        (importSingleFile host project vault now relPath db).2 = db) ∨
      ((importSingleFile host project vault now relPath db).1.Moves ∧
        ∃ spec id outcome added, Reads host vault relPath spec ∧
          FileEffect host project vault now spec id outcome added db
            (importSingleFile host project vault now relPath db).2) := by
  rcases importSingleFile_cases project vault now relPath hdigits hw with
    ⟨hsame, hc, hu⟩ | ⟨spec, id, outcome, added, hreads, hout, heffect⟩
  · exact .inl ⟨not_or.mpr ⟨hc, hu⟩, hsame⟩
  · refine .inr ⟨?_, spec, id, outcome, added, hreads, heffect⟩
    obtain ⟨old, up, linked, seen, hups, -⟩ := heffect
    rw [hout]
    exact hups.moves

/-! ## The rows after a file -/

/-- The row of a file whose node is new. -/
def UpsertSpec.newRow (spec : UpsertSpec) (project : Text) (id : ℕ) (slug path : Text) (now : ℕ) : HumanNode :=
  { (spec.create project).row id slug path now with lastSyncedAt := some now }

/-- A node that was found has no path, or that of a file that is gone, or that of this file. -/
theorem resolveExistingNode_path {node : HumanNode}
    (h : resolveExistingNode project vault relPath slug db = .ok (some node)) :
    db.getNodeByObsidianPath project relPath = some node ∨
      (db.getNodeByObsidianPath project relPath = none ∧ slug ≠ [] ∧ db.getNodeBySlug project slug = some node ∧
        ∀ p, node.obsidianPath = some p → p = [] ∨ vault.read p = .missing) := by
  rw [resolveExistingNode] at h
  cases hg : db.getNodeByObsidianPath project relPath with
  | some m =>
    rw [hg] at h
    exact .inl (by simpa using h)
  | none =>
    simp only [hg] at h
    refine .inr ⟨rfl, ?_⟩
    split at h
    · cases h
    · rename_i hslug
      refine ⟨hslug, ?_⟩
      split at h
      · cases h
      · rename_i m hm
        split at h
        · rename_i hp
          obtain rfl : m = node := by simpa using h
          exact ⟨hm, fun p h => by rw [hp] at h; cases h⟩
        · rename_i hp
          obtain rfl : m = node := by simpa using h
          exact ⟨hm, fun p h => .inl (by rw [hp] at h; exact (Option.some.inj h).symm)⟩
        · rename_i path hne hp
          split at h
          · cases h
          · rename_i hread
            obtain rfl : m = node := by simpa using h
            refine ⟨hm, fun p h => .inr ?_⟩
            rw [hp] at h
            rw [← Option.some.inj h, hread]
          · cases h

/-- **The rows after a file**: the row of its node is rewritten in place, or a new row is appended. -/
theorem FileEffect.rows (hw : db.WellFormed) (h : FileEffect host project vault now spec id outcome added db db') :
    (∃ node, resolveExistingNode project vault spec.relPath (slugify host spec.title) db = .ok (some node) ∧
        ¬spec.Unchanged node ∧ node ∈ db.nodes ∧ id = node.id ∧ db'.nodes = Rows.modify HumanNode.id node.id
          (fun n => addCbmIds (codeTargets added) (spec.applied now n)) db.nodes) ∨
      (∃ attempt, resolveExistingNode project vault spec.relPath (slugify host spec.title) db = .ok none ∧
        db.freeSlug project (titleSlug host spec.title now) = some attempt ∧ id = db.nextNode ∧
        db'.nodes = db.nodes ++ [addCbmIds (codeTargets added)
          (spec.newRow project id (slugCandidate (titleSlug host spec.title now) attempt)
            ((spec.create project).path (titleSlug host spec.title now) attempt) now)]) := by
  obtain ⟨old, up, linked, seen, hups, hadd, rfl⟩ := h
  simp only [deleteStaleEdgesFromNode, hadd.nodes, dropOldEdges_nodes]
  cases hups with
  | updated node found mem changed accepted =>
    refine .inl ⟨node, found, changed, mem, rfl, ?_⟩
    have happly : ∀ n, HumanNode.id (spec.update.apply now n) = HumanNode.id n := fun _ => rfl
    have happlied : ∀ n, HumanNode.id (spec.applied now n) = HumanNode.id n := fun _ => rfl
    simp only [markSynced, withUpdate_nodes]
    rw [modify_modify happly]
    exact modify_modify happlied
  | created row attempt notFound created row_eq =>
    obtain ⟨k, hk, hrow, -⟩ := createNode_ok created
    have hid : row.id = db.nextNode := by
      rw [row_eq]
      rfl
    have hfresh : ∀ m ∈ db.nodes, m.id ≠ row.id := by
      intro m hm
      have := hw.nodeFresh m hm
      omega
    refine .inr ⟨k, notFound, hk, hid, ?_⟩
    simp only [markSynced, Db.withNode, syncCbmLinks_nodes]
    have hsynced : ∀ n : HumanNode, HumanNode.id { n with lastSyncedAt := some now } = n.id := fun _ => rfl
    rw [modify_modify hsynced, Rows.modify, map_append,
      map_congr_left (g := fun n => n) fun m hm => if_neg (hfresh m hm)]
    simp only [List.map_id', map_cons, map_nil, if_true]
    subst hrow
    rfl

/-! ## What the node of the file becomes -/

theorem addCbmIds_eq (xs : List Num) (n : HumanNode) :
    addCbmIds xs n = { n with cbmJson := (addCbmIds xs n).cbmJson } := by
  induction xs generalizing n with
  | nil => rfl
  | cons x xs ih =>
    have hstep : addCbmIds (x :: xs) n = addCbmIds xs (n.addCbmId x) := rfl
    rw [hstep, ih (n.addCbmId x)]
    unfold HumanNode.addCbmId
    split <;> rfl

theorem newRow_path (hne : spec.relPath ≠ []) (id : ℕ) (slug slug' : Text) (attempt : ℕ) :
    (spec.newRow project id slug ((spec.create project).path slug' attempt) now).obsidianPath = some spec.relPath := by
  simp only [UpsertSpec.newRow, CreateHumanNodeInput.row, CreateHumanNodeInput.path, UpsertSpec.create]

theorem fileNode_newRow (project : Text) (now : ℕ) (hne : spec.relPath ≠ []) (id : ℕ) (slug slug' : Text) (attempt : ℕ) :
    FileNode project spec (spec.newRow project id slug ((spec.create project).path slug' attempt) now) :=
  ⟨rfl, rfl, rfl, rfl, rfl, rfl, fun _ => newRow_path hne id slug slug' attempt, rfl⟩

/-- **The path of a file finds its node** after the file. -/
theorem FileEffect.found (hw : db.WellFormed) (h : FileEffect host project vault now spec id outcome added db db')
    (hne : spec.relPath ≠ []) : ∃ m, m.id = id ∧ FileNode project spec m ∧
      db'.getNodeByObsidianPath project spec.relPath = some (addCbmIds (codeTargets added) m) := by
  have hplace : ∀ m : HumanNode, FileNode project spec m →
      ((addCbmIds (codeTargets added) m).project, (addCbmIds (codeTargets added) m).obsidianPath) =
        (project, some spec.relPath) := by
    intro m hm
    rw [addCbmIds_eq]
    simp only [hm.project_eq, hm.obsidianPath hne]
  rcases h.rows hw with ⟨node, hres, -, hmem, rfl, hnodes⟩ | ⟨attempt, hres, -, rfl, hnodes⟩
  · have hnode : FileNode project spec (spec.applied now node) :=
      ⟨(resolveExistingNode_mem hres).2, rfl, rfl, rfl, rfl, rfl, fun _ => rfl, rfl⟩
    refine ⟨spec.applied now node, rfl, hnode, ?_⟩
    rw [Db.getNodeByObsidianPath, hnodes]
    refine get_modify_of_new hw.nodeIds hmem rfl (hplace _ hnode) ?_
    rcases resolveExistingNode_path hres with hget | ⟨hget, -⟩
    · exact .inl hget
    · exact .inr hget
  · have hnode := fileNode_newRow project now hne db.nextNode
      (slugCandidate (titleSlug host spec.title now) attempt) (titleSlug host spec.title now) attempt
    refine ⟨_, rfl, hnode, ?_⟩
    have hget : db.getNodeByObsidianPath project spec.relPath = none := by
      cases hg : db.getNodeByObsidianPath project spec.relPath with
      | none => rfl
      | some m => simp [resolveExistingNode, hg] at hres
    rw [Db.getNodeByObsidianPath] at hget ⊢
    rw [hnodes, get_append_of_none hget, Rows.get, find?_cons_of_pos]
    simpa using hplace _ hnode

/-! ## What the other files keep -/

/-- What `walkVault` yields: no file twice, and none without a name. -/
structure Vault.Walked (vault : Vault) : Prop where
  nodup : vault.files.Nodup
  named : [] ∉ vault.files

/-- **The node that another path finds** stays as it is, if there is a file at that path. -/
theorem FileEffect.path_of_other
    {file : Text} (hw : db.WellFormed) (h : FileEffect host project vault now spec id outcome added db db')
    (hne : spec.relPath ≠ []) (hfile : file ≠ []) (hother : file ≠ spec.relPath) (hread : vault.read file ≠ .missing) :
    db'.getNodeByObsidianPath project file = db.getNodeByObsidianPath project file := by
  rw [Db.getNodeByObsidianPath, Db.getNodeByObsidianPath]
  rcases h.rows hw with ⟨node, hres, -, hmem, rfl, hnodes⟩ | ⟨attempt, -, -, rfl, hnodes⟩
  · rw [hnodes]
    refine get_modify_of_other fun r hr hid => ?_
    obtain rfl := hw.eq_of_id hr hmem hid
    rw [addCbmIds_eq]
    refine ⟨fun hkey => ?_, fun hkey => ?_⟩
    · simp only [Prod.mk.injEq] at hkey
      rcases resolveExistingNode_path hres with hget | ⟨-, -, -, hgone⟩
      · have := key_of_get hget
        simp only [Prod.mk.injEq, hkey.2, Option.some.injEq] at this
        exact hother this.2
      · rcases hgone file hkey.2 with h | h
        · exact hfile h
        · exact hread h
    · simp only [UpsertSpec.applied, UpdateHumanNodeInput.apply, UpsertSpec.update, getD_some,
        Prod.mk.injEq, Option.some.injEq] at hkey
      exact hother hkey.2.symm
  · rw [hnodes]
    refine get_append_singleton_of_ne ?_
    rw [addCbmIds_eq]
    simp only [newRow_path hne, ne_eq, Prod.mk.injEq, Option.some.injEq, not_and]
    exact fun _ h => hother h.symm

/-- The path of the node that holds a slug. -/
def holder (project slug : Text) (db : Db) : Option (Option Text) :=
  (db.getNodeBySlug project slug).map HumanNode.obsidianPath

/-- No node is found for a file: none has its path, and the slug of its title is free or held by the node of
a file that is there. -/
theorem resolveExistingNode_none_iff : resolveExistingNode project vault relPath slug db = .ok none ↔
      db.getNodeByObsidianPath project relPath = none ∧ (slug = [] ∨ ∀ q, holder project slug db = some q →
          ∃ p content, q = some p ∧ p ≠ [] ∧ vault.read p = .content content) := by
  rw [resolveExistingNode, holder]
  cases db.getNodeByObsidianPath project relPath with
  | some m => simp
  | none =>
    by_cases hslug : slug = []
    · simp [hslug]
    · simp only [hslug, if_false, true_and, false_or]
      cases db.getNodeBySlug project slug with
      | none => simp
      | some n =>
        simp only [map_some, Option.some.injEq, forall_eq']
        cases hp : n.obsidianPath with
        | none => simp
        | some p =>
          cases p with
          | nil => simp
          | cons c t => cases hr : vault.read (c :: t) <;> simp [hr]

/-- The look-up of a file fails: the slug of its title is held by the node of a file that cannot be read. -/
theorem resolveExistingNode_error_iff : (∃ e, resolveExistingNode project vault relPath slug db = .error e) ↔
      db.getNodeByObsidianPath project relPath = none ∧ slug ≠ [] ∧
        ∃ p, p ≠ [] ∧ holder project slug db = some (some p) ∧ vault.read p = .failed := by
  rw [resolveExistingNode, holder]
  cases db.getNodeByObsidianPath project relPath with
  | some m => simp
  | none =>
    by_cases hslug : slug = []
    · simp [hslug]
    · simp only [hslug, if_false, true_and, ne_eq, not_false_eq_true]
      cases db.getNodeBySlug project slug with
      | none => simp
      | some n =>
        simp only [map_some, Option.some.injEq]
        cases hp : n.obsidianPath with
        | none => simp
        | some p =>
          cases p with
          | nil => simp
          | cons c t => cases hr : vault.read (c :: t) <;> simp [hr]

/-- **Who holds a slug** stays, or a node without a file gets one, or the slug was free and is taken by the
node of the file. -/
theorem FileEffect.holder (hw : db.WellFormed) (h : FileEffect host project vault now spec id outcome added db db')
    (hne : spec.relPath ≠ []) (slug : Text) : holder project slug db' = holder project slug db ∨
      (holder project slug db' = some (some spec.relPath) ∧
        ∀ p, holder project slug db = some (some p) → p = [] ∨ vault.read p = .missing) := by
  rw [Obsidian.holder, Obsidian.holder, Db.getNodeBySlug, Db.getNodeBySlug]
  rcases h.rows hw with ⟨node, hres, -, hmem, rfl, hnodes⟩ | ⟨attempt, -, -, rfl, hnodes⟩
  · have hkeep : ∀ n : HumanNode, ((addCbmIds (codeTargets added) (spec.applied now n)).project,
        (addCbmIds (codeTargets added) (spec.applied now n)).slug) = (n.project, n.slug) := by
      intro n
      rw [addCbmIds_eq]
      rfl
    rw [hnodes, get_modify hkeep]
    cases hg : Rows.get (fun n : HumanNode => (n.project, n.slug)) (project, slug) db.nodes with
    | none => exact .inl rfl
    | some m =>
      by_cases hid : m.id = node.id
      · obtain rfl := hw.eq_of_id (mem_of_get hg) hmem hid
        simp only [map_some, if_true]
        rw [addCbmIds_eq]
        simp only [UpsertSpec.applied, UpdateHumanNodeInput.apply, UpsertSpec.update, getD_some,
          Option.some.injEq]
        rcases resolveExistingNode_path hres with hget | ⟨-, -, -, hgone⟩
        · have := key_of_get hget
          simp only [Prod.mk.injEq] at this
          exact .inl this.2.symm
        · exact .inr ⟨trivial, fun p hp => hgone p hp⟩
      · simp [hid]
  · rw [hnodes]
    cases hg : Rows.get (fun n : HumanNode => (n.project, n.slug)) (project, slug) db.nodes with
    | some m => exact .inl (by rw [get_append_of_some hg])
    | none =>
      rw [get_append_of_none hg, Rows.get, find?_cons]
      split
      · refine .inr ⟨?_, by simp⟩
        rw [addCbmIds_eq]
        simp only [map_some, newRow_path hne]
      · exact .inl rfl

variable {clock : Text → ℕ} {files : List Text} {file : Text}

theorem ne_of_mem_split {before after : List Text} {other : Text} (hnamed : [] ∉ files)
    (heq : files = before ++ other :: after) : other ≠ [] := by
  rintro rfl
  exact hnamed (heq ▸ by simp)

section

variable (project vault clock) (hdigits : ReadsDigits host) (hw : db.WellFormed) (hnamed : [] ∉ files)
include hdigits hw hnamed

/-- **Other files keep the node** that the path of a file finds. -/
theorem importFiles_path (hfile : file ≠ []) (hother : file ∉ files) (hread : vault.read file ≠ .missing) :
    (importFiles host project vault clock files db).2.getNodeByObsidianPath project file =
      db.getNodeByObsidianPath project file := by
  refine importFiles_invariant (P := fun db' =>
    db'.getNodeByObsidianPath project file = db.getNodeByObsidianPath project file) rfl ?_
  intro before other after heq ih
  have hw' := importFiles_wellFormed project vault clock before hdigits hw
  rcases importSingleFile_cases project vault (clock other) other hdigits hw' with
    ⟨hsame, -⟩ | ⟨spec, id, outcome, added, hreads, -, heffect⟩
  · rwa [hsame]
  · have hne := ne_of_mem_split hnamed heq
    rw [← ih]
    refine heffect.path_of_other hw' (hreads.relPath_eq ▸ hne) hfile ?_ hread
    rintro rfl
    exact hother (heq ▸ by simp [hreads.relPath_eq])

/-- **Who holds a slug after files**: what does not exclude a file that is there stays true. -/
theorem importFiles_holder {Q : Option (Option Text) → Prop}
    (hQ : ∀ q path, Q q → path ≠ [] → vault.read path ≠ .missing →
      (∀ p, q = some (some p) → p = [] ∨ vault.read p = .missing) → Q (some (some path)))
    (h : Q (holder project slug db)) : Q (holder project slug (importFiles host project vault clock files db).2) := by
  refine importFiles_invariant (P := fun db' => Q (holder project slug db')) h ?_
  intro before other after heq ih
  have hw' := importFiles_wellFormed project vault clock before hdigits hw
  rcases importSingleFile_cases project vault (clock other) other hdigits hw' with
    ⟨hsame, -⟩ | ⟨spec, id, outcome, added, hreads, -, heffect⟩
  · rwa [hsame]
  · have hne : spec.relPath ≠ [] := hreads.relPath_eq ▸ ne_of_mem_split hnamed heq
    rcases heffect.holder hw' hne slug with hsame | ⟨hnew, hold⟩
    · rwa [hsame]
    · rw [hnew]
      exact hQ _ _ ih hne (hreads.relPath_eq ▸ hreads.not_missing) hold

/-- **A file that was not found a node** is found none after other files. -/
theorem importFiles_resolve_none (hfile : file ≠ []) (hother : file ∉ files) (hread : vault.read file ≠ .missing)
    (h : resolveExistingNode project vault file slug db = .ok none) (n : HumanNode) :
    resolveExistingNode project vault file slug (importFiles host project vault clock files db).2 ≠ .ok (some n) := by
  intro hn
  obtain ⟨hnone, hslug⟩ := resolveExistingNode_none_iff.mp h
  rcases resolveExistingNode_path hn with hget | ⟨-, hne, hget, hgone⟩
  · rw [importFiles_path project vault clock hdigits hw hnamed hfile hother hread, hnone] at hget
    cases hget
  · have hheld := importFiles_holder project vault clock
      (Q := fun q => ∀ r, q = some r → ∃ p, r = some p ∧ p ≠ [] ∧ vault.read p ≠ .missing) hdigits hw hnamed
      (fun q path _ hpath hread _ r hr => ⟨path, (Option.some.inj hr).symm, hpath, hread⟩)
      (fun r hr => by
        obtain ⟨p, content, rfl, hp, hread⟩ := (hslug.resolve_left hne) r hr
        exact ⟨p, rfl, hp, by simp [hread]⟩)
    obtain ⟨p, hp, hpne, hpread⟩ := hheld n.obsidianPath (by rw [holder, hget]; rfl)
    exact (hgone p hp).elim hpne hpread

/-- A look-up that fails fails after other files. -/
theorem importFiles_resolve_error {e : ImportError} (hfile : file ≠ []) (hother : file ∉ files)
    (hread : vault.read file ≠ .missing) (h : resolveExistingNode project vault file slug db = .error e) :
    ∃ e, resolveExistingNode project vault file slug (importFiles host project vault clock files db).2 = .error e := by
  obtain ⟨hnone, hslug, p, hp, hheld, hfailed⟩ := resolveExistingNode_error_iff.mp ⟨e, h⟩
  rw [resolveExistingNode_error_iff, importFiles_path project vault clock hdigits hw hnamed hfile hother hread]
  refine ⟨hnone, hslug, p, hp, ?_, hfailed⟩
  refine importFiles_holder project vault clock (Q := fun q => q = some (some p)) hdigits hw hnamed ?_ hheld
  intro q path hq _ _ hgone
  rcases hgone p hq with h | h
  · exact absurd h hp
  · rw [hfailed] at h
    cases h

/-- A slug that is taken stays taken. -/
theorem importFiles_slug (h : db.getNodeBySlug project slug ≠ none) :
    (importFiles host project vault clock files db).2.getNodeBySlug project slug ≠ none := by
  have := importFiles_holder project vault clock (Q := fun q => q ≠ none) hdigits hw hnamed (fun _ _ _ _ _ _ => by simp)
    (by rwa [holder, ne_eq, map_eq_none_iff] : holder project slug db ≠ none)
  rwa [holder, ne_eq, map_eq_none_iff] at this

theorem importFiles_freeSlug (h : db.freeSlug project slug = none) :
    (importFiles host project vault clock files db).2.freeSlug project slug = none := by
  rw [Db.freeSlug, find?_eq_none] at h ⊢
  intro k hk hfree
  have htaken : db.getNodeBySlug project (slugCandidate slug k) ≠ none := by
    intro hnone
    exact h k hk (by simp [hnone])
  exact importFiles_slug project vault clock hdigits hw hnamed htaken (isNone_iff_eq_none.mp hfree)

end

end Ariad.Obsidian
