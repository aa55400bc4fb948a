import Ariad.Obsidian.EdgeLaws

/-!
# What the import of a file does

A file leaves the database as it is, or it changes one node: its row, its links and its edges.

* `Reads` — what a file that is not skipped says.
* `Upserted` — the node that is created or updated.
* `FileEffect` — the whole effect; `importSingleFile_cases`.
-/

namespace Ariad.Obsidian

open Human Text Rows List

variable {host : Host} {project relPath : Text} {vault : Vault} {now : ℕ} {db db' : Db}

/-! ## The node of the file -/

/-- The file is a note, and this is what it says. -/
def Reads (host : Host) (vault : Vault) (relPath : Text) (spec : UpsertSpec) : Prop :=
  isGenerated relPath = false ∧ ∃ content, content ≠ [] ∧ vault.read relPath = .content content ∧
    parseVaultFile host relPath content = .ok spec

/-- The row after an update, or after a creation, that is marked as synced. -/
def UpsertSpec.applied (spec : UpsertSpec) (now : ℕ) (n : HumanNode) : HumanNode :=
  { spec.update.apply now n with lastSyncedAt := some now }

/-- **The node of the file** has what the file says; it was found, or it is new. -/
inductive Upserted (host : Host) (project : Text) (vault : Vault) (now : ℕ) (spec : UpsertSpec) (db : Db) :
    ℕ → Option Text → Outcome → Db → Prop
  | updated (node : HumanNode)
      (found : resolveExistingNode project vault spec.relPath (slugify host spec.title) db = .ok (some node))
      (mem : node ∈ db.nodes)
      (changed : ¬spec.Unchanged node)
      (accepted : spec.update.check = .ok ()) :
      Upserted host project vault now spec db node.id (oldObsidianPath spec.relPath (some node)) .updated
        (markSynced node.id now (db.withUpdate node.id spec.update now))
  | created (row : HumanNode) (attempt : ℕ)
      (notFound : resolveExistingNode project vault spec.relPath (slugify host spec.title) db = .ok none)
      (created : createNode host (spec.create project) now db = .ok (row, db.withNode row spec.cbmNodeIds))
      (row_eq : row = (spec.create project).row db.nextNode
        (slugCandidate (titleSlug host spec.title now) attempt)
        ((spec.create project).path (titleSlug host spec.title now) attempt) now) :
      Upserted host project vault now spec db row.id none .created
        (markSynced row.id now (db.withNode row spec.cbmNodeIds))

/-- **The effect of a file**: the node, the edges of the old file are dropped, the edges of the links are
added, and the edges of the file that no link asks for are dropped. -/
def FileEffect (host : Host) (project : Text) (vault : Vault) (now : ℕ) (spec : UpsertSpec) (id : ℕ)
    (outcome : Outcome) (added : List HumanEdge) (db db' : Db) : Prop :=
  ∃ old up linked seen,
    Upserted host project vault now spec db id old outcome up ∧
    EdgesAdded project spec.relPath id
      (askedKeys host project id spec.relPath spec.humanBody (parseWikilinks spec.humanBody) up) seen added
      (dropOldEdges id old up) linked ∧
    db' = deleteStaleEdgesFromNode id (some spec.relPath) seen linked

variable {spec : UpsertSpec} {outcome : Outcome} {old : Option Text} {id : ℕ}

theorem parseVaultFile_relPath {content : Text}
    (h : parseVaultFile host relPath content = .ok spec) : spec.relPath = relPath := by
  rw [parseVaultFile] at h
  simp only [bind, Except.bind] at h
  split at h
  · cases h
  · split at h
    · cases h
    · split at h
      · cases h
      · simp only [pure, Except.pure, Except.ok.injEq] at h
        rw [← h]

theorem Reads.relPath_eq (h : Reads host vault relPath spec) : spec.relPath = relPath := by
  obtain ⟨-, content, -, -, hparse⟩ := h
  exact parseVaultFile_relPath hparse

theorem update_not_empty (spec : UpsertSpec) : ¬spec.update.IsEmpty := by
  intro h
  have := congrArg UpdateHumanNodeInput.title h
  simp [UpsertSpec.update] at this

theorem resolveExistingNode_mem {slug : Text} {node : HumanNode}
    (h : resolveExistingNode project vault relPath slug db = .ok (some node)) :
    node ∈ db.nodes ∧ node.project = project := by
  rw [resolveExistingNode] at h
  split at h
  · rename_i m hm
    obtain rfl : m = node := by simpa using h
    have hkey := key_of_get hm
    simp only [Prod.mk.injEq] at hkey
    exact ⟨mem_of_get hm, hkey.1⟩
  · split at h
    · cases h
    · split at h
      · cases h
      · rename_i m hm
        have hkey := key_of_get hm
        simp only [Prod.mk.injEq] at hkey
        have hm' : m = node → node ∈ db.nodes ∧ node.project = project := by
          rintro rfl
          exact ⟨mem_of_get hm, hkey.1⟩
        split at h
        · exact hm' (by simpa using h)
        · exact hm' (by simpa using h)
        · split at h
          · cases h
          · exact hm' (by simpa using h)
          · cases h

/-- **The outcome of `upsertNode`**: unchanged, or the node of the file. -/
theorem upsertNode_cases (hw : db.WellFormed) {existing : Option HumanNode}
    (hres : resolveExistingNode project vault spec.relPath (slugify host spec.title) db = .ok existing)
    (h : upsertNode host project spec existing now db = .ok ((id, outcome), db')) :
    (outcome = .unchanged ∧ db' = db ∧ ∃ node, existing = some node ∧ id = node.id ∧ spec.Unchanged node) ∨
      (outcome ≠ .unchanged ∧
        Upserted host project vault now spec db id (oldObsidianPath spec.relPath existing) outcome db') := by
  rw [upsertNode.eq_def] at h
  split at h
  · rename_i node
    split at h
    · rename_i hsame
      simp only [Except.ok.injEq, Prod.mk.injEq] at h
      obtain ⟨⟨rfl, rfl⟩, rfl⟩ := h
      exact .inl ⟨rfl, rfl, node, rfl, rfl, hsame⟩
    · rename_i hchanged
      split at h
      · cases h
      · rename_i r db1 hup
        simp only [Except.ok.injEq, Prod.mk.injEq] at h
        obtain ⟨⟨rfl, rfl⟩, rfl⟩ := h
        have hmem := (resolveExistingNode_mem hres).1
        rcases updateNode_ok hup with ⟨-, hr, hnone | hempty⟩ | ⟨-, hcheck, rfl, -⟩
        · rw [hr, hw.get_self hmem] at hnone
          cases hnone
        · exact absurd hempty (update_not_empty spec)
        · exact .inr ⟨by simp, .updated node hres hmem hchanged hcheck⟩
  · split at h
    · cases h
    · rename_i row db1 hcreate
      simp only [Except.ok.injEq, Prod.mk.injEq] at h
      obtain ⟨⟨rfl, rfl⟩, rfl⟩ := h
      obtain ⟨attempt, -, hrow, rfl⟩ := createNode_ok hcreate
      exact .inr ⟨by simp, .created row attempt hres hcreate hrow⟩

/-- The database with the node of the file, and the node in it. -/
theorem Upserted.wellFormed (hw : db.WellFormed) (h : Upserted host project vault now spec db id old outcome db') :
    db'.WellFormed := by
  cases h with
  | updated node found mem changed accepted =>
    exact (hw.withUpdate _ _ ⟨node, hw.get_self mem⟩).markSynced _ _
  | created row attempt notFound created row_eq =>
    exact (createNode_wellFormed hw created).markSynced _ _

theorem Upserted.source (hw : db.WellFormed) (h : Upserted host project vault now spec db id old outcome db') :
    ∃ n, db'.getNodeById id = some n ∧ n.project = project := by
  have hw' := h.wellFormed hw
  suffices ∃ n ∈ db'.nodes, n.id = id ∧ n.project = project by
    obtain ⟨n, hn, hid, hp⟩ := this
    exact ⟨n, hw'.get_iff.mpr ⟨hn, hid⟩, hp⟩
  cases h with
  | updated node found mem changed accepted =>
    have hp := (resolveExistingNode_mem found).2
    refine ⟨spec.applied now node, ?_, rfl, hp⟩
    simp only [markSynced, withUpdate_nodes]
    rw [Rows.mem_modify]
    refine .inr ⟨spec.update.apply now node, ?_, rfl, rfl⟩
    exact Rows.mem_modify.mpr (.inr ⟨node, mem, rfl, rfl⟩)
  | created row attempt notFound created row_eq =>
    refine ⟨{ row with lastSyncedAt := some now }, ?_, rfl, by rw [row_eq]; rfl⟩
    simp only [markSynced]
    rw [Rows.mem_modify]
    exact .inr ⟨row, by simp [Db.withNode], rfl, rfl⟩

/-- What the node of the file has after the upsert. -/
structure FileNode (project : Text) (spec : UpsertSpec) (n : HumanNode) : Prop where
  project_eq : n.project = project
  title : n.title = spec.title
  bodyMarkdown : n.bodyMarkdown = spec.humanBody
  frontmatter : n.frontmatter = spec.fm.stored
  status : n.status = spec.status
  tags : n.tags = spec.tags
  obsidianPath : spec.relPath ≠ [] → n.obsidianPath = some spec.relPath
  cbmJson : n.cbmJson = spec.cbmNodeIds.map jsonNum

/-- **The nodes after the upsert**: the node of the file, and the others. -/
theorem Upserted.nodes (hw : db.WellFormed) (h : Upserted host project vault now spec db id old outcome db') :
    ∃ node, node.id = id ∧ FileNode project spec node ∧ ∀ n, n ∈ db'.nodes ↔ (n ∈ db.nodes ∧ n.id ≠ id) ∨ n = node := by
  cases h with
  | updated node found mem changed accepted =>
    refine ⟨spec.applied now node, rfl, ⟨(resolveExistingNode_mem found).2, rfl, rfl, rfl, rfl, rfl, fun _ => rfl, rfl⟩,
      fun n => ?_⟩
    have hnodes : (markSynced node.id now (db.withUpdate node.id spec.update now)).nodes =
        Rows.modify HumanNode.id node.id (spec.applied now) db.nodes := by
      simp only [markSynced, withUpdate_nodes]
      exact modify_modify fun _ => rfl
    rw [hnodes, Rows.mem_modify]
    constructor
    · rintro (h | ⟨r, hr, hid, rfl⟩)
      · exact .inl h
      · obtain rfl := hw.eq_of_id hr mem hid
        exact .inr rfl
    · rintro (h | rfl)
      · exact .inl h
      · exact .inr ⟨node, mem, rfl, rfl⟩
  | created row attempt notFound created row_eq =>
    refine ⟨{ row with lastSyncedAt := some now }, rfl, ?_, fun n => ?_⟩
    · rw [row_eq]
      refine ⟨rfl, rfl, rfl, rfl, rfl, rfl, fun hpath => ?_, rfl⟩
      have : (spec.create project).path (titleSlug host spec.title now) attempt = spec.relPath := by
        rw [CreateHumanNodeInput.path]
        simp only [UpsertSpec.create]
      exact congrArg some this
    · have hfresh : ∀ m ∈ db.nodes, m.id ≠ row.id := by
        intro m hm
        have := hw.nodeFresh m hm
        rw [row_eq]
        exact Nat.ne_of_lt this
      simp only [markSynced]
      rw [Rows.mem_modify]
      simp only [Db.withNode, syncCbmLinks_nodes, mem_append, mem_singleton]
      constructor
      · rintro (⟨hn | rfl, hne⟩ | ⟨r, hr | rfl, hid, rfl⟩)
        · exact .inl ⟨hn, hne⟩
        · exact absurd rfl hne
        · exact absurd hid (hfresh r hr)
        · exact .inr rfl
      · rintro (⟨hn, hne⟩ | rfl)
        · exact .inl ⟨.inl hn, hne⟩
        · exact .inr ⟨row, .inr rfl, rfl, rfl⟩

theorem Upserted.links (h : Upserted host project vault now spec db id old outcome db') {m : ℕ × Num} :
    m ∈ db'.links ↔ (m ∈ db.links ∧ m.1 ≠ id) ∨ (m.1 = id ∧ m.2 ∈ spec.cbmNodeIds ∧ validCbmId m.2) := by
  cases h with
  | updated node found mem changed accepted => exact mem_links_syncCbmLinks
  | created row attempt notFound created row_eq => exact mem_links_syncCbmLinks

theorem Upserted.edges (h : Upserted host project vault now spec db id old outcome db') : db'.edges = db.edges := by
  cases h with
  | updated node found mem changed accepted => exact withUpdate_edges _ _
  | created row attempt notFound created row_eq => rfl

/-- A node that has edges was found. -/
theorem Upserted.of_edge
    (hw : db.WellFormed) (h : Upserted host project vault now spec db id old outcome db') {e : HumanEdge}
    (he : e ∈ db.edges) (hs : e.source = id) :
    ∃ node, resolveExistingNode project vault spec.relPath (slugify host spec.title) db = .ok (some node) ∧
      node.id = id ∧ ¬spec.Unchanged node ∧ spec.update.check = .ok () ∧
      old = oldObsidianPath spec.relPath (some node) := by
  cases h with
  | updated node found mem changed accepted => exact ⟨node, found, rfl, changed, accepted, rfl⟩
  | created row attempt notFound created row_eq =>
    obtain ⟨m, hm, hmi, -⟩ := hw.edgeSource e he
    have := hw.nodeFresh m hm
    have hrow : row.id = db.nextNode := by
      rw [row_eq]
      rfl
    omega

theorem mem_edges_dropOldEdges {e : HumanEdge} : e ∈ (dropOldEdges id old db).edges ↔
      e ∈ db.edges ∧ (e.source = id → ∀ file, old = some file → e.sourceFile ≠ some file) := by
  unfold dropOldEdges
  cases old with
  | none => simp
  | some file =>
    simp only [deleteStaleEdgesFromNode, mem_filter, Option.some.injEq, forall_eq',
      contains_nil, Bool.not_false, Bool.and_true, Bool.not_eq_true', Bool.and_eq_false_iff,
      decide_eq_false_iff_not, ne_eq]
    rw [imp_iff_not_or]

theorem dropOldEdges_wellFormed (hw : db.WellFormed) (id : ℕ) (old : Option Text) :
    (dropOldEdges id old db).WellFormed := by
  unfold dropOldEdges
  split
  · exact hw
  · exact hw.deleteStaleEdges _ _ _

@[simp] theorem dropOldEdges_nodes (id : ℕ) (old : Option Text) : (dropOldEdges id old db).nodes = db.nodes := by
  unfold dropOldEdges
  split <;> rfl

@[simp] theorem dropOldEdges_links (id : ℕ) (old : Option Text) : (dropOldEdges id old db).links = db.links := by
  unfold dropOldEdges
  split <;> rfl

/-- **A file changes nothing, or it has its effect.** -/
theorem importSingleFile_cases (project : Text) (vault : Vault) (now : ℕ) (relPath : Text)
    (hdigits : ReadsDigits host) (hw : db.WellFormed) : ((importSingleFile host project vault now relPath db).2 = db ∧
      (importSingleFile host project vault now relPath db).1 ≠ .created ∧
      (importSingleFile host project vault now relPath db).1 ≠ .updated) ∨
    ∃ spec id outcome added, Reads host vault relPath spec ∧
      (importSingleFile host project vault now relPath db).1 = outcome ∧
      FileEffect host project vault now spec id outcome added db
        (importSingleFile host project vault now relPath db).2 := by
  rw [importSingleFile]
  split
  · exact .inl ⟨rfl, by simp, by simp⟩
  · rename_i hgen
    split
    iterate 3
      · exact .inl ⟨rfl, by simp, by simp⟩
    · rename_i content hne hread
      rw [importContent]
      split
      · exact .inl ⟨rfl, by simp, by simp⟩
      · rename_i spec hparse
        obtain rfl := parseVaultFile_relPath hparse
        split
        · exact .inl ⟨rfl, by simp, by simp⟩
        · rename_i existing hres
          split
          · exact .inl ⟨rfl, by simp, by simp⟩
          · rename_i id outcome up hup
            rcases upsertNode_cases hw hres hup with ⟨rfl, rfl, -⟩ | ⟨hchanged, hups⟩
            · exact .inl ⟨rfl, by simp, by simp⟩
            · rw [if_neg hchanged]
              have hw1 := dropOldEdges_wellFormed (hups.wellFormed hw) id
                (oldObsidianPath spec.relPath existing)
              obtain ⟨seen, added, h1, h2⟩ := createEdges_added spec.relPath spec.humanBody now hdigits hw1
                (by
                  obtain ⟨n, hn, hp⟩ := hups.source hw
                  refine ⟨n, ?_, hp⟩
                  rw [Db.getNodeById, dropOldEdges_nodes]
                  exact hn)
                (parseWikilinks spec.humanBody)
              have hplaces : (dropOldEdges id (oldObsidianPath spec.relPath existing) up).nodes.map place =
                  up.nodes.map place := by simp
              have hreads : Reads host vault spec.relPath spec :=
                ⟨by simpa using hgen, content, hne, hread, hparse⟩
              rw [processWikilinks]
              simp only [h1]
              refine .inr ⟨spec, id, outcome, added, hreads, rfl, _, up, _, seen, hups, ?_, rfl⟩
              rwa [askedKeys_congr hplaces] at h2

theorem FileEffect.wellFormed {added : List HumanEdge}
    (h : FileEffect host project vault now spec id outcome added db db') : db'.WellFormed := by
  obtain ⟨old, up, linked, seen, -, hadd, rfl⟩ := h
  exact hadd.wellFormed.deleteStaleEdges _ _ _

theorem importSingleFile_wellFormed (hdigits : ReadsDigits host) (hw : db.WellFormed) :
    (importSingleFile host project vault now relPath db).2.WellFormed := by
  rcases importSingleFile_cases project vault now relPath hdigits hw with ⟨h, -⟩ | ⟨spec, id, outcome, added, -, -, h⟩
  · rwa [h]
  · exact h.wellFormed

/-! ## All files -/

variable {clock : Text → ℕ}

theorem importFiles_append (files more : List Text) : importFiles host project vault clock (files ++ more) db =
      ((importFiles host project vault clock files db).1 ++
          (importFiles host project vault clock more (importFiles host project vault clock files db).2).1,
        (importFiles host project vault clock more (importFiles host project vault clock files db).2).2) := by
  induction files generalizing db with
  | nil => rfl
  | cons f files ih => simp [importFiles, ih]

theorem importFiles_concat (files : List Text) (file : Text) :
    (importFiles host project vault clock (files ++ [file]) db).2 =
      (importSingleFile host project vault (clock file) file (importFiles host project vault clock files db).2).2 := by
  rw [importFiles_append]
  rfl

/-- **What every file keeps holds after all files.** -/
theorem importFiles_invariant {P : Db → Prop} {files : List Text} (h0 : P db)
    (hstep : ∀ before file after, files = before ++ file :: after →
      P (importFiles host project vault clock before db).2 → P (importSingleFile host project vault (clock file) file
        (importFiles host project vault clock before db).2).2) :
    P (importFiles host project vault clock files db).2 := by
  induction files using List.reverseRecOn with
  | nil => exact h0
  | append_singleton files file ih =>
    rw [importFiles_concat]
    refine hstep files file [] rfl (ih fun before f after heq => hstep before f (after ++ [file]) ?_)
    simp [heq]

theorem importFiles_wellFormed (project : Text) (vault : Vault) (clock : Text → ℕ) (files : List Text)
    (hdigits : ReadsDigits host) (hw : db.WellFormed) : (importFiles host project vault clock files db).2.WellFormed :=
  importFiles_invariant hw fun _ _ _ _ h => importSingleFile_wellFormed hdigits h

end Ariad.Obsidian
