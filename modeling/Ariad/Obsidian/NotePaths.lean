import Ariad.Human.Backup
import Ariad.Obsidian.FileRows
import Ariad.Obsidian.Generator
import Ariad.Obsidian.Linking

/-!
# The paths of notes

* `PathsUnique` — no two nodes of a project have the same path.
* `Writer` — the calls that set paths; `Writer.PathFree` — the path that a call sets is not taken.
* `writers_paths` — in every run of such calls paths stay unique, and an import never gives two files to
  one node.
* `generateVault_invariant` — what marking nodes and creating them at free paths keeps, an export keeps.
-/

open List

namespace Ariad.Obsidian

/-! ## What an export does to the database -/

open Human Text

variable {host : Host} {opts : GenerateOptions} {clock : Text → ℕ} {P : Db → Prop}

variable {s : Db × Folder}

section

variable (hsync : ∀ db id now, P db → P (markSynced id now db))
include hsync

variable {nodes : List HumanNode}

theorem exportFile_invariant {id : ℕ} {relPath content : Text} {outcome : Exported} {now : ℕ} (h : P s.1) :
    P (exportFile opts id relPath content outcome now s).2.1 := by
  rw [exportFile]
  split
  · exact hsync _ _ _ h
  · exact h

theorem syncSingleNode_invariant (node : HumanNode) (h : P s.1) : P (syncSingleNode host opts clock node s).2.1 := by
  rw [syncSingleNode.eq_def]
  split
  · exact h
  · exact h
  · split
    · exact h
    · exact exportFile_invariant hsync h
    · simp only
      split
      · exact exportFile_invariant hsync h
      · exact h

theorem syncNodes_invariant (nodes : List HumanNode) (h : P s.1) : P (syncNodes host opts clock nodes s).2.1 := by
  induction nodes generalizing s with
  | nil => exact h
  | cons node nodes ih => exact ih (syncSingleNode_invariant hsync node h)

end

/-- The creation of an auto note, where the path is free. -/
def KeepsAutoNotes (host : Host) (opts : GenerateOptions) (P : Db → Prop) : Prop :=
  ∀ (spec : AutoNoteSpec) (now : ℕ) (db : Db) (row : HumanNode) (db' : Db), spec.relPath ≠ [] → P db →
    db.getNodeByObsidianPath opts.project spec.relPath = none →
    createNode host (spec.input opts.project) now db = .ok (row, db') → P db'

theorem createAutoNote_invariant (hsync : ∀ db id now, P db → P (markSynced id now db))
    (hcreate : KeepsAutoNotes host opts P) {spec : AutoNoteSpec} {now : ℕ} (hne : spec.relPath ≠ []) (h : P s.1) (hfree : s.1.getNodeByObsidianPath opts.project spec.relPath = none) :
    P (createAutoNote host opts now spec s).2.1 := by
  rw [createAutoNote]
  split
  · exact h
  · rename_i node db hc
    exact exportFile_invariant (s := (db, s.2)) hsync (hcreate spec now s.1 node db hne h hfree hc)

theorem autoNotes_invariant (clock : Text → ℕ) (hsync : ∀ db id now, P db → P (markSynced id now db))
    (hcreate : KeepsAutoNotes host opts P) {specs : List AutoNoteSpec} (hne : ∀ spec ∈ specs, spec.relPath ≠ []) (h : P s.1) : P (autoNotes host opts clock specs s).2.1 := by
  induction specs generalizing s with
  | nil => exact h
  | cons spec specs ih =>
    obtain ⟨hspec, hrest⟩ := forall_mem_cons.mp hne
    rw [autoNotes]
    cases ha : autoNote host opts (clock spec.relPath) spec s with
    | none => exact h
    | some s' =>
      refine ih hrest ?_
      rw [autoNote] at ha
      split at ha
      · cases ha
      · obtain rfl := Option.some.inj ha
        exact h
      all_goals
        split at ha
        · obtain rfl := Option.some.inj ha
          exact h
        · rename_i hfree
          obtain rfl := Option.some.inj ha
          exact createAutoNote_invariant hsync hcreate hspec h (by simpa using hfree)

theorem autoSpecs_relPath_ne (host : Host) (opts : GenerateOptions) (clock : Text → ℕ) :
    ∀ spec ∈ autoSpecs host opts clock, spec.relPath ≠ [] := by
  intro spec hspec
  rw [autoSpecs] at hspec
  split at hspec
  · cases hspec
  · rcases mem_append.mp hspec with h | h
    · split at h
      · obtain ⟨m, -, hm⟩ := mem_filterMap.mp h
        rw [CodeModule.spec] at hm
        split at hm
        · cases hm
        · rw [← Option.some.inj hm]
          simp
      · cases h
    · split at h
      · obtain ⟨r, -, hr⟩ := mem_filterMap.mp h
        rw [CodeRoute.spec] at hr
        split at hr
        · cases hr
        · rw [← Option.some.inj hr]
          simp
      · cases h

theorem generateVaultIndexAndTemplate_db (host : Host) (opts : GenerateOptions) (clock : Text → ℕ)
    (s : Db × Folder) : (generateVaultIndexAndTemplate host opts clock s).2.1 = s.1 := by
  rw [generateVaultIndexAndTemplate]
  simp only
  split
  · rfl
  · split <;> rfl

/-- **What marking a node and creating one at a free path keep, an export keeps.** -/
theorem generateVault_invariant (hsync : ∀ db id now, P db → P (markSynced id now db))
    (hcreate : KeepsAutoNotes host opts P) (h : P s.1) : P (generateVault host opts clock s).2.1 := by
  have hnodes : P (syncHumanNodesToVault host opts clock s).2.1 := syncNodes_invariant hsync _ h
  have hauto := autoNotes_invariant clock hsync hcreate (autoSpecs_relPath_ne host opts clock) hnodes
  rw [generateVault]
  simp only
  split
  · rename_i s' hs
    rw [hs] at hauto
    exact hauto
  · rename_i s' hs
    rw [hs] at hauto
    rw [generateVaultIndexAndTemplate_db]
    exact hauto

end Ariad.Obsidian

namespace Ariad.Obsidian

open Human Text

/-! ## Unique paths -/

variable {host : Host} {project : Text} {vault : Vault} {now : ℕ} {db db' : Db}

/-- **Paths are unique** in every project. -/
def PathsUnique (nodes : List HumanNode) : Prop :=
  ∀ m ∈ nodes, ∀ n ∈ nodes, m.project = n.project → ∀ p, m.obsidianPath = some p → n.obsidianPath = some p →
    m.id = n.id

/-- No node of the project but the one with the id has the path. -/
def PathFreeFor (project : Text) (id : ℕ) (path : Option Text) (nodes : List HumanNode) : Prop :=
  ∀ n ∈ nodes, n.project = project → n.id ≠ id → ∀ p, path = some p → n.obsidianPath ≠ some p

theorem PathsUnique.append (h : PathsUnique nodes) {row : HumanNode}
    (hfree : PathFreeFor row.project row.id row.obsidianPath nodes) : PathsUnique (nodes ++ [row]) := by
  intro m hm n hn hproject p hmp hnp
  rcases mem_append.mp hm with hm' | hm' <;> rcases mem_append.mp hn with hn' | hn'
  · exact h m hm' n hn' hproject p hmp hnp
  · obtain rfl := mem_singleton.mp hn'
    by_contra hne
    exact hfree m hm' hproject hne p hnp hmp
  · obtain rfl := mem_singleton.mp hm'
    by_contra hne
    exact hfree n hn' hproject.symm (Ne.symm hne) p hmp hnp
  · obtain rfl := mem_singleton.mp hm'
    obtain rfl := mem_singleton.mp hn'
    rfl

/-- A node that is changed, to a path that is free. -/
theorem PathsUnique.modify (h : PathsUnique nodes) {id : ℕ}
    {f : HumanNode → HumanNode} (hid : ∀ n, (f n).id = n.id) (hproject : ∀ n, (f n).project = n.project)
    (hfree : ∀ n ∈ nodes, n.id = id → PathFreeFor n.project id (f n).obsidianPath nodes) :
    PathsUnique (Rows.modify HumanNode.id id f nodes) := by
  intro m hm n hn hsame p hmp hnp
  rcases Rows.mem_modify.mp hm with ⟨hm, hmi⟩ | ⟨m', hm', hmi, rfl⟩ <;>
    rcases Rows.mem_modify.mp hn with ⟨hn, hni⟩ | ⟨n', hn', hni, rfl⟩
  · exact h m hm n hn hsame p hmp hnp
  · exact absurd hmp (hfree n' hn' hni m hm (hsame.trans (hproject n')) hmi p hnp)
  · exact absurd hnp (hfree m' hm' hmi n hn (hsame.symm.trans (hproject m')) hni p hmp)
  · rw [hid, hid, hmi, hni]

/-- A change that leaves the path. -/
theorem PathsUnique.modify_of_path (h : PathsUnique nodes) {id : ℕ}
    {f : HumanNode → HumanNode} (hid : ∀ n, (f n).id = n.id) (hproject : ∀ n, (f n).project = n.project)
    (hpath : ∀ n, (f n).obsidianPath = n.obsidianPath) : PathsUnique (Rows.modify HumanNode.id id f nodes) := by
  refine h.modify hid hproject fun n hn hni m hm hmp hne p hp hm' => hne ?_
  rw [hpath] at hp
  exact (h m hm n hn hmp p hm' hp).trans hni

theorem path_free_of_get {p : Text} (h : db.getNodeByObsidianPath project p = none) {n : HumanNode}
    (hn : n ∈ db.nodes) (hproject : n.project = project) : n.obsidianPath ≠ some p := by
  intro hp
  have := Rows.get_eq_none_iff.mp h n hn
  simp only [hproject, hp, ne_eq, not_true_eq_false] at this

/-! ## Calls that set paths -/

/-- The path that `createNode` gives is free. -/
def CreatesFree (host : Host) (input : CreateHumanNodeInput) (now : ℕ) (db : Db) : Prop :=
  ∀ attempt, db.freeSlug input.project (titleSlug host input.title now) = some attempt →
    ∀ n ∈ db.nodes, n.project = input.project →
      n.obsidianPath ≠ some (input.path (titleSlug host input.title now) attempt)

theorem createNode_paths {input : CreateHumanNodeInput} {row : HumanNode} (h : PathsUnique db.nodes)
    (hfree : CreatesFree host input now db) (hc : createNode host input now db = .ok (row, db')) :
    PathsUnique db'.nodes := by
  obtain ⟨attempt, hattempt, hrow, rfl⟩ := createNode_ok hc
  simp only [Db.withNode, syncCbmLinks_nodes]
  refine h.append fun n hn hproject _ p hp => ?_
  rw [hrow] at hproject hp
  obtain rfl := Option.some.inj hp
  exact hfree attempt hattempt n hn hproject

/-- A given path is free if the search for it finds nothing. -/
theorem createsFree_of_get {input : CreateHumanNodeInput} {p : Text} (hne : p ≠ [])
    (hp : input.obsidianPath = some p) (h : db.getNodeByObsidianPath input.project p = none) :
    CreatesFree host input now db := by
  intro attempt _ n hn hproject
  have hpath : input.path (titleSlug host input.title now) attempt = p := by
    simp only [CreateHumanNodeInput.path, hp]
  rw [hpath]
  exact path_free_of_get h hn hproject

/-- A call that sets paths. What the vault lists is walked. -/
inductive Writer where
  | createNode (input : CreateHumanNodeInput) (now : ℕ)
  | updateNode (id : ℕ) (input : UpdateHumanNodeInput) (now : ℕ)
  | importVault (project : Text) (vault : Vault) (walked : vault.Walked) (clock : Text → ℕ)
  | generateVault (opts : GenerateOptions) (folder : Folder) (clock : Text → ℕ)
  | importBackup (project : Text) (noteClock edgeClock : ℕ → ℕ) (backup : Backup)

/-- The database after a call. A call that fails leaves it. -/
def Writer.run (host : Host) : Writer → Db → Db
  | .createNode input now, db =>
    match Human.createNode host input now db with
    | .ok (_, db') => db'
    | .error _ => db
  | .updateNode id input now, db =>
    match Human.updateNode id input now db with
    | .ok (_, db') => db'
    | .error _ => db
  | .importVault project vault _ clock, db => (Obsidian.importVault host project vault clock db).2
  | .generateVault opts folder clock, db => (Obsidian.generateVault host opts clock (db, folder)).2.1
  | .importBackup project noteClock edgeClock backup, db =>
    Human.importBackup host project noteClock edgeClock backup db

def runWriters (host : Host) (calls : List Writer) (db : Db) : Db :=
  calls.foldl (fun db call => call.run host db) db

/-- **The path that a call sets is free**: that of a new node, that of an update, and those that a backup
without a path makes. Imports of a vault and exports look for the path first. -/
def Writer.PathFree (host : Host) : Writer → Db → Prop
  | .createNode input now, db => CreatesFree host input now db
  | .updateNode id input _, db => input.check = .ok () → ∀ node ∈ db.nodes, node.id = id →
    ∀ p, input.obsidianPath = some (some p) → PathFreeFor node.project id (some p) db.nodes
  | .importBackup project noteClock _ backup, db =>
    ∀ before note after, backup.notes = before ++ note :: after → nonempty note.obsidianPath = none →
      (importNotes host project noteClock before db).getNodeBySlug project note.slug = none →
      CreatesFree host (note.input project) (noteClock note.id)
        (importNotes host project noteClock before db)
  | _, _ => True

theorem updateNode_paths {id : ℕ} {input : UpdateHumanNodeInput} {r : Option HumanNode}
    (h : PathsUnique db.nodes) (hfree : (Writer.updateNode id input now).PathFree host db)
    (hu : updateNode id input now db = .ok (r, db')) : PathsUnique db'.nodes := by
  rcases updateNode_ok hu with ⟨rfl, -⟩ | ⟨-, hcheck, rfl, -⟩
  · exact h
  · rw [withUpdate_nodes]
    cases hp : input.obsidianPath with
    | none =>
      refine h.modify_of_path (fun _ => rfl) (fun _ => rfl) fun n => ?_
      simp [UpdateHumanNodeInput.apply, hp]
    | some path =>
      refine h.modify (fun _ => rfl) (fun _ => rfl) fun n hn hid => ?_
      simp only [UpdateHumanNodeInput.apply, hp, Option.getD_some]
      intro m hm hproject hne p hpath
      exact hfree hcheck n hn hid p (hp.trans (congrArg some hpath)) m hm hproject hne p rfl

theorem markSynced_paths (h : PathsUnique db.nodes) (id now : ℕ) : PathsUnique (markSynced id now db).nodes :=
  h.modify_of_path (fun _ => rfl) (fun _ => rfl) fun _ => rfl

/-- **A file keeps paths unique**: its path goes to a node only if no other has it. -/
theorem FileEffect.paths {spec : UpsertSpec} {id : ℕ} {outcome : Outcome} {added : List HumanEdge}
    (hw : db.WellFormed) (h : FileEffect host project vault now spec id outcome added db db')
    (hne : spec.relPath ≠ []) (hp : PathsUnique db.nodes) : PathsUnique db'.nodes := by
  rcases h.rows hw with ⟨node, hres, -, hmem, rfl, hnodes⟩ | ⟨attempt, hres, -, rfl, hnodes⟩
  · rw [hnodes]
    have hproject := (resolveExistingNode_mem hres).2
    have hfields : ∀ n : HumanNode, (addCbmIds (codeTargets added) (spec.applied now n)).obsidianPath =
        some spec.relPath ∧ (addCbmIds (codeTargets added) (spec.applied now n)).project = n.project := by
      intro n
      rw [addCbmIds_eq]
      exact ⟨rfl, rfl⟩
    refine hp.modify (fun n => addCbmIds_id _ _) (fun n => (hfields n).2) fun n hn hid => ?_
    obtain rfl := hw.eq_of_id hn hmem hid
    rw [(hfields n).1]
    intro m hm hmp hne' p hpath hm'
    obtain rfl := Option.some.inj hpath
    rcases resolveExistingNode_path hres with hget | ⟨hnone, -⟩
    · have hkey := Rows.key_of_get hget
      simp only [Prod.mk.injEq] at hkey
      exact hne' (hp m hm n hn hmp _ hm' hkey.2)
    · exact path_free_of_get hnone hm (hmp.trans hproject) hm'
  · rw [hnodes]
    refine hp.append fun n hn hproject _ p hpath => ?_
    rw [addCbmIds_eq] at hpath hproject
    simp only [newRow_path hne, Option.some.injEq] at hpath
    subst hpath
    exact path_free_of_get (resolveExistingNode_none_iff.mp hres).1 hn hproject

theorem importVault_paths {clock : Text → ℕ} (hdigits : ReadsDigits host) (hw : db.WellFormed)
    (hwalked : vault.Walked) (h : PathsUnique db.nodes) :
    PathsUnique (importVault host project vault clock db).2.nodes := by
  refine importFiles_invariant (P := fun db => PathsUnique db.nodes) h fun before file after heq ih => ?_
  have hw' := importFiles_wellFormed project vault clock before hdigits hw
  rcases importSingleFile_cases project vault (clock file) file hdigits hw' with
    ⟨hsame, -⟩ | ⟨spec, id, outcome, added, hreads, -, heffect⟩
  · rwa [hsame]
  · exact heffect.paths hw' (hreads.relPath_eq ▸ ne_of_mem_split hwalked.named heq) ih

theorem generateVault_paths {opts : GenerateOptions} {clock : Text → ℕ}
    (h : PathsUnique s.1.nodes) : PathsUnique (generateVault host opts clock s).2.1.nodes := by
  refine generateVault_invariant (P := fun db => PathsUnique db.nodes) (fun _ id now h => markSynced_paths h id now)
    (fun spec now db row db' hne h hget hc => ?_) h
  exact createNode_paths h (createsFree_of_get hne rfl hget) hc

theorem PathsUnique.of_places (h : PathsUnique db.nodes) (hplaces : db'.nodes.map place = db.nodes.map place) :
    PathsUnique db'.nodes := by
  have back : ∀ n ∈ db'.nodes, ∃ m ∈ db.nodes, place m = place n := by
    intro n hn
    have hmem : place n ∈ db.nodes.map place := hplaces ▸ mem_map_of_mem hn
    exact mem_map.mp hmem
  intro m hm n hn hproject p hmp hnp
  obtain ⟨m', hm', hmplace⟩ := back m hm
  obtain ⟨n', hn', hnplace⟩ := back n hn
  simp only [place, Prod.mk.injEq] at hmplace hnplace
  have := h m' hm' n' hn' (hmplace.2.1.trans (hproject.trans hnplace.2.1.symm)) p
    (hmplace.2.2.2.trans hmp) (hnplace.2.2.2.trans hnp)
  exact hmplace.1.symm.trans (this.trans hnplace.1)

theorem importEdge_places (project : Text) (newId : ℕ → Option ℕ) (now : ℕ) (hw : db.WellFormed) (edge : BackupEdge) :
    (importEdge project newId now db edge).WellFormed ∧
      (importEdge project newId now db edge).nodes.map place = db.nodes.map place := by
  rw [importEdge]
  split
  · exact ⟨hw, rfl⟩
  · split
    · rename_i row db' hc
      refine ⟨createEdge_wellFormed hw hc, ?_⟩
      obtain ⟨target, -, ⟨-, rfl⟩ | ⟨-, -, -, rfl⟩⟩ := createEdge_ok hc
      · rfl
      · rw [withEdge_nodes hw]
        exact Rows.map_modify fun r => place_addCbmIds _ r
    · exact ⟨hw, rfl⟩

theorem importEdges_places (project : Text) (newId : ℕ → Option ℕ) (clock : ℕ → ℕ) (edges : List BackupEdge)
    (hw : db.WellFormed) : (importEdges project newId clock edges db).WellFormed ∧
      (importEdges project newId clock edges db).nodes.map place = db.nodes.map place := by
  induction edges generalizing db with
  | nil => exact ⟨hw, rfl⟩
  | cons edge edges ih =>
    obtain ⟨hw', hplaces⟩ := importEdge_places project newId (clock edge.id) hw edge
    obtain ⟨hw'', hrest⟩ := ih hw'
    exact ⟨hw'', hrest.trans hplaces⟩

theorem importNote_wellFormed (hw : db.WellFormed) (note : BackupNote) :
    (importNote host project now db note).WellFormed := by
  rw [importNote]
  split
  · exact hw
  · split
    · exact hw
    · split
      · exact createNode_wellFormed hw ‹_›
      · exact hw

theorem importNotes_concat (clock : ℕ → ℕ) (notes : List BackupNote) (note : BackupNote) :
    importNotes host project clock (notes ++ [note]) db =
      importNote host project (clock note.id) (importNotes host project clock notes db) note := by
  simp [importNotes]

/-- The notes of a backup keep paths unique, where those without a path get a free one. -/
theorem importNotes_paths {clock : ℕ → ℕ} {notes : List BackupNote} (hw : db.WellFormed) (h : PathsUnique db.nodes)
    (hfree : ∀ before note after, notes = before ++ note :: after → nonempty note.obsidianPath = none →
      (importNotes host project clock before db).getNodeBySlug project note.slug = none →
      CreatesFree host (note.input project) (clock note.id) (importNotes host project clock before db)) :
    (importNotes host project clock notes db).WellFormed ∧
      PathsUnique (importNotes host project clock notes db).nodes := by
  induction notes using List.reverseRecOn with
  | nil => exact ⟨hw, h⟩
  | append_singleton notes note ih =>
    obtain ⟨hw', h'⟩ := ih fun before n after heq => hfree before n (after ++ [note]) (by simp [heq])
    rw [importNotes_concat]
    refine ⟨importNote_wellFormed hw' note, ?_⟩
    rw [importNote]
    split
    · exact h'
    · rename_i hslug
      split
      · exact h'
      · rename_i hpath
        split
        · rename_i row db' hc
          refine createNode_paths h' ?_ hc
          cases hp : nonempty note.obsidianPath with
          | none => exact hfree notes note [] rfl hp (by simpa using hslug)
          | some p =>
            have hne : p ≠ [] := by
              rintro rfl
              unfold nonempty at hp
              split at hp <;> simp at hp
            have hget : (importNotes host project clock notes db).getNodeByObsidianPath project p = none := by
              simpa [hp] using hpath
            exact createsFree_of_get hne (by exact hp) hget
        · exact h'

/-! ## Files of one import -/

/-- The node into which a file is imported. -/
def importedNode (host : Host) (project : Text) (vault : Vault) (now : ℕ) (relPath : Text) (db : Db) :
    Option ℕ :=
  if isGenerated relPath then none
  else
    match vault.read relPath with
    | .failed | .missing | .content [] => none
    | .content content =>
      match parseVaultFile host relPath content with
      | .error _ => none
      | .ok spec =>
        match resolveExistingNode project vault relPath (slugify host spec.title) db with
        | .error _ => none
        | .ok existing =>
          match upsertNode host project spec existing now db with
          | .error _ => none
          | .ok ((id, _), _) => some id

/-- **No two files of an import go into one node.** -/
def ImportsApart (host : Host) (project : Text) (vault : Vault) (clock : Text → ℕ) (db : Db) : Prop :=
  ∀ before file between other after, vault.files = before ++ file :: (between ++ other :: after) →
    ∀ i j, importedNode host project vault (clock file) file
        (importFiles host project vault clock before db).2 = some i →
      importedNode host project vault (clock other) other
        (importFiles host project vault clock (before ++ file :: between) db).2 = some j → i ≠ j

theorem importedNode_some {relPath : Text} {i : ℕ} (h : importedNode host project vault now relPath db = some i) :
    ∃ spec existing outcome db', Reads host vault relPath spec ∧
      resolveExistingNode project vault relPath (slugify host spec.title) db = .ok existing ∧
      upsertNode host project spec existing now db = .ok ((i, outcome), db') := by
  rw [importedNode] at h
  split at h
  · cases h
  · rename_i hgen
    split at h
    · cases h
    · cases h
    · cases h
    · rename_i content hne hread
      split at h
      · cases h
      · rename_i spec hparse
        split at h
        · cases h
        · rename_i existing hres
          split at h
          · cases h
          · rename_i id outcome db' hup
            obtain rfl := Option.some.inj h
            exact ⟨spec, existing, outcome, db', ⟨by simpa using hgen, content, hne, hread, hparse⟩, hres, hup⟩

/-- The node of a file has its path, after the file. -/
theorem importedNode_found {relPath : Text} {i : ℕ} (hdigits : ReadsDigits host) (hw : db.WellFormed)
    (hne : relPath ≠ []) (h : importedNode host project vault now relPath db = some i) :
    vault.read relPath ≠ .missing ∧ ∃ n, n.id = i ∧
      (importSingleFile host project vault now relPath db).2.getNodeByObsidianPath project relPath = some n := by
  obtain ⟨spec, existing, outcome, db', hreads, hres, hup⟩ := importedNode_some h
  refine ⟨hreads.not_missing, ?_⟩
  obtain rfl := hreads.relPath_eq
  rcases importSingleFile_effect project vault now spec.relPath hdigits hw with
    ⟨hstill, hsame⟩ | ⟨hmoves, spec', id, outcome', added, hreads', hfile⟩
  · rw [hsame]
    rcases upsertNode_cases hw hres hup with ⟨-, -, node, rfl, rfl, hun⟩ | ⟨-, hups⟩
    · refine ⟨node, rfl, ?_⟩
      rcases resolveExistingNode_path hres with hget | ⟨hnone, -⟩
      · exact hget
      · obtain ⟨hmem, hproject⟩ := resolveExistingNode_mem hres
        exact absurd hun.2.2.2.2.2.2 (path_free_of_get hnone hmem hproject)
    · exact absurd (importSingleFile_moves_of_upsert hdigits hw hreads hres hup hups.moves) hstill
  · obtain rfl := hreads.unique hreads'
    obtain ⟨m, hid, -, hget⟩ := hfile.found hw hne
    refine ⟨_, ?_, hget⟩
    rw [addCbmIds_id, hid]
    rcases upsertNode_cases hw hres hup with ⟨rfl, -, node, rfl, rfl, hun⟩ | ⟨-, hups⟩
    · exfalso
      obtain ⟨-, ⟨node', hres', hchanged⟩ | ⟨hres', -⟩⟩ :=
        (importSingleFile_moves_iff project now hdigits hw hreads).mp hmoves
      · rw [hres] at hres'
        obtain rfl : node = node' := by simpa using hres'
        exact hchanged hun
      · rw [hres] at hres'
        cases hres'
    · obtain ⟨old, up, linked, seen, hups', -⟩ := hfile
      rw [hups'.id_eq hres, hups.id_eq hres]

/-- **An import never gives two files to one node.** -/
theorem importVault_apart {clock : Text → ℕ} (hdigits : ReadsDigits host) (hw : db.WellFormed)
    (hwalked : vault.Walked) : ImportsApart host project vault clock db := by
  intro before file between other after heq i j hi hj hij
  have hnodup := hwalked.nodup
  have hnamed := hwalked.named
  rw [heq] at hnodup hnamed
  have hw0 := importFiles_wellFormed project vault clock before hdigits hw
  have hfile : file ≠ [] := by
    rintro rfl
    exact hnamed (by simp)
  obtain ⟨hread, n, hn, hget⟩ := importedNode_found hdigits hw0 hfile hi
  -- The node of the first file keeps its path until the other file comes.
  set db1 := (importSingleFile host project vault (clock file) file
    (importFiles host project vault clock before db).2).2
  have hw1 : db1.WellFormed := importSingleFile_wellFormed hdigits hw0
  have hrun : (importFiles host project vault clock (before ++ file :: between) db).2 =
      (importFiles host project vault clock between db1).2 := by
    rw [importFiles_append]
    rfl
  have hrest := (nodup_cons.mp (List.nodup_append.mp hnodup).2.1).1
  have hnamed' : [] ∉ between := fun h => hnamed (by simp [h])
  have hnot : file ∉ between := fun h => hrest (by simp [h])
  have hkept := importFiles_path project vault clock hdigits hw1 hnamed' hfile hnot hread
  rw [hrun] at hj
  set db2 := (importFiles host project vault clock between db1).2
  have hw2 : db2.WellFormed := importFiles_wellFormed project vault clock between hdigits hw1
  rw [hget] at hkept
  have hkey := Rows.key_of_get hkept
  have hmem := Rows.mem_of_get hkept
  simp only [Prod.mk.injEq] at hkey
  obtain ⟨spec, existing, outcome, db3, hreads, hres, hup⟩ := importedNode_some hj
  have hpath := hreads.relPath_eq
  have hother : file ≠ other := by
    rintro rfl
    exact hrest (by simp)
  have hid : j = (existing.map HumanNode.id).getD db2.nextNode := by
    rw [← hpath] at hres
    rcases upsertNode_cases hw2 hres hup with ⟨-, -, node, rfl, rfl, -⟩ | ⟨-, hups⟩
    · rfl
    · exact hups.id_eq hres
  cases existing with
  | none =>
    have := hw2.nodeFresh n hmem
    simp only [Option.map_none, Option.getD_none] at hid
    omega
  | some node =>
    have hnode : n = node := by
      refine hw2.eq_of_id hmem (resolveExistingNode_mem hres).1 ?_
      rw [hn, hij, hid]
      rfl
    subst hnode
    rcases resolveExistingNode_path hres with hgot | ⟨-, -, -, hgone⟩
    · have hkey' := Rows.key_of_get hgot
      simp only [Prod.mk.injEq, hkey.2, Option.some.injEq] at hkey'
      exact hother hkey'.2
    · rcases hgone file hkey.2 with h | h
      · exact hfile h
      · exact hread h

/-! ## Runs -/

theorem generateVault_wellFormed {opts : GenerateOptions} {clock : Text → ℕ}
    (hw : s.1.WellFormed) : (generateVault host opts clock s).2.1.WellFormed :=
  generateVault_invariant (P := Db.WellFormed) (fun _ id now h => h.markSynced id now)
    (fun _ _ _ _ _ _ h _ hc => createNode_wellFormed h hc) hw

/-- **A call that sets a free path keeps paths unique.** -/
theorem Writer.paths (hdigits : ReadsDigits host) (hw : db.WellFormed) (h : PathsUnique db.nodes)
    (call : Writer) (hfree : call.PathFree host db) :
    (call.run host db).WellFormed ∧ PathsUnique (call.run host db).nodes := by
  cases call with
  | createNode input now =>
    rw [Writer.run]
    split
    · exact ⟨createNode_wellFormed hw ‹_›, createNode_paths h hfree ‹_›⟩
    · exact ⟨hw, h⟩
  | updateNode id input now =>
    rw [Writer.run]
    split
    · exact ⟨updateNode_wellFormed hw ‹_›, updateNode_paths h hfree ‹_›⟩
    · exact ⟨hw, h⟩
  | importVault project vault walked clock =>
    exact ⟨importFiles_wellFormed project vault clock vault.files hdigits hw,
      importVault_paths hdigits hw walked h⟩
  | generateVault opts folder clock => exact ⟨generateVault_wellFormed hw, generateVault_paths h⟩
  | importBackup project noteClock edgeClock backup =>
    obtain ⟨hw', h'⟩ := importNotes_paths hw h hfree
    obtain ⟨hw'', hplaces⟩ := importEdges_places project
      (newNoteId project backup.notes (importNotes host project noteClock backup.notes db)) edgeClock
      backup.edges hw'
    exact ⟨hw'', h'.of_places hplaces⟩

/-- The call that creates a note. -/
def createCall (label : HumanNodeLabel) (title : String) : Writer :=
  .createNode { project := "app".toList, label := label, title := title.toList } 0

end Ariad.Obsidian
