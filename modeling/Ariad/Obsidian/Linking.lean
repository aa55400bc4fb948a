import Ariad.Obsidian.FileLaws

/-!
# Links, lists and edges

The code nodes of a note are stored three times: in the column of the note, in the links table, and as
targets of its edges.

* `Db.Linked` — the three agree.
* `Call` — the operations of the store and the import of a vault; `Call.Linking` — the branch in which
  they come apart is not taken.
* `calls_linked` — the three agree in every state that such calls reach.
-/

namespace Ariad.Obsidian

open Human Text List

/-- **The three agree**: the rows of a node are the ids that are read from its column, and the code
targets of its edges are among them. -/
structure Linked (db : Db) : Prop where
  rows : ∀ l : ℕ × Num, l ∈ db.links ↔ ∃ n ∈ db.nodes, n.id = l.1 ∧ l.2 ∈ n.cbmNodeIds
  edges : ∀ e ∈ db.edges, ∀ x, e.target = .code x → (e.source, x) ∈ db.links

/-! ## Calls -/

/-- A call of the store, or an import. -/
inductive Call where
  | createNode (input : CreateHumanNodeInput) (now : ℕ)
  | updateNode (id : ℕ) (input : UpdateHumanNodeInput) (now : ℕ)
  | deleteNode (id : ℕ)
  | markSynced (id now : ℕ)
  | createEdge (input : CreateHumanEdgeInput) (now : ℕ)
  | deleteStaleEdges (source : ℕ) (sourceFile : Option Text) (keepIds : List ℕ)
  | importVault (project : Text) (vault : Vault) (clock : Text → ℕ)

/-- The database after a call. A call that fails leaves it. -/
def Call.run (host : Host) : Call → Db → Db
  | .createNode input now, db =>
    match Human.createNode host input now db with
    | .ok (_, db') => db'
    | .error _ => db
  | .updateNode id input now, db =>
    match Human.updateNode id input now db with
    | .ok (_, db') => db'
    | .error _ => db
  | .deleteNode id, db => (Human.deleteNode id db).2
  | .markSynced id now, db => Human.markSynced id now db
  | .createEdge input now, db =>
    match Human.createEdge input now db with
    | .ok (_, db') => db'
    | .error _ => db
  | .deleteStaleEdges source sourceFile keepIds, db =>
    deleteStaleEdgesFromNode source sourceFile keepIds db
  | .importVault project vault clock, db => (Obsidian.importVault host project vault clock db).2

def runCalls (host : Host) (calls : List Call) (db : Db) : Db :=
  calls.foldl (fun db call => call.run host db) db

/-! ## When they stay together -/

/-- The new list of an update has the code targets of the node's edges. -/
def UpdateLinks (id : ℕ) (input : UpdateHumanNodeInput) (db : Db) : Prop :=
  input.check = .ok () → ∀ ids, input.cbmNodeIds = some ids →
    ∀ e ∈ db.edges, e.source = id → ∀ x, e.target = .code x → x ∈ ids

/-- A new edge to a code node has a valid id. -/
def EdgeLinks (input : CreateHumanEdgeInput) (db : Db) : Prop :=
  ∀ target, input.Checked target db → ∀ x, target = .code x → x ≠ .nan → validCbmId x

/-- The ids of the links to code nodes. -/
def codeLinkIds (host : Host) (humanBody : Text) : List Num :=
  (parseWikilinks humanBody).filterMap fun wl =>
    if classifyWikilinkTarget wl.target = .code then parseCodeNodeId host wl.target else none

/-- The keys of the edges that the links to code nodes ask for. -/
def codeLinkKeys (host : Host) (project : Text) (id : ℕ) (humanBody : Text) : List EdgeKey :=
  (parseWikilinks humanBody).filterMap fun wl =>
    if classifyWikilinkTarget wl.target = .code then
      (parseCodeNodeId host wl.target).map fun x => ⟨project, id, .code x, inferEdgeType host humanBody wl.line⟩
    else none

/-- An edge of the node that the import of the file keeps: it is not of the node's old file, and if it is
of this file a link asks for it. -/
def KeptEdge (host : Host) (project : Text) (spec : UpsertSpec) (node : HumanNode) (e : HumanEdge) : Prop :=
  (∀ file, oldObsidianPath spec.relPath (some node) = some file → e.sourceFile ≠ some file) ∧
    (e.sourceFile = some spec.relPath → e.key ∈ codeLinkKeys host project node.id spec.humanBody)

/-- **The file keeps them together**: its links to code nodes have valid ids, and the frontmatter lists
the code targets of the edges that the note keeps, unless a new edge leads there too. -/
def FileLinks (host : Host) (project : Text) (vault : Vault) (relPath : Text) (db : Db) : Prop :=
  ∀ spec, Reads host vault relPath spec →
    (∀ x ∈ codeLinkIds host spec.humanBody, validCbmId x) ∧
    ∀ node, resolveExistingNode project vault relPath (slugify host spec.title) db = .ok (some node) →
      ¬spec.Unchanged node → spec.update.check = .ok () →
      ∀ e ∈ db.edges, e.source = node.id → KeptEdge host project spec node e →
        ∀ x, e.target = .code x → x ∈ spec.cbmNodeIds ∨
          ∃ k ∈ codeLinkKeys host project node.id spec.humanBody,
            k.target = .code x ∧ k ∉ db.edges.map HumanEdge.key

/-- **The call does not take the branch in which they come apart.** -/
def Call.Linking (host : Host) : Call → Db → Prop
  | .updateNode id input _, db => UpdateLinks id input db
  | .createEdge input _, db => EdgeLinks input db
  | .importVault project vault clock, db =>
    ∀ before file after, vault.files = before ++ file :: after →
      FileLinks host project vault file (importFiles host project vault clock before db).2
  | _, _ => True

variable {host : Host} {project relPath : Text} {vault : Vault} {now : ℕ} {db db' : Db}

/-! ## The store -/

variable {id : ℕ}

theorem Linked.empty : Linked Db.empty := by
  constructor <;> simp [Db.empty]

/-- The rows, where a node is new or its column is written with the links. -/
theorem rows_of_row {node : HumanNode} {ids : List Num}
    (h : ∀ l : ℕ × Num, l ∈ db.links ↔ ∃ n ∈ db.nodes, n.id = l.1 ∧ l.2 ∈ n.cbmNodeIds)
    (hid : node.id = id) (hjson : node.cbmJson = ids.map jsonNum)
    (hnodes : ∀ n, n ∈ db'.nodes ↔ (n ∈ db.nodes ∧ n.id ≠ id) ∨ n = node) (hlinks : ∀ m : ℕ × Num, m ∈ db'.links ↔
      (m ∈ db.links ∧ m.1 ≠ id) ∨ (m.1 = id ∧ m.2 ∈ ids ∧ validCbmId m.2)) (l : ℕ × Num) :
    l ∈ db'.links ↔ ∃ n ∈ db'.nodes, n.id = l.1 ∧ l.2 ∈ n.cbmNodeIds := by
  rw [hlinks]
  constructor
  · rintro (⟨hl, hne⟩ | ⟨hl, hmem, hv⟩)
    · obtain ⟨n, hn, hni, hx⟩ := (h l).mp hl
      exact ⟨n, (hnodes n).mpr (.inl ⟨hn, hni ▸ hne⟩), hni, hx⟩
    · refine ⟨node, (hnodes node).mpr (.inr rfl), hid.trans hl.symm, ?_⟩
      rw [cbmNodeIds_of_json hjson]
      exact mem_filter.mpr ⟨hmem, hv⟩
  · rintro ⟨n, hn, hni, hx⟩
    rcases (hnodes n).mp hn with ⟨hn, hne⟩ | rfl
    · exact .inl ⟨(h l).mpr ⟨n, hn, hni, hx⟩, hni ▸ hne⟩
    · rw [cbmNodeIds_of_json hjson] at hx
      exact .inr ⟨hni.symm.trans hid, mem_filter.mp hx⟩

/-- A node that is new, or whose column is written with the links. -/
theorem Linked.of_row (h : Linked db) {node : HumanNode} {ids : List Num}
    (hid : node.id = id) (hjson : node.cbmJson = ids.map jsonNum)
    (hnodes : ∀ n, n ∈ db'.nodes ↔ (n ∈ db.nodes ∧ n.id ≠ id) ∨ n = node) (hlinks : ∀ m : ℕ × Num, m ∈ db'.links ↔
      (m ∈ db.links ∧ m.1 ≠ id) ∨ (m.1 = id ∧ m.2 ∈ ids ∧ validCbmId m.2)) (hedges : db'.edges = db.edges)
    (hcode : ∀ e ∈ db.edges, e.source = id → ∀ x, e.target = .code x → x ∈ ids ∧ validCbmId x) : Linked db' := by
  refine ⟨rows_of_row h.rows hid hjson hnodes hlinks, fun e he x hx => ?_⟩
  rw [hedges] at he
  rw [hlinks]
  by_cases hs : e.source = id
  · exact .inr ⟨hs, hcode e he hs x hx⟩
  · exact .inl ⟨h.edges e he x hx, hs⟩

/-- Columns other than the list do not matter. -/
theorem Linked.of_columns (h : Linked db) (nodes : List HumanNode)
    (hnodes : nodes.map (fun n => (n.id, n.cbmJson)) = db.nodes.map fun n => (n.id, n.cbmJson)) :
    Linked { db with nodes := nodes } := by
  have transfer : ∀ {l m : List HumanNode} {p : ℕ × Num},
      l.map (fun n => (n.id, n.cbmJson)) = m.map (fun n => (n.id, n.cbmJson)) →
      (∃ n ∈ l, n.id = p.1 ∧ p.2 ∈ n.cbmNodeIds) → ∃ n ∈ m, n.id = p.1 ∧ p.2 ∈ n.cbmNodeIds := by
    rintro l m p hlm ⟨n, hn, hid, hx⟩
    have hmem : (n.id, n.cbmJson) ∈ m.map fun n => (n.id, n.cbmJson) :=
      hlm ▸ mem_map_of_mem (f := fun n : HumanNode => (n.id, n.cbmJson)) hn
    obtain ⟨k, hk, hpair⟩ := mem_map.mp hmem
    simp only [Prod.mk.injEq] at hpair
    refine ⟨k, hk, hpair.1.trans hid, ?_⟩
    rwa [HumanNode.cbmNodeIds, hpair.2]
  exact ⟨fun l => (h.rows l).trans ⟨transfer hnodes.symm, transfer hnodes⟩, h.edges⟩

/-- A code target of an edge is a valid id. -/
theorem Linked.valid (h : Linked db) {e : HumanEdge} (he : e ∈ db.edges) {x : Num}
    (hx : e.target = .code x) : validCbmId x := by
  obtain ⟨n, -, -, hmem⟩ := (h.rows _).mp (h.edges e he x hx)
  exact (mem_filter.mp hmem).2

theorem createNode_linked {input : CreateHumanNodeInput} {row : HumanNode} (hw : db.WellFormed)
    (h : Linked db) (hc : createNode host input now db = .ok (row, db')) : Linked db' := by
  obtain ⟨attempt, -, hrow, rfl⟩ := createNode_ok hc
  have hfresh : ∀ m ∈ db.nodes, m.id ≠ row.id := by
    intro m hm
    have := hw.nodeFresh m hm
    rw [hrow]
    exact Nat.ne_of_lt this
  have hjson : row.cbmJson = (input.cbmNodeIds.getD []).map jsonNum := by
    rw [hrow]
    rfl
  refine h.of_row rfl hjson (fun n => ?_) (fun m => mem_links_syncCbmLinks) rfl fun e he hs x hx => ?_
  · simp only [Db.withNode, syncCbmLinks_nodes, mem_append, mem_singleton]
    constructor
    · rintro (hn | rfl)
      · exact .inl ⟨hn, hfresh n hn⟩
      · exact .inr rfl
    · rintro (⟨hn, -⟩ | rfl)
      · exact .inl hn
      · exact .inr rfl
  · obtain ⟨m, hm, hid, -⟩ := hw.edgeSource e he
    exact absurd (hid.trans hs) (hfresh m hm)

theorem updateNode_linked {input : UpdateHumanNodeInput} {r : Option HumanNode}
    (hw : db.WellFormed) (h : Linked db) (hl : UpdateLinks id input db)
    (hu : updateNode id input now db = .ok (r, db')) : Linked db' := by
  rcases updateNode_ok hu with ⟨rfl, -⟩ | ⟨⟨n, hn⟩, hcheck, rfl, -⟩
  · exact h
  · obtain ⟨hmem, hid⟩ := hw.get_iff.mp hn
    cases hids : input.cbmNodeIds with
    | none =>
      have hcols := h.of_columns (Rows.modify HumanNode.id id (input.apply now) db.nodes)
        (Rows.map_modify fun m => by simp [UpdateHumanNodeInput.apply, hids])
      unfold Db.withUpdate
      rw [hids]
      exact hcols
    | some ids =>
      have hlinks : (db.withUpdate id input now).links = (db.syncCbmLinks id ids).links := by
        unfold Db.withUpdate
        rw [hids]
        rfl
      have hjson : (input.apply now n).cbmJson = ids.map jsonNum := by
        simp [UpdateHumanNodeInput.apply, hids]
      have hid' : (input.apply now n).id = id := hid
      refine h.of_row hid' hjson (fun m => ?_) (fun m => ?_) (withUpdate_edges _ _)
        fun e he hs x hx => ⟨hl hcheck ids hids e he hs x hx, h.valid he hx⟩
      · rw [withUpdate_nodes, Rows.mem_modify]
        constructor
        · rintro (hm | ⟨k, hk, hkid, rfl⟩)
          · exact .inl hm
          · rw [hw.eq_of_id hk hmem (hkid.trans hid.symm)]
            exact .inr rfl
        · rintro (hm | rfl)
          · exact .inl hm
          · exact .inr ⟨n, hmem, hid, rfl⟩
      · rw [hlinks]
        exact mem_links_syncCbmLinks

theorem deleteNode_linked (h : Linked db) (id : ℕ) : Linked (deleteNode id db).2 := by
  refine ⟨fun l => ?_, fun e he x hx => ?_⟩
  · simp only [deleteNode, mem_filter, decide_eq_true_eq]
    constructor
    · rintro ⟨hl, hne⟩
      obtain ⟨n, hn, hni, hx⟩ := (h.rows l).mp hl
      exact ⟨n, ⟨hn, hni ▸ hne⟩, hni, hx⟩
    · rintro ⟨n, ⟨hn, hne⟩, hni, hx⟩
      exact ⟨(h.rows l).mpr ⟨n, hn, hni, hx⟩, hni ▸ hne⟩
  · simp only [deleteNode, mem_filter, decide_eq_true_eq] at he ⊢
    exact ⟨h.edges e he.1 x hx, he.2.1⟩

theorem markSynced_linked (h : Linked db) (id now : ℕ) : Linked (markSynced id now db) :=
  h.of_columns _ (Rows.map_modify fun _ => rfl)

theorem deleteStaleEdges_linked (h : Linked db) (source : ℕ) (file : Option Text) (keep : List ℕ) :
    Linked (deleteStaleEdgesFromNode source file keep db) :=
  ⟨h.rows, fun e he => h.edges e (mem_of_mem_filter he)⟩

/-- Edges that are appended, with what they lead to linked. -/
theorem rows_of_added (db db' : Db) {added : List HumanEdge}
    (hrows : ∀ l : ℕ × Num, l ∈ db.links ↔ ∃ n ∈ db.nodes, n.id = l.1 ∧ l.2 ∈ n.cbmNodeIds)
    (hnode : ∃ n ∈ db.nodes, n.id = id) (hvalid : ∀ x ∈ codeTargets added, validCbmId x)
    (hnodes : db'.nodes = Rows.modify HumanNode.id id (addCbmIds (codeTargets added)) db.nodes)
    (hlinks : ∀ m : ℕ × Num, m ∈ db'.links ↔ m ∈ db.links ∨ (m.1 = id ∧ m.2 ∈ codeTargets added)) (l : ℕ × Num) :
    l ∈ db'.links ↔ ∃ n ∈ db'.nodes, n.id = l.1 ∧ l.2 ∈ n.cbmNodeIds := by
  rw [hlinks, hnodes, hrows]
  constructor
  · rintro (⟨n, hn, hid, hx⟩ | ⟨hid, hx⟩)
    · by_cases hni : n.id = id
      · exact ⟨_, Rows.mem_modify.mpr (.inr ⟨n, hn, hni, rfl⟩), (addCbmIds_id _ n).trans hid,
          mem_cbmNodeIds_addCbmIds.mpr (.inl hx)⟩
      · exact ⟨n, Rows.mem_modify.mpr (.inl ⟨hn, hni⟩), hid, hx⟩
    · obtain ⟨n, hn, hni⟩ := hnode
      exact ⟨_, Rows.mem_modify.mpr (.inr ⟨n, hn, hni, rfl⟩), (addCbmIds_id _ n).trans (hni.trans hid.symm),
        mem_cbmNodeIds_addCbmIds.mpr (.inr ⟨hx, hvalid _ hx⟩)⟩
  · rintro ⟨m, hm, hid, hx⟩
    rcases Rows.mem_modify.mp hm with ⟨hm, -⟩ | ⟨n, hn, hni, rfl⟩
    · exact .inl ⟨m, hm, hid, hx⟩
    · rw [addCbmIds_id] at hid
      rcases mem_cbmNodeIds_addCbmIds.mp hx with hx | ⟨hx, -⟩
      · exact .inl ⟨n, hn, hid, hx⟩
      · exact .inr ⟨hid.symm.trans hni, hx⟩

theorem createEdge_linked {input : CreateHumanEdgeInput} {row : HumanEdge} (hw : db.WellFormed)
    (h : Linked db) (hl : EdgeLinks input db) (hc : createEdge input now db = .ok (row, db')) : Linked db' := by
  obtain ⟨target, hchecked, ⟨-, rfl⟩ | ⟨-, hnan, hrow, rfl⟩⟩ := createEdge_ok hc
  · exact h
  · obtain ⟨n, hn, -⟩ := hchecked.source
    have hsource : row.source = input.source := by rw [hrow]; rfl
    have htarget : row.target = target := by rw [hrow]; rfl
    have hlinks : ∀ m : ℕ × Num, m ∈ (db.withEdge row).links ↔
        m ∈ db.links ∨ (m.1 = row.source ∧ m.2 ∈ codeTargets [row]) := fun m =>
      mem_links_withEdge (by rw [hsource, hn]; rfl)
    have hvalid : ∀ x ∈ codeTargets [row], validCbmId x := by
      intro x hx
      cases ht : target with
      | code y =>
        obtain rfl : x = y := by simpa [codeTargets, htarget, ht] using hx
        exact hl target hchecked x ht fun hy => hnan (by rw [ht, hy])
      | human i => simp [codeTargets, htarget, ht] at hx
    refine ⟨rows_of_added _ _ h.rows ⟨n, (hw.get_iff.mp hn).1, (hw.get_iff.mp hn).2.trans hsource.symm⟩ hvalid
      (withEdge_nodes hw row) hlinks, fun e he x hx => ?_⟩
    rw [withEdge_edges] at he
    rw [hlinks]
    rcases mem_append.mp he with he | he
    · exact .inl (h.edges e he x hx)
    · obtain rfl := mem_singleton.mp he
      exact .inr ⟨rfl, by simp [codeTargets, hx]⟩

/-! ## A file -/

theorem code_of_asked {humanBody : Text} {k : EdgeKey} {x : Num}
    (hk : k ∈ askedKeys host project id relPath humanBody (parseWikilinks humanBody) db) (hx : k.target = .code x) :
    k ∈ codeLinkKeys host project id humanBody ∧ x ∈ codeLinkIds host humanBody := by
  obtain ⟨wl, hwl, h⟩ := mem_filterMap.mp hk
  simp only [codeLinkKeys, codeLinkIds, mem_filterMap]
  unfold wikilinkEdge at h
  split at h
  · cases h
  · rename_i input hin
    split at hin
    · rename_i hclass
      obtain ⟨y, hy, rfl⟩ := Option.map_eq_some_iff.mp hin
      simp only [CreateHumanEdgeInput.target, CreateHumanEdgeInput.key, Option.some.injEq] at h
      subst h
      obtain rfl : y = x := by simpa using hx
      exact ⟨⟨wl, hwl, by simp [hclass, hy]⟩, ⟨wl, hwl, by simp [hclass, hy]⟩⟩
    iterate 2
      · obtain ⟨m, -, rfl⟩ := Option.map_eq_some_iff.mp hin
        simp only [mention, CreateHumanEdgeInput.target, CreateHumanEdgeInput.key, Option.some.injEq] at h
        subst h
        cases hx
    · cases hin

theorem asked_of_code {humanBody : Text} {k : EdgeKey} (hk : k ∈ codeLinkKeys host project id humanBody) :
    k ∈ askedKeys host project id relPath humanBody (parseWikilinks humanBody) db := by
  obtain ⟨wl, hwl, h⟩ := mem_filterMap.mp hk
  split at h
  · rename_i hclass
    obtain ⟨x, hx, rfl⟩ := Option.map_eq_some_iff.mp h
    refine mem_filterMap.mpr ⟨wl, hwl, ?_⟩
    simp [wikilinkEdge, hclass, hx, CreateHumanEdgeInput.target, CreateHumanEdgeInput.key]
  · cases h

/-- **A file keeps the three together.** -/
theorem file_linked {spec : UpsertSpec} {outcome : Outcome} {added : List HumanEdge}
    (hw : db.WellFormed) (h : Linked db) (hreads : Reads host vault relPath spec)
    (hl : FileLinks host project vault relPath db)
    (he : FileEffect host project vault now spec id outcome added db db') : Linked db' := by
  obtain ⟨old, up, linked, seen, hups, hadd, rfl⟩ := he
  obtain ⟨hcodeValid, hkept⟩ := hl spec hreads
  have hpath := hreads.relPath_eq
  have hwup := hups.wellFormed hw
  obtain ⟨node, hid, hnode, hnodes⟩ := hups.nodes hw
  have hrowsUp := rows_of_row h.rows hid hnode.cbmJson hnodes fun m => hups.links
  have hvalid : ∀ x ∈ codeTargets added, validCbmId x := by
    intro x hx
    obtain ⟨e, he, hex⟩ := mem_filterMap.mp hx
    cases ht : e.target with
    | code y =>
      obtain rfl : y = x := by simpa [ht] using hex
      exact hcodeValid _ (code_of_asked (hadd.new e he).1 ht).2
    | human i => simp [ht] at hex
  have hrows := rows_of_added (dropOldEdges id old up) linked
    (by simpa using hrowsUp) ⟨node, by simpa using (hnodes node).mpr (.inr rfl), hid⟩ hvalid hadd.nodes hadd.links
  refine ⟨hrows, fun e he x hx => ?_⟩
  simp only [deleteStaleEdgesFromNode, mem_filter] at he ⊢
  obtain ⟨he, hnotStale⟩ := he
  rw [hadd.links, dropOldEdges_links, hups.links]
  rw [hadd.edges] at he
  rcases mem_append.mp he with hold | hnew
  · obtain ⟨hdb, hnotOld⟩ := mem_edges_dropOldEdges.mp hold
    rw [hups.edges] at hdb
    by_cases hs : e.source = id
    · obtain ⟨found, hres, rfl, hchanged, hcheck, rfl⟩ := hups.of_edge hw hdb hs
      have hkeep : KeptEdge host project spec found e := by
        refine ⟨hnotOld hs, fun hfile => ?_⟩
        have hseen : e.id ∈ seen := by simpa [hs, hfile] using hnotStale
        obtain ⟨d, hd, hdi, hkey⟩ := hadd.ofSeen e.id hseen
        have heq : d = e := inj_on_of_nodup_map hadd.wellFormed.edgeIds hd
          (hadd.edges ▸ mem_append_left _ hold) hdi
        rw [heq] at hkey
        exact (code_of_asked hkey hx).1
      rw [hpath] at hres
      rcases hkept found hres hchanged hcheck e hdb hs hkeep x hx with hmem | ⟨k, hk, hkx, hknew⟩
      · exact .inl (.inr ⟨hs, hmem, h.valid hdb hx⟩)
      · -- A link asks for another edge to the same code node.
        obtain ⟨d, hd, hdk, -⟩ := hadd.asked k (asked_of_code hk)
        rw [hadd.edges] at hd
        rcases mem_append.mp hd with hd | hd
        · refine absurd (mem_map_of_mem (f := HumanEdge.key) ?_) (hdk ▸ hknew)
          rw [← hups.edges]
          exact (mem_edges_dropOldEdges.mp hd).1
        · have hdx : d.target = .code x := by
            have := congrArg EdgeKey.target hdk
            simpa [HumanEdge.key, hkx] using this
          exact .inr ⟨hs, mem_filterMap.mpr ⟨d, hd, by simp [hdx]⟩⟩
    · exact .inl (.inl ⟨h.edges e hdb x hx, hs⟩)
  · exact .inr ⟨(hadd.ofFile e hnew).1, mem_filterMap.mpr ⟨e, hnew, by simp [hx]⟩⟩

/-! ## Runs -/

section

variable (hdigits : ReadsDigits host)
include hdigits

theorem importVault_linked {clock : Text → ℕ} (hw : db.WellFormed)
    (h : Linked db) (hl : (Call.importVault project vault clock).Linking host db) :
    Linked (importVault host project vault clock db).2 := by
  refine importFiles_invariant h fun before file after heq hbefore => ?_
  have hw' := importFiles_wellFormed project vault clock before hdigits hw
  rcases importSingleFile_cases project vault (clock file) file hdigits hw' with
    ⟨hsame, -⟩ | ⟨spec, id, outcome, added, hreads, -, heffect⟩
  · rwa [hsame]
  · exact file_linked hw' hbefore hreads (hl before file after heq) heffect

theorem Call.wellFormed (hw : db.WellFormed) (call : Call) : (call.run host db).WellFormed := by
  cases call with
  | createNode input now =>
    rw [Call.run]
    split
    · exact createNode_wellFormed hw ‹_›
    · exact hw
  | updateNode id input now =>
    rw [Call.run]
    split
    · exact updateNode_wellFormed hw ‹_›
    · exact hw
  | deleteNode id => exact hw.deleteNode id
  | markSynced id now => exact hw.markSynced id now
  | createEdge input now =>
    rw [Call.run]
    split
    · exact createEdge_wellFormed hw ‹_›
    · exact hw
  | deleteStaleEdges source file keep => exact hw.deleteStaleEdges source file keep
  | importVault project vault clock => exact importFiles_wellFormed _ _ _ _ hdigits hw

/-- **A call that does not take the branch keeps the three together.** -/
theorem Call.linked (hw : db.WellFormed) (h : Linked db) (call : Call)
    (hl : call.Linking host db) : Linked (call.run host db) := by
  cases call with
  | createNode input now =>
    rw [Call.run]
    split
    · exact createNode_linked hw h ‹_›
    · exact h
  | updateNode id input now =>
    rw [Call.run]
    split
    · exact updateNode_linked hw h hl ‹_›
    · exact h
  | deleteNode id => exact deleteNode_linked h id
  | markSynced id now => exact markSynced_linked h id now
  | createEdge input now =>
    rw [Call.run]
    split
    · exact createEdge_linked hw h hl ‹_›
    · exact h
  | deleteStaleEdges source file keep => exact deleteStaleEdges_linked h source file keep
  | importVault project vault clock => exact importVault_linked hdigits hw h hl

/-- **Links, lists and edges agree in every state** of a run whose calls do not take the branch. -/
theorem calls_linked (calls : List Call) (hl : ∀ before call after, calls = before ++ call :: after →
      call.Linking host (runCalls host before Db.empty)) :
    ∀ before after, calls = before ++ after → Linked (runCalls host before Db.empty) := by
  have both : ∀ before after, calls = before ++ after →
      (runCalls host before Db.empty).WellFormed ∧ Linked (runCalls host before Db.empty) := by
    intro before
    induction before using List.reverseRecOn with
    | nil => exact fun _ _ => ⟨Db.WellFormed.empty, Linked.empty⟩
    | append_singleton before call ih =>
      intro after heq
      have heq' : calls = before ++ call :: after := by simp [heq]
      obtain ⟨hw, h⟩ := ih (call :: after) heq'
      have hrun : runCalls host (before ++ [call]) Db.empty =
          call.run host (runCalls host before Db.empty) := by simp [runCalls]
      rw [hrun]
      exact ⟨call.wellFormed hdigits hw, call.linked hdigits hw h (hl before call after heq')⟩
  exact fun before after heq => (both before after heq).2

end

/-! ## A list that is written anew -/

/-- A note that touches the code node 42. -/
def touchingCalls : List Call :=
  [.createNode { project := "app".toList, label := .BugNote, title := "Leak".toList } 0,
    .createEdge
      { project := "app".toList
        source := 1
        targetKind := .code
        targetCbmNodeId := some (.finite 42)
        type := .TOUCHES } 0]

theorem asciiHost_readsDigits : ReadsDigits asciiHost := by
  intro t _ hd
  have heq : ∀ c, Char.isDigit c = isDigit c := by
    intro c
    simp only [isDigit, Char.isDigit, Char.le_def]
  have hdigits : t.all Char.isDigit = true := by
    rw [all_eq_true] at hd ⊢
    exact fun c hc => (heq c).trans (hd c hc)
  simp only [asciiHost, hdigits, if_true]
  exact fun h => Num.noConfusion h

/-- An update that writes the list anew forgets the edge. -/
theorem updateNode_unlinks :
    ¬ Linked (runCalls asciiHost (touchingCalls ++ [.updateNode 1 { cbmNodeIds := some [] } 1]) Db.empty) := by
  intro h
  set db := runCalls asciiHost (touchingCalls ++ [.updateNode 1 { cbmNodeIds := some [] } 1]) Db.empty with hdb
  obtain ⟨e, he⟩ : ∃ e, db.edges = [e] ∧ e.source = 1 ∧ e.target = .code (.finite 42) := ⟨_, rfl, rfl, rfl⟩
  have hlinks : db.links = [] := rfl
  have hmem := h.edges e (by simp [he.1]) (.finite 42) he.2.2
  rw [hlinks] at hmem
  cases hmem

/-- The law for the note and its edge. -/
theorem calls_linked_touching : Linked (runCalls asciiHost touchingCalls Db.empty) := by
  refine calls_linked asciiHost_readsDigits touchingCalls ?_ touchingCalls [] (append_nil _).symm
  intro before call after heq
  match before with
  | [] =>
    obtain ⟨rfl, -⟩ := List.cons.inj heq
    trivial
  | [_] =>
    simp only [touchingCalls, cons_append, nil_append, List.cons.injEq] at heq
    obtain ⟨rfl, rfl, -⟩ := heq
    rintro target hc x rfl -
    have := hc.target_eq
    simp only [CreateHumanEdgeInput.target, Except.ok.injEq, EdgeTarget.code.injEq] at this
    subst this
    decide
  | _ :: _ :: l => simp [touchingCalls] at heq

/-- **Every state keeps the keys and references**: ids are given out once, slugs are unique in a project, and
edges and links lead from and to nodes that are there, of one project. -/
theorem calls_wellFormed (hdigits : ReadsDigits host) (calls : List Call) :
    (runCalls host calls Db.empty).WellFormed := by
  induction calls using List.reverseRecOn with
  | nil => exact Db.WellFormed.empty
  | append_singleton calls call ih =>
    rw [runCalls, foldl_append]
    exact call.wellFormed hdigits ih

theorem calls_wellFormed_touching : (runCalls asciiHost touchingCalls Db.empty).WellFormed :=
  calls_wellFormed asciiHost_readsDigits touchingCalls

end Ariad.Obsidian
