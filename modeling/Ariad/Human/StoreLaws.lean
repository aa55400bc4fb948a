import Ariad.Human.Store

/-!
# What the operations of the store do

One lemma for each operation says everything that it can do when it returns; the constraints of the
schema hold in every database that the operations reach.

* `createNode_ok`, `updateNode_ok`, `createEdge_ok` — a call that returns, with its guards.
* `Db.WellFormed` — the primary keys, `UNIQUE(project, slug)`, and the foreign keys.
-/

namespace Ariad.Human

open List

variable {host : Host} {db db' : Db} {now : ℕ}

/-! ## The links table -/

variable {input : CreateHumanEdgeInput} {target : EdgeTarget}

variable {row : HumanNode} {i : ℕ} {id : ℕ}

theorem mem_insertLink {links : List (ℕ × Num)} {l m : ℕ × Num} : m ∈ Db.insertLink links l ↔ m ∈ links ∨ m = l := by
  rw [Db.insertLink]
  split
  · exact ⟨.inl, fun h => h.elim id fun h => h ▸ ‹_›⟩
  · simp

theorem mem_foldl_insertLink {ls links : List (ℕ × Num)} {m : ℕ × Num} :
    m ∈ ls.foldl Db.insertLink links ↔ m ∈ links ∨ m ∈ ls := by
  induction ls generalizing links with
  | nil => simp
  | cons l ls ih => rw [foldl_cons, ih, mem_insertLink, mem_cons, or_assoc]

/-- The node's rows are the valid ids, and the rows of the other nodes stay. -/
theorem mem_links_syncCbmLinks {ids : List Num} {m : ℕ × Num} : m ∈ (db.syncCbmLinks id ids).links ↔
      (m ∈ db.links ∧ m.1 ≠ id) ∨ (m.1 = id ∧ m.2 ∈ ids ∧ validCbmId m.2) := by
  obtain ⟨i, x⟩ := m
  simp only [Db.syncCbmLinks, mem_foldl_insertLink, mem_filter, mem_map, mem_eraseDups,
    decide_eq_true_eq, Prod.mk.injEq]
  constructor
  · rintro (h | ⟨y, ⟨hy, hv⟩, rfl, rfl⟩)
    · exact .inl h
    · exact .inr ⟨rfl, hy, hv⟩
  · rintro (h | ⟨rfl, hx, hv⟩)
    · exact .inl h
    · exact .inr ⟨x, ⟨hx, hv⟩, rfl, rfl⟩

@[simp] theorem syncCbmLinks_nodes (id : ℕ) (ids : List Num) : (db.syncCbmLinks id ids).nodes = db.nodes := rfl

@[simp] theorem syncCbmLinks_edges (id : ℕ) (ids : List Num) : (db.syncCbmLinks id ids).edges = db.edges := rfl

@[simp] theorem syncCbmLinks_nextNode (id : ℕ) (ids : List Num) : (db.syncCbmLinks id ids).nextNode = db.nextNode := rfl

@[simp] theorem syncCbmLinks_nextEdge (id : ℕ) (ids : List Num) : (db.syncCbmLinks id ids).nextEdge = db.nextEdge := rfl

/-! ## Creating a node -/

theorem freeSlug_some {project slug : Text} {k : ℕ} (h : db.freeSlug project slug = some k) :
    db.getNodeBySlug project (slugCandidate slug k) = none := by
  simpa using find?_some h

/-- The database with one more node. -/
def Db.withNode (db : Db) (row : HumanNode) (ids : List Num) : Db :=
  Db.syncCbmLinks row.id ids { db with nodes := db.nodes ++ [row], nextNode := db.nextNode + 1 }

/-- **When a node is created**: the title, the path and the confidence are accepted, and one of the
title's candidates for the slug is free. -/
theorem createNode_ok_iff {input : CreateHumanNodeInput} :
    createNode host input now db = .ok (row, db') ↔ validTitle input.title = .ok () ∧ validObsidianPath
        (input.obsidianPath.getD (obsidianPathFor input.label (titleSlug host input.title now))) ∧
      validConfidence (input.confidence.getD (.finite 1)) ∧
      ∃ attempt, db.freeSlug input.project (titleSlug host input.title now) = some attempt ∧
        row = input.row db.nextNode (slugCandidate (titleSlug host input.title now) attempt)
          (input.path (titleSlug host input.title now) attempt) now ∧
        db' = db.withNode row (input.cbmNodeIds.getD []) := by
  rw [createNode]
  cases ht : validTitle input.title with
  | error e => simp [bind, Except.bind]
  | ok =>
    cases hp : validObsidianPath
      (input.obsidianPath.getD (obsidianPathFor input.label (titleSlug host input.title now))) with
    | false => simp [bind, Except.bind, hp]
    | true =>
      cases hf : db.freeSlug input.project (titleSlug host input.title now) with
      | none => simp [bind, Except.bind, hp, hf]
      | some attempt =>
        cases hc : validConfidence (input.confidence.getD (.finite 1)) with
        | false => simp [bind, Except.bind, hp, hf]
        | true =>
          simp only [bind, Except.bind, hp, hf, pure, Except.pure, Except.ok.injEq, Prod.mk.injEq,
            Bool.not_true, Bool.false_eq_true, if_false, true_and, Option.some.injEq]
          constructor
          · rintro ⟨rfl, rfl⟩
            exact ⟨attempt, rfl, rfl, rfl⟩
          · rintro ⟨k, rfl, rfl, rfl⟩
            exact ⟨rfl, rfl⟩

/-- **A node is created** with a slug that was free, and with the next id. -/
theorem createNode_ok {input : CreateHumanNodeInput} (h : createNode host input now db = .ok (row, db')) :
    ∃ attempt, db.freeSlug input.project (titleSlug host input.title now) = some attempt ∧
      row = input.row db.nextNode (slugCandidate (titleSlug host input.title now) attempt)
        (input.path (titleSlug host input.title now) attempt) now ∧ db' = db.withNode row (input.cbmNodeIds.getD []) :=
  (createNode_ok_iff.mp h).2.2.2

/-! ## Updating a node -/

/-- The database after the update of a node. -/
def Db.withUpdate (db : Db) (id : ℕ) (input : UpdateHumanNodeInput) (now : ℕ) : Db :=
  let updated := { db with nodes := Rows.modify HumanNode.id id (input.apply now) db.nodes }
  match input.cbmNodeIds with
  | some ids => updated.syncCbmLinks id ids
  | none => updated

@[simp] theorem withUpdate_nodes (id : ℕ) (input : UpdateHumanNodeInput) :
    (db.withUpdate id input now).nodes = Rows.modify HumanNode.id id (input.apply now) db.nodes := by
  unfold Db.withUpdate
  cases input.cbmNodeIds <;> rfl

@[simp] theorem withUpdate_edges (id : ℕ) (input : UpdateHumanNodeInput) :
    (db.withUpdate id input now).edges = db.edges := by
  unfold Db.withUpdate
  cases input.cbmNodeIds <;> rfl

/-- **An update returns** without a change, for want of the node or of a field, or it changes the node
and, if ids are given, its links. -/
theorem updateNode_ok {input : UpdateHumanNodeInput} {r : Option HumanNode}
    (h : updateNode id input now db = .ok (r, db')) : (db' = db ∧ r = db.getNodeById id ∧ (r = none ∨ input.IsEmpty)) ∨
      ((∃ n, db.getNodeById id = some n) ∧ input.check = .ok () ∧
        db' = db.withUpdate id input now ∧ r = db'.getNodeById id) := by
  rw [updateNode] at h
  split at h
  · rename_i hg
    simp only [pure, Except.pure, Except.ok.injEq, Prod.mk.injEq] at h
    obtain ⟨rfl, rfl⟩ := h
    exact .inl ⟨rfl, hg.symm, .inl rfl⟩
  · rename_i n hg
    cases hc : input.check with
    | error e => simp [hc, bind, Except.bind] at h
    | ok =>
      simp only [hc, bind, Except.bind] at h
      split at h
      · rename_i hempty
        simp only [pure, Except.pure, Except.ok.injEq, Prod.mk.injEq] at h
        obtain ⟨rfl, rfl⟩ := h
        exact .inl ⟨rfl, hg.symm, .inr hempty⟩
      · split at h
        · cases h
        · simp only [pure, Except.pure, Except.ok.injEq, Prod.mk.injEq] at h
          obtain ⟨rfl, rfl⟩ := h
          exact .inr ⟨⟨n, hg⟩, rfl, rfl, rfl⟩

/-! ## Creating an edge -/

theorem checkNode_ok {missing : ℕ → StoreError} {project : Text}
    (h : db.checkNode missing project id = .ok ()) : ∃ n, db.getNodeById id = some n ∧ n.project = project := by
  rw [Db.checkNode] at h
  split at h
  · cases h
  · rename_i n hn
    split at h
    · exact ⟨n, hn, ‹_›⟩
    · cases h

/-- The database with one more edge, and for a code node the link. -/
def Db.withEdge (db : Db) (row : HumanEdge) : Db :=
  let db := { db with edges := db.edges ++ [row], nextEdge := db.nextEdge + 1 }
  match row.target with
  | .code x => db.linkCode row.source x
  | .human _ => db

/-- The key of the edge that the input asks for. -/
def CreateHumanEdgeInput.key (input : CreateHumanEdgeInput) (target : EdgeTarget) : EdgeKey :=
  ⟨input.project, input.source, target, input.type⟩

/-- What an inserted edge has to satisfy: both ends are there and of the project. -/
structure CreateHumanEdgeInput.Checked (input : CreateHumanEdgeInput) (target : EdgeTarget) (db : Db) :
    Prop where
  target_eq : input.target = .ok target
  source : ∃ n, db.getNodeById input.source = some n ∧ n.project = input.project
  human : ∀ id, target = .human id → ∃ n, db.getNodeById id = some n ∧ n.project = input.project

theorem createEdge_checked {r : HumanEdge × Db}
    (h : createEdge input now db = .ok r) : ∃ target, input.Checked target db := by
  rw [createEdge] at h
  cases ht : input.target with
  | error e => simp [ht, bind, Except.bind] at h
  | ok target =>
    cases hs : db.checkNode .sourceNotFound input.project input.source with
    | error e => simp [ht, hs, bind, Except.bind] at h
    | ok =>
      simp only [ht, hs, bind, Except.bind] at h
      refine ⟨target, ht, checkNode_ok hs, ?_⟩
      rintro id rfl
      cases hi : db.checkNode .targetNotFound input.project id with
      | error e => simp [hi] at h
      | ok => exact checkNode_ok hi

theorem checkNode_of {missing : ℕ → StoreError} {project : Text}
    (h : ∃ n, db.getNodeById id = some n ∧ n.project = project) : db.checkNode missing project id = .ok () := by
  obtain ⟨n, hn, hp⟩ := h
  rw [Db.checkNode, hn]
  exact if_pos hp

/-- With both ends there, the outcome depends on the search. -/
theorem createEdge_eq (hc : input.Checked target db) : createEdge input now db =
      match db.findEdge (input.key target) with | some e => .ok (e, db) | none => db.insertEdge input target now := by
  rw [createEdge, hc.target_eq]
  simp only [bind, Except.bind, checkNode_of hc.source]
  cases target with
  | code x =>
    simp only [CreateHumanEdgeInput.key]
    cases db.findEdge ⟨input.project, input.source, .code x, input.type⟩ <;> rfl
  | human id =>
    simp only [CreateHumanEdgeInput.key, checkNode_of (hc.human id rfl)]
    cases db.findEdge ⟨input.project, input.source, .human id, input.type⟩ <;> rfl

/-- **An edge is returned** that is there already, or it is inserted, with the next id. -/
theorem createEdge_ok {row : HumanEdge} (h : createEdge input now db = .ok (row, db')) :
    ∃ target, input.Checked target db ∧ ((db.findEdge (input.key target) = some row ∧ db' = db) ∨
        (db.findEdge (input.key target) = none ∧ target ≠ .code .nan ∧
          row = input.row target db.nextEdge now ∧ db' = db.withEdge row)) := by
  obtain ⟨target, hc⟩ := createEdge_checked h
  refine ⟨target, hc, ?_⟩
  rw [createEdge_eq hc] at h
  cases hf : db.findEdge (input.key target) with
  | some e =>
    rw [hf] at h
    simp only [Except.ok.injEq, Prod.mk.injEq] at h
    obtain ⟨rfl, rfl⟩ := h
    exact .inl ⟨rfl, rfl⟩
  | none =>
    rw [hf] at h
    simp only [Db.insertEdge] at h
    split at h
    · cases h
    · rename_i hnan
      simp only [Except.ok.injEq, Prod.mk.injEq] at h
      obtain ⟨rfl, rfl⟩ := h
      refine .inr ⟨rfl, fun h => hnan (.inl h), rfl, ?_⟩
      cases target <;> rfl

theorem createEdge_of_found {e : HumanEdge}
    (hc : input.Checked target db) (h : db.findEdge (input.key target) = some e) :
    createEdge input now db = .ok (e, db) := by
  rw [createEdge_eq hc, h]

theorem createEdge_of_new (now : ℕ) (hc : input.Checked target db) (h : db.findEdge (input.key target) = none)
    (hnan : target ≠ .code .nan) (hconf : input.confidence ≠ some .nan) : createEdge input now db =
      .ok (input.row target db.nextEdge now, db.withEdge (input.row target db.nextEdge now)) := by
  rw [createEdge_eq hc, h]
  simp only [Db.insertEdge]
  rw [if_neg (by tauto)]
  cases target <;> rfl

/-! ## The link to a code node -/

theorem mem_links_linkCode {x : Num} {m : ℕ × Num} (h : (db.getNodeById i).isSome) :
    m ∈ (db.linkCode i x).links ↔ m ∈ db.links ∨ m = (i, x) := by
  obtain ⟨n, hn⟩ := Option.isSome_iff_exists.mp h
  simp only [Db.linkCode, hn, mem_insertLink]

@[simp] theorem linkCode_edges (i : ℕ) (x : Num) : (db.linkCode i x).edges = db.edges := by
  unfold Db.linkCode
  split <;> rfl

@[simp] theorem linkCode_nextEdge (i : ℕ) (x : Num) : (db.linkCode i x).nextEdge = db.nextEdge := by
  unfold Db.linkCode
  split <;> rfl

@[simp] theorem withEdge_edges (row : HumanEdge) : (db.withEdge row).edges = db.edges ++ [row] := by
  unfold Db.withEdge
  simp only
  split <;> simp

/-- What a link adds to the column of its node. -/
def HumanNode.addCbmId (x : Num) (n : HumanNode) : HumanNode :=
  if x ∈ n.cbmNodeIds then n else { n with cbmJson := (n.cbmNodeIds ++ [x]).map jsonNum }

/-- Only the column of the source node changes. -/
theorem linkCode_nodes {x : Num} (h : (db.nodes.map HumanNode.id).Nodup) :
    (db.linkCode i x).nodes = Rows.modify HumanNode.id i (HumanNode.addCbmId x) db.nodes := by
  unfold Db.linkCode
  split
  · rename_i hn
    exact (Rows.modify_eq_self fun r hr hi => absurd hi (Rows.get_eq_none_iff.mp hn r hr)).symm
  · rename_i n hn
    have only : ∀ r ∈ db.nodes, r.id = i → r = n := fun r hr hi =>
      inj_on_of_nodup_map h hr (Rows.mem_of_get hn) (hi.trans (Rows.key_of_get hn).symm)
    simp only
    split
    · rename_i hx
      refine (Rows.modify_eq_self fun r hr hi => ?_).symm
      rw [only r hr hi, HumanNode.addCbmId, if_pos hx]
    · rename_i hx
      refine Rows.modify_congr fun r hr hi => ?_
      rw [only r hr hi, HumanNode.addCbmId, if_neg hx]

@[simp] theorem addCbmId_id (x : Num) (n : HumanNode) : (n.addCbmId x).id = n.id := by
  unfold HumanNode.addCbmId
  split <;> rfl

@[simp] theorem addCbmId_project (x : Num) (n : HumanNode) : (n.addCbmId x).project = n.project := by
  unfold HumanNode.addCbmId
  split <;> rfl

@[simp] theorem addCbmId_slug (x : Num) (n : HumanNode) : (n.addCbmId x).slug = n.slug := by
  unfold HumanNode.addCbmId
  split <;> rfl

@[simp] theorem addCbmId_obsidianPath (x : Num) (n : HumanNode) : (n.addCbmId x).obsidianPath = n.obsidianPath := by
  unfold HumanNode.addCbmId
  split <;> rfl

/-- The ids that are read afterwards: the old ones, and the new one if it is valid. -/
theorem mem_cbmNodeIds_addCbmId {x y : Num} {n : HumanNode} :
    y ∈ (n.addCbmId x).cbmNodeIds ↔ y ∈ n.cbmNodeIds ∨ (y = x ∧ validCbmId x) := by
  unfold HumanNode.addCbmId
  split
  · rename_i hx
    exact ⟨.inl, fun h => h.elim id fun h => h.1 ▸ hx⟩
  · rw [cbmNodeIds_of_json (n := { n with cbmJson := (n.cbmNodeIds ++ [x]).map jsonNum }) rfl]
    simp only [mem_filter, mem_append, mem_singleton]
    constructor
    · rintro ⟨hy | rfl, hv⟩
      · exact .inl hy
      · exact .inr ⟨rfl, hv⟩
    · rintro (hy | ⟨rfl, hv⟩)
      · exact ⟨.inl hy, (mem_filter.mp hy).2⟩
      · exact ⟨.inr rfl, hv⟩

/-! ## The constraints of the schema -/

/-- The columns of a node that constraints speak of. -/
def HumanNode.keys (n : HumanNode) : ℕ × Text × Text := (n.id, n.project, n.slug)

/-- **The constraints that hold of every database**: primary keys given out once,
`UNIQUE(project, slug)`, and the foreign keys, with the ends of an edge in its project. -/
structure Db.WellFormed (db : Db) : Prop where
  nodeIds : (db.nodes.map HumanNode.id).Nodup
  nodeFresh : ∀ n ∈ db.nodes, n.id < db.nextNode
  slugs : (db.nodes.map fun n => (n.project, n.slug)).Nodup
  edgeIds : (db.edges.map HumanEdge.id).Nodup
  edgeFresh : ∀ e ∈ db.edges, e.id < db.nextEdge
  edgeSource : ∀ e ∈ db.edges, ∃ n ∈ db.nodes, n.id = e.source ∧ n.project = e.project
  edgeTarget : ∀ e ∈ db.edges, ∀ i, e.target = .human i →
    ∃ n ∈ db.nodes, n.id = i ∧ n.project = e.project
  linkNode : ∀ l ∈ db.links, ∃ n ∈ db.nodes, n.id = l.1

namespace Db.WellFormed

theorem empty : Db.empty.WellFormed := by
  constructor <;> simp [Db.empty]

section

variable (hw : db.WellFormed)
include hw

theorem get_iff {n : HumanNode} : db.getNodeById i = some n ↔ n ∈ db.nodes ∧ n.id = i :=
  Rows.get_eq_some_iff hw.nodeIds

theorem get_self {n : HumanNode} (hn : n ∈ db.nodes) : db.getNodeById n.id = some n :=
  hw.get_iff.mpr ⟨hn, rfl⟩

/-- Nodes with the same id are the same node. -/
theorem eq_of_id {m n : HumanNode} (hm : m ∈ db.nodes) (hn : n ∈ db.nodes) (h : m.id = n.id) : m = n :=
  inj_on_of_nodup_map hw.nodeIds hm hn h

/-- A change of the other columns of nodes keeps the constraints. -/
theorem of_keys {nodes : List HumanNode} {links : List (ℕ × Num)}
    (hkeys : nodes.map HumanNode.keys = db.nodes.map HumanNode.keys)
    (hlinks : ∀ l ∈ links, ∃ n ∈ db.nodes, n.id = l.1) : Db.WellFormed { db with nodes := nodes, links := links } := by
  have map_eq : ∀ {β : Type} (g : ℕ × Text × Text → β),
      (nodes.map fun n => g n.keys) = db.nodes.map fun n => g n.keys := by
    intro β g
    have := congrArg (List.map g) hkeys
    simpa only [map_map, Function.comp_def] using this
  have node : ∀ n ∈ db.nodes, ∃ m ∈ nodes, m.id = n.id ∧ m.project = n.project := by
    intro n hn
    have : n.keys ∈ nodes.map HumanNode.keys := hkeys ▸ mem_map_of_mem hn
    obtain ⟨m, hm, h⟩ := mem_map.mp this
    simp only [HumanNode.keys, Prod.mk.injEq] at h
    exact ⟨m, hm, h.1, h.2.1⟩
  refine
    { hw with
      nodeIds := ?_
      nodeFresh := ?_
      slugs := ?_
      edgeSource := ?_
      edgeTarget := ?_
      linkNode := ?_ }
  · exact (map_eq (·.1)).symm ▸ hw.nodeIds
  · intro n hn
    have : n.keys ∈ db.nodes.map HumanNode.keys := hkeys ▸ mem_map_of_mem hn
    obtain ⟨m, hm, h⟩ := mem_map.mp this
    simp only [HumanNode.keys, Prod.mk.injEq] at h
    exact h.1 ▸ hw.nodeFresh m hm
  · exact (map_eq (·.2)).symm ▸ hw.slugs
  · intro e he
    obtain ⟨n, hn, hi, hp⟩ := hw.edgeSource e he
    obtain ⟨m, hm, hmi, hmp⟩ := node n hn
    exact ⟨m, hm, hmi.trans hi, hmp.trans hp⟩
  · intro e he i hi
    obtain ⟨n, hn, hni, hp⟩ := hw.edgeTarget e he i hi
    obtain ⟨m, hm, hmi, hmp⟩ := node n hn
    exact ⟨m, hm, hmi.trans hni, hmp.trans hp⟩
  · intro l hl
    obtain ⟨n, hn, hi⟩ := hlinks l hl
    obtain ⟨m, hm, hmi, -⟩ := node n hn
    exact ⟨m, hm, hmi.trans hi⟩

theorem modify {f : HumanNode → HumanNode} (hf : ∀ n, (f n).keys = n.keys) :
    Db.WellFormed { db with nodes := Rows.modify HumanNode.id i f db.nodes } :=
  hw.of_keys (Rows.map_modify hf) hw.linkNode

theorem syncCbmLinks (ids : List Num) (hi : ∃ n ∈ db.nodes, n.id = i) : (db.syncCbmLinks i ids).WellFormed := by
  refine hw.of_keys rfl fun l hl => ?_
  rcases mem_links_syncCbmLinks.mp hl with ⟨hl, -⟩ | ⟨h, -⟩
  · exact hw.linkNode l hl
  · exact h ▸ hi

theorem withNode (ids : List Num) (hid : row.id = db.nextNode)
    (hslug : db.getNodeBySlug row.project row.slug = none) : (db.withNode row ids).WellFormed := by
  refine syncCbmLinks ?_ ids ⟨row, by simp, rfl⟩
  have sub : ∀ {i : ℕ} {p : Text}, (∃ n ∈ db.nodes, n.id = i ∧ n.project = p) →
      ∃ n ∈ db.nodes ++ [row], n.id = i ∧ n.project = p :=
    fun ⟨n, hn, h⟩ => ⟨n, by simp [hn], h⟩
  refine
    { hw with
      nodeIds := ?_
      nodeFresh := ?_
      slugs := ?_
      edgeSource := ?_
      edgeTarget := ?_
      linkNode := ?_ }
  · rw [map_append, map_singleton, List.nodup_append]
    refine ⟨hw.nodeIds, by simp, fun i hi j hj => ?_⟩
    obtain ⟨n, hn, rfl⟩ := mem_map.mp hi
    have := hw.nodeFresh n hn
    rw [mem_singleton.mp hj]
    omega
  · intro n hn
    rcases mem_append.mp hn with hn | hn
    · have := hw.nodeFresh n hn
      simp only
      omega
    · rw [mem_singleton.mp hn]
      simp only
      omega
  · rw [map_append, map_singleton, List.nodup_append]
    refine ⟨hw.slugs, by simp, fun i hi j hj => ?_⟩
    obtain ⟨n, hn, rfl⟩ := mem_map.mp hi
    rw [mem_singleton.mp hj]
    exact Rows.get_eq_none_iff.mp hslug n hn
  · exact fun e he => sub (hw.edgeSource e he)
  · exact fun e he i hi => sub (hw.edgeTarget e he i hi)
  · intro l hl
    obtain ⟨n, hn, h⟩ := hw.linkNode l hl
    exact ⟨n, by simp [hn], h⟩

theorem withUpdate (input : UpdateHumanNodeInput) (now : ℕ)
    (hi : ∃ n, db.getNodeById i = some n) : (db.withUpdate i input now).WellFormed := by
  have hm := hw.modify (i := i) (f := input.apply now) fun n => rfl
  unfold Db.withUpdate
  split
  · refine hm.syncCbmLinks _ ?_
    obtain ⟨n, hn⟩ := hi
    obtain ⟨hmem, rfl⟩ := hw.get_iff.mp hn
    exact ⟨input.apply now n, Rows.mem_modify.mpr (.inr ⟨n, hmem, rfl, rfl⟩), rfl⟩
  · exact hm

theorem markSynced (i now : ℕ) : (markSynced i now db).WellFormed :=
  hw.modify fun _ => rfl

theorem deleteNode (i : ℕ) : (deleteNode i db).2.WellFormed where
  nodeIds := hw.nodeIds.sublist (filter_sublist.map _)
  nodeFresh n hn := hw.nodeFresh n (mem_of_mem_filter hn)
  slugs := hw.slugs.sublist (filter_sublist.map _)
  edgeIds := hw.edgeIds.sublist (filter_sublist.map _)
  edgeFresh e he := hw.edgeFresh e (mem_of_mem_filter he)
  edgeSource e he := by
    simp only [Human.deleteNode, mem_filter, decide_eq_true_eq] at he ⊢
    obtain ⟨n, hn, hi, hp⟩ := hw.edgeSource e he.1
    exact ⟨n, ⟨hn, hi ▸ he.2.1⟩, hi, hp⟩
  edgeTarget e he j hj := by
    simp only [Human.deleteNode, mem_filter, decide_eq_true_eq] at he ⊢
    obtain ⟨n, hn, hi, hp⟩ := hw.edgeTarget e he.1 j hj
    exact ⟨n, ⟨hn, fun h => he.2.2 (by rw [hj, ← hi, h])⟩, hi, hp⟩
  linkNode l hl := by
    simp only [Human.deleteNode, mem_filter, decide_eq_true_eq] at hl ⊢
    obtain ⟨n, hn, hi⟩ := hw.linkNode l hl.1
    exact ⟨n, ⟨hn, hi ▸ hl.2⟩, hi⟩

theorem linkCode (i : ℕ) (x : Num) : (db.linkCode i x).WellFormed := by
  cases hn : db.getNodeById i with
  | none => simpa only [Db.linkCode, hn] using hw
  | some n =>
    have hkeys : (db.linkCode i x).nodes.map HumanNode.keys = db.nodes.map HumanNode.keys := by
      rw [linkCode_nodes hw.nodeIds]
      exact Rows.map_modify fun m => by simp [HumanNode.keys]
    have hlinks : ∀ l ∈ (db.linkCode i x).links, ∃ n ∈ db.nodes, n.id = l.1 := by
      intro l hl
      rcases (mem_links_linkCode (by simp [hn])).mp hl with hl | rfl
      · exact hw.linkNode l hl
      · exact ⟨n, hw.get_iff.mp hn⟩
    simpa only [Db.linkCode, hn] using hw.of_keys hkeys hlinks

/-- The row of an edge that was checked. -/
theorem withEdge (hc : input.Checked target db) (now : ℕ) :
    (db.withEdge (input.row target db.nextEdge now)).WellFormed := by
  have base : Db.WellFormed { db with
      edges := db.edges ++ [input.row target db.nextEdge now], nextEdge := db.nextEdge + 1 } := by
    refine { hw with edgeIds := ?_, edgeFresh := ?_, edgeSource := ?_, edgeTarget := ?_ }
    · rw [map_append, map_singleton, List.nodup_append]
      refine ⟨hw.edgeIds, by simp, fun i hi j hj => ?_⟩
      obtain ⟨e, he, rfl⟩ := mem_map.mp hi
      have := hw.edgeFresh e he
      rw [mem_singleton.mp hj]
      exact Nat.ne_of_lt this
    · intro e he
      rcases mem_append.mp he with he | he
      · have := hw.edgeFresh e he
        simp only
        omega
      · rw [mem_singleton.mp he]
        exact Nat.lt_succ_self _
    · intro e he
      rcases mem_append.mp he with he | he
      · exact hw.edgeSource e he
      · obtain ⟨n, hn, hp⟩ := hc.source
        rw [mem_singleton.mp he]
        exact ⟨n, (hw.get_iff.mp hn).1, (hw.get_iff.mp hn).2, hp⟩
    · intro e he i hi
      rcases mem_append.mp he with he | he
      · exact hw.edgeTarget e he i hi
      · rw [mem_singleton.mp he] at hi ⊢
        obtain ⟨n, hn, hp⟩ := hc.human i hi
        exact ⟨n, (hw.get_iff.mp hn).1, (hw.get_iff.mp hn).2, hp⟩
  unfold Db.withEdge
  simp only
  split
  · exact base.linkCode _ _
  · exact base

theorem deleteStaleEdges (i : ℕ) (sourceFile : Option Text) (keep : List ℕ) :
    (deleteStaleEdgesFromNode i sourceFile keep db).WellFormed :=
  { hw with
    edgeIds := hw.edgeIds.sublist (filter_sublist.map _)
    edgeFresh := fun e he => hw.edgeFresh e (mem_of_mem_filter he)
    edgeSource := fun e he => hw.edgeSource e (mem_of_mem_filter he)
    edgeTarget := fun e he => hw.edgeTarget e (mem_of_mem_filter he) }

end

end Db.WellFormed

/-! ## The operations keep the constraints -/

theorem createNode_wellFormed {input : CreateHumanNodeInput} (hw : db.WellFormed)
    (h : createNode host input now db = .ok (row, db')) : db'.WellFormed := by
  obtain ⟨attempt, hfree, rfl, rfl⟩ := createNode_ok h
  exact hw.withNode _ rfl (freeSlug_some hfree)

theorem updateNode_wellFormed {input : UpdateHumanNodeInput} {r : Option HumanNode}
    (hw : db.WellFormed) (h : updateNode id input now db = .ok (r, db')) : db'.WellFormed := by
  rcases updateNode_ok h with ⟨rfl, -⟩ | ⟨hn, -, rfl, -⟩
  · exact hw
  · exact hw.withUpdate input now hn

theorem createEdge_wellFormed {row : HumanEdge} (hw : db.WellFormed)
    (h : createEdge input now db = .ok (row, db')) : db'.WellFormed := by
  obtain ⟨target, hc, ⟨-, rfl⟩ | ⟨-, -, rfl, rfl⟩⟩ := createEdge_ok h
  · exact hw
  · exact hw.withEdge hc now

end Ariad.Human
