import Ariad.Indexer.Scopes

/-!
# The rows of a file

How a file that was read off its tree is written to the nodes and edges tables: nodes are numbered on, and edges are
joined to nodes by qualified name.

* `CodeTables` — the rows of the project, and what the writer knows: the next id, and the id of each qualified name.
* `writeOneFile` — one file.
* `placeId` — the id that a declaration gets; `idOf_declared`: its qualified name leads to it where names are apart.
-/

namespace Ariad.FastWalker

open List

structure NumberedNode where
  id : ℕ
  node : FastNode
  deriving DecidableEq

structure NumberedEdge where
  sourceId : ℕ
  targetId : ℕ
  type : EdgeType
  properties : Text
  deriving DecidableEq

/-- `qnToId.get(qn)`, where 0 is as good as nothing; the last entry of a name is the first in the list. -/
def idOf (qnToId : List (Text × ℕ)) (qn : Text) : Option ℕ :=
  ((qnToId.find? fun p => p.1 = qn).map Prod.snd).filter fun id => id ≠ 0

/-- The row of an edge whose ends both have ids. -/
def edgeRow (qnToId : List (Text × ℕ)) (e : FastEdge) : Option NumberedEdge :=
  (idOf qnToId e.sourceQn).bind fun source =>
    (idOf qnToId e.targetQn).map fun target => ⟨source, target, e.type, e.properties⟩

/-- The nodes of a file with the ids that are next. -/
def numberedNodes (next : ℕ) (nodes : List FastNode) : List NumberedNode := (nodes.zipIdx next).map fun p => ⟨p.2, p.1⟩

/-- The ids of the qualified names of a file, the last one first. -/
def namesOfFile (next : ℕ) (nodes : List FastNode) : List (Text × ℕ) :=
  ((nodes.zipIdx next).map fun p => (p.1.qualifiedName, p.2)).reverse

/-- **The tables while files are written.** No id that is in use is given to a new node. -/
structure CodeTables where
  nodes : List NumberedNode
  edges : List NumberedEdge
  nextNodeId : ℕ
  qnToId : List (Text × ℕ)
  deferredEdges : List FastEdge
  positive : 0 < nextNodeId
  nodes_lt : ∀ n ∈ nodes, n.id < nextNodeId
  edges_lt : ∀ e ∈ edges, e.sourceId < nextNodeId ∧ e.targetId < nextNodeId
  names_lt : ∀ p ∈ qnToId, p.2 < nextNodeId

theorem mem_namesOfFile {next : ℕ} {nodes : List FastNode} {p : Text × ℕ} (h : p ∈ namesOfFile next nodes) :
    next ≤ p.2 ∧ p.2 < next + nodes.length := by
  obtain ⟨q, hq, rfl⟩ := mem_map.mp (mem_reverse.mp h)
  exact ⟨le_snd_of_mem_zipIdx (x := q) hq, snd_lt_add_of_mem_zipIdx (x := q) hq⟩

theorem mem_of_idOf {qnToId : List (Text × ℕ)} {qn : Text} {id : ℕ} (h : idOf qnToId qn = some id) :
    (qn, id) ∈ qnToId := by
  obtain ⟨h, -⟩ := Option.filter_eq_some_iff.mp h
  obtain ⟨⟨name, i⟩, hfind, rfl⟩ := Option.map_eq_some_iff.mp h
  obtain rfl : name = qn := by simpa using find?_some hfind
  exact mem_of_find?_eq_some hfind

/-- The ends of a row are ids of names. -/
theorem edgeRow_lt {qnToId : List (Text × ℕ)} {bound : ℕ} (hnames : ∀ p ∈ qnToId, p.2 < bound) {e : FastEdge}
    {row : NumberedEdge} (h : edgeRow qnToId e = some row) : row.sourceId < bound ∧ row.targetId < bound := by
  obtain ⟨source, hsource, h⟩ := Option.bind_eq_some_iff.mp h
  obtain ⟨target, htarget, rfl⟩ := Option.map_eq_some_iff.mp h
  exact ⟨hnames _ (mem_of_idOf hsource), hnames _ (mem_of_idOf htarget)⟩

namespace CodeTables

variable (t : CodeTables)

/-- The names after a file. -/
def namesAfter (r : FastFileResult) : List (Text × ℕ) := namesOfFile t.nextNodeId r.nodes ++ t.qnToId

theorem namesAfter_lt (r : FastFileResult) : ∀ p ∈ t.namesAfter r, p.2 < t.nextNodeId + r.nodes.length := by
  intro p hp
  rcases mem_append.mp hp with hp | hp
  · exact (mem_namesOfFile hp).2
  · exact (t.names_lt p hp).trans_le (Nat.le_add_right _ _)

/-- The ids of the old rows of a file that has changed. -/
def oldNodeIds (changed : Bool) (relPath : Text) : List ℕ :=
  if changed then (t.nodes.filter fun n => n.node.filePath = relPath).map NumberedNode.id else []

/-- **A file is written.** The old rows of a changed file are deleted first. -/
def writeOneFile (changed : Bool) (relPath : Text) (r : FastFileResult) : CodeTables where
  nodes := (t.nodes.filter fun n => ¬(changed = true ∧ n.node.filePath = relPath)) ++ numberedNodes t.nextNodeId r.nodes
  edges := (t.edges.filter fun e => e.sourceId ∉ t.oldNodeIds changed relPath ∧ e.targetId ∉ t.oldNodeIds changed relPath) ++
    r.edges.filterMap (edgeRow (t.namesAfter r))
  nextNodeId := t.nextNodeId + r.nodes.length
  qnToId := t.namesAfter r
  deferredEdges := t.deferredEdges ++ r.edges.filter fun e => (edgeRow (t.namesAfter r) e).isNone
  positive := Nat.add_pos_left t.positive _
  nodes_lt := by
    intro n hn
    rcases List.mem_append.mp hn with hn | hn
    · exact (t.nodes_lt n (List.mem_of_mem_filter hn)).trans_le (Nat.le_add_right _ _)
    · obtain ⟨p, hp, rfl⟩ := List.mem_map.mp hn
      exact List.snd_lt_add_of_mem_zipIdx hp
  edges_lt := by
    intro e he
    rcases List.mem_append.mp he with he | he
    · obtain ⟨hsource, htarget⟩ := t.edges_lt e (List.mem_of_mem_filter he)
      exact ⟨hsource.trans_le (Nat.le_add_right _ _), htarget.trans_le (Nat.le_add_right _ _)⟩
    · obtain ⟨e', -, hrow⟩ := List.mem_filterMap.mp he
      exact edgeRow_lt (t.namesAfter_lt r) hrow
  names_lt := t.namesAfter_lt r

end CodeTables

/-! ## Ids -/

/-- A name of a file leads to the node that has it alone. -/
theorem idOf_written (t : CodeTables) {r : FastFileResult} (h : (r.nodes.map FastNode.qualifiedName).Nodup)
    {p : FastNode × ℕ} (hp : p ∈ r.nodes.zipIdx t.nextNodeId) :
    idOf (t.namesAfter r) p.1.qualifiedName = some p.2 := by
  have hkeys : ((namesOfFile t.nextNodeId r.nodes).map Prod.fst).Nodup := by
    rw [namesOfFile, map_reverse, map_map, nodup_reverse]
    have hfst : ((r.nodes.zipIdx t.nextNodeId).map fun p => p.1.qualifiedName) = r.nodes.map FastNode.qualifiedName := by
      conv_rhs => rw [← zipIdx_map_fst t.nextNodeId r.nodes, map_map]
      rfl
    exact hfst ▸ h
  have hmem : (p.1.qualifiedName, p.2) ∈ namesOfFile t.nextNodeId r.nodes :=
    mem_reverse.mpr (mem_map_of_mem hp)
  have hget : Rows.get Prod.fst p.1.qualifiedName (namesOfFile t.nextNodeId r.nodes) = some (p.1.qualifiedName, p.2) :=
    (Rows.get_eq_some_iff hkeys).mpr ⟨hmem, rfl⟩
  have hfind : Rows.get Prod.fst p.1.qualifiedName (t.namesAfter r) = some (p.1.qualifiedName, p.2) :=
    Rows.get_append_of_some hget
  have hpositive : p.2 ≠ 0 := (t.positive.trans_le (le_snd_of_mem_zipIdx hp)).ne'
  refine Option.filter_eq_some_iff.mpr ⟨?_, decide_eq_true hpositive⟩
  exact congrArg (Option.map Prod.snd) hfind

section Places

variable {tree : SyntaxTree} {fileQn relPath : Text} {sourceLength : ℕ} (t : CodeTables)

/-- The id of the node of a declaration, and of the file. -/
def CodeTables.placeId (tree : SyntaxTree) : Option Place → ℕ
  | none => t.nextNodeId
  | some y => t.nextNodeId + 1 + ((declarations tree).map fun p => p.2.node.id).idxOf y.node.id

/-- The nodes of a file: its own, and one for each declaration. -/
theorem nodes_extractFast : (extractFast tree relPath fileQn sourceLength).nodes =
    fileNode tree relPath fileQn sourceLength :: (extracted tree fileQn).reverse.map (Declared.toNode relPath) := rfl

theorem key_reverse (fileQn : Text) : (extracted tree fileQn).reverse.map Declared.key = declarations tree := by
  rw [map_reverse, map_key_extracted, reverse_reverse]

/-- The node of a declaration is numbered with the id of its place. -/
theorem mem_zipIdx_declared {d : Declared} (h : d ∈ extracted tree fileQn) :
    (d.toNode relPath, t.placeId tree (some d.place)) ∈
      (extractFast tree relPath fileQn sourceLength).nodes.zipIdx t.nextNodeId := by
  obtain ⟨i, hi, hd⟩ := getElem_of_mem (mem_reverse.mpr h)
  have hindex : ((declarations tree).map fun p => p.2.node.id).idxOf d.place.node.id = i := by
    have hids : ((extracted tree fileQn).reverse.map fun d => d.place.node.id) =
        (declarations tree).map fun p => p.2.node.id := by
      rw [← key_reverse fileQn, map_map]
      rfl
    have hnodup : ((extracted tree fileQn).reverse.map fun d => d.place.node.id).Nodup := hids ▸ nodup_declarations tree
    have hlength : i < ((extracted tree fileQn).reverse.map fun d => d.place.node.id).length := by
      rwa [length_map]
    have hat := hnodup.idxOf_getElem i hlength
    rw [getElem_map, hd] at hat
    rw [← hids, hat]
  rw [nodes_extractFast, CodeTables.placeId, hindex, zipIdx_cons]
  refine mem_cons_of_mem _ ?_
  rw [mk_add_mem_zipIdx_iff_getElem?, getElem?_map, getElem?_eq_getElem hi, hd]
  rfl

theorem mem_zipIdx_file : (fileNode tree relPath fileQn sourceLength, t.placeId tree none) ∈
    (extractFast tree relPath fileQn sourceLength).nodes.zipIdx t.nextNodeId := by
  rw [nodes_extractFast, CodeTables.placeId, zipIdx_cons]
  exact mem_cons_self

/-- Different declarations have different ids, and the file has another one. -/
theorem placeId_inj {y z : Option Place} (hy : ∀ x ∈ y, x ∈ (declarations tree).map Prod.snd)
    (hz : ∀ x ∈ z, x ∈ (declarations tree).map Prod.snd) (h : t.placeId tree y = t.placeId tree z) : y = z := by
  cases y with
  | none =>
    cases z with
    | none => rfl
    | some z =>
      simp only [CodeTables.placeId] at h
      omega
  | some y =>
    cases z with
    | none =>
      simp only [CodeTables.placeId] at h
      omega
    | some z =>
      obtain ⟨p, hp, rfl⟩ := mem_map.mp (hy y rfl)
      obtain ⟨q, hq, rfl⟩ := mem_map.mp (hz z rfl)
      have hindex := Nat.add_left_cancel h
      have hmem : p.2.node.id ∈ (declarations tree).map fun p => p.2.node.id := mem_map_of_mem (f := fun p : DeclLabel × Place => p.2.node.id) hp
      have hid := (idxOf_inj hmem).mp hindex
      rw [SyntaxTree.place_eq (mem_declarations.mp hp).1 (mem_declarations.mp hq).1 hid]

/-- A parent is the file or a declaration that was extracted before. -/
theorem findParentQnFast_cases (parents : List TSNode) (decls : List Declared) :
    findParentQnFast parents fileQn decls = fileQn ∨ ∃ d ∈ decls, findParentQnFast parents fileQn decls = d.qn := by
  rw [findParentQnFast]
  generalize hfind : (parents.findSome? _) = found
  cases found with
  | none => exact .inl rfl
  | some qn =>
    obtain ⟨p, -, hp⟩ := exists_of_findSome?_eq_some hfind
    split at hp
    · obtain ⟨d, hd, rfl⟩ := Option.map_eq_some_iff.mp hp
      exact .inr ⟨d, mem_of_find?_eq_some hd, rfl⟩
    · cases hp

/-- The name of a file is shorter than those of its declarations. -/
theorem length_fileQn_lt : ∀ d ∈ extracted tree fileQn, fileQn.length < d.qn.length := by
  have hparents : ParentsSeen fileQn (extracted tree fileQn) := parentsSeen_extracted
  generalize extracted tree fileQn = decls at hparents
  -- From the first one that was extracted on: a parent is in the rest of the list.
  induction decls with
  | nil => exact fun d hd => absurd hd not_mem_nil
  | cons d decls ih =>
    have ih := ih fun later e earlier heq => hparents (d :: later) e earlier (by rw [heq]; rfl)
    intro e he
    rcases mem_cons.mp he with rfl | he
    · have hparent := hparents [] e decls rfl
      rw [Declared.qn, length_append, length_append, hparent]
      have hcolons : "::".toList.length = 2 := rfl
      rcases findParentQnFast_cases e.place.parents decls with heq | ⟨e', he', heq⟩
      · rw [heq]
        omega
      · have := ih e' he'
        rw [heq]
        omega
    · exact ih e he

/-- The declarations have different qualified names. -/
def QnsApart (tree : SyntaxTree) (fileQn : Text) : Prop := ((extracted tree fileQn).map Declared.qn).Nodup

theorem nodup_nodes (h : QnsApart tree fileQn) :
    ((extractFast tree relPath fileQn sourceLength).nodes.map FastNode.qualifiedName).Nodup := by
  rw [nodes_extractFast, map_cons, map_map, map_reverse]
  refine nodup_cons.mpr ⟨fun hmem => ?_, nodup_reverse.mpr h⟩
  obtain ⟨d, hd, hqn⟩ := mem_map.mp (mem_reverse.mp hmem)
  have hlength := length_fileQn_lt d hd
  rw [show d.qn = fileQn from hqn] at hlength
  exact lt_irrefl _ hlength

variable {t}

/-- The names that are known after the file. -/
def CodeTables.namesOf (t : CodeTables) (tree : SyntaxTree) (relPath fileQn : Text) (sourceLength : ℕ) : List (Text × ℕ) :=
  t.namesAfter (extractFast tree relPath fileQn sourceLength)

theorem idOf_declared (h : QnsApart tree fileQn) {d : Declared} (hd : d ∈ extracted tree fileQn) :
    idOf (t.namesOf tree relPath fileQn sourceLength) d.qn = some (t.placeId tree (some d.place)) :=
  idOf_written t (nodup_nodes h) (mem_zipIdx_declared t hd)

theorem idOf_file (h : QnsApart tree fileQn) :
    idOf (t.namesOf tree relPath fileQn sourceLength) fileQn = some (t.placeId tree none) :=
  @idOf_written t (extractFast tree relPath fileQn sourceLength) (nodup_nodes h) _ (mem_zipIdx_file t)

/-- Where names are apart, the parent of a declaration leads to the node of the one it sees. -/
theorem idOf_parent (h : QnsApart tree fileQn) {d : Declared} (hd : d ∈ extracted tree fileQn) :
    idOf (t.namesOf tree relPath fileQn sourceLength) d.parentQn =
      some (t.placeId tree (seen d.label d.place.parents)) := by
  rw [parentQn_eq hd]
  cases hseen : seen d.label d.place.parents with
  | none => exact idOf_file h
  | some y =>
    obtain ⟨hy, r, hr⟩ := seen_some hseen
    obtain ⟨e, he, rfl⟩ := exists_around hd hy hr
    rw [Option.bind_some, qnByNode_extracted he]
    exact idOf_declared h he

end Places

end Ariad.FastWalker
