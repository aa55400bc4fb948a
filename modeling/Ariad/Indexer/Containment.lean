import Ariad.Indexer.CodeTables

/-!
# The containment tree

What the rows of a file should say of its declarations, and when they do.

* `ContainmentTree` — one `CONTAINS` edge into each declaration, from the nearest one around it; names apart; calls
  from the function or method around them.
* `sources_eq` — where names are apart, the edge into a declaration comes from the one it sees.
* `containmentTree_iff` — the rows say so exactly if the declarations are in the order of the passes and have
  different qualified names as written.
-/

namespace Ariad.FastWalker

open List

variable (t : CodeTables) (tree : SyntaxTree) (relPath fileQn : Text) (sourceLength : ℕ) (changed : Bool)

/-- The tables after the file. -/
def tablesAfter : CodeTables := t.writeOneFile changed relPath (extractFast tree relPath fileQn sourceLength)

/-- The ends of the `CONTAINS` edges into a node. -/
def containers (after : CodeTables) (id : ℕ) : List ℕ :=
  (after.edges.filter fun e => e.type = .CONTAINS ∧ e.targetId = id).map NumberedEdge.sourceId

/-- **The rows of a file say what is around what.** -/
structure ContainmentTree (after : CodeTables) : Prop where
  /-- One edge into each declaration, from the nearest declaration around it, or from the file. -/
  one : ∀ p ∈ declarations tree,
    containers after (t.placeId tree (some p.2)) = [t.placeId tree (enclosing p.2.parents)]
  /-- Different declarations have different qualified names. -/
  apart : ∀ p ∈ declarations tree, ∀ q ∈ declarations tree, ∀ m ∈ after.nodes, ∀ n ∈ after.nodes,
    m.id = t.placeId tree (some p.2) → n.id = t.placeId tree (some q.2) →
    m.node.qualifiedName = n.node.qualifiedName → p = q
  /-- The edges of a call start at the function or method around it. -/
  calls : ∀ x ∈ tree.descendantsOfType callTypes, ∀ e ∈ callEdges (extracted tree fileQn) x,
    ∀ row ∈ edgeRow after.qnToId e, ∃ y ∈ enclosingCallable x.parents, row.sourceId = t.placeId tree (some y)

variable {t tree relPath fileQn sourceLength changed}

/-! ## Nodes -/

variable {d : Declared} {e : FastEdge}

theorem le_placeId (t : CodeTables) (tree : SyntaxTree) (y : Option Place) : t.nextNodeId ≤ t.placeId tree y := by
  cases y with
  | none => exact le_rfl
  | some y =>
    rw [CodeTables.placeId, Nat.add_assoc]
    exact Nat.le_add_right _ _

/-- The row with the id of a declaration is the node of the declaration. -/
theorem node_of_place (hd : d ∈ extracted tree fileQn) {n : NumberedNode}
    (hn : n ∈ (tablesAfter t tree relPath fileQn sourceLength changed).nodes)
    (hid : n.id = t.placeId tree (some d.place)) : n.node = d.toNode relPath := by
  rcases mem_append.mp hn with hold | hnew
  · have hlt := t.nodes_lt n (mem_of_mem_filter hold)
    have hle := le_placeId t tree (some d.place)
    omega
  · obtain ⟨p, hp, rfl⟩ := mem_map.mp hnew
    have hat := (mem_zipIdx_iff_le_and_getElem?_sub.mp hp).2
    have hdeclared : (d.toNode relPath, t.placeId tree (some d.place)) ∈
        (extractFast tree relPath fileQn sourceLength).nodes.zipIdx t.nextNodeId := mem_zipIdx_declared t hd
    have hat' := (mem_zipIdx_iff_le_and_getElem?_sub.mp hdeclared).2
    rw [show p.2 = t.placeId tree (some d.place) from hid, hat'] at hat
    exact (Option.some.inj hat).symm

theorem mem_nodes_after (hd : d ∈ extracted tree fileQn) :
    ⟨t.placeId tree (some d.place), d.toNode relPath⟩ ∈ (tablesAfter t tree relPath fileQn sourceLength changed).nodes :=
  mem_append_right _ (mem_map_of_mem (f := fun p : FastNode × ℕ => (⟨p.2, p.1⟩ : NumberedNode))
    (mem_zipIdx_declared t hd))

/-- Names in the table are apart exactly if those that are extracted are. -/
theorem apart_iff : (∀ p ∈ declarations tree, ∀ q ∈ declarations tree,
      ∀ m ∈ (tablesAfter t tree relPath fileQn sourceLength changed).nodes,
      ∀ n ∈ (tablesAfter t tree relPath fileQn sourceLength changed).nodes,
      m.id = t.placeId tree (some p.2) → n.id = t.placeId tree (some q.2) →
      m.node.qualifiedName = n.node.qualifiedName → p = q) ↔ QnsApart tree fileQn := by
  constructor
  · intro h
    refine pairwise_map.mpr ((pairwise_map.mp nodup_extracted).imp_of_mem fun {d e} hd he hne hqn => hne ?_)
    have hkey := h d.key (key_mem hd) e.key (key_mem he) _ (mem_nodes_after hd) _ (mem_nodes_after he) rfl rfl hqn
    exact congrArg (fun p : DeclLabel × Place => p.2.node.id) hkey
  · intro h p hp q hq m hm n hn hmid hnid hqn
    obtain ⟨d, hd, rfl⟩ := exists_extracted fileQn hp
    obtain ⟨e, he, rfl⟩ := exists_extracted fileQn hq
    rw [node_of_place hd hm hmid, node_of_place he hn hnid] at hqn
    rw [inj_on_of_nodup_map h hd he hqn]

/-! ## Edges -/

/-- The `CONTAINS` row of a declaration. -/
def containsRow (t : CodeTables) (tree : SyntaxTree) (d : Declared) : NumberedEdge :=
  ⟨t.placeId tree (seen d.label d.place.parents), t.placeId tree (some d.place), .CONTAINS, "\x7b\x7d".toList⟩

theorem contains_rows (t : CodeTables) (relPath : Text) (sourceLength : ℕ) (h : QnsApart tree fileQn) :
    ((extracted tree fileQn).reverse.map Declared.contains).filterMap
        (edgeRow (t.namesOf tree relPath fileQn sourceLength)) =
      (extracted tree fileQn).reverse.map (containsRow t tree) := by
  rw [filterMap_map, ← filterMap_eq_map]
  refine filterMap_congr fun d hd => ?_
  have hd := mem_reverse.mp hd
  rw [Function.comp_apply, edgeRow, Declared.contains, idOf_parent h hd, idOf_declared h hd]
  rfl

/-- No call makes a `CONTAINS` edge. -/
theorem type_of_callEdges {decls : List Declared} {x : Place} (he : e ∈ callEdges decls x) : e.type = .CALLS := by
  rw [callEdges] at he
  split at he
  · cases he
  · obtain ⟨candidate, -, hedge⟩ := mem_filterMap.mp he
    split at hedge
    · cases hedge
    · rw [← Option.some.inj hedge]

theorem type_of_edgeRow {qnToId : List (Text × ℕ)} {row : NumberedEdge}
    (h : edgeRow qnToId e = some row) : row.type = e.type := by
  obtain ⟨source, -, h⟩ := Option.bind_eq_some_iff.mp h
  obtain ⟨target, -, rfl⟩ := Option.map_eq_some_iff.mp h
  rfl

/-- The only declaration with the id of one is that one. -/
theorem filter_placeId (hd : d ∈ extracted tree fileQn) :
    ((extracted tree fileQn).reverse.filter fun e => t.placeId tree (some e.place) = t.placeId tree (some d.place)) =
      [d] := by
  have hplace {e : Declared} (he : e ∈ extracted tree fileQn) :
      ∀ x ∈ some e.place, x ∈ (declarations tree).map Prod.snd := by
    intro x hx
    obtain rfl := Option.some.inj hx
    exact mem_map_of_mem (f := Prod.snd) (key_mem he)
  have hids : ((extracted tree fileQn).reverse.map fun e => e.place.node.id).Nodup := by
    rw [map_reverse]
    exact nodup_reverse.mpr nodup_extracted
  have hget : Rows.get (fun e : Declared => e.place.node.id) d.place.node.id (extracted tree fileQn).reverse = some d :=
    (Rows.get_eq_some_iff hids).mpr ⟨mem_reverse.mpr hd, rfl⟩
  have hfilter := Rows.filter_key_eq hids d.place.node.id
  rw [hget] at hfilter
  refine Eq.trans (filter_congr fun e he => ?_) hfilter
  refine decide_eq_decide.mpr ⟨fun hid => ?_, fun hid => ?_⟩
  · have heq := placeId_inj t (hplace (mem_reverse.mp he)) (hplace hd) hid
    rw [Option.some.inj heq]
  · rw [extracted_inj (mem_reverse.mp he) hd hid]

/-- **Where names are apart, there is one edge into a declaration, from the one it sees.** -/
theorem sources_eq (h : QnsApart tree fileQn) (hd : d ∈ extracted tree fileQn) :
    containers (tablesAfter t tree relPath fileQn sourceLength changed) (t.placeId tree (some d.place)) =
      [t.placeId tree (seen d.label d.place.parents)] := by
  have hold : (t.edges.filter fun e => e.sourceId ∉ t.oldNodeIds changed relPath ∧
      e.targetId ∉ t.oldNodeIds changed relPath).filter
        (fun e => e.type = .CONTAINS ∧ e.targetId = t.placeId tree (some d.place)) = [] := by
    refine filter_eq_nil_iff.mpr fun e he hid => ?_
    have hlt := (t.edges_lt e (mem_of_mem_filter he)).2
    have hle := le_placeId t tree (some d.place)
    have hid := (of_decide_eq_true hid).2
    omega
  have hcalls : (((tree.descendantsOfType callTypes).flatMap (callEdges (extracted tree fileQn))).filterMap
      (edgeRow (t.namesOf tree relPath fileQn sourceLength))).filter
        (fun e => e.type = .CONTAINS ∧ e.targetId = t.placeId tree (some d.place)) = [] := by
    refine filter_eq_nil_iff.mpr fun row hrow htype => ?_
    obtain ⟨e, he, hedge⟩ := mem_filterMap.mp hrow
    obtain ⟨x, -, he⟩ := mem_flatMap.mp he
    have hcall : row.type = .CALLS := (type_of_edgeRow hedge).trans (type_of_callEdges he)
    exact absurd ((of_decide_eq_true htype).1.symm.trans hcall) (by decide)
  have hedges : (tablesAfter t tree relPath fileQn sourceLength changed).edges =
      (t.edges.filter fun e => e.sourceId ∉ t.oldNodeIds changed relPath ∧
        e.targetId ∉ t.oldNodeIds changed relPath) ++
      ((extracted tree fileQn).reverse.map (containsRow t tree) ++
        ((tree.descendantsOfType callTypes).flatMap (callEdges (extracted tree fileQn))).filterMap
          (edgeRow (t.namesOf tree relPath fileQn sourceLength))) := by
    rw [← contains_rows t relPath sourceLength h, ← filterMap_append]
    rfl
  rw [containers, hedges, filter_append, filter_append, hold, hcalls, nil_append, append_nil,
    filter_map, map_map]
  have hrows : ((fun e : NumberedEdge => decide (e.type = .CONTAINS ∧ e.targetId = t.placeId tree (some d.place))) ∘
      containsRow t tree) = fun e => decide (t.placeId tree (some e.place) = t.placeId tree (some d.place)) := by
    funext e
    exact decide_eq_decide.mpr ⟨fun h => h.2, fun h => ⟨rfl, h⟩⟩
  rw [hrows, filter_placeId hd]
  rfl

/-! ## Calls -/

/-- The caller is the function or method around. -/
theorem findEnclosing_eq {x : Place} (hx : x ∈ tree.places) :
    findEnclosingDeclQnFast x.parents (extracted tree fileQn) =
      (enclosingCallable x.parents).bind fun y => qnByNode (extracted tree fileQn) y.node := by
  rw [findEnclosingDeclQnFast, findSome?_ancestors, enclosingCallable]
  refine findSome?_eq_bind (fun y hy hcallable => ?_) (fun y _ hcallable => ?_)
  · have hlabel := of_decide_eq_true hcallable
    rw [if_pos ((labelOf_callable _).mp hlabel)]
    refine ⟨rfl, ?_⟩
    have hplace : y ∈ tree.places := SyntaxTree.ancestor_mem hx hy
    obtain ⟨r, hr⟩ : ∃ r, labelOf y.node.type = some r := hlabel.elim (fun h => ⟨_, h⟩) fun h => ⟨_, h⟩
    have hmem : (r, y) ∈ declarations tree := mem_declarations.mpr ⟨hplace, hr⟩
    obtain ⟨e, he, hkey⟩ := exists_extracted fileQn hmem
    obtain rfl : e.place = y := congrArg Prod.snd hkey
    rw [qnByNode_extracted he, Option.isSome_some]
  · exact if_neg fun hdecl => of_decide_eq_false hcallable ((labelOf_callable _).mpr hdecl)

theorem source_of_callEdges {decls : List Declared} {x : Place} (he : e ∈ callEdges decls x) :
    findEnclosingDeclQnFast x.parents decls = some e.sourceQn := by
  rw [callEdges] at he
  split at he
  · cases he
  · rename_i funcNode sourceQn hcall
    obtain ⟨candidate, -, hedge⟩ := mem_filterMap.mp he
    obtain ⟨_, -, hcall⟩ := Option.bind_eq_some_iff.mp hcall
    obtain ⟨source, hsource, heq⟩ := Option.map_eq_some_iff.mp hcall
    obtain ⟨-, rfl⟩ := Prod.mk.inj heq
    split at hedge
    · cases hedge
    · rw [← Option.some.inj hedge]
      exact hsource

/-- Where names are apart, the edges of a call start at the function or method around it. -/
theorem calls_start (h : QnsApart tree fileQn) {x : Place} (hx : x ∈ tree.descendantsOfType callTypes)
    (he : e ∈ callEdges (extracted tree fileQn) x) {row : NumberedEdge}
    (hrow : edgeRow (t.namesOf tree relPath fileQn sourceLength) e = some row) :
    ∃ y ∈ enclosingCallable x.parents, row.sourceId = t.placeId tree (some y) := by
  have hplace : x ∈ tree.places := mem_of_mem_filter hx
  have hsource := source_of_callEdges he
  rw [findEnclosing_eq hplace] at hsource
  obtain ⟨y, hy, hqn⟩ := Option.bind_eq_some_iff.mp hsource
  obtain ⟨d, hd, hdqn⟩ := Option.map_eq_some_iff.mp hqn
  have hd' := mem_of_find?_eq_some hd
  have hid : d.place.node.id = y.node.id := by simpa using find?_some hd
  have hyplace : y ∈ tree.places := SyntaxTree.ancestor_mem hplace (mem_of_find?_eq_some hy)
  obtain rfl : d.place = y := SyntaxTree.place_eq (mem_declarations.mp (key_mem hd')).1 hyplace hid
  obtain ⟨source, hid, hrow⟩ := Option.bind_eq_some_iff.mp hrow
  obtain ⟨target, -, rfl⟩ := Option.map_eq_some_iff.mp hrow
  rw [← hdqn, idOf_declared h hd'] at hid
  exact ⟨d.place, hy, (Option.some.inj hid).symm⟩

/-! ## The tree -/

theorem qnsApart_iff (h : InOrder tree) : QnsApart tree fileQn ↔ NamesApart tree fileQn := by
  have hqns : (extracted tree fileQn).map Declared.qn =
      ((declarations tree).map fun p => scopeQn tree fileQn p.2).reverse := by
    rw [← key_reverse fileQn, map_map, map_reverse, reverse_reverse]
    exact map_congr_left fun d hd => qn_eq_scopeQn h hd
  rw [QnsApart, NamesApart, hqns, nodup_reverse]

/-- **The rows of a file say what is around what exactly if every declaration is of the pass of the one around it or of
a later one, and no two have the same qualified name as written.** -/
theorem containmentTree_iff (t : CodeTables) (tree : SyntaxTree) (relPath fileQn : Text) (sourceLength : ℕ)
    (changed : Bool) : ContainmentTree t tree fileQn (tablesAfter t tree relPath fileQn sourceLength changed) ↔
      InOrder tree ∧ NamesApart tree fileQn := by
  constructor
  · intro h
    have hapart : QnsApart tree fileQn := apart_iff.mp h.apart
    have horder : InOrder tree := by
      refine (inOrder_iff fileQn).mpr fun d hd => ?_
      have hone := (sources_eq hapart hd).symm.trans (h.one d.key (key_mem hd))
      have hdecl {y : Place} (hy : y ∈ ancestors d.place.parents) {r : DeclLabel} (hr : labelOf y.node.type = some r) :
          y ∈ (declarations tree).map Prod.snd := by
        obtain ⟨e, he, rfl⟩ := exists_around hd hy hr
        exact mem_map_of_mem (f := Prod.snd) (key_mem he)
      refine placeId_inj t (fun y hy => ?_) (fun y hy => ?_) (List.cons.inj hone).1
      · obtain ⟨hy, r, hr⟩ := seen_some hy
        exact hdecl hy hr
      · obtain ⟨hy, r, hr⟩ := enclosing_some hy
        exact hdecl hy hr
    exact ⟨horder, (qnsApart_iff horder).mp hapart⟩
  · rintro ⟨horder, hnames⟩
    have hapart : QnsApart tree fileQn := (qnsApart_iff horder).mpr hnames
    refine ⟨fun p hp => ?_, apart_iff.mpr hapart, fun x hx e he row hrow => calls_start hapart hx he hrow⟩
    obtain ⟨d, hd, rfl⟩ := exists_extracted fileQn hp
    have hseen := (inOrder_iff fileQn).mp horder d hd
    exact (sources_eq hapart hd).trans (congrArg (fun y => [t.placeId tree y]) hseen)

/-! ### `class A { m() { return () => 1 } }` -/

def arrowNode : TSNode :=
  .inner 50 "arrow_function" "() => 1"
    [.inField "parameters" (.leaf 51 "formal_parameters" "()"), .leaf 52 "=>" "=>", .inField "body" (.leaf 53 "number" "1")]

def arrowMethod : TSNode :=
  .inner 30 "method_definition" "m() \x7b return () => 1 \x7d"
    [.inField "name" (.leaf 31 "property_identifier" "m"), .inField "parameters" (.leaf 32 "formal_parameters" "()"),
      .inField "body" (.inner 40 "statement_block" "\x7b return () => 1 \x7d"
        [.inner 41 "return_statement" "return () => 1" [.leaf 42 "return" "return", arrowNode]])]

def arrowProgram : TSNode :=
  .inner 0 "program" "class A \x7b m() \x7b return () => 1 \x7d \x7d"
    [.inner 10 "class_declaration" "class A \x7b m() \x7b return () => 1 \x7d \x7d"
      [.leaf 11 "class" "class", .inField "name" (.leaf 12 "type_identifier" "A"),
        .inField "body" (.inner 20 "class_body" "\x7b m() \x7b return () => 1 \x7d \x7d" [arrowMethod])]]

def arrowTree : SyntaxTree := ⟨arrowProgram, by decide⟩

def noTables : CodeTables where
  nodes := []
  edges := []
  nextNodeId := 1
  qnToId := []
  deferredEdges := []
  positive := Nat.one_pos
  nodes_lt := fun _ h => absurd h List.not_mem_nil
  edges_lt := fun _ h => absurd h List.not_mem_nil
  names_lt := fun _ h => absurd h List.not_mem_nil

/-- The function in the method is extracted first, and the file becomes what is around it. -/
theorem arrow_in_file : ¬∀ (t : CodeTables) (tree : SyntaxTree) (relPath fileQn : Text) (sourceLength : ℕ)
    (changed : Bool), ContainmentTree t tree fileQn (tablesAfter t tree relPath fileQn sourceLength changed) := by
  intro h
  have hone := (h noTables arrowTree ['f', '.', 't', 's'] ['f'] 36 false).one
  have hcontainers : ∀ p ∈ declarations arrowTree,
      containers (tablesAfter noTables arrowTree ['f', '.', 't', 's'] ['f'] 36 false)
        (noTables.placeId arrowTree (some p.2)) = [noTables.placeId arrowTree (enclosing p.2.parents)] := hone
  exact absurd hcontainers (by decide)

end Ariad.FastWalker
