import Mathlib.Algebra.BigOperators.Ring.Finset
import Mathlib.Data.Rat.Floor
import Ariad.Graphs.Levels
import Ariad.Ui.StellarFlow

/-!
# Distances in the layout

The search in breadth finds the nodes by their distance, and what the layout and the drawing make of the two
searches is what the distances say.

* `AtDepth` — the invariant of the search; `breadthFirstDepths_get` — what it finds.
* `RoleExact`, `EdgeDepthExact`, `LanesExact` — the roles, the edges and the counts in terms of distances.
-/

namespace Ariad.StellarFlow

open Levels List OrderedMap Nat

/-! ## The search -/

section search

variable {R : ℤ → ℤ → Prop} {adjacency : OrderedMap ℤ (List ℤ)} {depths : OrderedMap ℤ ℕ}
  {frontier neighbors : List ℤ} {start a b : ℤ} {n m : ℕ}

variable {node : GraphNode}

theorem foldl_visit_spec {depth : ℕ} {s : OrderedMap ℤ ℕ × List ℤ} :
    ((neighbors.foldl (visit depth) s).1.get b = some m ↔
      s.1.get b = some m ∨ (s.1.get b = none ∧ b ∈ neighbors ∧ m = depth)) ∧
    (b ∈ (neighbors.foldl (visit depth) s).2 ↔ b ∈ s.2 ∨ (s.1.get b = none ∧ b ∈ neighbors)) := by
  induction neighbors generalizing s with
  | nil => simp
  | cons c neighbors ih =>
    rw [foldl_cons, ih.1, ih.2, visit]
    cases hc : s.1.has c with
    | true =>
      obtain ⟨v, hv⟩ := has_iff.mp hc
      by_cases hb : b = c
      · simp [hb, hv]
      · simp [hb]
    | false =>
      have hnone := has_eq_false_iff.mp hc
      by_cases hb : b = c
      · subst hb
        simp [get_set_self, hnone, eq_comm]
      · simp [OrderedMap.get_set_of_ne hb, hb]

theorem visitFrontier_eq (adjacency : OrderedMap ℤ (List ℤ)) (depth : ℕ) (depths : OrderedMap ℤ ℕ) (frontier : List ℤ) :
    visitFrontier adjacency depth depths frontier =
      (frontier.flatMap fun current => (adjacency.get current).getD []).foldl (visit depth) (depths, []) :=
  foldl_flatMap.symm

/-- After `n` levels: the depths are the distances up to `n`, and the frontier is at distance `n`. -/
structure AtDepth (R : ℤ → ℤ → Prop) (start : ℤ) (n : ℕ) (depths : OrderedMap ℤ ℕ) (frontier : List ℤ) : Prop where
  depths : ∀ b m, depths.get b = some m ↔ m ≤ n ∧ b ∈ sphere R start m
  frontier : ∀ b, b ∈ frontier ↔ b ∈ sphere R start n

theorem AtDepth.get_eq_none_iff (h : AtDepth R start n depths frontier) : depths.get b = none ↔ b ∉ ball R start n := by
  rw [Option.eq_none_iff_forall_ne_some]
  constructor
  · intro hnone hball
    obtain ⟨m, hm, hsphere⟩ := exists_sphere hball
    exact hnone m ((h.depths b m).mpr ⟨hm, hsphere⟩)
  · intro hball m hm
    obtain ⟨hle, hsphere⟩ := (h.depths b m).mp hm
    exact hball ⟨m, hle, hsphere.1⟩

theorem AtDepth.zero : AtDepth R start 0 (OrderedMap.empty.set start 0) [start] where
  depths b m := by
    rw [get_set]
    by_cases hb : b = start
    · subst hb
      rw [if_pos rfl, Option.some.injEq]
      constructor
      · rintro rfl
        exact ⟨le_refl 0, mem_sphere_zero.mpr rfl⟩
      · exact fun h => (le_zero.mp h.1).symm
    · rw [if_neg hb, get_empty]
      constructor
      · rintro ⟨⟩
      · rintro ⟨hm, hsphere⟩
        obtain rfl := le_zero.mp hm
        exact absurd (mem_sphere_zero.mp hsphere) hb
  frontier b := by rw [mem_singleton, mem_sphere_zero]

/-- The loop over a frontier leads from one depth to the next. -/
theorem AtDepth.succ (h : AtDepth R start n depths frontier)
    (hadjacency : ∀ a b, b ∈ (adjacency.get a).getD [] ↔ R a b) :
    AtDepth R start (n + 1) (visitFrontier adjacency (n + 1) depths frontier).1
      (visitFrontier adjacency (n + 1) depths frontier).2 := by
  have hnext (b : ℤ) : (depths.get b = none ∧ b ∈ frontier.flatMap fun a => (adjacency.get a).getD []) ↔
      b ∈ sphere R start (n + 1) := by
    simp only [h.get_eq_none_iff, mem_flatMap, h.frontier, hadjacency, sphere_succ]
  rw [visitFrontier_eq]
  constructor
  · intro b m
    rw [foldl_visit_spec.1, ← and_assoc, hnext, h.depths, le_succ_iff]
    constructor
    · rintro (⟨hm, hsphere⟩ | ⟨hsphere, rfl⟩)
      · exact ⟨.inl hm, hsphere⟩
      · exact ⟨.inr rfl, hsphere⟩
    · rintro ⟨hm | rfl, hsphere⟩
      · exact .inl ⟨hm, hsphere⟩
      · exact .inr ⟨hsphere, rfl⟩
  · intro b
    rw [(foldl_visit_spec (m := 0)).2, hnext]
    simp

theorem searchDepths_get (hadjacency : ∀ a b, b ∈ (adjacency.get a).getD [] ↔ R a b) (left : ℕ)
    (h : AtDepth R start n depths frontier) :
    (searchDepths adjacency left (n + 1) depths frontier).get b = some m ↔ m ≤ n + left ∧ b ∈ sphere R start m := by
  induction left generalizing n depths frontier with
  | zero => exact h.depths b m
  | succ left ih =>
    rw [searchDepths]
    split
    · rename_i hnil
      -- An empty frontier: nothing is farther away.
      have hempty (c : ℤ) : c ∉ sphere R start n := fun hc => by simpa [hnil] using (h.frontier c).mpr hc
      rw [h.depths]
      refine and_congr_left fun hsphere => ⟨fun hm => le_add_right_of_le hm, fun _ => ?_⟩
      by_contra hlt
      exact sphere_eq_empty_of_le hempty (le_of_lt (not_le.mp hlt)) hsphere
    · rw [ih (h.succ hadjacency), Nat.add_right_comm, Nat.add_assoc]

/-- The search finds the nodes up to distance four, with their distances. -/
theorem breadthFirstDepths_get (hadjacency : ∀ a b, b ∈ (adjacency.get a).getD [] ↔ R a b) :
    (breadthFirstDepths start adjacency).get b = some m ↔ m ≤ MAX_FLOW_DEPTH ∧ b ∈ sphere R start m := by
  rw [breadthFirstDepths, searchDepths_get hadjacency _ .zero, Nat.zero_add]

end search

/-! ## The roles -/

section roles

variable (engine : Engine) {nodes : List GraphNode} {edges : List GraphEdge} {selected nodeId : ℤ} {k : ℕ}

/-- There is an edge from one to the other, and both are there. -/
def Visible (nodes : List GraphNode) (edges : List GraphEdge) (a b : ℤ) : Prop :=
  a ∈ nodes.map (·.id) ∧ b ∈ nodes.map (·.id) ∧ ∃ edge ∈ edges, edge.source = a ∧ edge.target = b

/-- The shortest directed path from `a` to `b` has length `k`. -/
def Distance (R : ℤ → ℤ → Prop) (a : ℤ) (k : ℕ) (b : ℤ) : Prop := b ∈ sphere R a k

def outgoingEdges (nodes : List GraphNode) (edges : List GraphEdge) : OrderedMap ℤ (List ℤ) :=
  OrderedMap.collect GraphEdge.source GraphEdge.target (flowEdges nodes edges)

def incomingEdges (nodes : List GraphNode) (edges : List GraphEdge) : OrderedMap ℤ (List ℤ) :=
  OrderedMap.collect GraphEdge.target GraphEdge.source (flowEdges nodes edges)

theorem exists_flowEdge {a b : ℤ} : (∃ edge, (edge ∈ flowEdges nodes edges ∧ edge.source = a) ∧ edge.target = b) ↔
    a ≠ b ∧ Visible nodes edges a b := by
  simp only [flowEdges, mem_filter, decide_eq_true_eq, Visible]
  constructor
  · rintro ⟨edge, ⟨⟨hedge, hsource, htarget, hne⟩, rfl⟩, rfl⟩
    exact ⟨hne, hsource, htarget, edge, hedge, rfl, rfl⟩
  · rintro ⟨hne, hsource, htarget, edge, hedge, rfl, rfl⟩
    exact ⟨edge, ⟨⟨hedge, hsource, htarget, hne⟩, rfl⟩, rfl⟩

theorem mem_outgoingEdges {a b : ℤ} :
    b ∈ ((outgoingEdges nodes edges).get a).getD [] ↔ a ≠ b ∧ Visible nodes edges a b := by
  rw [outgoingEdges, get_collect, mem_map, ← exists_flowEdge]
  simp only [mem_filter, decide_eq_true_eq]

theorem mem_incomingEdges {a b : ℤ} :
    b ∈ ((incomingEdges nodes edges).get a).getD [] ↔ b ≠ a ∧ Visible nodes edges b a := by
  rw [incomingEdges, get_collect, mem_map, ← exists_flowEdge]
  grind

theorem outgoingDepths_get (nodes : List GraphNode) (edges : List GraphEdge) (selected nodeId : ℤ) (k : ℕ) :
    (breadthFirstDepths selected (outgoingEdges nodes edges)).get nodeId = some k ↔
    k ≤ MAX_FLOW_DEPTH ∧ Distance (Visible nodes edges) selected k nodeId := by
  rw [breadthFirstDepths_get fun _ _ => mem_outgoingEdges, Distance]
  exact and_congr_right fun _ => sphere_congr fun a b hne => and_iff_right hne

theorem incomingDepths_get (nodes : List GraphNode) (edges : List GraphEdge) (selected nodeId : ℤ) (k : ℕ) :
    (breadthFirstDepths selected (incomingEdges nodes edges)).get nodeId = some k ↔
    k ≤ MAX_FLOW_DEPTH ∧ Distance (Visible nodes edges) nodeId k selected := by
  rw [breadthFirstDepths_get fun _ _ => mem_incomingEdges, Distance, ← mem_sphere_flip]
  exact and_congr_right fun _ => sphere_congr fun a b hne => and_iff_right hne

/-- The role and the depth of a node other than the selected one, in terms of its two distances. -/
structure RoleExact (R : ℤ → ℤ → Prop) (selected nodeId : ℤ) (target : StellarFlowTarget) : Prop where
  incoming : ∀ k, target.role = .incoming ∧ target.depth = some k ↔
    k ≤ MAX_FLOW_DEPTH ∧ Distance R nodeId k selected ∧ ∀ j ≤ k, ¬Distance R selected j nodeId
  outgoing : ∀ k, target.role = .outgoing ∧ target.depth = some k ↔
    k ≤ MAX_FLOW_DEPTH ∧ Distance R selected k nodeId ∧ ∀ j ≤ k, ¬Distance R nodeId j selected
  bidirectional : ∀ k, target.role = .bidirectional ∧ target.depth = some k ↔
    k ≤ MAX_FLOW_DEPTH ∧ Distance R nodeId k selected ∧ Distance R selected k nodeId
  context : target.role = .context ∧ target.depth = none ↔
    ∀ k ≤ MAX_FLOW_DEPTH, ¬Distance R nodeId k selected ∧ ¬Distance R selected k nodeId

/-- What a node is given, by its identifier. -/
def flowPlacement (nodes : List GraphNode) (edges : List GraphEdge) (selected nodeId : ℤ) :
    Option (StellarFlowRole × ℕ) :=
  flowRole ((breadthFirstDepths selected (incomingEdges nodes edges)).get nodeId)
    ((breadthFirstDepths selected (outgoingEdges nodes edges)).get nodeId)

/-- A target shows what a node is given. -/
def Shows (placed : Option (StellarFlowRole × ℕ)) (target : StellarFlowTarget) : Prop :=
  match placed with
  | some (role, depth) => target.role = role ∧ target.depth = some depth
  | none => target.role = .context ∧ target.depth = none

/-- A distance that is found, or that is not. -/
theorem depth_cases {o : Option ℕ} {P : ℕ → Prop} (h : ∀ k, o = some k ↔ k ≤ MAX_FLOW_DEPTH ∧ P k) :
    (∃ i ≤ MAX_FLOW_DEPTH, o = some i ∧ P i ∧ ∀ j ≤ MAX_FLOW_DEPTH, P j → j = i) ∨
      o = none ∧ ∀ j ≤ MAX_FLOW_DEPTH, ¬P j := by
  cases ho : o with
  | none => exact .inr ⟨rfl, fun j hj hp => by simpa [ho] using (h j).mpr ⟨hj, hp⟩⟩
  | some i =>
    obtain ⟨hi, hp⟩ := (h i).mp ho
    refine .inl ⟨i, hi, rfl, hp, fun j hj hpj => ?_⟩
    have hj := (h j).mpr ⟨hj, hpj⟩
    rw [ho] at hj
    exact (Option.some.inj hj).symm

theorem roleExact_of_shows {target : StellarFlowTarget} (h : Shows (flowPlacement nodes edges selected nodeId) target) :
    RoleExact (Visible nodes edges) selected nodeId target := by
  have hin := depth_cases fun k => incomingDepths_get nodes edges selected nodeId k
  have hout := depth_cases fun k => outgoingDepths_get nodes edges selected nodeId k
  rw [flowPlacement] at h
  rcases hin with ⟨i, hi, hio, hip, hiu⟩ | ⟨hio, hiu⟩
  · rcases hout with ⟨o, ho, hoo, hop, hou⟩ | ⟨hoo, hou⟩
    · rw [hio, hoo] at h
      rcases Nat.lt_trichotomy i o with hlt | rfl | hgt
      · simp only [flowRole, hlt.ne, hlt, if_true, if_false, Shows] at h
        constructor <;> grind
      · simp only [flowRole, if_true, Shows] at h
        constructor <;> grind
      · simp only [flowRole, hgt.ne', not_lt_of_gt hgt, if_false, Shows] at h
        constructor <;> grind
    · rw [hio, hoo] at h
      simp only [flowRole, Shows] at h
      constructor <;> grind
  · rcases hout with ⟨o, ho, hoo, hop, hou⟩ | ⟨hoo, hou⟩
    iterate 2
      · rw [hio, hoo] at h
        simp only [flowRole, Shows] at h
        constructor <;> grind

/-- A node of the constellation is a node of the list. -/
theorem mem_families : (∃ family ∈ families engine nodes, node ∈ family.2) ↔ node ∈ nodes := by
  have hcollect : (∃ family ∈ families engine nodes, node ∈ family.2) ↔
      ∃ e ∈ (OrderedMap.collect (familyKey engine nodes) id nodes).entries, node ∈ e.2 := by
    simp [families]
  rw [hcollect]
  constructor
  · rintro ⟨e, he, hnode⟩
    obtain ⟨_, hr, -, rfl⟩ := exists_mem_collect.mp ⟨e, he, rfl, hnode⟩
    exact hr
  · intro hnode
    obtain ⟨e, he, -, hmem⟩ := exists_mem_collect.mpr
      (⟨node, hnode, rfl, rfl⟩ : ∃ r ∈ nodes, familyKey engine nodes r = familyKey engine nodes node ∧ id r = node)
    exact ⟨e, he, hmem⟩

theorem has_computeConstellation :
    (computeConstellation engine nodes).has nodeId = true ↔ nodeId ∈ nodes.map (·.id) := by
  rw [computeConstellation, foldl_foldl_set _ _ GraphNode.id fun family _ node => _,
    has_foldl_set, mem_map]
  constructor
  · intro h
    obtain ⟨e, he, hid⟩ := h.resolve_right Bool.false_ne_true
    obtain ⟨family, hfamily, hmem⟩ := mem_flatMap.mp he
    obtain ⟨node, hnode, rfl⟩ := mem_map.mp hmem
    exact ⟨node, (mem_families engine).mp ⟨family, hfamily, hnode⟩, hid⟩
  · rintro ⟨node, hnode, hid⟩
    obtain ⟨family, hfamily, hmem⟩ := (mem_families engine).mpr hnode
    exact .inl ⟨(family, node), mem_flatMap.mpr ⟨family, hfamily, mem_map.mpr ⟨node, hmem, rfl⟩⟩, hid⟩

theorem eq_some_of_flowRole {incomingDepth outgoingDepth : Option ℕ} {placed : StellarFlowRole × ℕ}
    (h : flowRole incomingDepth outgoingDepth = some placed) :
    placed.1.isDirected = true ∧ (incomingDepth = some placed.2 ∨ outgoingDepth = some placed.2) := by
  rw [flowRole.eq_def] at h
  split at h
  · split at h
    · obtain rfl := Option.some.inj h
      exact ⟨rfl, .inl rfl⟩
    · split at h
      · obtain rfl := Option.some.inj h
        exact ⟨rfl, .inl rfl⟩
      · obtain rfl := Option.some.inj h
        exact ⟨rfl, .inr rfl⟩
  · obtain rfl := Option.some.inj h
    exact ⟨rfl, .inl rfl⟩
  · obtain rfl := Option.some.inj h
    exact ⟨rfl, .inr rfl⟩
  · cases h

/-- No node but the selected one is at distance zero. -/
theorem flowPlacement_pos {placed : StellarFlowRole × ℕ}
    (h : flowPlacement nodes edges selected nodeId = some placed) (hne : nodeId ≠ selected) : placed.2 ≠ 0 := by
  intro hzero
  rcases (eq_some_of_flowRole h).2 with hin | hout
  · rw [hzero, incomingDepths_get] at hin
    exact hne (mem_sphere_zero.mp hin.2).symm
  · rw [hzero, outgoingDepths_get] at hout
    exact hne (mem_sphere_zero.mp hout.2)

theorem placement_eq (hne : node.id ≠ selected) : placement (breadthFirstDepths selected (incomingEdges nodes edges))
      (breadthFirstDepths selected (outgoingEdges nodes edges)) selected node =
      flowPlacement nodes edges selected node.id := by
  rw [placement, if_neg hne, ← flowPlacement]
  cases h : flowPlacement nodes edges selected node.id with
  | none => rfl
  | some placed => exact Option.filter_eq_some_iff.mpr ⟨rfl, by simpa using flowPlacement_pos h hne⟩

/-- The nodes that are placed in the layers, under their roles and depths. -/
def placedNodes (nodes : List GraphNode) (edges : List GraphEdge) (selected : ℤ) :
    List ((StellarFlowRole × ℕ) × GraphNode) :=
  nodes.filterMap fun node =>
    (placement (breadthFirstDepths selected (incomingEdges nodes edges))
      (breadthFirstDepths selected (outgoingEdges nodes edges)) selected node).map fun key => (key, node)

theorem mem_placedNodes {entry : (StellarFlowRole × ℕ) × GraphNode} :
    entry ∈ placedNodes nodes edges selected ↔ entry.2 ∈ nodes ∧ entry.2.id ≠ selected ∧
      flowPlacement nodes edges selected entry.2.id = some entry.1 := by
  rw [placedNodes, mem_filterMap]
  constructor
  · rintro ⟨node, hnode, h⟩
    obtain ⟨key, hkey, rfl⟩ := Option.map_eq_some_iff.mp h
    have hne : node.id ≠ selected := fun heq => by simp [placement, heq] at hkey
    exact ⟨hnode, hne, placement_eq hne ▸ hkey⟩
  · rintro ⟨hnode, hne, hplaced⟩
    exact ⟨entry.2, hnode, by rw [placement_eq hne, hplaced]; rfl⟩

/-- The nodes of the layers, each with the key of its layer. -/
theorem exists_placeLayers_eq (nodes : List GraphNode) (edges : List GraphEdge) (selected : ℤ)
    (constellation : OrderedMap ℤ StellarFlowTarget) : ∃ rows : List ((StellarFlowRole × ℕ) × GraphNode),
      (∀ entry, entry ∈ rows ↔ entry ∈ placedNodes nodes edges selected) ∧
      placeLayers engine (OrderedMap.collect Prod.fst Prod.snd (placedNodes nodes edges selected)) constellation =
        rows.foldl placeNode constellation := by
  let layers := OrderedMap.collect Prod.fst Prod.snd (placedNodes nodes edges selected)
  let order := sortBy fun left right =>
    (engine.localeCompare (flowLaneKey left) (flowLaneKey right)).then (byImportance engine left right)
  refine ⟨layers.entries.flatMap fun layer => (order layer.2).map fun node => (layer.1, node), ?_, ?_⟩
  · intro entry
    have hrow : (entry ∈ layers.entries.flatMap fun layer => (order layer.2).map fun node => (layer.1, node)) ↔
        ∃ e ∈ layers.entries, e.1 = entry.1 ∧ entry.2 ∈ e.2 := by
      simp only [mem_flatMap, mem_map, order, mem_sortBy]
      constructor
      · rintro ⟨e, he, node, hnode, rfl⟩
        exact ⟨e, he, rfl, hnode⟩
      · rintro ⟨e, he, hkey, hnode⟩
        exact ⟨e, he, entry.2, hnode, Prod.ext hkey rfl⟩
    rw [hrow, exists_mem_collect]
    constructor
    · rintro ⟨r, hr, hkey, hnode⟩
      rwa [← (Prod.ext hkey hnode : r = entry)]
    · exact fun h => ⟨entry, h, rfl, rfl⟩
  · rw [foldl_flatMap]
    simp only [foldl_map]
    rfl

/-- The nodes that stand in no layer. -/
def contextNodes (nodes : List GraphNode) (edges : List GraphEdge) (selected : ℤ) : List GraphNode :=
  nodes.filter fun node => node.id ≠ selected ∧
    ¬(placement (breadthFirstDepths selected (incomingEdges nodes edges))
      (breadthFirstDepths selected (outgoingEdges nodes edges)) selected node).isSome

theorem mem_contextNodes : node ∈ contextNodes nodes edges selected ↔
      node ∈ nodes ∧ node.id ≠ selected ∧ flowPlacement nodes edges selected node.id = none := by
  rw [contextNodes, mem_filter]
  refine and_congr_right fun _ => ?_
  rw [decide_eq_true_eq]
  refine and_congr_right fun hne => ?_
  rw [placement_eq hne, Option.not_isSome_iff_eq_none]

theorem computeStellarFlowLayout_eq (h : selected ∈ nodes.map (·.id)) :
    computeStellarFlowLayout engine nodes edges (some selected) =
      let constellation := (contextNodes nodes edges selected).foldl placeContext
        (placeLayers engine (OrderedMap.collect Prod.fst Prod.snd (placedNodes nodes edges selected))
          (computeConstellation engine nodes))
      constellation.set selected
        { role := .focus, depth := some 0, laneKey := none, sector := (constellation.get selected).bind (·.sector) } := by
  rw [computeStellarFlowLayout]
  simp only [(has_computeConstellation engine).mpr h, Bool.true_eq_false, if_false]
  rfl

/-- The selected node stands in the middle. -/
theorem layout_selected (edges : List GraphEdge) (h : selected ∈ nodes.map (·.id)) :
    ∃ target, (computeStellarFlowLayout engine nodes edges (some selected)).get selected = some target ∧
      target.role = .focus ∧ target.depth = some 0 := by
  rw [computeStellarFlowLayout_eq engine h]
  exact ⟨_, get_set_self, rfl, rfl⟩

/-- The other nodes show what they are given. -/
theorem layout_shows (edges : List GraphEdge) (h : selected ∈ nodes.map (·.id))
    (hnode : nodeId ∈ nodes.map (·.id)) (hne : nodeId ≠ selected) :
    ∃ target, (computeStellarFlowLayout engine nodes edges (some selected)).get nodeId = some target ∧
      Shows (flowPlacement nodes edges selected nodeId) target := by
  obtain ⟨rows, hrows, hplace⟩ := exists_placeLayers_eq engine nodes edges selected (computeConstellation engine nodes)
  obtain ⟨node, hmem, rfl⟩ := mem_map.mp hnode
  rw [computeStellarFlowLayout_eq engine h, hplace]
  dsimp only
  rw [OrderedMap.get_set_of_ne hne]
  refine get_foldl_set_of_mem
    (P := fun nodeId target => Shows (flowPlacement nodes edges selected nodeId) target) GraphNode.id ?_ ?_
  · intro m other hother
    rw [(mem_contextNodes.mp hother).2.2]
    exact ⟨rfl, rfl⟩
  · cases hplaced : flowPlacement nodes edges selected node.id with
    | none => exact .inl ⟨node, mem_contextNodes.mpr ⟨hmem, hne, hplaced⟩, rfl⟩
    | some key =>
      refine .inr (hplaced ▸ get_foldl_set_of_mem
        (P := fun nodeId target => Shows (flowPlacement nodes edges selected nodeId) target)
        (fun entry : (StellarFlowRole × ℕ) × GraphNode => entry.2.id) ?_ ?_)
      · intro m entry hentry
        rw [(mem_placedNodes.mp ((hrows entry).mp hentry)).2.2]
        exact ⟨rfl, rfl⟩
      · exact .inl ⟨(key, node), (hrows _).mpr (mem_placedNodes.mpr ⟨hmem, hne, hplaced⟩), rfl⟩

/-- There is one target for each node. -/
theorem has_layout (edges : List GraphEdge) (h : selected ∈ nodes.map (·.id)) :
    (computeStellarFlowLayout engine nodes edges (some selected)).has nodeId = true ↔ nodeId ∈ nodes.map (·.id) := by
  obtain ⟨rows, hrows, hplace⟩ := exists_placeLayers_eq engine nodes edges selected (computeConstellation engine nodes)
  constructor
  · intro hhas
    by_contra hout
    have hne : nodeId ≠ selected := fun heq => hout (heq ▸ h)
    have hnone : (computeConstellation engine nodes).get nodeId = none :=
      has_eq_false_iff.mp (Bool.eq_false_iff.mpr fun hhas => hout ((has_computeConstellation engine).mp hhas))
    obtain ⟨target, htarget⟩ := has_iff.mp hhas
    have hget : (computeStellarFlowLayout engine nodes edges (some selected)).get nodeId = none := by
      rw [computeStellarFlowLayout_eq engine h, hplace]
      dsimp only
      rw [OrderedMap.get_set_of_ne hne]
      refine (get_foldl_set_of_forall_ne GraphNode.id ?_).trans
        ((get_foldl_set_of_forall_ne (fun entry : (StellarFlowRole × ℕ) × GraphNode => entry.2.id)
          ?_).trans hnone)
      · exact fun node hnode heq => hout (mem_map.mpr ⟨node, (mem_contextNodes.mp hnode).1, heq⟩)
      · exact fun entry hentry heq =>
          hout (mem_map.mpr ⟨entry.2, (mem_placedNodes.mp ((hrows entry).mp hentry)).1, heq⟩)
    simp [hget] at htarget
  · intro hnode
    by_cases heq : nodeId = selected
    · obtain ⟨target, htarget, -⟩ := layout_selected engine edges h
      exact has_iff.mpr ⟨target, heq ▸ htarget⟩
    · obtain ⟨target, htarget, -⟩ := layout_shows engine edges h hnode heq
      exact has_iff.mpr ⟨target, htarget⟩

end roles

/-! ## The edges -/

section edges

variable (engine : Engine) {nodes : List GraphNode} {edges : List GraphEdge} {targets : OrderedMap ℤ StellarFlowTarget}
  {selected a b : ℤ} {k : ℕ}

/-- The edge is the last one of a shortest path of length `k` from the selected node. -/
def FarFrom (R : ℤ → ℤ → Prop) (selected a b : ℤ) (k : ℕ) : Prop :=
  ∃ j, k = j + 1 ∧ Walk R selected j a ∧ R a b ∧ Distance R selected k b

/-- The edge is the first one of a shortest path of length `k` to the selected node. -/
def FarTo (R : ℤ → ℤ → Prop) (selected a b : ℤ) (k : ℕ) : Prop :=
  ∃ j, k = j + 1 ∧ R a b ∧ Walk R b j selected ∧ Distance R a k selected

/-- A node has the role of a direction, or stands for both. -/
def HasRole (targets : OrderedMap ℤ StellarFlowTarget) (role : StellarFlowRole) (nodeId : ℤ) : Prop :=
  ∃ target, targets.get nodeId = some target ∧
    (target.role = role ∨ target.role = .bidirectional ∨ target.role = .focus)

/-- The depth of an edge from `a` to `b`, in terms of distances. -/
structure EdgeDepthExact (R : ℤ → ℤ → Prop) (selected : ℤ) (targets : OrderedMap ℤ StellarFlowTarget) (a b : ℤ) :
    Prop where
  sound : ∀ k, stellarFlowEdgeDepth a b targets = some k → FarFrom R selected a b k ∨ FarTo R selected a b k
  outgoing : ∀ k, FarFrom R selected a b k → HasRole targets .outgoing a → HasRole targets .outgoing b →
    stellarFlowEdgeDepth a b targets = some k
  incoming : ∀ k, FarTo R selected a b k → HasRole targets .incoming a → HasRole targets .incoming b →
    stellarFlowEdgeDepth a b targets = some k

/-- What a target says about its node: it is the selected one, or has distances. -/
structure Placed (R : ℤ → ℤ → Prop) (selected nodeId : ℤ) (target : StellarFlowTarget) : Prop where
  focus : target.role = .focus → nodeId = selected
  outgoing : target.role = .outgoing ∨ target.role = .bidirectional →
    ∃ k, target.depth = some k ∧ Distance R selected k nodeId
  incoming : target.role = .incoming ∨ target.role = .bidirectional →
    ∃ k, target.depth = some k ∧ Distance R nodeId k selected

variable {source target : StellarFlowTarget} {R : ℤ → ℤ → Prop}

theorem edgeDepth_sound (ha : targets.get a = some source) (hb : targets.get b = some target) (hstep : R a b)
    (hsource : Placed R selected a source) (htarget : Placed R selected b target)
    (h : stellarFlowEdgeDepth a b targets = some k) : FarFrom R selected a b k ∨ FarTo R selected a b k := by
  simp only [stellarFlowEdgeDepth, ha, hb] at h
  split at h
  · rename_i hfocus
    obtain ⟨⟨hone, hrole⟩, hk⟩ := Option.ite_none_right_eq_some.mp h
    obtain rfl := Option.some.inj hk
    obtain ⟨m, hm, hdistance⟩ := htarget.outgoing hrole
    obtain rfl := Option.some.inj (hone.symm.trans hm)
    exact .inl ⟨0, rfl, walk_zero.mpr (hsource.focus hfocus), hstep, hdistance⟩
  · split at h
    · rename_i hfocus
      obtain ⟨⟨hone, hrole⟩, hk⟩ := Option.ite_none_right_eq_some.mp h
      obtain rfl := Option.some.inj hk
      obtain ⟨m, hm, hdistance⟩ := hsource.incoming hrole
      obtain rfl := Option.some.inj (hone.symm.trans hm)
      exact .inr ⟨0, rfl, hstep, walk_zero.mpr (htarget.focus hfocus).symm, hdistance⟩
    · split at h
      · rename_i sourceDepth targetDepth hsourceDepth htargetDepth
        split at h
        · rename_i hroles
          obtain ⟨hsourceRole, htargetRole, rfl⟩ := hroles
          obtain rfl := Option.some.inj h
          obtain ⟨i, hi, hnear⟩ := hsource.outgoing hsourceRole
          obtain ⟨m, hm, hfar⟩ := htarget.outgoing htargetRole
          obtain rfl := Option.some.inj (hsourceDepth.symm.trans hi)
          obtain rfl := Option.some.inj (htargetDepth.symm.trans hm)
          exact .inl ⟨_, rfl, hnear.1, hstep, hfar⟩
        · obtain ⟨⟨hsourceRole, htargetRole, rfl⟩, hk⟩ := Option.ite_none_right_eq_some.mp h
          obtain rfl := Option.some.inj hk
          obtain ⟨i, hi, hfar⟩ := hsource.incoming hsourceRole
          obtain ⟨m, hm, hnear⟩ := htarget.incoming htargetRole
          obtain rfl := Option.some.inj (hsourceDepth.symm.trans hi)
          obtain rfl := Option.some.inj (htargetDepth.symm.trans hm)
          exact .inr ⟨_, rfl, hstep, hnear.1, hfar⟩
      · cases h

theorem edgeDepth_outgoing (ha : targets.get a = some source) (hb : targets.get b = some target)
    (hsource : Placed R selected a source) (htarget : Placed R selected b target) (h : FarFrom R selected a b k)
    (hsourceRole : HasRole targets .outgoing a) (htargetRole : HasRole targets .outgoing b) :
    stellarFlowEdgeDepth a b targets = some k := by
  obtain ⟨j, rfl, hwalk, hstep, hfar⟩ := h
  have hnear : Distance R selected j a := hwalk.mem_sphere_of_step hstep hfar
  obtain ⟨_, hs, hsourceRole⟩ := hsourceRole
  obtain ⟨_, ht, htargetRole⟩ := htargetRole
  obtain rfl := Option.some.inj (ha.symm.trans hs)
  obtain rfl := Option.some.inj (hb.symm.trans ht)
  -- The end of the edge is not the selected node: it has a positive distance.
  have hrole : target.role = .outgoing ∨ target.role = .bidirectional := by
    rw [← or_assoc] at htargetRole
    refine htargetRole.resolve_right fun hfocus => ?_
    have hzero := sphere_unique hfar (mem_sphere_zero.mpr (htarget.focus hfocus))
    exact succ_ne_zero j hzero
  obtain ⟨m, hm, hdistance⟩ := htarget.outgoing hrole
  obtain rfl := sphere_unique hdistance hfar
  simp only [stellarFlowEdgeDepth, ha, hb]
  rw [← or_assoc] at hsourceRole
  rcases hsourceRole with hsourceRole | hfocus
  · obtain ⟨i, hi, hdistance⟩ := hsource.outgoing hsourceRole
    obtain rfl := sphere_unique hdistance hnear
    have hsourceFocus : source.role ≠ .focus := by rcases hsourceRole with h | h <;> simp [h]
    have htargetFocus : target.role ≠ .focus := by rcases hrole with h | h <;> simp [h]
    simp [hsourceFocus, htargetFocus, hi, hm, hsourceRole, hrole]
  · have hzero := sphere_unique hnear (mem_sphere_zero.mpr (hsource.focus hfocus))
    subst hzero
    simp [hfocus, hm, hrole]

theorem edgeDepth_incoming (ha : targets.get a = some source) (hb : targets.get b = some target)
    (hsource : Placed R selected a source) (htarget : Placed R selected b target) (h : FarTo R selected a b k)
    (hsourceRole : HasRole targets .incoming a) (htargetRole : HasRole targets .incoming b) :
    stellarFlowEdgeDepth a b targets = some k := by
  obtain ⟨j, rfl, hstep, hwalk, hfar⟩ := h
  have hnear : Distance R b j selected := by
    rw [Distance, ← mem_sphere_flip] at hfar ⊢
    exact (walk_flip.mpr hwalk).mem_sphere_of_step hstep hfar
  obtain ⟨_, hs, hsourceRole⟩ := hsourceRole
  obtain ⟨_, ht, htargetRole⟩ := htargetRole
  obtain rfl := Option.some.inj (ha.symm.trans hs)
  obtain rfl := Option.some.inj (hb.symm.trans ht)
  have hrole : source.role = .incoming ∨ source.role = .bidirectional := by
    rw [← or_assoc] at hsourceRole
    refine hsourceRole.resolve_right fun hfocus => ?_
    have hzero := sphere_unique hfar (mem_sphere_zero.mpr (hsource.focus hfocus).symm)
    exact succ_ne_zero j hzero
  obtain ⟨m, hm, hdistance⟩ := hsource.incoming hrole
  obtain rfl := sphere_unique hdistance hfar
  have hsourceFocus : source.role ≠ .focus := by rcases hrole with h | h <;> simp [h]
  simp only [stellarFlowEdgeDepth, ha, hb]
  rw [← or_assoc] at htargetRole
  rcases htargetRole with htargetRole | hfocus
  · obtain ⟨i, hi, hdistance⟩ := htarget.incoming htargetRole
    obtain rfl := sphere_unique hdistance hnear
    have htargetFocus : target.role ≠ .focus := by rcases htargetRole with h | h <;> simp [h]
    simp only [hsourceFocus, htargetFocus, hi, hm, if_false]
    rw [if_neg fun h => by omega, if_pos ⟨hrole, htargetRole, trivial⟩]
  · have hzero := sphere_unique hnear (mem_sphere_zero.mpr (htarget.focus hfocus).symm)
    subst hzero
    simp [hfocus, hsourceFocus, hm, hrole]

/-- The targets of the layout say this about their nodes. -/
theorem layout_placed (edges : List GraphEdge) {nodeId : ℤ} (h : selected ∈ nodes.map (·.id))
    (hnode : nodeId ∈ nodes.map (·.id)) :
    ∃ target, (computeStellarFlowLayout engine nodes edges (some selected)).get nodeId = some target ∧
      Placed (Visible nodes edges) selected nodeId target := by
  by_cases heq : nodeId = selected
  · obtain ⟨target, hget, hrole, -⟩ := layout_selected engine edges h
    refine ⟨target, heq ▸ hget, fun _ => heq, ?_, ?_⟩
    · rintro (h | h) <;> simp [hrole] at h
    · rintro (h | h) <;> simp [hrole] at h
  · obtain ⟨target, hget, hshows⟩ := layout_shows engine edges h hnode heq
    have hexact := roleExact_of_shows hshows
    refine ⟨target, hget, ?_⟩
    cases hplaced : flowPlacement nodes edges selected nodeId with
    | none =>
      obtain ⟨hrole, -⟩ : target.role = .context ∧ target.depth = none := by simpa [hplaced, Shows] using hshows
      constructor
      · intro h
        simp [hrole] at h
      · rintro (h | h) <;> simp [hrole] at h
      · rintro (h | h) <;> simp [hrole] at h
    | some key =>
      obtain ⟨hrole, hdepth⟩ : target.role = key.1 ∧ target.depth = some key.2 := by
        simpa [hplaced, Shows] using hshows
      have hdirected := (eq_some_of_flowRole hplaced).1
      constructor
      · intro h
        rw [← hrole, h] at hdirected
        cases hdirected
      · rintro (h | h)
        · exact ⟨key.2, hdepth, ((hexact.outgoing key.2).mp ⟨h, hdepth⟩).2.1⟩
        · exact ⟨key.2, hdepth, ((hexact.bidirectional key.2).mp ⟨h, hdepth⟩).2.2⟩
      · rintro (h | h)
        · exact ⟨key.2, hdepth, ((hexact.incoming key.2).mp ⟨h, hdepth⟩).2.1⟩
        · exact ⟨key.2, hdepth, ((hexact.bidirectional key.2).mp ⟨h, hdepth⟩).2.1⟩

theorem layout_edgeDepth (h : selected ∈ nodes.map (·.id)) (hstep : Visible nodes edges a b) :
    EdgeDepthExact (Visible nodes edges) selected (computeStellarFlowLayout engine nodes edges (some selected)) a b := by
  obtain ⟨source, ha, hsource⟩ := layout_placed engine edges h hstep.1
  obtain ⟨target, hb, htarget⟩ := layout_placed engine edges h hstep.2.1
  exact ⟨fun k => edgeDepth_sound ha hb hstep hsource htarget, fun k => edgeDepth_outgoing ha hb hsource htarget,
    fun k => edgeDepth_incoming ha hb hsource htarget⟩

end edges

/-! ## The counts -/

section lanes

variable {targets : OrderedMap ℤ StellarFlowTarget} {rows : List StellarFlowTarget} {key : StellarFlowRole × ℕ}

/-- The node stands in the layer of a role and a depth. -/
def standsIn (targets : OrderedMap ℤ StellarFlowTarget) (role : StellarFlowRole) (depth : ℕ) (nodeId : ℤ) : Bool :=
  (targets.get nodeId).any fun target => target.role = role ∧ target.depth = some depth

/-- The node stands in a layer. -/
def isDirected (targets : OrderedMap ℤ StellarFlowTarget) (nodeId : ℤ) : Bool :=
  (targets.get nodeId).any fun target => target.role.isDirected

/-- The layers count the nodes with a directed role, each once. -/
structure LanesExact (nodeIds : List ℤ) (targets : OrderedMap ℤ StellarFlowTarget)
    (layers : List StellarFlowLaneSummary) : Prop where
  nodup : (layers.map fun layer => (layer.role, layer.depth)).Nodup
  mem : ∀ layer, layer ∈ layers ↔ layer.role.isDirected = true ∧ 0 < layer.count ∧
    layer.count = nodeIds.dedup.countP (standsIn targets layer.role layer.depth)
  total : (layers.map (·.count)).sum = nodeIds.dedup.countP (isDirected targets)

def countLane (target : StellarFlowTarget) (current : Option StellarFlowLaneSummary) : StellarFlowLaneSummary :=
  match current with
  | some current => { current with count := current.count + 1 }
  | none => ⟨target.role, target.depth.getD 0, 1⟩

theorem addLaneTarget_eq {κ : Type} [DecidableEq κ] (m : OrderedMap κ StellarFlowLaneSummary) (k : κ)
    (target : StellarFlowTarget) : addLaneTarget m k target = m.set k (countLane target (m.get k)) := by
  rw [addLaneTarget]
  cases m.get k with
  | none => rfl
  | some current => rfl

theorem foldl_countLane (h : ∀ target ∈ rows, layerKey target = key) :
    rows.foldl (fun o target => some (countLane target o)) none =
      if rows = [] then none else some ⟨key.1, key.2, rows.length⟩ := by
  have hsome (rows : List StellarFlowTarget) (c : StellarFlowLaneSummary) :
      rows.foldl (fun o target => some (countLane target o)) (some c) =
        some { c with count := c.count + rows.length } := by
    induction rows generalizing c with
    | nil => rfl
    | cons target rows ih =>
      rw [foldl_cons, countLane, ih, length_cons, Nat.add_right_comm, Nat.add_assoc]
  cases rows with
  | nil => rfl
  | cons target rows =>
    have hkey := h target mem_cons_self
    rw [foldl_cons, hsome, if_neg (cons_ne_nil _ _), ← hkey, length_cons, Nat.add_comm]
    rfl

def layerMap (targets : OrderedMap ℤ StellarFlowTarget) : OrderedMap (StellarFlowRole × ℕ) StellarFlowLaneSummary :=
  (laneTargets targets).foldl (fun m target => addLaneTarget m (layerKey target) target) .empty

theorem layerMap_get {summary : StellarFlowLaneSummary} : (layerMap targets).get key = some summary ↔
    0 < summary.count ∧ summary = ⟨key.1, key.2, (laneTargets targets).countP fun target => layerKey target = key⟩ := by
  have hlayer : (layerMap targets).get key =
      (((laneTargets targets).filter fun target => layerKey target = key).foldl
        (fun o target => some (countLane target o)) none) := by
    simp only [layerMap, addLaneTarget_eq]
    rw [get_foldl_set layerKey countLane, get_empty]
  rw [hlayer, foldl_countLane fun target h => by simpa using (mem_filter.mp h).2, countP_eq_length_filter]
  generalize (laneTargets targets).filter (fun target => layerKey target = key) = rows
  constructor
  · intro h
    split at h
    · cases h
    · rename_i hne
      obtain rfl := Option.some.inj h
      exact ⟨length_pos_iff.mpr hne, rfl⟩
  · rintro ⟨hpos, rfl⟩
    rw [if_neg (length_pos_iff.mp hpos)]

/-- One target more is counted. -/
theorem total_addLaneTarget {κ : Type} [DecidableEq κ] (m : OrderedMap κ StellarFlowLaneSummary) (k : κ)
    (target : StellarFlowTarget) :
    (addLaneTarget m k target).total (fun summary => summary.count) = m.total (fun summary => summary.count) + 1 := by
  rw [addLaneTarget]
  cases h : m.get k with
  | none =>
    dsimp only
    rw [set_of_get_none h, total_push, delete_of_get_none h]
    rfl
  | some current =>
    have hhas : m.has k = true := has_iff.mpr ⟨current, h⟩
    dsimp only
    rw [OrderedMap.set, if_pos hhas, total_replace _ h]
    push_cast
    omega

theorem total_layerMap (targets : OrderedMap ℤ StellarFlowTarget) :
    (layerMap targets).total (fun summary => summary.count) = (laneTargets targets).length := by
  have hfold (rows : List StellarFlowTarget) (m : OrderedMap (StellarFlowRole × ℕ) StellarFlowLaneSummary) :
      (rows.foldl (fun m target => addLaneTarget m (layerKey target) target) m).total (fun summary => summary.count) =
        m.total (fun summary => summary.count) + rows.length := by
    induction rows generalizing m with
    | nil => simp
    | cons target rows ih =>
      rw [foldl_cons, ih, total_addLaneTarget, length_cons]
      push_cast
      omega
  rw [layerMap, hfold, total_empty, zero_add]

/-- What holds of the targets is counted over the nodes. -/
theorem countP_targets {nodeIds : List ℤ} (h : ∀ nodeId, targets.has nodeId = true ↔ nodeId ∈ nodeIds)
    (p : StellarFlowTarget → Bool) :
    (targets.entries.map Prod.snd).countP p = nodeIds.dedup.countP fun nodeId => (targets.get nodeId).any p := by
  have hperm : targets.keys.Perm nodeIds.dedup := by
    refine (perm_ext_iff_of_nodup targets.nodup (nodup_dedup _)).mpr fun nodeId => ?_
    rw [mem_dedup, ← h, has_iff]
    exact mem_keys_iff
  rw [← hperm.countP_eq, OrderedMap.keys, countP_map, countP_map]
  refine countP_congr fun e he => ?_
  have hget : targets.get e.1 = some e.2 := OrderedMap.get_eq_some_iff.mpr he
  simp [hget]

theorem countP_laneTargets {nodeIds : List ℤ} (h : ∀ nodeId, targets.has nodeId = true ↔ nodeId ∈ nodeIds)
    {role : StellarFlowRole} {depth : ℕ} (hrole : role.isDirected = true) :
    (laneTargets targets).countP (fun target => layerKey target = (role, depth)) =
      nodeIds.dedup.countP (standsIn targets role depth) := by
  rw [laneTargets, countP_filter, countP_targets h]
  refine countP_congr fun nodeId _ => ?_
  rw [standsIn]
  cases targets.get nodeId with
  | none => rfl
  | some target =>
    simp only [Option.any_some, layerKey, Prod.mk.injEq, Bool.and_eq_true, decide_eq_true_eq]
    cases target.depth with
    | none => simp
    | some d =>
      simp only [Option.getD_some, Option.isSome_some, Option.some.injEq, true_and]
      exact ⟨fun h => h.1, fun h => ⟨h, h.1 ▸ hrole⟩⟩

/-- The layers of a map in which the directed roles have depths. -/
theorem summarize_exact (engine : Engine) {nodeIds : List ℤ}
    (h : ∀ nodeId, targets.has nodeId = true ↔ nodeId ∈ nodeIds)
    (hdepth : ∀ nodeId target, targets.get nodeId = some target → target.role.isDirected = true → target.depth.isSome) :
    LanesExact nodeIds targets (summarizeStellarFlowLanes engine targets).layers := by
  have hperm : (summarizeStellarFlowLanes engine targets).layers.Perm ((layerMap targets).entries.map Prod.snd) :=
    sortBy_perm ..
  have hget {key : StellarFlowRole × ℕ} {summary : StellarFlowLaneSummary}
      (hmem : (key, summary) ∈ (layerMap targets).entries) :
      (summary.role, summary.depth) = key := by
    rw [(layerMap_get.mp (OrderedMap.get_eq_some_iff.mpr hmem)).2]
  constructor
  · rw [(hperm.map _).nodup_iff, map_map]
    have hkeys : (layerMap targets).entries.map ((fun layer => (layer.role, layer.depth)) ∘ Prod.snd) =
        (layerMap targets).entries.map Prod.fst := map_congr_left fun e he => hget he
    rw [hkeys]
    exact (layerMap targets).nodup
  · intro layer
    rw [hperm.mem_iff, mem_map]
    constructor
    · rintro ⟨⟨key, layer⟩, he, rfl⟩
      obtain rfl := hget he
      obtain ⟨hpos, hlayer⟩ := layerMap_get.mp (OrderedMap.get_eq_some_iff.mpr he)
      have hcount : layer.count =
          (laneTargets targets).countP fun target => layerKey target = (layer.role, layer.depth) :=
        congrArg StellarFlowLaneSummary.count hlayer
      obtain ⟨target, htarget, hkey⟩ := countP_pos_iff.mp (hcount ▸ hpos)
      have hrole : layer.role.isDirected = true := by
        have hdirected := (mem_filter.mp htarget).2
        rw [decide_eq_true_eq, layerKey, Prod.mk.injEq] at hkey
        rw [← hkey.1]
        exact (of_decide_eq_true hdirected).2
      exact ⟨hrole, hpos, hcount.trans (countP_laneTargets h hrole)⟩
    · rintro ⟨hrole, hpos, hcount⟩
      refine ⟨((layer.role, layer.depth), layer), OrderedMap.get_eq_some_iff.mp (layerMap_get.mpr ⟨hpos, ?_⟩), rfl⟩
      rw [countP_laneTargets h hrole, ← hcount]
  · have hsum : ((layerMap targets).entries.map Prod.snd |>.map (·.count)).sum = (laneTargets targets).length := by
      have htotal := total_layerMap targets
      rw [OrderedMap.total] at htotal
      apply cast_injective (R := ℤ)
      rw [← htotal, cast_list_sum, map_map, map_map]
      rfl
    rw [(hperm.map _).sum_eq, hsum, laneTargets, ← countP_eq_length_filter, countP_targets h]
    refine countP_congr fun nodeId _ => ?_
    rw [isDirected]
    cases hget : targets.get nodeId with
    | none => rfl
    | some target =>
      have hsome := hdepth nodeId target hget
      simp only [Option.any_some, Bool.decide_and, Bool.decide_eq_true, Bool.and_eq_true]
      exact ⟨fun h => h.2, fun h => ⟨hsome h, h⟩⟩

end lanes

/-! ## The layout -/

variable (engine : Engine) (nodes : List GraphNode) (edges : List GraphEdge) (selected : ℤ)

theorem layout_depth_isSome (h : selected ∈ nodes.map (·.id)) {nodeId : ℤ} {target : StellarFlowTarget}
    (hget : (computeStellarFlowLayout engine nodes edges (some selected)).get nodeId = some target)
    (hrole : target.role.isDirected = true) : target.depth.isSome = true := by
  have hnode : nodeId ∈ nodes.map (·.id) :=
    (has_layout engine edges h).mp (has_iff.mpr ⟨target, hget⟩)
  obtain ⟨_, hplaced, hexact⟩ := layout_placed engine edges h hnode
  obtain rfl := Option.some.inj (hget.symm.trans hplaced)
  have hsome {P : ℕ → Prop} : (∃ k, target.depth = some k ∧ P k) → target.depth.isSome = true := by
    rintro ⟨k, hk, -⟩
    rw [hk]
    rfl
  cases hr : target.role with
  | incoming => exact hsome (hexact.incoming (.inl hr))
  | outgoing => exact hsome (hexact.outgoing (.inl hr))
  | bidirectional => exact hsome (hexact.outgoing (.inr hr))
  | _ =>
    rw [hr] at hrole
    cases hrole

/-- The roles, the depths of the edges and the counts of the layers are what the shortest paths say. -/
theorem focus_flow_exact (h : selected ∈ nodes.map (·.id)) :
    let targets := computeStellarFlowLayout engine nodes edges (some selected)
    (∀ nodeId ∈ nodes.map (·.id), nodeId ≠ selected →
      ∃ target, targets.get nodeId = some target ∧ RoleExact (Visible nodes edges) selected nodeId target) ∧
    (∀ edge ∈ edges, edge.source ∈ nodes.map (·.id) → edge.target ∈ nodes.map (·.id) →
      EdgeDepthExact (Visible nodes edges) selected targets edge.source edge.target) ∧
    LanesExact (nodes.map (·.id)) targets (summarizeStellarFlowLanes engine targets).layers := by
  refine ⟨?_, ?_, ?_⟩
  · intro nodeId hnode hne
    obtain ⟨target, hget, hshows⟩ := layout_shows engine edges h hnode hne
    exact ⟨target, hget, roleExact_of_shows hshows⟩
  · intro edge hedge hsource htarget
    exact layout_edgeDepth engine h ⟨hsource, htarget, edge, hedge, rfl, rfl⟩
  · exact summarize_exact engine (fun nodeId => has_layout engine edges h)
      fun nodeId target hget hrole => layout_depth_isSome engine nodes edges selected h hget hrole

/-- An engine that compares by code units and computes with rational numbers. -/
def exactEngine : Engine where
  localeCompare := Bridge.stableStringCompare
  degreeOfSize size := ⌊(max 0 (size - 3)) ^ 2 + 1 / 2⌋
  hubThreshold maxDegree := max 18 (maxDegree * (18 / 100))
  minimumFamilySize length := max 4 ((length * 15 + 999) / 1000)

/-- Two nodes on a cycle, with a step from one to itself and one to a node that is not there. -/
theorem focus_flow_exact_cycle :
    let nodes := [1, 2].map fun id => GraphNode.mk id "Function".toList none none (some 1) (some 1) 4
    let edges := [⟨1, 2⟩, ⟨2, 1⟩, ⟨2, 2⟩, ⟨2, 9⟩]
    let targets := computeStellarFlowLayout exactEngine nodes edges (some 1)
    (∃ target, targets.get 2 = some target ∧ RoleExact (Visible nodes edges) 1 2 target) ∧
      LanesExact [1, 2] targets (summarizeStellarFlowLanes exactEngine targets).layers := by
  intro nodes edges targets
  have h := focus_flow_exact exactEngine nodes edges 1 (by decide)
  exact ⟨h.1 2 (by decide) (by decide), h.2.2⟩

end Ariad.StellarFlow
