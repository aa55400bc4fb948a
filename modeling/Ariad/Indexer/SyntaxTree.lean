import Mathlib.Data.List.Infix
import Mathlib.Data.List.Nodup
import Ariad.Javascript.Text

/-!
# Syntax trees

The concrete syntax tree that the parser hands to the extractor, tokens included.

* `TSNode` — a node with its type, its field in the node around it, and its text.
* `Place` — a node and the nodes around it; `places`: all of a tree, in document order.
* `parent_before` — the node around a node comes before it.
* `SyntaxTree` — a tree whose nodes have different ids.
-/

namespace Ariad

open List

/-- A node of the parser. -/
inductive TSNode where
  | mk (id : ℕ) (type : Text) (field : Option Text) (text : Text) (startRow endRow : ℕ) (children : List TSNode)

namespace TSNode

def id : TSNode → ℕ
  | mk id .. => id

def type : TSNode → Text
  | mk _ type .. => type

def field : TSNode → Option Text
  | mk _ _ field .. => field

def text : TSNode → Text
  | mk _ _ _ text .. => text

def startRow : TSNode → ℕ
  | mk _ _ _ _ startRow .. => startRow

def endRow : TSNode → ℕ
  | mk _ _ _ _ _ endRow _ => endRow

def children : TSNode → List TSNode
  | mk _ _ _ _ _ _ children => children

/-- A node on one line without a field. -/
def inner (id : ℕ) (type text : String) (children : List TSNode) : TSNode :=
  mk id type.toList none text.toList 0 0 children

def leaf (id : ℕ) (type text : String) : TSNode := inner id type text []

/-- The node in a field. -/
def inField (name : String) : TSNode → TSNode
  | mk id type _ text startRow endRow children => mk id type (some name.toList) text startRow endRow children

def childForFieldName (n : TSNode) (name : Text) : Option TSNode := n.children.find? fun c => c.field = some name

end TSNode

/-- A node in its tree: the nodes around it, the nearest first. -/
structure Place where
  node : TSNode
  parents : List TSNode

/-- The nodes around a node, each in its place, the nearest first. -/
def ancestors : List TSNode → List Place
  | [] => []
  | p :: ps => ⟨p, ps⟩ :: ancestors ps

mutual

/-- A node and all nodes below it, in document order. -/
def TSNode.places (parents : List TSNode) : TSNode → List Place
  | .mk id type field text startRow endRow children =>
    ⟨.mk id type field text startRow endRow children, parents⟩ ::
      TSNode.placesAll (.mk id type field text startRow endRow children :: parents) children

def TSNode.placesAll (parents : List TSNode) : List TSNode → List Place
  | [] => []
  | c :: cs => TSNode.places parents c ++ TSNode.placesAll parents cs

end

namespace TSNode

/-- What is around a node comes before it, up to the nodes around the whole list. -/
def Ordered (parents : List TSNode) (l : List Place) : Prop :=
  ∀ pre x suf, l = pre ++ x :: suf → x.parents = parents ∨
    ∃ p ps, x.parents = p :: ps ∧ (⟨p, ps⟩ : Place) ∈ pre

variable {parents : List TSNode}

theorem Ordered.append {l l' : List Place} (h : Ordered parents l) (h' : Ordered parents l') :
    Ordered parents (l ++ l') := by
  intro pre x suf heq
  rcases append_eq_append_iff.mp heq with ⟨a, rfl, hl'⟩ | ⟨b, rfl, hb⟩
  · rcases h' a x suf hl' with hx | ⟨p, ps, hx, hmem⟩
    · exact .inl hx
    · exact .inr ⟨p, ps, hx, mem_append_right _ hmem⟩
  · cases b with
    | nil =>
      rcases h' [] x suf (by simpa using hb.symm) with hx | ⟨p, ps, hx, hmem⟩
      · exact .inl hx
      · exact absurd hmem not_mem_nil
    | cons y b =>
      obtain ⟨rfl, -⟩ := List.cons.inj hb
      exact h pre x b rfl

theorem Ordered.cons {n : TSNode} {l : List Place} (h : Ordered (n :: parents) l) :
    Ordered parents (⟨n, parents⟩ :: l) := by
  intro pre x suf heq
  cases pre with
  | nil =>
    obtain ⟨rfl, -⟩ := List.cons.inj heq
    exact .inl rfl
  | cons y pre =>
    obtain ⟨rfl, rfl⟩ := List.cons.inj heq
    rcases h pre x suf rfl with hx | ⟨p, ps, hx, hmem⟩
    · exact .inr ⟨n, parents, hx, mem_cons_self⟩
    · exact .inr ⟨p, ps, hx, mem_cons_of_mem _ hmem⟩

mutual

theorem ordered_places (parents : List TSNode) : (n : TSNode) → Ordered parents (n.places parents)
  | .mk id type field text startRow endRow children => by
    rw [places]
    exact (ordered_placesAll _ children).cons

theorem ordered_placesAll (parents : List TSNode) : (l : List TSNode) → Ordered parents (placesAll parents l)
  | [] => by
    rw [placesAll]
    intro pre x suf heq
    simp at heq
  | c :: cs => by
    rw [placesAll]
    exact (ordered_places parents c).append (ordered_placesAll parents cs)

end

/-- **The node around a node comes before it.** -/
theorem parent_before {root n p : TSNode} {ps : List TSNode} {pre suf : List Place}
    (h : root.places [] = pre ++ ⟨n, p :: ps⟩ :: suf) : (⟨p, ps⟩ : Place) ∈ pre := by
  rcases ordered_places [] root pre _ suf h with hnil | ⟨p', ps', heq, hmem⟩
  · cases hnil
  · obtain ⟨rfl, rfl⟩ := List.cons.inj heq
    exact hmem

end TSNode

theorem map_node_ancestors (parents : List TSNode) : (ancestors parents).map Place.node = parents := by
  induction parents with
  | nil => rfl
  | cons p ps ih => rw [ancestors, map_cons, ih]

/-- What is around a node has fewer nodes around it. -/
theorem length_parents_lt {y : Place} (h : y ∈ ancestors parents) : y.parents.length < parents.length := by
  induction parents with
  | nil => cases h
  | cons p ps ih =>
    rcases mem_cons.mp h with rfl | h
    · exact Nat.lt_succ_self _
    · exact (ih h).trans (Nat.lt_succ_self _)

/-- All nodes around a node come before it. -/
theorem TSNode.ancestor_before {root : TSNode} {x y : Place} {pre suf : List Place}
    (h : root.places [] = pre ++ x :: suf) (hy : y ∈ ancestors x.parents) : y ∈ pre := by
  obtain ⟨n, parents⟩ := x
  induction parents generalizing n pre suf with
  | nil => cases hy
  | cons p ps ih =>
    have hp : (⟨p, ps⟩ : Place) ∈ pre := parent_before h
    rcases mem_cons.mp hy with rfl | hy
    · exact hp
    · obtain ⟨before, after, rfl⟩ := append_of_mem hp
      have hmem : y ∈ before := ih p (by rw [h, append_assoc, cons_append]) hy
      exact mem_append_left _ hmem

/-- A syntax tree: no two nodes have the same id. -/
structure SyntaxTree where
  root : TSNode
  ids : ((root.places []).map fun x => x.node.id).Nodup

namespace SyntaxTree

variable (tree : SyntaxTree)

def places : List Place := tree.root.places []

/-- `descendantsOfType`. -/
def descendantsOfType (types : List Text) : List Place := tree.places.filter fun x => x.node.type ∈ types

variable {tree}

/-- A node is at one place. -/
theorem place_eq {x y : Place} (hx : x ∈ tree.places) (hy : y ∈ tree.places) (h : x.node.id = y.node.id) : x = y :=
  inj_on_of_nodup_map tree.ids hx hy h

theorem ancestor_mem {x y : Place} (hx : x ∈ tree.places) (hy : y ∈ ancestors x.parents) : y ∈ tree.places := by
  obtain ⟨pre, suf, hsplit⟩ := append_of_mem hx
  have hbefore := TSNode.ancestor_before hsplit hy
  exact hsplit ▸ mem_append_left _ hbefore

/-- Nothing behind a node is around it. -/
theorem pairwise_places : tree.places.Pairwise fun x y => y ∉ ancestors x.parents := by
  refine pairwise_iff_forall_sublist.mpr fun {x y} hsub hy => ?_
  obtain ⟨l, r, hsplit, hx, hyr⟩ := cons_sublist_iff.mp hsub
  obtain ⟨pre, suf, rfl⟩ := append_of_mem hx
  have hplaces : tree.root.places [] = pre ++ x :: (suf ++ r) := by
    rw [← places, hsplit, append_assoc, cons_append]
  have hpre : y ∈ pre := TSNode.ancestor_before hplaces hy
  have hids := tree.ids
  rw [← places, hsplit, map_append] at hids
  have hdisjoint := disjoint_of_nodup_append hids
  exact hdisjoint (mem_map_of_mem (mem_append_left _ hpre))
    (mem_map_of_mem (singleton_sublist.mp hyr))

end SyntaxTree

end Ariad
