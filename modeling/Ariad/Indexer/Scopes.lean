import Ariad.Indexer.FastWalker

/-!
# Scopes

Which declaration is around which, and what the three passes of the extractor see of it.

* `declarations` — the declarations of a tree, in the order in which they are extracted.
* `enclosing` — the nearest declaration around; `seen`: the nearest one that is extracted by then.
* `parentQn_eq` — the parent of a declaration is the one seen.
* `scopeQn` — the qualified name as it is written: the file and the names of all declarations around.
* `qn_eq_scopeQn` — where every declaration sees the one around it, qualified names are as written.
-/

namespace Ariad.FastWalker

open List

/-! ## Declarations -/

def DeclLabel.rank : DeclLabel → ℕ
  | .function => 0
  | .class_ => 1
  | .method => 2

def labelOf (type : Text) : Option DeclLabel :=
  if type ∈ functionTypes then some .function
  else if type ∈ classTypes then some .class_
  else if type ∈ methodTypes then some .method
  else none

variable {p : DeclLabel × Place} {parents : List TSNode}

theorem labelOf_function (type : Text) : type ∈ functionTypes ↔ labelOf type = some .function := by
  rw [labelOf]
  split
  · simp [*]
  · split <;> [skip; split] <;> simp [*]

theorem labelOf_class (type : Text) : type ∈ classTypes ↔ labelOf type = some .class_ := by
  have hfunction : ∀ t ∈ classTypes, t ∉ functionTypes := by decide
  rw [labelOf]
  constructor
  · intro h
    rw [if_neg (hfunction type h), if_pos h]
  · intro h
    by_contra hclass
    rw [if_neg hclass] at h
    split at h <;> [skip; split at h] <;> cases h

theorem labelOf_method (type : Text) : type ∈ methodTypes ↔ labelOf type = some .method := by
  have hfunction : ∀ t ∈ methodTypes, t ∉ functionTypes := by decide
  have hclass : ∀ t ∈ methodTypes, t ∉ classTypes := by decide
  rw [labelOf]
  constructor
  · intro h
    rw [if_neg (hfunction type h), if_neg (hclass type h), if_pos h]
  · intro h
    by_contra hmethod
    rw [if_neg hmethod] at h
    split at h <;> [skip; split at h] <;> cases h

/-- The declarations with the label, in document order. -/
def declarationsOf (tree : SyntaxTree) (k : DeclLabel) : List (DeclLabel × Place) :=
  (tree.places.filter fun x => labelOf x.node.type = some k).map (k, ·)

/-- The declarations in the order in which they are extracted. -/
def declarations (tree : SyntaxTree) : List (DeclLabel × Place) :=
  [DeclLabel.function, .class_, .method].flatMap (declarationsOf tree)

variable {tree : SyntaxTree} {fileQn : Text}

theorem mem_declarationsOf {k : DeclLabel} :
    p ∈ declarationsOf tree k ↔ p.1 = k ∧ p.2 ∈ tree.places ∧ labelOf p.2.node.type = some k := by
  constructor
  · intro h
    obtain ⟨x, hx, rfl⟩ := mem_map.mp h
    obtain ⟨hplace, hlabel⟩ := mem_filter.mp hx
    exact ⟨rfl, hplace, of_decide_eq_true hlabel⟩
  · rintro ⟨hk, hplace, hlabel⟩
    exact mem_map.mpr ⟨p.2, mem_filter.mpr ⟨hplace, decide_eq_true hlabel⟩, Prod.ext hk.symm rfl⟩

theorem mem_declarations : p ∈ declarations tree ↔ p.2 ∈ tree.places ∧ labelOf p.2.node.type = some p.1 := by
  rw [declarations, mem_flatMap]
  constructor
  · rintro ⟨k, -, hk⟩
    obtain ⟨rfl, h⟩ := mem_declarationsOf.mp hk
    exact h
  · intro h
    exact ⟨p.1, by cases p.1 <;> simp, mem_declarationsOf.mpr ⟨rfl, h⟩⟩

/-- What comes later is of a later pass, or it is not around. -/
def Later (p q : DeclLabel × Place) : Prop :=
  p.1.rank ≤ q.1.rank ∧ (p.1.rank = q.1.rank → q.2 ∉ ancestors p.2.parents)

theorem pairwise_declarations (tree : SyntaxTree) : (declarations tree).Pairwise Later := by
  refine pairwise_flatMap.mpr ⟨fun k _ => ?_, ?_⟩
  · refine pairwise_map.mpr ?_
    exact (SyntaxTree.pairwise_places.filter _).imp fun h => ⟨le_rfl, fun _ => h⟩
  · have hrank {k k' : DeclLabel} (hk : k.rank < k'.rank) :
        ∀ p ∈ declarationsOf tree k, ∀ q ∈ declarationsOf tree k', Later p q := by
      intro p hp q hq
      rw [Later, (mem_declarationsOf.mp hp).1, (mem_declarationsOf.mp hq).1]
      exact ⟨hk.le, fun heq => absurd heq hk.ne⟩
    simp only [pairwise_cons, mem_cons, not_mem_nil, or_false, List.Pairwise.nil, and_true]
    refine ⟨?_, ?_, fun _ h => absurd h not_false⟩
    · rintro k (rfl | rfl) <;> exact hrank (by decide)
    · rintro k rfl
      exact hrank (by decide)

theorem nodup_declarations (tree : SyntaxTree) : ((declarations tree).map fun p => p.2.node.id).Nodup := by
  refine pairwise_map.mpr (pairwise_flatMap.mpr ⟨fun k _ => ?_, ?_⟩)
  · have hids : (tree.places.filter fun x => labelOf x.node.type = some k).Pairwise fun x y => x.node.id ≠ y.node.id :=
      (pairwise_map.mp tree.ids).filter _
    exact pairwise_map.mpr hids
  · have hlabels {k k' : DeclLabel} (hk : k ≠ k') :
        ∀ p ∈ declarationsOf tree k, ∀ q ∈ declarationsOf tree k', p.2.node.id ≠ q.2.node.id := by
      intro p hp q hq hid
      obtain ⟨-, hp, hlabel⟩ := mem_declarationsOf.mp hp
      obtain ⟨-, hq, hlabel'⟩ := mem_declarationsOf.mp hq
      rw [SyntaxTree.place_eq hp hq hid, hlabel'] at hlabel
      exact hk (Option.some.inj hlabel).symm
    simp only [pairwise_cons, mem_cons, not_mem_nil, or_false, List.Pairwise.nil, and_true]
    refine ⟨?_, ?_, fun _ h => absurd h not_false⟩
    · rintro k (rfl | rfl) <;> exact hlabels (by decide)
    · rintro k rfl
      exact hlabels (by decide)

/-- **Of the declarations around one, those of its pass and of earlier passes are extracted before it.** -/
theorem extracted_before {pre suf : List (DeclLabel × Place)} {p q : DeclLabel × Place}
    (h : declarations tree = pre ++ p :: suf) (hq : q ∈ declarations tree) (hy : q.2 ∈ ancestors p.2.parents) :
    q ∈ pre ↔ q.1.rank ≤ p.1.rank := by
  have hpairwise := pairwise_declarations tree
  rw [h] at hpairwise hq
  obtain ⟨-, hsuf, hpre⟩ := pairwise_append.mp hpairwise
  constructor
  · intro hmem
    exact (hpre q hmem p mem_cons_self).1
  · intro hrank
    rcases mem_append.mp hq with hmem | hmem
    · exact hmem
    · rcases mem_cons.mp hmem with rfl | hmem
      · exact absurd (length_parents_lt hy) (lt_irrefl _)
      · obtain ⟨hle, hnot⟩ := (pairwise_cons.mp hsuf).1 q hmem
        exact absurd hy (hnot (le_antisymm hle hrank))

/-! ## What is extracted -/

/-- One more declaration. -/
def extractNext (fileQn : Text) (s : DeclState) (p : DeclLabel × Place) : DeclState := declare fileQn p.1 s p.2

theorem extractDecls_eq (tree : SyntaxTree) (fileQn : Text) :
    extractDecls tree fileQn = (declarations tree).foldl (extractNext fileQn) ⟨[], 0⟩ := by
  have hpass (types : List Text) (k : DeclLabel) (htypes : ∀ t, t ∈ types ↔ labelOf t = some k) (s : DeclState) :
      (tree.descendantsOfType types).foldl (declare fileQn k) s = (declarationsOf tree k).foldl (extractNext fileQn) s := by
    rw [SyntaxTree.descendantsOfType, declarationsOf, foldl_map]
    simp only [htypes]
    rfl
  rw [extractDecls, hpass _ _ labelOf_function, hpass _ _ labelOf_class, hpass _ _ labelOf_method, declarations]
  simp

def Declared.key (d : Declared) : DeclLabel × Place := (d.label, d.place)

theorem map_key_foldl (L : List (DeclLabel × Place)) (s : DeclState) :
    (L.foldl (extractNext fileQn) s).decls.map Declared.key = L.reverse ++ s.decls.map Declared.key := by
  induction L generalizing s with
  | nil => rfl
  | cons p L ih =>
    rw [foldl_cons, ih, reverse_cons, append_assoc]
    rfl

/-- The parent of each declaration was looked up in those before it. -/
def ParentsSeen (fileQn : Text) (decls : List Declared) : Prop :=
  ∀ later d earlier, decls = later ++ d :: earlier → d.parentQn = findParentQnFast d.place.parents fileQn earlier

theorem parentsSeen_next {s : DeclState} (h : ParentsSeen fileQn s.decls) (p : DeclLabel × Place) :
    ParentsSeen fileQn (extractNext fileQn s p).decls := by
  intro later d earlier heq
  cases later with
  | nil =>
    obtain ⟨rfl, rfl⟩ := List.cons.inj heq
    rfl
  | cons d' later =>
    obtain ⟨-, htail⟩ := List.cons.inj heq
    exact h later d earlier htail

theorem parentsSeen_foldl (L : List (DeclLabel × Place)) {s : DeclState} (h : ParentsSeen fileQn s.decls) :
    ParentsSeen fileQn (L.foldl (extractNext fileQn) s).decls := by
  induction L generalizing s with
  | nil => exact h
  | cons p L ih => exact ih (parentsSeen_next h p)

section Extracted

/-- All that is extracted, the last first. -/
def extracted (tree : SyntaxTree) (fileQn : Text) : List Declared := (extractDecls tree fileQn).decls

theorem map_key_extracted (tree : SyntaxTree) (fileQn : Text) : (extracted tree fileQn).map Declared.key = (declarations tree).reverse := by
  rw [extracted, extractDecls_eq, map_key_foldl, map_nil, append_nil]

theorem parentsSeen_extracted : ParentsSeen fileQn (extracted tree fileQn) := by
  rw [extracted, extractDecls_eq]
  refine parentsSeen_foldl _ fun later d earlier heq => ?_
  simp at heq

theorem key_mem {d : Declared} (h : d ∈ extracted tree fileQn) : d.key ∈ declarations tree := by
  have hmem := mem_map_of_mem (f := Declared.key) h
  rwa [map_key_extracted, mem_reverse] at hmem

/-- Every declaration is extracted. -/
theorem exists_extracted (fileQn : Text) (h : p ∈ declarations tree) : ∃ d ∈ extracted tree fileQn, d.key = p := by
  rw [← mem_reverse, ← map_key_extracted tree fileQn] at h
  exact mem_map.mp h

/-- A declaration around one is extracted. -/
theorem exists_around {d : Declared} {y : Place} (hd : d ∈ extracted tree fileQn) (hy : y ∈ ancestors d.place.parents)
    {r : DeclLabel} (hr : labelOf y.node.type = some r) : ∃ e ∈ extracted tree fileQn, e.place = y := by
  have hplace : y ∈ tree.places := SyntaxTree.ancestor_mem (mem_declarations.mp (key_mem hd)).1 hy
  have hmem : (r, y) ∈ declarations tree := mem_declarations.mpr ⟨hplace, hr⟩
  obtain ⟨e, he, hkey⟩ := exists_extracted fileQn hmem
  exact ⟨e, he, congrArg Prod.snd hkey⟩

theorem nodup_extracted : ((extracted tree fileQn).map fun d => d.place.node.id).Nodup := by
  have hids := nodup_reverse.mpr (nodup_declarations tree)
  rw [← map_reverse, ← map_key_extracted tree fileQn, map_map] at hids
  exact hids

theorem extracted_inj {d d' : Declared} (h : d ∈ extracted tree fileQn) (h' : d' ∈ extracted tree fileQn)
    (hid : d.place.node.id = d'.place.node.id) : d = d' :=
  inj_on_of_nodup_map nodup_extracted h h' hid

/-- Of declarations with different ids each is found. -/
theorem qnByNode_of_mem {decls : List Declared} (hids : (decls.map fun d => d.place.node.id).Nodup) {d : Declared}
    (h : d ∈ decls) : qnByNode decls d.place.node = some d.qn := by
  have hget : Rows.get (fun e : Declared => e.place.node.id) d.place.node.id decls = some d :=
    (Rows.get_eq_some_iff hids).mpr ⟨h, rfl⟩
  exact congrArg (Option.map Declared.qn) hget

theorem qnByNode_extracted {d : Declared} (h : d ∈ extracted tree fileQn) :
    qnByNode (extracted tree fileQn) d.place.node = some d.qn :=
  qnByNode_of_mem nodup_extracted h

theorem qnByNode_none {decls : List Declared} {n : TSNode} (h : ∀ d ∈ decls, d.place.node.id ≠ n.id) :
    qnByNode decls n = none := by
  have hget : Rows.get (fun e : Declared => e.place.node.id) n.id decls = none := Rows.get_eq_none_iff.mpr h
  exact congrArg (Option.map Declared.qn) hget

end Extracted

/-! ## The declaration around -/

/-- The nearest declaration around. -/
def enclosing (parents : List TSNode) : Option Place :=
  (ancestors parents).find? fun y => (labelOf y.node.type).isSome

/-- The nearest declaration around that is extracted when one with the label is. -/
def seen (k : DeclLabel) (parents : List TSNode) : Option Place :=
  (ancestors parents).find? fun y => (labelOf y.node.type).any fun r => r.rank ≤ k.rank

/-- The nearest function or method around. -/
def enclosingCallable (parents : List TSNode) : Option Place :=
  (ancestors parents).find? fun y => labelOf y.node.type = some .function ∨ labelOf y.node.type = some .method

theorem enclosing_some {y : Place} (h : enclosing parents = some y) :
    y ∈ ancestors parents ∧ ∃ r, labelOf y.node.type = some r := by
  have hlabel : (labelOf y.node.type).isSome = true := by simpa using find?_some h
  exact ⟨mem_of_find?_eq_some h, Option.isSome_iff_exists.mp hlabel⟩

theorem seen_some {k : DeclLabel} {y : Place} (h : seen k parents = some y) :
    y ∈ ancestors parents ∧ ∃ r, labelOf y.node.type = some r := by
  have hlabel : (labelOf y.node.type).any (fun r => r.rank ≤ k.rank) = true := by
    simpa using find?_some h
  obtain ⟨r, hr, -⟩ := (Option.any_eq_true _ _).mp hlabel
  exact ⟨mem_of_find?_eq_some h, r, hr⟩

theorem findSome?_ancestors {β : Type} (f : TSNode → Option β) (parents : List TSNode) :
    parents.findSome? f = (ancestors parents).findSome? fun y => f y.node := by
  conv_lhs => rw [← map_node_ancestors parents]
  rw [findSome?_map]
  rfl

/-- A search for what is found among some is a search for the first of these. -/
theorem findSome?_eq_bind {α β : Type} {f g : α → Option β} {p : α → Bool} {l : List α}
    (hin : ∀ x ∈ l, p x = true → f x = g x ∧ (g x).isSome = true) (hout : ∀ x ∈ l, p x = false → f x = none) :
    l.findSome? f = (l.find? p).bind g := by
  induction l with
  | nil => rfl
  | cons x l ih =>
    have ih := ih (fun y hy => hin y (mem_cons_of_mem _ hy)) (fun y hy => hout y (mem_cons_of_mem _ hy))
    rw [findSome?_cons, find?_cons]
    cases hp : p x with
    | false =>
      rw [hout x mem_cons_self hp]
      exact ih
    | true =>
      obtain ⟨hf, hg⟩ := hin x mem_cons_self hp
      obtain ⟨b, hb⟩ := Option.isSome_iff_exists.mp hg
      rw [hf, hb, Option.bind_some, hb]

/-- A node of some declaration type is a declaration. -/
theorem labelOf_isSome (type : Text) :
    (labelOf type).isSome = true ↔ type ∈ functionTypes ∨ type ∈ classTypes ∨ type ∈ methodTypes := by
  rw [labelOf_function, labelOf_class, labelOf_method]
  cases labelOf type with
  | none => simp
  | some k => cases k <;> simp

theorem labelOf_callable (type : Text) :
    (labelOf type = some .function ∨ labelOf type = some .method) ↔ type ∈ functionTypes ∨ type ∈ methodTypes := by
  rw [labelOf_function, labelOf_method]

section Extracted

variable {later earlier : List Declared} {d : Declared} {y : Place}

/-- What is around a declaration is found among those before it exactly if it is of its pass or of an earlier one. -/
theorem qnByNode_earlier (h : extracted tree fileQn = later ++ d :: earlier) (hy : y ∈ ancestors d.place.parents)
    {r : DeclLabel} (hr : labelOf y.node.type = some r) : qnByNode earlier y.node =
      if r.rank ≤ d.label.rank then qnByNode (extracted tree fileQn) y.node else none := by
  have hd : d ∈ extracted tree fileQn := h ▸ mem_append_right _ mem_cons_self
  have hplace : y ∈ tree.places := SyntaxTree.ancestor_mem (mem_declarations.mp (key_mem hd)).1 hy
  have hmem : (r, y) ∈ declarations tree := mem_declarations.mpr ⟨hplace, hr⟩
  have hsplit : declarations tree = (earlier.map Declared.key).reverse ++ d.key :: (later.map Declared.key).reverse := by
    have hkeys := congrArg List.reverse (map_key_extracted tree fileQn)
    rw [reverse_reverse, h] at hkeys
    rw [← hkeys]
    simp
  have hbefore := extracted_before hsplit hmem hy
  have hsub : earlier.Sublist (extracted tree fileQn) :=
    h ▸ (sublist_cons_self d earlier).trans (sublist_append_right later _)
  split
  · rename_i hrank
    obtain ⟨e, he, hkey⟩ := mem_map.mp (mem_reverse.mp (hbefore.mpr hrank))
    obtain rfl : e.place = y := congrArg Prod.snd hkey
    rw [qnByNode_of_mem ((hsub.map _).nodup nodup_extracted) he, qnByNode_extracted (hsub.mem he)]
  · rename_i hrank
    refine qnByNode_none fun e he hid => hrank ?_
    have hkey := mem_declarations.mp (key_mem (hsub.mem he))
    obtain rfl : e.place = y := SyntaxTree.place_eq hkey.1 hplace hid
    obtain rfl : e.label = r := Option.some.inj (hkey.2.symm.trans hr)
    exact hbefore.mp (mem_reverse.mpr (mem_map_of_mem he))

theorem isSome_qnByNode (hd : d ∈ extracted tree fileQn) (hy : y ∈ ancestors d.place.parents) {r : DeclLabel}
    (hr : labelOf y.node.type = some r) : (qnByNode (extracted tree fileQn) y.node).isSome = true := by
  obtain ⟨e, he, rfl⟩ := exists_around hd hy hr
  rw [qnByNode_extracted he, Option.isSome_some]

/-- **The parent of a declaration is the nearest one around it that is extracted by then.** -/
theorem parentQn_eq (hd : d ∈ extracted tree fileQn) :
    d.parentQn = ((seen d.label d.place.parents).bind fun y => qnByNode (extracted tree fileQn) y.node).getD fileQn := by
  obtain ⟨later, earlier, h⟩ := append_of_mem hd
  rw [parentsSeen_extracted later d earlier h, findParentQnFast, findSome?_ancestors, seen]
  congr 1
  refine findSome?_eq_bind (fun y hy hseen => ?_) (fun y hy hseen => ?_)
  · obtain ⟨r, hr, hrank⟩ := (Option.any_eq_true _ _).mp hseen
    have hdecl := (labelOf_isSome y.node.type).mp (by rw [hr, Option.isSome_some])
    rw [if_pos hdecl, qnByNode_earlier h hy hr, if_pos (of_decide_eq_true hrank)]
    exact ⟨rfl, isSome_qnByNode hd hy hr⟩
  · split
    · rename_i hdecl
      obtain ⟨r, hr⟩ := Option.isSome_iff_exists.mp ((labelOf_isSome y.node.type).mpr hdecl)
      rw [hr, Option.any_some, decide_eq_false_iff_not] at hseen
      rw [qnByNode_earlier h hy hr, if_neg hseen]
    · rfl

end Extracted

/-! ## Names as they are written -/

/-- The declarations with their names; those without a name are counted. -/
def namesOf : List (DeclLabel × Place) → ℕ → List (Place × Text)
  | [], _ => []
  | p :: L, n => (p.2, (getDeclNameFast p.2.node n).1) :: namesOf L (getDeclNameFast p.2.node n).2

/-- The name of a declaration. -/
def nameOf (tree : SyntaxTree) (n : TSNode) : Text :=
  (((namesOf (declarations tree) 0).find? fun p => p.1.node.id = n.id).map Prod.snd).getD []

/-- The name of the file and the names of all declarations around. -/
def scopeOf (tree : SyntaxTree) (fileQn : Text) : List TSNode → Text
  | [] => fileQn
  | p :: ps =>
    if (labelOf p.type).isSome then scopeOf tree fileQn ps ++ "::".toList ++ nameOf tree p else scopeOf tree fileQn ps

/-- The qualified name of a declaration as it is written. -/
def scopeQn (tree : SyntaxTree) (fileQn : Text) (x : Place) : Text :=
  scopeOf tree fileQn x.parents ++ "::".toList ++ nameOf tree x.node

/-- Every declaration is of the pass of the one around it or of a later one. -/
def InOrder (tree : SyntaxTree) : Prop :=
  ∀ p ∈ declarations tree, ∀ y ∈ enclosing p.2.parents, ∀ r ∈ labelOf y.node.type, r.rank ≤ p.1.rank

/-- No two declarations have the same qualified name as written. -/
def NamesApart (tree : SyntaxTree) (fileQn : Text) : Prop :=
  ((declarations tree).map fun p => scopeQn tree fileQn p.2).Nodup

instance : Decidable (InOrder tree) := inferInstanceAs (Decidable (∀ p ∈ declarations tree, ∀ y ∈ _, ∀ r ∈ _, _))

instance : Decidable (NamesApart tree fileQn) := inferInstanceAs (Decidable (List.Nodup _))

theorem map_name_foldl (L : List (DeclLabel × Place)) (s : DeclState) :
    (L.foldl (extractNext fileQn) s).decls.map (fun d => (d.place, d.name)) =
      (namesOf L s.anonymousCounter).reverse ++ s.decls.map fun d => (d.place, d.name) := by
  induction L generalizing s with
  | nil => rfl
  | cons p L ih =>
    rw [foldl_cons, ih, namesOf, reverse_cons, append_assoc]
    rfl

theorem map_name_extracted (tree : SyntaxTree) (fileQn : Text) :
    (extracted tree fileQn).map (fun d => (d.place, d.name)) = (namesOf (declarations tree) 0).reverse := by
  rw [extracted, extractDecls_eq, map_name_foldl, map_nil, append_nil]

theorem nameOf_extracted {d : Declared} (h : d ∈ extracted tree fileQn) : nameOf tree d.place.node = d.name := by
  have hnames := congrArg List.reverse (map_name_extracted tree fileQn)
  rw [reverse_reverse, ← map_reverse] at hnames
  have hids : ((namesOf (declarations tree) 0).map fun p => p.1.node.id).Nodup := by
    rw [← hnames, map_map, map_reverse]
    exact nodup_reverse.mpr nodup_extracted
  have hmem : (d.place, d.name) ∈ namesOf (declarations tree) 0 :=
    hnames ▸ mem_map_of_mem (f := fun d : Declared => (d.place, d.name)) (mem_reverse.mpr h)
  have hget : Rows.get (fun p : Place × Text => p.1.node.id) d.place.node.id (namesOf (declarations tree) 0) =
      some (d.place, d.name) := (Rows.get_eq_some_iff hids).mpr ⟨hmem, rfl⟩
  exact congrArg (fun o => (o.map Prod.snd).getD []) hget

/-! ## Declarations that see the one around them -/

theorem find?_imp {α : Type} {p q : α → Bool} {l : List α} (hpq : ∀ x ∈ l, p x = true → q x = true)
    (hfirst : ∀ x, l.find? q = some x → p x = true) : l.find? p = l.find? q := by
  induction l with
  | nil => rfl
  | cons x l ih =>
    rw [find?_cons, find?_cons] at *
    cases hq : q x with
    | true =>
      rw [hq] at hfirst
      rw [hfirst x rfl]
    | false =>
      rw [hq] at hfirst
      have hp : p x = false := Bool.eq_false_iff.mpr fun hp => absurd (hpq x mem_cons_self hp) (by simp [hq])
      rw [hp]
      exact ih (fun y hy => hpq y (mem_cons_of_mem _ hy)) hfirst

/-- A declaration sees the one around it exactly if that one is of its pass or of an earlier one. -/
theorem seen_eq_enclosing_iff {k : DeclLabel} :
    seen k parents = enclosing parents ↔ ∀ y ∈ enclosing parents, ∀ r ∈ labelOf y.node.type, r.rank ≤ k.rank := by
  constructor
  · intro h y hy r hr
    have hseen : seen k parents = some y := h.trans hy
    have hrank := find?_some hseen
    rw [Option.mem_def.mp hr, Option.any_some] at hrank
    exact of_decide_eq_true hrank
  · intro h
    refine find?_imp (fun y _ hy => ?_) (fun y hy => ?_)
    · obtain ⟨r, hr, -⟩ := (Option.any_eq_true _ _).mp hy
      rw [hr, Option.isSome_some]
    · obtain ⟨-, r, hr⟩ := enclosing_some hy
      rw [hr, Option.any_some]
      exact decide_eq_true (h y hy r hr)

theorem inOrder_iff (fileQn : Text) :
    InOrder tree ↔ ∀ d ∈ extracted tree fileQn, seen d.label d.place.parents = enclosing d.place.parents := by
  simp only [seen_eq_enclosing_iff]
  constructor
  · exact fun h d hd => h d.key (key_mem hd)
  · intro h p hp
    obtain ⟨d, hd, rfl⟩ := exists_extracted fileQn hp
    exact h d hd

theorem scopeOf_enclosing (parents : List TSNode) :
    scopeOf tree fileQn parents = ((enclosing parents).map (scopeQn tree fileQn)).getD fileQn := by
  induction parents with
  | nil => rfl
  | cons p ps ih =>
    rw [scopeOf, enclosing, ancestors, find?_cons]
    cases hp : (labelOf p.type).isSome with
    | true => rfl
    | false => exact ih

/-- **Where every declaration sees the one around it, qualified names are as written.** -/
theorem qn_eq_scopeQn (h : InOrder tree) {d : Declared} (hd : d ∈ extracted tree fileQn) :
    d.qn = scopeQn tree fileQn d.place := by
  -- By the number of nodes around it: what encloses it has fewer.
  induction hn : d.place.parents.length using Nat.strong_induction_on generalizing d with
  | _ n ih =>
    have hparent := parentQn_eq hd
    rw [(inOrder_iff fileQn).mp h d hd] at hparent
    rw [Declared.qn, scopeQn, nameOf_extracted hd, hparent, scopeOf_enclosing]
    cases henclosing : enclosing d.place.parents with
    | none => rfl
    | some y =>
      obtain ⟨hy, r, hr⟩ := enclosing_some henclosing
      obtain ⟨e, he, rfl⟩ := exists_around hd hy hr
      have heq := ih _ (hn ▸ length_parents_lt hy) he rfl
      rw [Option.bind_some, qnByNode_extracted he, heq]
      rfl

end Ariad.FastWalker
