import Ariad.Indexer.ModuleRecords

/-!
# Exact module records

What the extractor reads off the tree of a module, and when this is what the module has.

* `flatMap_places_perm` — what is read off the nodes and the nodes around them is read off the nodes and their children.
* `importsOf_eq`, `exportsOf_eq`, `declaredIn_eq` — what is read off one statement.
* `recordsExact_iff` — the records are exact exactly if the forms of the module are supported.
-/

namespace Ariad

open CrossFile Ecmascript FastWalker Matching List

/-! ## Nodes and their children -/

section Children

variable {β : Type} (f : TSNode → TSNode → List β)

/-- What is read off a node and the node around it. -/
def withParent (x : Place) : List β :=
  match x.parents with
  | [] => []
  | p :: _ => f p x.node

def withChildren (x : Place) : List β := x.node.children.flatMap (f x.node)

mutual

variable {exp : TSNode} {s : Specifier}

theorem flatMap_places (parents : List TSNode) : (n : TSNode) → ((n.places parents).flatMap (withParent f)).Perm
      (withParent f ⟨n, parents⟩ ++ (n.places parents).flatMap (withChildren f))
  | .mk id type field text startRow endRow children => by
    rw [TSNode.places, flatMap_cons, flatMap_cons]
    exact (flatMap_placesAll _ parents children).append_left _

theorem flatMap_placesAll (p : TSNode) (ps : List TSNode) : (l : List TSNode) →
    ((TSNode.placesAll (p :: ps) l).flatMap (withParent f)).Perm
      (l.flatMap (f p) ++ (TSNode.placesAll (p :: ps) l).flatMap (withChildren f))
  | [] => by
    rw [TSNode.placesAll]
    rfl
  | c :: cs => by
    rw [TSNode.placesAll, flatMap_append, flatMap_append, flatMap_cons]
    have hboth := (flatMap_places (p :: ps) c).append (flatMap_placesAll p ps cs)
    have hswap := perm_append_comm_assoc ((TSNode.places (p :: ps) c).flatMap (withChildren f)) (cs.flatMap (f p))
      ((TSNode.placesAll (p :: ps) cs).flatMap (withChildren f))
    rw [append_assoc] at hboth ⊢
    exact hboth.trans (hswap.append_left _)

end

/-- **Nodes are found as children of the nodes around them**, in another order. -/
theorem flatMap_places_perm (tree : SyntaxTree) :
    (tree.places.flatMap (withParent f)).Perm (tree.places.flatMap (withChildren f)) :=
  flatMap_places f [] tree.root

end Children

/-! ## Lists of parts -/

section Parts

variable {α β γ : Type} {R : α → β → Prop} {as : List α} {bs : List β}

theorem flatMap_filter_eq {p : β → Bool} {g : β → List γ} (h : ∀ b, p b = false → g b = []) :
    (bs.filter p).flatMap g = bs.flatMap g := by
  induction bs with
  | nil => rfl
  | cons b bs ih =>
    cases hb : p b with
    | true => rw [filter_cons_of_pos hb, flatMap_cons, flatMap_cons, ih]
    | false => rw [filter_cons_of_neg (by simp [hb]), flatMap_cons, h b hb, ih, nil_append]

theorem flatMap_of_forall₂ {f : α → List γ} {g : β → List γ} (h : List.Forall₂ R as bs)
    (heq : ∀ a b, R a b → g b = f a) : bs.flatMap g = as.flatMap f := by
  induction h with
  | nil => rfl
  | cons hr _ ih => rw [flatMap_cons, flatMap_cons, heq _ _ hr, ih]

theorem filterMap_of_forall₂ {f : α → Option γ} {g : β → Option γ} (h : List.Forall₂ R as bs)
    (heq : ∀ a b, R a b → g b = f a) : bs.filterMap g = as.filterMap f := by
  rw [filterMap_eq_flatMap_toList, filterMap_eq_flatMap_toList]
  exact flatMap_of_forall₂ h fun a b hr => congrArg Option.toList (heq a b hr)

/-- A part that there may be. -/
theorem part_cases {o : Option α} (h : List.Forall₂ R o.toList bs) :
    (o = none ∧ bs = []) ∨ ∃ a b, o = some a ∧ bs = [b] ∧ R a b := by
  cases o with
  | none => exact .inl ⟨rfl, forall₂_nil_left_iff.mp h⟩
  | some a =>
    obtain ⟨b, rest, hr, hrest, rfl⟩ := forall₂_cons_left_iff.mp h
    obtain rfl := forall₂_nil_left_iff.mp hrest
    exact .inr ⟨a, b, rfl, rfl, hr⟩

end Parts

section Nodes

variable {n : TSNode}

theorem typeIn_iff {types : List String} : n.typeIn types = true ↔ n.type ∈ types.map String.toList := by
  rw [TSNode.typeIn, any_eq_true, mem_map]
  exact exists_congr fun t => and_congr_right fun _ => decide_eq_true_iff.trans eq_comm

theorem childrenIn_singleton (n : TSNode) (t : String) :
    n.childrenIn [t] = n.children.filter fun c => c.type = t.toList := by
  simp [TSNode.childrenIn, TSNode.typeIn]

theorem hasChild_eq {t : String} {b : Bool} (h : n.childrenIn [t] ≠ [] ↔ b = true) : hasChild n t.toList = b := by
  rw [Bool.eq_iff_iff, ← h, childrenIn_singleton]
  simp [hasChild]

theorem hasChild_false {t : String} (h : n.childrenIn [t] = []) : hasChild n t.toList = false :=
  hasChild_eq (iff_of_false (not_not.mpr h) (by simp))

theorem stripQuotes_literal {s : Spelling} {c : TSNode} (h : IsLiteral s c) : stripQuotes c.text = s.written := by
  obtain ⟨q, hq, htext⟩ := h
  have hquote : isQuote q := by
    rcases mem_pair.mp hq with rfl | rfl <;> rfl
  rw [htext, stripQuotes]
  simp [hquote]

theorem sourceModuleOf_eq {s : Option Spelling} (h : List.Forall₂ IsLiteral s.toList (n.childrenIn ["string"])) :
    sourceModuleOf n = s.map Spelling.written := by
  rw [sourceModuleOf, ← childrenIn_singleton]
  rcases part_cases h with ⟨rfl, hnil⟩ | ⟨s, c, rfl, hone, hliteral⟩
  · rw [hnil]
    rfl
  · rw [hone]
    exact congrArg some (stripQuotes_literal hliteral)

theorem truthy_some {t : Text} (h : t ≠ []) : truthy (some t) = some t := by
  cases t with
  | nil => exact absurd rfl h
  | cons => rfl

end Nodes

/-! ## Imports -/

section Imports

variable {filePath : Text} {source : Spelling}

theorem namedImport_eq {spec : TSNode} (h : IsSpecifier "import_specifier" s spec) :
    (namedImport filePath source.written spec).map ImportRow.entry =
      (s.importBinding source).map (ImportBinding.entry Spelling.written) := by
  have htype : hasChild spec "type".toList = s.typeOnly := hasChild_eq h.typeOnly
  obtain ⟨nameNode, hname, hnameText⟩ := Option.map_eq_some_iff.mp h.name
  have halias := h.alias_
  rw [namedImport, h.type, htype, hname, Specifier.importBinding, Specifier.bound]
  cases s.typeOnly with
  | true => rfl
  | false =>
    rw [if_neg (by simp), if_neg (by simp)]
    cases hs : s.alias_ with
    | none =>
      rw [FieldText, hs, Option.map_none, Option.map_eq_none_iff] at halias
      simp only [Option.map_some, halias, hnameText]
      rfl
    | some a =>
      rw [FieldText, hs, Option.map_some] at halias
      obtain ⟨aliasNode, haliasNode, haliasText⟩ := Option.map_eq_some_iff.mp halias
      simp only [Option.map_some, haliasNode, haliasText, hnameText]
      rfl

theorem clauseImports_eq {part : ImportPart} {c : TSNode} (h : IsImportPart part c) :
    (clauseImports filePath source.written c).map ImportRow.entry =
      (part.bindings source).map (ImportBinding.entry Spelling.written) := by
  cases part with
  | default name =>
    obtain ⟨htype, htext⟩ := h
    rw [clauseImports, htype, htext]
    rfl
  | namespace_ name =>
    obtain ⟨htype, hchildren⟩ := h
    obtain ⟨idNode, hone, htext⟩ := map_eq_singleton_iff.mp hchildren
    have hfind : (c.children.find? fun c => c.type = "identifier".toList) = some idNode := by
      rw [← head?_filter, ← childrenIn_singleton, hone]
      rfl
    rw [clauseImports, htype, if_neg (by decide), if_pos rfl, hfind]
    simp only [htext, if_neg name.2.written_ne_nil]
    rfl
  | named specifiers =>
    obtain ⟨htype, hspecifiers⟩ := h
    have hother : ∀ spec : TSNode, decide (spec.type = "import_specifier".toList) = false →
        (namedImport filePath source.written spec).toList = [] := by
      intro spec hspec
      rw [namedImport, if_pos (.inl (of_decide_eq_false hspec))]
      rfl
    rw [childrenIn_singleton] at hspecifiers
    rw [clauseImports, htype, if_pos rfl, filterMap_eq_flatMap_toList, ← flatMap_filter_eq hother,
      ← filterMap_eq_flatMap_toList, map_filterMap, ImportPart.bindings, map_filterMap]
    exact filterMap_of_forall₂ hspecifiers fun s spec hspec => namedImport_eq hspec

theorem source_of_mem {part : ImportPart} {b : ImportBinding} (h : b ∈ part.bindings source) : b.source = source := by
  cases part with
  | named specifiers =>
    obtain ⟨s, -, hs⟩ := mem_filterMap.mp h
    rw [Specifier.importBinding] at hs
    split at hs
    · cases hs
    · obtain rfl := Option.some.inj hs
      rfl
  | _ =>
    obtain rfl := mem_singleton.mp h
    rfl

theorem left_importAtoms {bindings : List ImportBinding} (h : ∀ b ∈ bindings, b.source = source) :
    left (bindings.map ImportBinding.atom) =
      if source.written = [] then [] else bindings.map (ImportBinding.entry Spelling.written) := by
  rw [left, filterMap_map]
  split
  · rename_i hnil
    refine filterMap_eq_nil_iff.mpr fun b hb => ?_
    exact if_pos (h b hb ▸ hnil)
  · rename_i hne
    rw [← filterMap_eq_map]
    refine filterMap_congr fun b hb => ?_
    exact if_neg (h b hb ▸ hne)

/-- What is read off an import statement. -/
theorem importsOf_eq {d : ImportDeclaration} {imp : TSNode} (h : IsImport d imp) :
    (importsOf filePath imp).map ImportRow.entry = left (d.bindings.map ImportBinding.atom) := by
  have htype : hasChild imp "type".toList = d.typeOnly := hasChild_eq h.typeOnly
  have hsource : sourceModuleOf imp = some d.source.written := sourceModuleOf_eq (s := some d.source) h.source
  rw [importsOf, htype, hsource, lastChild, ← childrenIn_singleton, ImportDeclaration.bindings]
  cases d.typeOnly with
  | true => rfl
  | false =>
    rcases part_cases h.clause with ⟨hnone, hnil⟩ | ⟨parts, c, hsome, hone, hclause⟩
    · rw [hnil, hnone]
      rfl
    · have hsources : ∀ b ∈ parts.flatMap (ImportPart.bindings d.source), b.source = d.source := by
        intro b hb
        obtain ⟨part, -, hb⟩ := mem_flatMap.mp hb
        exact source_of_mem hb
      have hother : ∀ c : TSNode, c.typeIn ["identifier", "namespace_import", "named_imports"] = false →
          (clauseImports filePath d.source.written c).map ImportRow.entry = [] := by
        intro c hc
        simp only [TSNode.typeIn, any_cons, any_nil, Bool.or_eq_false_iff, decide_eq_false_iff_not] at hc
        obtain ⟨hidentifier, hnamespace, hnamed, -⟩ := hc
        rw [clauseImports, if_neg hnamed, if_neg hnamespace, if_neg hidentifier]
        rfl
      rw [hone, hsome, if_neg (by simp), if_neg (by simp), Option.getD_some, left_importAtoms hsources]
      by_cases hempty : d.source.written = []
      · rw [hempty, if_pos rfl]
        rfl
      · rw [truthy_some hempty, if_neg hempty, map_flatMap]
        change (c.children.flatMap (clauseImports filePath d.source.written)).map ImportRow.entry = _
        rw [map_flatMap, ← flatMap_filter_eq hother]
        exact flatMap_of_forall₂ hclause fun part c hpart => clauseImports_eq hpart

end Imports

/-! ## Exports -/

section Exports

variable {filePath : Text}

/-- What of a specifier is recorded. -/
def Ecmascript.Specifier.recorded (typeOnly : Bool) (source : Option Spelling) (s : Specifier) : Option ExportRecord :=
  (s.exportBinding typeOnly source).bind ExportBinding.recorded

theorem bound_text {type : String} {spec nameNode : TSNode} (h : IsSpecifier type s spec)
    (hname : spec.childForFieldName "name".toList = some nameNode) :
    ((spec.childForFieldName "alias".toList).getD nameNode).text = s.bound.written := by
  have hnameText := h.name
  have halias := h.alias_
  rw [FieldText, hname] at hnameText
  rw [FieldText] at halias
  rw [Specifier.bound]
  cases hs : s.alias_ with
  | none =>
    rw [hs, Option.map_none, Option.map_eq_none_iff] at halias
    rw [halias]
    exact Option.some.inj hnameText
  | some a =>
    rw [hs, Option.map_some] at halias
    obtain ⟨aliasNode, haliasNode, haliasText⟩ := Option.map_eq_some_iff.mp halias
    rw [haliasNode]
    exact haliasText

/-- A type is exported as `default` where `default` is written. -/
theorem typeOnlyDefault_eq {type : String} {source : Option Spelling} {spec nameNode : TSNode}
    (h : IsSpecifier type s spec) (hname : spec.childForFieldName "name".toList = some nameNode) :
    (typeOnlyDefault filePath (source.map Spelling.written) nameNode (spec.childForFieldName "alias".toList)).map
        ExportRow.record =
      (if s.bound.value = "default".toList then some (.typeOnlyDefault s.name s.bound source) else none).bind
        ExportBinding.recorded := by
  have hnameText : nameNode.text = s.name.written := by
    have hfield := h.name
    rw [FieldText, hname] at hfield
    exact Option.some.inj hfield
  rw [typeOnlyDefault, bound_text h hname]
  by_cases hwritten : s.bound.written = "default".toList
  · have hplain : s.bound.Plain := Spelling.plain_of_unmarked (by rw [hwritten]; decide)
    have hvalue : s.bound.value = "default".toList := hplain ▸ hwritten
    rw [if_pos hwritten, if_pos hvalue, Option.bind_some, ExportBinding.recorded, if_pos hwritten, hnameText]
    rfl
  · rw [if_neg hwritten]
    split
    · exact (if_neg hwritten).symm
    · rfl

theorem typeSpecifier_eq {source : Option Spelling} {spec : TSNode} (h : IsSpecifier "export_specifier" s spec) :
    (typeSpecifier filePath (source.map Spelling.written) spec).map ExportRow.record = s.recorded true source := by
  obtain ⟨nameNode, hname, -⟩ := Option.map_eq_some_iff.mp h.name
  rw [typeSpecifier, h.type, if_neg (by simp), hname]
  exact typeOnlyDefault_eq h hname

theorem exportSpecifier_eq {source : Option Spelling} {spec : TSNode} (h : IsSpecifier "export_specifier" s spec) :
    (exportSpecifier filePath (source.map Spelling.written) spec).map ExportRow.record = s.recorded false source := by
  have htype : hasChild spec "type".toList = s.typeOnly := hasChild_eq h.typeOnly
  obtain ⟨nameNode, hname, hnameText⟩ := Option.map_eq_some_iff.mp h.name
  have hbound := bound_text h hname
  rw [exportSpecifier, h.type, if_neg (by simp), hname, Option.bind_some]
  dsimp only
  rw [htype, hbound, hnameText, Specifier.recorded]
  unfold Specifier.exportBinding
  cases s.typeOnly with
  | true => exact typeOnlyDefault_eq h hname
  | false =>
    simp only [Bool.or_self, Bool.false_eq_true, if_false]
    cases source with
    | none => cases spec.childForFieldName "alias".toList <;> rfl
    | some source =>
      simp only [Option.map_some, Option.bind_some, ExportBinding.recorded]
      by_cases hempty : source.written = []
      · rw [if_pos hempty, hempty]
        cases spec.childForFieldName "alias".toList <;> rfl
      · rw [if_neg hempty, truthy_some hempty]
        cases spec.childForFieldName "alias".toList <;> rfl

theorem specifiers_eq {clause : Option (List Specifier)} {F : TSNode → Option ExportRow}
    {f : Specifier → Option ExportRecord}
    (h : List.Forall₂ IsExportClause clause.toList (exp.childrenIn ["export_clause"]))
    (hother : ∀ spec, spec.type ≠ "export_specifier".toList → F spec = none)
    (heq : ∀ s spec, IsSpecifier "export_specifier" s spec → (F spec).map ExportRow.record = f s) :
    ((((lastChild exp "export_clause".toList).map TSNode.children).getD []).filterMap F).map ExportRow.record =
      (clause.getD []).filterMap f := by
  rw [lastChild, ← childrenIn_singleton]
  rcases part_cases h with ⟨rfl, hnil⟩ | ⟨specifiers, c, rfl, hone, hclause⟩
  · rw [hnil]
    rfl
  · have hnone : ∀ spec : TSNode, decide (spec.type = "export_specifier".toList) = false → (F spec).toList = [] := by
      intro spec hspec
      rw [hother spec (of_decide_eq_false hspec)]
      rfl
    rw [IsExportClause, childrenIn_singleton] at hclause
    rw [hone]
    change (c.children.filterMap F).map ExportRow.record = specifiers.filterMap f
    rw [filterMap_eq_flatMap_toList, ← flatMap_filter_eq hnone, ← filterMap_eq_flatMap_toList,
      map_filterMap]
    exact filterMap_of_forall₂ hclause heq

/-- A star stands alone; the one of `* as` has more behind it. -/
theorem isStar_eq {p : ExportParts} (h : HasParts p exp) : exp.children.any isStarChild = p.star := by
  have hstar := h.star
  rw [childrenIn_singleton] at hstar
  rw [Bool.eq_iff_iff, any_eq_true]
  constructor
  · rintro ⟨c, hc, hstarChild⟩
    rw [isStarChild, Bool.and_eq_true, Bool.or_eq_true, decide_eq_true_iff, decide_eq_true_iff,
      decide_eq_true_iff] at hstarChild
    obtain ⟨htype | htype, htext⟩ := hstarChild
    · have hmem : c ∈ exp.childrenIn ["namespace_export"] := by
        rw [childrenIn_singleton]
        exact mem_filter.mpr ⟨hc, decide_eq_true htype⟩
      rcases part_cases h.namespace_ with ⟨-, hnil⟩ | ⟨name, c', -, hone, between, hbetween, hnamed⟩
      · rw [hnil] at hmem
        cases hmem
      · rw [hone] at hmem
        obtain rfl := mem_singleton.mp hmem
        rw [htext] at hnamed
        have hempty := (List.cons.inj hnamed).2.symm
        exact absurd (append_eq_nil_iff.mp hempty).1 hbetween
    · have hmem : c.text ∈ (exp.children.filter fun c => c.type = "*".toList).map TSNode.text :=
        mem_map_of_mem (mem_filter.mpr ⟨hc, decide_eq_true htype⟩)
      rw [hstar] at hmem
      split at hmem
      · assumption
      · cases hmem
  · intro hp
    rw [if_pos hp] at hstar
    obtain ⟨c, hone, htext⟩ := map_eq_singleton_iff.mp hstar
    have hmem : c ∈ exp.children.filter fun c => c.type = "*".toList := by
      rw [hone]
      exact mem_singleton_self c
    obtain ⟨hc, htype⟩ := mem_filter.mp hmem
    refine ⟨c, hc, ?_⟩
    rw [isStarChild, htext, of_decide_eq_true htype]
    rfl

/-- What is read off an export statement, but for a declaration in it. -/
theorem exportsOf_parts {p : ExportParts} (h : HasParts p exp) : (exportsOf filePath exp).map ExportRow.record =
      if p.typeOnly then if p.star then [] else (p.clause.getD []).filterMap (Specifier.recorded true p.source)
      else if p.star then (p.source.bind fun source => (ExportBinding.star source).recorded).toList
      else (p.clause.getD []).filterMap (Specifier.recorded false p.source) := by
  have htype : hasChild exp "type".toList = p.typeOnly := hasChild_eq h.typeOnly
  have hdefault : hasChild exp "default".toList = false := hasChild_false h.default
  rw [exportsOf, htype, hdefault, isStar_eq h, sourceModuleOf_eq h.source]
  cases p.typeOnly with
  | true =>
    rw [if_pos rfl, if_pos rfl]
    cases p.star with
    | true => rfl
    | false =>
      refine specifiers_eq h.clause (fun spec hspec => ?_) fun s spec hspec => typeSpecifier_eq hspec
      rw [typeSpecifier, if_pos hspec]
  | false =>
    simp only [Bool.false_eq_true, if_false]
    cases p.star with
    | true =>
      rw [if_pos rfl, if_pos rfl]
      cases p.source with
      | none => rfl
      | some source =>
        rw [Option.map_some, Option.bind_some, ExportBinding.recorded]
        by_cases hempty : source.written = []
        · rw [hempty]
          rfl
        · rw [truthy_some hempty, if_neg hempty]
          rfl
    | false =>
      refine specifiers_eq h.clause (fun spec hspec => ?_) fun s spec hspec => exportSpecifier_eq hspec
      rw [exportSpecifier, if_pos hspec]

/-- What is read off a child of an export statement. -/
def declaredIn (filePath : Text) (exp c : TSNode) : Option ExportRow :=
  if c.type ∈ exportDeclTypes ∧ hasChild exp "default".toList = false then
    (exportedDeclName c).map fun declName => ⟨filePath, declName, some declName, none, none, .local_named⟩
  else none

/-- The row of a name. -/
theorem declaredIn_eq {exp c : TSNode} {t : Text} (htype : c.type ∈ exportDeclTypes)
    (hdefault : hasChild exp "default".toList = false) (hname : exportedDeclName c = some t) :
    (declaredIn filePath exp c).map ExportRow.record = some (.entry ⟨some t, none, none, some t⟩) := by
  rw [declaredIn, if_pos ⟨htype, hdefault⟩, hname]
  rfl

/-- The name of a function or class. -/
theorem exportedDeclName_named {c : TSNode} {name : Identifier}
    (htype : c.type ∉ ["lexical_declaration".toList, "variable_declaration".toList])
    (hname : FieldText c "name" (some name)) : exportedDeclName c = some name.1.written := by
  rw [exportedDeclName, if_neg htype]
  change truthy ((c.childForFieldName "name".toList).map TSNode.text) = _
  rw [hname]
  exact truthy_some name.2.written_ne_nil

/-- The text of the first declarator. -/
theorem exportedDeclName_first {c first n : TSNode} {rest : List TSNode}
    (htype : c.type ∈ ["lexical_declaration".toList, "variable_declaration".toList])
    (hdeclarators : c.childrenIn ["variable_declarator"] = first :: rest)
    (hname : first.childForFieldName "name".toList = some n) (hne : n.text ≠ []) : exportedDeclName c = some n.text := by
  have hfind : (c.children.find? fun c => c.type = "variable_declarator".toList) = some first := by
    rw [← head?_filter, ← childrenIn_singleton, hdeclarators]
    rfl
  rw [exportedDeclName, if_pos htype, hfind, Option.bind_some, hname]
  exact truthy_some hne

theorem left_missing (names : List Identifier) : left (names.map missing) = [] := by
  rw [left, filterMap_map]
  exact filterMap_eq_nil_iff.mpr fun name _ => rfl

/-- What is read off a function or class. -/
theorem named_eq {exp c : TSNode} {type : String} {name : Identifier}
    (h : c.type = type.toList ∧ FieldText c "name" (some name)) (hexported : type.toList ∈ exportDeclTypes)
    (hvariables : type.toList ∉ ["lexical_declaration".toList, "variable_declaration".toList])
    (hdefault : hasChild exp "default".toList = false) :
    ((declaredIn filePath exp c).map ExportRow.record).toList = left [(ExportBinding.declared name).atom] := by
  obtain ⟨htype, hname⟩ := h
  have hdecl := exportedDeclName_named (htype ▸ hvariables) hname
  rw [declaredIn_eq (htype ▸ hexported) hdefault hdecl]
  rfl

/-- What is read off a declaration. -/
theorem declaration_eq {d : ExportedDeclaration} {exp c : TSNode} (h : IsDeclaration d c)
    (hdefault : hasChild exp "default".toList = false) :
    ((declaredIn filePath exp c).map ExportRow.record).toList = left d.atoms := by
  cases d with
  | function_ name => exact named_eq h (by decide) (by decide) hdefault
  | generator name => exact named_eq h (by decide) (by decide) hdefault
  | class_ name => exact named_eq h (by decide) (by decide) hdefault
  | abstractClass name =>
    obtain ⟨htype, -⟩ := h
    rw [declaredIn, if_neg (fun hc => absurd hc.1 (by rw [htype]; decide))]
    rfl
  | variable_ declarators =>
    obtain ⟨htype, hdeclarators⟩ := h
    have hpair : c.type ∈ ["lexical_declaration".toList, "variable_declaration".toList] := typeIn_iff.mp htype
    have hkinds : ∀ t ∈ ["lexical_declaration".toList, "variable_declaration".toList], t ∈ exportDeclTypes := by decide
    have hexported := hkinds _ hpair
    cases declarators with
    | nil =>
      have hnone : (c.children.find? fun c => c.type = "variable_declarator".toList) = none := by
        rw [← head?_filter, ← childrenIn_singleton, forall₂_nil_left_iff.mp hdeclarators]
        rfl
      rw [declaredIn, if_pos ⟨hexported, hdefault⟩, exportedDeclName, if_pos hpair, hnone]
      rfl
    | cons declarator rest =>
      obtain ⟨first, others, hfirst, -, hcons⟩ := forall₂_cons_left_iff.mp hdeclarators
      cases declarator with
      | identifier name =>
        obtain ⟨n, hname, -, htext⟩ := hfirst
        have hdecl := exportedDeclName_first hpair hcons hname (htext ▸ name.2.written_ne_nil)
        rw [declaredIn_eq hexported hdefault hdecl, htext]
        exact congrArg _ (left_missing (rest.flatMap Declarator.names)).symm
      | pattern p =>
        obtain ⟨n, hname, -, htext, -⟩ := hfirst
        have hne : p.written ≠ [] := by
          obtain ⟨c, t, hwritten, -⟩ := p.opened
          exact hwritten ▸ cons_ne_nil c t
        have hdecl := exportedDeclName_first hpair hcons hname (htext ▸ hne)
        rw [declaredIn_eq hexported hdefault hdecl, htext]
        exact congrArg _ (left_missing (p.names ++ rest.flatMap Declarator.names)).symm

/-- What is read off the children of an export statement. -/
theorem declared_parts {p : ExportParts} (h : HasParts p exp) :
    (exp.children.filterMap (declaredIn filePath exp)).map ExportRow.record =
      left (p.declaration.toList.flatMap ExportedDeclaration.atoms) := by
  have hdefault : hasChild exp "default".toList = false := hasChild_false h.default
  have hother : ∀ c : TSNode, c.typeIn declarationTypes = false →
      ((declaredIn filePath exp c).map ExportRow.record).toList = [] := by
    intro c hc
    have hkinds : ∀ t ∈ exportDeclTypes, t ∈ declarationTypes.map String.toList := by decide
    have htype : c.type ∉ exportDeclTypes := by
      intro hmem
      rw [typeIn_iff.mpr (hkinds _ hmem)] at hc
      cases hc
    rw [declaredIn, if_neg fun hboth => htype hboth.1]
    rfl
  rw [left_flatMap, map_filterMap, filterMap_eq_flatMap_toList, ← flatMap_filter_eq hother]
  exact flatMap_of_forall₂ h.declaration fun d c hd => declaration_eq hd hdefault

/-- What is read off an export statement. -/
theorem exportItem_eq {e : ExportItem} (h : IsExport e exp) :
    (exportsOf filePath exp ++ exp.children.filterMap (declaredIn filePath exp)).map ExportRow.record =
      left e.atoms := by
  rw [map_append]
  cases e with
  | default kind =>
    have htype : hasChild exp "type".toList = false := hasChild_false h.typeOnly
    have hdefault : hasChild exp "default".toList = true := hasChild_eq (iff_of_true h.default rfl)
    have hnone : exp.children.filterMap (declaredIn filePath exp) = [] := by
      refine filterMap_eq_nil_iff.mpr fun c _ => ?_
      rw [declaredIn, hdefault, if_neg (by simp)]
    rw [hnone, exportsOf, htype, hdefault]
    rfl
  | star typeOnly source =>
    rw [exportsOf_parts h, declared_parts h]
    cases typeOnly with
    | true => rfl
    | false => exact (append_nil _).trans (left_singleton (ExportBinding.star source).atom).symm
  | namespace_ typeOnly name source =>
    rw [exportsOf_parts h, declared_parts h]
    cases typeOnly <;> rfl
  | clause c =>
    have hleft : left (ExportItem.clause c).atoms = c.specifiers.filterMap (Specifier.recorded c.typeOnly c.source) := by
      rw [left, ExportItem.atoms, ExportItem.bindings, filterMap_map, filterMap_filterMap]
      · rfl
      · exact fun d hd => by cases hd
    rw [exportsOf_parts h, declared_parts h, hleft]
    cases htypeOnly : c.typeOnly <;> simp [ExportItem.parts, ExportParts.empty, htypeOnly, left]
  | declaration d =>
    rw [exportsOf_parts h, declared_parts h, left_flatMap]
    exact flatMap_singleton ..
  | typeDeclaration =>
    rw [exportsOf_parts h, declared_parts h]
    rfl

end Exports

/-! ## The module -/

section Module

variable {m : ModuleItems} {tree : SyntaxTree}

theorem extractImports_eq (h : IsModule m tree) (filePath : Text) :
    (extractImports tree filePath).map ImportRow.entry = left m.importAtoms := by
  rw [extractImports, map_flatMap, ModuleItems.importAtoms, map_flatMap, left_flatMap]
  exact flatMap_of_forall₂ h.imports fun d x hx => importsOf_eq hx

/-- The declarations in export statements are found as their children. -/
theorem declaredExports_perm (tree : SyntaxTree) (filePath : Text) :
    ((tree.descendantsOfType exportDeclTypes).filterMap (declaredExport filePath)).Perm
      ((tree.descendantsOfType exportTypes).flatMap fun x => x.node.children.filterMap (declaredIn filePath x.node)) := by
  let f (p c : TSNode) : List ExportRow :=
    if p.type = "export_statement".toList then (declaredIn filePath p c).toList else []
  have hparent : (tree.descendantsOfType exportDeclTypes).filterMap (declaredExport filePath) =
      tree.places.flatMap (withParent f) := by
    rw [SyntaxTree.descendantsOfType, filterMap_filter, filterMap_eq_flatMap_toList]
    refine flatMap_congr fun x _ => ?_
    rw [declaredExport, withParent]
    cases x.parents with
    | nil => split <;> rfl
    | cons p ps =>
      dsimp only [f, declaredIn]
      by_cases hexport : p.type = "export_statement".toList
      · by_cases htype : x.node.type ∈ exportDeclTypes
        · cases hasChild p "default".toList <;> simp only [hexport, htype, ne_eq, not_true_eq_false, Bool.false_eq_true,
            decide_true, or_self, or_true, if_true, if_false, and_self, and_false, reduceCtorEq]
        · simp only [hexport, htype, decide_false, Bool.false_eq_true, false_and, if_true, if_false]
      · simp only [hexport, ne_eq, not_false_eq_true, true_or, if_true, if_false, ite_self, Option.toList_none]
  have hchildren : tree.places.flatMap (withChildren f) =
      (tree.descendantsOfType exportTypes).flatMap fun x => x.node.children.filterMap (declaredIn filePath x.node) := by
    have hother : ∀ x : Place, decide (x.node.type ∈ exportTypes) = false → withChildren f x = [] := by
      intro x hx
      have htype : x.node.type ≠ "export_statement".toList := fun heq => by
        rw [heq] at hx
        cases hx
      exact flatMap_eq_nil_iff.mpr fun c _ => if_neg htype
    rw [← flatMap_filter_eq hother]
    refine flatMap_congr fun x hx => ?_
    have htype : x.node.type = "export_statement".toList :=
      mem_singleton.mp (of_decide_eq_true (mem_filter.mp hx).2)
    rw [filterMap_eq_flatMap_toList]
    exact flatMap_congr fun c _ => if_pos htype
  rw [hparent, ← hchildren]
  exact flatMap_places_perm f tree

theorem extractExports_perm (h : IsModule m tree) (filePath : Text) :
    ((extractExports tree filePath).map ExportRow.record).Perm (left m.exportAtoms) := by
  have hstatements : ((tree.descendantsOfType exportTypes).flatMap fun x =>
      exportsOf filePath x.node ++ x.node.children.filterMap (declaredIn filePath x.node)).map ExportRow.record =
        left m.exportAtoms := by
    rw [map_flatMap, ModuleItems.exportAtoms, left_flatMap]
    exact flatMap_of_forall₂ h.exports fun e x hx => exportItem_eq hx
  rw [← hstatements, extractExports]
  refine List.Perm.map _ ?_
  exact ((declaredExports_perm tree filePath).append_left _).trans (flatMap_append_perm _ _ _)

/-- The default exports that are counted: those of types are not, those of signatures are. -/
def Ecmascript.ExportItem.isCounted : ExportItem → Bool
  | .default .value => true
  | .default .signature => true
  | _ => false

theorem isRuntimeDefault_eq {e : ExportItem} (h : IsExport e exp) : FastWalker.isRuntimeDefault exp = e.isCounted := by
  rw [FastWalker.isRuntimeDefault]
  cases e with
  | default kind =>
    have hdefault : hasChild exp "default".toList = true := hasChild_eq (iff_of_true h.default rfl)
    have htype : (exp.children.any fun c => decide (c.type ∈ typeOnlyDefaultTypes)) = decide (kind = .type) := by
      rw [Bool.eq_iff_iff, decide_eq_true_iff, ← h.type, any_eq_true, TSNode.childrenIn, Ne,
        filter_eq_nil_iff]
      push Not
      exact exists_congr fun c => and_congr_right fun _ => decide_eq_true_iff.trans typeIn_iff.symm
    rw [hdefault, htype]
    cases kind <;> rfl
  | _ =>
    rw [hasChild_false (HasParts.default h)]
    rfl

theorem countP_of_forall₂ {α β : Type} {R : α → β → Prop} {as : List α} {bs : List β} {p : α → Bool} {q : β → Bool}
    (h : List.Forall₂ R as bs) (heq : ∀ a b, R a b → q b = p a) : bs.countP q = as.countP p := by
  induction h with
  | nil => rfl
  | cons hr _ ih => rw [countP_cons, countP_cons, ih, heq _ _ hr]

/-- The count is right if no signature is a default export. -/
theorem defaultExportCount_iff (h : IsModule m tree) (decls : List Declared) (fileQn : Text) :
    (extractDefaultExport tree decls fileQn).2 = m.runtimeDefaults ↔ ExportItem.default .signature ∉ m.exports := by
  have hcount : (extractDefaultExport tree decls fileQn).2 = (m.exports.filter ExportItem.isCounted).length := by
    rw [← countP_eq_length_filter, ← countP_of_forall₂ h.exports fun e x hx => isRuntimeDefault_eq hx]
    exact countP_eq_length_filter.symm
  have hruntime : m.runtimeDefaults =
      ((m.exports.filter ExportItem.isCounted).filter ModuleItems.isRuntimeDefault).length := by
    rw [ModuleItems.runtimeDefaults, filter_filter]
    refine congrArg List.length (filter_congr fun e _ => ?_)
    cases e with
    | default kind => cases kind <;> rfl
    | _ => rfl
  rw [hcount, hruntime, eq_comm, length_filter_eq_length_iff]
  constructor
  · intro hall hmem
    cases hall _ (mem_filter.mpr ⟨hmem, rfl⟩)
  · intro hnone e he
    obtain ⟨hmem, hcounted⟩ := mem_filter.mp he
    cases e with
    | default kind =>
      cases kind with
      | value => rfl
      | type => cases hcounted
      | signature => exact absurd hmem hnone
    | _ => cases hcounted

/-- **The records of a module are exact exactly if its forms are supported.** -/
theorem recordsExact_iff (h : IsModule m tree) (relPath fileQn : Text) (sourceLength : ℕ) :
    RecordsExact m (extractFast tree relPath fileQn sourceLength) ↔ m.Supported := by
  have himports : ((extractFast tree relPath fileQn sourceLength).imports.map ImportRow.entry).Perm m.importEntries ↔
      ∀ d ∈ m.imports, ∀ b ∈ d.bindings, b.Supported := by
    rw [← ModuleItems.imports_perm_iff, ← extractImports_eq h relPath]
    rfl
  have hexports : ((extractFast tree relPath fileQn sourceLength).exports.map ExportRow.record).Perm m.exportRecords ↔
      ∀ e ∈ m.exports, e.Supported := by
    have hperm := extractExports_perm h relPath
    rw [← ModuleItems.exports_perm_iff]
    exact ⟨hperm.symm.trans, hperm.trans⟩
  have hdefaults := defaultExportCount_iff h (extractDecls tree fileQn).decls fileQn
  constructor
  · intro hexact
    exact ⟨himports.mp hexact.imports, hexports.mp hexact.exports, hdefaults.mp hexact.defaultExportCount⟩
  · intro hsupported
    exact ⟨himports.mpr hsupported.imports, hexports.mpr hsupported.exports, hdefaults.mpr hsupported.defaults⟩

end Module

/-! ### `export const a = 1, b = 2` -/

def letter (c : Char) (h : c ≠ '\x7b' ∧ c ≠ '[') : Identifier := ⟨.itself [c], c, [], rfl, h⟩

def constantA : TSNode :=
  .inner 20 "variable_declarator" "a = 1"
    [.inField "name" (.leaf 21 "identifier" "a"), .leaf 22 "=" "=", .inField "value" (.leaf 23 "number" "1")]

def constantB : TSNode :=
  .inner 30 "variable_declarator" "b = 2"
    [.inField "name" (.leaf 31 "identifier" "b"), .leaf 32 "=" "=", .inField "value" (.leaf 33 "number" "2")]

def constExport (text : String) (declarators : List TSNode) : TSNode :=
  .inner 10 "export_statement" ("export " ++ text)
    [.leaf 11 "export" "export", .inField "declaration"
      (.inner 12 "lexical_declaration" text (.inField "kind" (.leaf 13 "const" "const") :: declarators))]

theorem isExport_const {text : String} {declarators : List Declarator} {nodes : List TSNode}
    (h : List.Forall₂ IsDeclarator declarators (nodes.filter fun c => c.typeIn ["variable_declarator"])) :
    IsExport (.declaration (.variable_ declarators)) (constExport text nodes) where
  default := rfl
  typeOnly := iff_of_false (not_not.mpr rfl) Bool.false_ne_true
  star := rfl
  namespace_ := .nil
  clause := .nil
  source := .nil
  declaration := .cons ⟨rfl, h⟩ .nil
  typeDeclaration := iff_of_false (not_not.mpr rfl) Bool.false_ne_true

theorem isDeclarator_a : IsDeclarator (.identifier (letter 'a' (by decide))) constantA := ⟨_, rfl, rfl, rfl⟩

def twoConstants : SyntaxTree :=
  ⟨.inner 0 "program" "export const a = 1, b = 2"
    [constExport "const a = 1, b = 2" [constantA, .leaf 40 "," ",", constantB]], by decide⟩

def twoNames : ModuleItems where
  imports := []
  exports := [.declaration (.variable_ [.identifier (letter 'a' (by decide)), .identifier (letter 'b' (by decide))])]

theorem isModule_twoConstants : IsModule twoNames twoConstants where
  imports := .nil
  exports := .cons (isExport_const (.cons isDeclarator_a (.cons ⟨_, rfl, rfl, rfl⟩ .nil))) .nil
  topLevel := by
    intro x hx
    obtain rfl := mem_singleton.mp (show x ∈ [_] from hx)
    rfl

/-- The second name is not recorded. -/
theorem second_missed : ¬∀ (m : ModuleItems) (tree : SyntaxTree) (relPath fileQn : Text) (sourceLength : ℕ),
    IsModule m tree → RecordsExact m (extractFast tree relPath fileQn sourceLength) := by
  intro h
  have hexports := (h twoNames twoConstants ['f', '.', 't', 's'] ['f'] 25 isModule_twoConstants).exports
  exact absurd hexports.length_eq (by decide)

def importDefault : TSNode :=
  .inner 50 "import_statement" "import c from './x'"
    [.leaf 51 "import" "import", .inner 52 "import_clause" "c" [.leaf 53 "identifier" "c"], .leaf 54 "from" "from",
      .inField "source" (.inner 55 "string" "'./x'" [.leaf 56 "string_fragment" "./x"])]

def importAndConstant : SyntaxTree :=
  ⟨.inner 0 "program" "import c from './x'\nexport const a = 1" [importDefault, constExport "const a = 1" [constantA]],
    by decide⟩

def importAndName : ModuleItems where
  imports := [⟨false, some [.default (letter 'c' (by decide))], .itself "./x".toList⟩]
  exports := [.declaration (.variable_ [.identifier (letter 'a' (by decide))])]

theorem isModule_importAndConstant : IsModule importAndName importAndConstant where
  imports := .cons
    { typeOnly := iff_of_false (not_not.mpr rfl) (by decide)
      clause := .cons (.cons ⟨rfl, rfl⟩ .nil) .nil
      source := .cons ⟨'\'', by decide, rfl⟩ .nil } .nil
  exports := .cons (isExport_const (.cons isDeclarator_a .nil)) .nil
  topLevel := by
    intro x hx
    rcases mem_pair.mp (show x ∈ [_, _] from hx) with rfl | rfl <;> rfl

theorem importAndConstant_exact :
    RecordsExact importAndName (extractFast importAndConstant ['f', '.', 't', 's'] ['f'] 38) := by
  refine (recordsExact_iff isModule_importAndConstant ['f', '.', 't', 's'] ['f'] 38).mpr ⟨?_, ?_, by simp [importAndName]⟩
  · intro d hd b hb
    obtain rfl := mem_singleton.mp hd
    obtain rfl := mem_singleton.mp (show b ∈ [_] from hb)
    exact ⟨⟨rfl, by decide⟩, trivial, rfl⟩
  · intro e he
    obtain rfl := mem_singleton.mp he
    exact ⟨rfl, fun d hd => absurd hd not_mem_nil⟩

end Ariad
