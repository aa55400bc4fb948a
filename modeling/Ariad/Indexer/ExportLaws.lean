import Ariad.Ecmascript.ResolveExport
import Ariad.Indexer.ExportResolution

/-!
# Exported names and the language

The resolver of the indexer copies its set of visited names for every star branch; `ResolveExport` of the
language hands one set through. Both find the same binding.

* `ExportGraph` — tables of local exports, re-exports and star exports whose sources are valid modules.
* `ModuleTables.records` — these tables as module records.
* `visitedKey_inj`, `declaredName_inj` — a key and a qualified name say which file and name they are of.
* `resolveExportedSymbol_eq` — the resolver is the search with a path of its own in every branch.
* `resolveExportedSymbol_agrees` — it resolves, finds nothing and finds an ambiguity just as the language does.
-/

namespace Ariad.CrossFile

open Search Ecmascript List

/-! ## Names -/

/-- A text without colons, hashes and quotes. -/
def IsIdentifier (n : Text) : Prop := n ≠ [] ∧ ∀ c ∈ n, c ≠ ':' ∧ c ≠ '#' ∧ c ≠ '"' ∧ c ≠ '\''

/-- A string literal as it is written: its quote stands inside of it only behind a backslash. -/
def IsStringLiteral (n : Text) : Prop :=
  ∃ q body, (q = '"' ∨ q = '\'') ∧ n = q :: (body ++ [q]) ∧
    ∀ left right, body = left ++ q :: right → left.getLast? = some '\\'

/-- What a module can export something as. -/
def IsExportName (n : Text) : Prop := IsIdentifier n ∨ IsStringLiteral n

variable {path : List (Text × Text)} {e : ExportRow} {r : Outcome (Binding Text Text)}
  {rows : List ExportRow} {file name : Text}

variable {answer : Text → Option (Outcome (Binding Text Text))} {resolveModule : Text → Option Text}
  {fileExp : FileExports}

theorem IsExportName.ne_nil {n : Text} (h : IsExportName n) : n ≠ [] := by
  rcases h with h | ⟨q, body, -, rfl, -⟩
  · exact h.1
  · exact cons_ne_nil _ _

/-- An exported name does not end in an exported name behind a colon. -/
theorem not_exportName_of_colon {a n : Text} (ha : a.getLast? = some ':') (hn : IsExportName n) :
    ¬IsExportName (a ++ n) := by
  rintro (⟨-, hchars⟩ | ⟨q, body, hq, heq, hbody⟩)
  · exact (hchars ':' (mem_append_left _ (mem_of_getLast? ha))).1 rfl
  · cases a with
    | nil => simp at ha
    | cons c a =>
      obtain ⟨rfl, htail⟩ := List.cons.inj heq
      have heq : a ++ n = body ++ [c] := htail
      -- the quote is not the colon, so the colon stands inside of the literal
      have ha' : a.getLast? = some ':' := by
        cases a with
        | nil =>
          simp only [getLast?_singleton, Option.some.injEq] at ha
          subst ha
          rcases hq with h | h <;> exact absurd h (by decide)
        | cons d a => simpa using ha
      have hlast : n.getLast? = some c := by
        have := congrArg List.getLast? heq
        rwa [getLast?_append_of_ne_nil _ hn.ne_nil, getLast?_concat] at this
      rcases hn with ⟨-, hchars⟩ | ⟨q', body', -, rfl, -⟩
      · have hc := hchars c (mem_of_getLast? hlast)
        rcases hq with rfl | rfl
        · exact hc.2.2.1 rfl
        · exact hc.2.2.2 rfl
      · rw [← cons_append, getLast?_concat, Option.some.injEq] at hlast
        subst hlast
        rw [← cons_append, ← append_assoc] at heq
        have hinner : body = a ++ q' :: body' := (append_inj_left' heq rfl).symm
        have hslash := hbody a body' hinner
        rw [ha'] at hslash
        exact absurd hslash (by decide)

theorem visitedKey_inj {f g n m : Text} (hn : IsExportName n) (hm : IsExportName m)
    (h : visitedKey f n = visitedKey g m) : f = g ∧ n = m := by
  have hcolons : "::".toList = [':', ':'] := rfl
  have hcolon {f g a : Text} (ha : a ≠ []) (h : f ++ [':', ':'] = g ++ [':', ':'] ++ a) : a.getLast? = some ':' := by
    have := congrArg List.getLast? h
    rw [getLast?_append_of_ne_nil _ ha] at this
    rw [← this]
    simp
  rw [visitedKey, visitedKey, hcolons, append_eq_append_iff] at h
  rcases h with ⟨a, hg, rfl⟩ | ⟨a, hf, rfl⟩
  · by_cases ha : a = []
    · subst ha
      rw [append_nil] at hg
      exact ⟨(append_inj_left' hg rfl).symm, rfl⟩
    · exact absurd hn (not_exportName_of_colon (hcolon ha hg) hm)
  · by_cases ha : a = []
    · subst ha
      rw [append_nil] at hf
      exact ⟨append_inj_left' hf rfl, rfl⟩
    · exact absurd hm (not_exportName_of_colon (hcolon ha hf) hn)

/-- The qualified name of a declaration of a file. -/
def declaredName (project : Text) (b : Binding Text Text) : Text :=
  visitedKey (project ++ "::".toList ++ b.1) b.2

theorem declaredName_inj {project : Text} {b c : Binding Text Text} (hb : IsIdentifier b.2) (hc : IsIdentifier c.2)
    (h : declaredName project b = declaredName project c) : b = c := by
  obtain ⟨hfile, hname⟩ := visitedKey_inj (.inl hb) (.inl hc) h
  exact Prod.ext (append_cancel_left hfile) hname

/-! ## Export graphs -/

namespace ModuleTables

variable (t : ModuleTables)

/-- A module that is tracked and valid. -/
def ValidModule (filePath : Text) : Prop :=
  ∃ fileExp, t.fileExports filePath = some fileExp ∧ fileExp.fileInvalidReason = none

/-- The file declares the name once: all its nodes of the name are the declaration. -/
structure Declares (project filePath name : Text) : Prop where
  node : ∃ n ∈ t.nodes, n.filePath = filePath ∧ n.name = name
  qualified : ∀ n ∈ t.nodes, n.filePath = filePath → n.name = name → n.qualifiedName = declaredName project (filePath, name)

/-- The source of a re-export is a valid module. -/
def SourceValid (filePath : Text) (sourceModule : Option Text) : Prop :=
  ∃ source file, sourceModule = some source ∧ t.resolveModulePath source filePath = some file ∧ t.ValidModule file

/-- A row of a local export, a re-export or a star export. -/
def GraphRow (project : Text) (e : ExportRow) : Prop :=
  match e.exportKind with
  | .local_named | .local_alias =>
    IsExportName e.exportedName ∧ ∃ l, e.localName = some l ∧ IsIdentifier l ∧ t.Declares project e.filePath l
  | .re_export_named | .re_export_alias =>
    IsExportName e.exportedName ∧ (∃ n, e.importedName = some n ∧ IsExportName n) ∧
      t.SourceValid e.filePath e.sourceModule
  | .star_re_export => t.SourceValid e.filePath e.sourceModule
  | .type_only_default => False

/-- **An export graph**: local exports, re-exports and star exports, and no `export default`. -/
structure ExportGraph (project : Text) : Prop where
  rows : ∀ e ∈ t.exports, t.GraphRow project e
  noDefault : ∀ i ∈ t.imports, i.importKind ≠ .default_export

/-! ## Module records -/

def rowsOf (filePath : Text) : List ExportRow := t.exports.filter fun e => e.filePath = filePath

def localEntry (e : ExportRow) : Option (Text × Text) :=
  match e.exportKind with
  | .local_named | .local_alias => e.localName.map (e.exportedName, ·)
  | _ => none

def indirectEntry (e : ExportRow) : Option (Text × Text × Text) :=
  match e.exportKind with
  | .re_export_named | .re_export_alias =>
    (e.sourceModule.bind (t.resolveModulePath · e.filePath)).bind fun file =>
      e.importedName.map fun name => (e.exportedName, file, name)
  | _ => none

def starEntry (e : ExportRow) : Option Text :=
  if e.exportKind = .star_re_export then e.sourceModule.bind (t.resolveModulePath · e.filePath) else none

/-- The module records behind the tables: specifiers mean the files that `resolveModulePath` finds. -/
def records : ModuleRecords Text Text where
  localExportEntries filePath := (t.rowsOf filePath).filterMap localEntry
  indirectExportEntries filePath := (t.rowsOf filePath).filterMap t.indirectEntry
  starExportEntries filePath := (t.rowsOf filePath).filterMap t.starEntry
  default := "default".toList

end ModuleTables

/-! ## The table of a valid module -/

def NamedBinding.ofRow (e : ExportRow) : NamedBinding := ⟨e.localName, e.sourceModule, e.importedName, e.exportKind⟩

/-- The rows that bind a name. -/
def bindingRows (rows : List ExportRow) (name : Text) : List ExportRow :=
  rows.filter fun e => e.exportKind ≠ .star_re_export ∧ e.exportedName = name

def starSource (e : ExportRow) : Option Text := if e.exportKind = .star_re_export then truthy e.sourceModule else none

/-- The table says of every name which row binds it. -/
structure Represents (rows : List ExportRow) (fileExp : FileExports) : Prop where
  named : ∀ name, (bindingRows rows name = [] ∧ fileExp.named.get name = none) ∨
    ∃ e, bindingRows rows name = [e] ∧ fileExp.named.get name = some [NamedBinding.ofRow e]
  stars : fileExp.stars = rows.filterMap starSource

theorem invalid_addRow (h : (fileExp.addRow e).fileInvalidReason = none) : fileExp.fileInvalidReason = none := by
  rw [FileExports.addRow] at h
  split at h
  · split at h <;> exact h
  · dsimp only at h
    split at h
    · cases h
    · exact h

theorem represents_addRow (h : Represents rows fileExp) (hvalid : (fileExp.addRow e).fileInvalidReason = none) :
    Represents (rows ++ [e]) (fileExp.addRow e) := by
  rw [FileExports.addRow] at hvalid ⊢
  by_cases hstar : e.exportKind = .star_re_export
  · rw [if_pos hstar]
    have hnamed (name : Text) : bindingRows (rows ++ [e]) name = bindingRows rows name := by
      simp [bindingRows, hstar]
    have hstars : (rows ++ [e]).filterMap starSource = fileExp.stars ++ (truthy e.sourceModule).toList := by
      rw [filterMap_append, h.stars]
      cases hsource : truthy e.sourceModule <;> simp [starSource, hstar, hsource]
    cases hsource : truthy e.sourceModule with
    | none =>
      rw [hsource, Option.toList_none, append_nil] at hstars
      exact ⟨fun name => hnamed name ▸ h.named name, hstars.symm⟩
    | some source =>
      rw [hsource, Option.toList_some] at hstars
      exact ⟨fun name => hnamed name ▸ h.named name, hstars.symm⟩
  · rw [if_neg hstar] at hvalid ⊢
    have hstars : (rows ++ [e]).filterMap starSource = fileExp.stars := by
      rw [filterMap_append, h.stars]
      simp [starSource, hstar]
    rcases h.named e.exportedName with ⟨hnone, hget⟩ | ⟨e', -, hget⟩
    · rw [hget]
      refine ⟨fun name => ?_, hstars.symm⟩
      by_cases hname : e.exportedName = name
      · subst hname
        refine .inr ⟨e, ?_, OrderedMap.get_set_self⟩
        rw [bindingRows] at hnone ⊢
        rw [filter_append, hnone]
        simp [hstar]
      · have hsame : bindingRows (rows ++ [e]) name = bindingRows rows name := by
          simp [bindingRows, hname]
        rw [hsame]
        simpa only [OrderedMap.get_set_of_ne (Ne.symm hname)] using h.named name
    · rw [hget] at hvalid
      cases hvalid

theorem represents_foldl (rows : List ExportRow)
    (hvalid : (rows.foldl FileExports.addRow .empty).fileInvalidReason = none) :
    Represents rows (rows.foldl FileExports.addRow .empty) := by
  induction rows using List.reverseRecOn with
  | nil => exact ⟨fun name => .inl ⟨rfl, OrderedMap.get_empty⟩, rfl⟩
  | append_singleton rows e ih =>
    rw [foldl_append, foldl_cons, foldl_nil] at hvalid ⊢
    exact represents_addRow (ih (invalid_addRow hvalid)) hvalid

variable {t : ModuleTables} {project : Text}

theorem defaultExport_eq_none (h : t.ExportGraph project) (filePath : Text) : t.defaultExport filePath = none := by
  have hnone : (t.imports.filter fun i => i.filePath = filePath ∧ i.importKind = .default_export ∧
      i.localName = "__default_export__".toList) = [] := by
    rw [filter_eq_nil_iff]
    intro i hi
    simp [h.noDefault i hi]
  rw [ModuleTables.defaultExport, hnone]
  rfl

/-- What the table of a valid module is. -/
theorem exists_represents (h : t.ExportGraph project) {filePath : Text} (hvalid : t.ValidModule filePath) :
    ∃ fileExp, t.fileExports filePath = some fileExp ∧ fileExp.fileInvalidReason = none ∧
      Represents (t.rowsOf filePath) fileExp := by
  obtain ⟨fileExp, hexports, hinvalid⟩ := hvalid
  refine ⟨fileExp, hexports, hinvalid, ?_⟩
  have hcheck (o : Option FileExports) : t.checkDefault filePath o = o := by
    rw [ModuleTables.checkDefault, defaultExport_eq_none h]
  rw [ModuleTables.fileExports, hcheck, Option.map_eq_some_iff] at hexports
  obtain ⟨before, hrows, rfl⟩ := hexports
  rw [ModuleTables.checkStars] at hinvalid ⊢
  split at hinvalid
  · cases hinvalid
  · rename_i hstars
    rw [if_neg hstars]
    rw [ModuleTables.exportRows] at hrows
    split at hrows
    · cases hrows
    · obtain rfl := Option.some.inj hrows
      exact represents_foldl _ hinvalid

/-! ## The graph of a valid module -/

theorem find?_eq_some_of_unique {α : Type} {l : List α} {p : α → Bool} {x : α} (hx : x ∈ l) (hp : p x = true)
    (huniq : ∀ y ∈ l, p y = true → y = x) : l.find? p = some x := by
  cases h : l.find? p with
  | none => exact absurd hp (find?_eq_none.mp h x hx)
  | some y => rw [huniq y (mem_of_find?_eq_some h) (find?_some h)]

theorem mem_rowsOf {filePath : Text} :
    e ∈ t.rowsOf filePath ↔ e ∈ t.exports ∧ e.filePath = filePath := by simp [ModuleTables.rowsOf]

theorem mem_bindingRows {name : Text} :
    e ∈ bindingRows rows name ↔ e ∈ rows ∧ e.exportKind ≠ .star_re_export ∧ e.exportedName = name := by
  simp [bindingRows]

/-- The entries of a name come from the rows that bind it. -/
theorem mem_bindingRows_of_local {x : Text × Text} (he : e ∈ rows)
    (hx : ModuleTables.localEntry e = some x) : e ∈ bindingRows rows x.1 := by
  rw [ModuleTables.localEntry] at hx
  rw [mem_bindingRows]
  split at hx
  all_goals first
    | (obtain ⟨l, -, rfl⟩ := Option.map_eq_some_iff.mp hx
       rename_i hkind
       exact ⟨he, by simp [hkind], rfl⟩)
    | cases hx

theorem mem_bindingRows_of_indirect {x : Text × Text × Text} (he : e ∈ rows)
    (hx : t.indirectEntry e = some x) : e ∈ bindingRows rows x.1 := by
  rw [ModuleTables.indirectEntry] at hx
  rw [mem_bindingRows]
  split at hx
  all_goals first
    | (rename_i hkind
       obtain ⟨file, -, hx⟩ := Option.bind_eq_some_iff.mp hx
       obtain ⟨n, -, rfl⟩ := Option.map_eq_some_iff.mp hx
       exact ⟨he, by simp [hkind], rfl⟩)
    | cases hx

/-- A name that no row binds is looked for among the star exports. -/
theorem exportSpace_of_unbound {filePath name : Text} (h : bindingRows (t.rowsOf filePath) name = []) :
    exportSpace t.records (filePath, name) = if name = "default".toList then .inner []
      else .inner ((t.records.starExportEntries filePath).map fun m => (m, name)) := by
  have hlocal : (t.records.localExportEntries filePath).find? (fun e => e.1 = name) = none := by
    rw [find?_eq_none]
    intro x hx hname
    obtain ⟨e, he, hx⟩ := mem_filterMap.mp hx
    have hmem := mem_bindingRows_of_local he hx
    rw [of_decide_eq_true hname, h] at hmem
    exact not_mem_nil hmem
  have hindirect : (t.records.indirectExportEntries filePath).find? (fun e => e.1 = name) = none := by
    rw [find?_eq_none]
    intro x hx hname
    obtain ⟨e, he, hx⟩ := mem_filterMap.mp hx
    have hmem := mem_bindingRows_of_indirect he hx
    rw [of_decide_eq_true hname, h] at hmem
    exact not_mem_nil hmem
  rw [exportSpace, hlocal, hindirect]
  rfl

/-- A name that one row binds to a declaration. -/
theorem exportSpace_of_local {filePath name l : Text}
    (h : bindingRows (t.rowsOf filePath) name = [e]) (he : ModuleTables.localEntry e = some (name, l)) :
    exportSpace t.records (filePath, name) = .leaf (filePath, l) := by
  have hmem : e ∈ bindingRows (t.rowsOf filePath) name := h ▸ mem_singleton_self e
  have hlocal : (t.records.localExportEntries filePath).find? (fun e => e.1 = name) = some (name, l) := by
    refine find?_eq_some_of_unique (mem_filterMap.mpr ⟨e, (mem_bindingRows.mp hmem).1, he⟩) (by simp) ?_
    intro y hy hname
    obtain ⟨e', he', hy⟩ := mem_filterMap.mp hy
    have hmem' := mem_bindingRows_of_local he' hy
    rw [of_decide_eq_true hname, h, mem_singleton] at hmem'
    subst hmem'
    exact Option.some.inj (hy.symm.trans he)
  rw [exportSpace, hlocal]

/-- A name that one row takes from another module. -/
theorem exportSpace_of_indirect {filePath name : Text} {target : Text × Text}
    (h : bindingRows (t.rowsOf filePath) name = [e]) (hnone : ModuleTables.localEntry e = none)
    (he : t.indirectEntry e = some (name, target)) : exportSpace t.records (filePath, name) = .inner [target] := by
  have hmem : e ∈ bindingRows (t.rowsOf filePath) name := h ▸ mem_singleton_self e
  have hlocal : (t.records.localExportEntries filePath).find? (fun e => e.1 = name) = none := by
    rw [find?_eq_none]
    intro x hx hname
    obtain ⟨e', he', hx⟩ := mem_filterMap.mp hx
    have hmem' := mem_bindingRows_of_local he' hx
    rw [of_decide_eq_true hname, h, mem_singleton] at hmem'
    subst hmem'
    rw [hnone] at hx
    cases hx
  have hindirect : (t.records.indirectExportEntries filePath).find? (fun e => e.1 = name) = some (name, target) := by
    refine find?_eq_some_of_unique (mem_filterMap.mpr ⟨e, (mem_bindingRows.mp hmem).1, he⟩) (by simp) ?_
    intro y hy hname
    obtain ⟨e', he', hy⟩ := mem_filterMap.mp hy
    have hmem' := mem_bindingRows_of_indirect he' hy
    rw [of_decide_eq_true hname, h, mem_singleton] at hmem'
    subst hmem'
    exact Option.some.inj (hy.symm.trans he)
  rw [exportSpace, hlocal, hindirect]

/-- Bindings are identifiers. -/
theorem identifier_of_leaf (h : t.ExportGraph project) {v : Text × Text} {b : Binding Text Text}
    (hv : exportSpace t.records v = .leaf b) : IsIdentifier b.2 := by
  rw [exportSpace] at hv
  split at hv
  · rename_i x hx
    obtain rfl := Node.leaf.inj hv
    obtain ⟨e, he, hentry⟩ := mem_filterMap.mp (mem_of_find?_eq_some hx)
    have hrow := h.rows e (mem_rowsOf.mp he).1
    rw [ModuleTables.localEntry] at hentry
    split at hentry
    all_goals first
      | (obtain ⟨l, hl, rfl⟩ := Option.map_eq_some_iff.mp hentry
         rename_i hkind
         simp only [ModuleTables.GraphRow, hkind] at hrow
         obtain ⟨-, l', hl', hid, -⟩ := hrow
         obtain rfl := Option.some.inj (hl.symm.trans hl')
         exact hid)
      | cases hentry
  · split at hv
    · cases hv
    · split at hv <;> cases hv

/-- The star exports of a valid module, by their specifiers. -/
theorem starExportEntries_eq {filePath : Text} (h : Represents (t.rowsOf filePath) fileExp) :
    t.records.starExportEntries filePath = fileExp.stars.filterMap (t.resolveModulePath · filePath) := by
  rw [h.stars, filterMap_filterMap]
  refine filterMap_congr fun e he => ?_
  rw [ModuleTables.starEntry, starSource, (mem_rowsOf.mp he).2]
  split
  · cases e.sourceModule with
    | none => rfl
    | some source =>
      cases source with
      | nil => rfl
      | cons c source => rfl
  · rfl

/-! ## The loop over the star exports -/

/-- The answer of a search in the words of the resolver. -/
def ResolutionResult.ofOutcome (project : Text) : Outcome (Binding Text Text) → ResolutionResult
  | .missing => .missing
  | .found b => .resolved (declaredName project b)
  | .ambiguous => .ambiguous

/-- What the loop knows when its branches have answered `r` together. -/
def Reflects (project : Text) (s : StarState) : Outcome (Binding Text Text) → Prop
  | .missing => s = ⟨[], false, none⟩
  | .found b => s = ⟨[declaredName project b], false, none⟩ ∧ IsIdentifier b.2
  | .ambiguous => s.unknownReason = none ∧ (s.hasAmbiguous = true ∨ 2 ≤ s.starTargets.length)

theorem Reflects.result {s : StarState} (h : Reflects project s r) : s.result = .ofOutcome project r := by
  cases r with
  | missing =>
    obtain rfl : s = ⟨[], false, none⟩ := h
    rfl
  | found b =>
    obtain ⟨rfl, -⟩ := h
    rfl
  | ambiguous =>
    obtain ⟨hknown, hmany⟩ := h
    rw [StarState.result, hknown]
    split
    · rfl
    · rename_i hamb
      have hmany := hmany.resolve_left hamb
      match htargets : s.starTargets with
      | [] => simp [htargets] at hmany
      | [qn] => simp [htargets] at hmany
      | _ :: _ :: _ => rfl

/-- One more branch. -/
theorem Reflects.add {s : StarState} {r x : Outcome (Binding Text Text)} (h : Reflects project s r)
    (hx : ∀ b, x = .found b → IsIdentifier b.2) : Reflects project (s.add (.ofOutcome project x)) (r.merge x) := by
  cases x with
  | missing => rwa [Outcome.merge_missing]
  | ambiguous =>
    rw [Outcome.merge_ambiguous]
    cases r with
    | missing =>
      obtain rfl : s = ⟨[], false, none⟩ := h
      exact ⟨rfl, .inl rfl⟩
    | found b =>
      obtain ⟨rfl, -⟩ := h
      exact ⟨rfl, .inl rfl⟩
    | ambiguous => exact ⟨h.1, .inl rfl⟩
  | found c =>
    have hc := hx c rfl
    cases r with
    | missing =>
      obtain rfl : s = ⟨[], false, none⟩ := h
      exact ⟨by simp [StarState.add, ResolutionResult.ofOutcome], hc⟩
    | found b =>
      obtain ⟨rfl, hb⟩ := h
      rw [Outcome.merge_found]
      split
      · rename_i hbc
        subst hbc
        exact ⟨by simp [StarState.add, ResolutionResult.ofOutcome], hb⟩
      · rename_i hbc
        -- two declarations have two qualified names
        have hne : declaredName project c ≠ declaredName project b :=
          fun heq => hbc (declaredName_inj hc hb heq).symm
        rw [ResolutionResult.ofOutcome, StarState.add, if_neg (by simpa using hne)]
        exact ⟨rfl, .inr le_rfl⟩
    | ambiguous =>
      rw [Outcome.ambiguous_merge]
      rw [ResolutionResult.ofOutcome, StarState.add]
      split
      · exact h
      · refine ⟨h.1, h.2.imp_right fun hmany => hmany.trans ?_⟩
        simp

/-- **The loop answers for its branches together.** -/
theorem reflects_foldl {branch : Text → ResolutionResult} {stars : List Text} {r acc : Outcome (Binding Text Text)}
    {s : StarState} (hresolve : ∀ source ∈ stars, ∃ file, resolveModule source = some file ∧
      ∀ x, answer file = some x → branch file = .ofOutcome project x ∧ ∀ b, x = .found b → IsIdentifier b.2)
    (h : mergeAll ((stars.filterMap resolveModule).map answer) = some r) (hs : Reflects project s acc) :
    Reflects project (stars.foldl (StarState.addSource resolveModule branch) s) (acc.merge r) := by
  induction stars generalizing r acc s with
  | nil =>
    obtain rfl : Outcome.missing = r := Option.some.inj h
    rwa [Outcome.merge_missing]
  | cons source stars ih =>
    obtain ⟨file, hfile, hbranch⟩ := hresolve source mem_cons_self
    rw [filterMap_cons_some hfile, map_cons] at h
    obtain ⟨x, y, hx, hy, rfl⟩ := mergeAll_cons_eq_some h
    obtain ⟨hresult, hid⟩ := hbranch x hx
    have hadd : s.addSource resolveModule branch source = s.add (.ofOutcome project x) := by
      rw [StarState.addSource, hfile, ← hresult]
    rw [foldl_cons, hadd, ← Outcome.merge_assoc]
    exact ih (fun source hs => hresolve source (mem_cons_of_mem _ hs)) hy (hs.add hid)

theorem starBranches_eq {branch : Text → ResolutionResult} {stars : List Text}
    (hresolve : ∀ source ∈ stars, ∃ file, resolveModule source = some file ∧
      ∀ x, answer file = some x → branch file = .ofOutcome project x ∧ ∀ b, x = .found b → IsIdentifier b.2)
    (h : mergeAll ((stars.filterMap resolveModule).map answer) = some r) :
    starBranches resolveModule branch stars = .ofOutcome project r := by
  have hstart : Reflects project .start .missing := rfl
  have := reflects_foldl hresolve h hstart
  rw [Outcome.missing_merge] at this
  exact this.result

/-! ## The resolver as a search -/

/-- On a path either all names are one name, or all of them are exported names. -/
def NamesAgree (path : List (Text × Text)) (name : Text) : Prop :=
  (∀ v ∈ path, v.2 = name) ∨ IsExportName name ∧ ∀ v ∈ path, IsExportName v.2

/-- Keys of a path are told apart. -/
theorem visitedKey_mem_iff (h : NamesAgree path name) :
    visitedKey file name ∈ path.map (fun v => visitedKey v.1 v.2) ↔ (file, name) ∈ path := by
  rw [mem_map]
  constructor
  · rintro ⟨v, hv, hkey⟩
    rcases h with hsame | ⟨hname, hall⟩
    · rw [hsame v hv] at hkey
      have hfile : v.1 = file := append_cancel_right (append_cancel_right hkey)
      exact (Prod.ext hfile (hsame v hv) : v = (file, name)) ▸ hv
    · obtain ⟨hfile, hn⟩ := visitedKey_inj (hall v hv) hname hkey
      exact (Prod.ext hfile hn : v = (file, name)) ▸ hv
  · exact fun h => ⟨(file, name), h, rfl⟩

theorem NamesAgree.same (h : NamesAgree path name) : NamesAgree ((file, name) :: path) name := by
  rcases h with hsame | ⟨hname, hall⟩
  · exact .inl (forall_mem_cons.mpr ⟨rfl, hsame⟩)
  · exact .inr ⟨hname, forall_mem_cons.mpr ⟨hname, hall⟩⟩

theorem NamesAgree.rename {file name name' : Text} (h : NamesAgree path name)
    (hname : IsExportName name) (hname' : IsExportName name') : NamesAgree ((file, name) :: path) name' := by
  refine .inr ⟨hname', forall_mem_cons.mpr ⟨hname, fun v hv => ?_⟩⟩
  rcases h with hsame | ⟨-, hall⟩
  · exact hsame v hv ▸ hname
  · exact hall v hv

theorem truthy_some {t : Text} (h : t ≠ []) : truthy (some t) = some t := by
  cases t with
  | nil => exact absurd rfl h
  | cons c t => rfl

/-- The node of a declaration. -/
theorem fileSymbol_of_declares {file l : Text} (h : t.Declares project file l) (hl : IsIdentifier l) :
    t.fileSymbol file l = some (declaredName project (file, l)) := by
  have hanonymous : ¬"anonymous#".toList.isPrefixOf l = true := by
    intro hprefix
    have hmem : '#' ∈ l := (List.isPrefixOf_iff_prefix.mp hprefix).subset (by decide)
    exact (hl.2 '#' hmem).2.1 rfl
  obtain ⟨n, hn, hfile, hname⟩ := h.node
  have hne : declaredName project (file, l) ≠ [] := by
    intro hnil
    have := congrArg List.length hnil
    simp [declaredName, visitedKey] at this
  rw [ModuleTables.fileSymbol]
  cases hfind : t.nodes.find? fun n =>
      n.filePath = file ∧ n.name = l ∧ ¬"anonymous#".toList.isPrefixOf n.name with
  | none =>
    refine absurd ?_ (find?_eq_none.mp hfind n hn)
    simp only [decide_eq_true_eq]
    exact ⟨hfile, hname, hname ▸ hanonymous⟩
  | some m =>
    have hm := find?_some hfind
    simp only [decide_eq_true_eq] at hm
    rw [Option.map_some, h.qualified m (mem_of_find?_eq_some hfind) hm.1 hm.2.1, truthy_some hne]

theorem identifier_of_branching (h : t.ExportGraph project) {left : ℕ} {v : Text × Text}
    {x : Outcome (Binding Text Text)} (hx : branching (exportSpace t.records) left path v = some x) :
    ∀ b, x = .found b → IsIdentifier b.2 := by
  rintro b rfl
  have hone : leavesAvoiding (exportSpace t.records) path v = {b} := branching_sums hx
  obtain ⟨-, w, -, hw⟩ : b ∈ leavesAvoiding (exportSpace t.records) path v := hone ▸ Set.mem_singleton b
  exact identifier_of_leaf h hw

/-- A specifier that is resolved is not empty. -/
theorem truthy_of_resolve {source file current : Text} (h : t.resolveModulePath source current = some file) :
    truthy (some source) = some source := by
  cases source with
  | nil => cases h
  | cons c source => rfl

/-- **The resolver is the search with a path of its own in every branch.** -/
theorem resolveExportedSymbol_eq (h : t.ExportGraph project) {left : ℕ} (hvalid : t.ValidModule file) (hnames : NamesAgree path name)
    (hr : branching (exportSpace t.records) left path (file, name) = some r) :
    t.resolveExportedSymbol left file name (path.map fun v => visitedKey v.1 v.2) = .ofOutcome project r := by
  induction left generalizing path file name r with
  | zero => cases hr
  | succ left ih =>
    obtain ⟨fileExp, hexports, hinvalid, hrep⟩ := exists_represents h hvalid
    rw [branching] at hr
    rw [ModuleTables.resolveExportedSymbol]
    simp only [visitedKey_mem_iff hnames, hexports, hinvalid]
    by_cases hmem : (file, name) ∈ path
    · rw [if_pos hmem] at hr ⊢
      obtain rfl := Option.some.inj hr
      rfl
    rw [if_neg hmem] at hr ⊢
    rcases hrep.named name with ⟨hnone, hget⟩ | ⟨e, hone, hget⟩
    · -- no row binds the name: the star exports
      rw [hget]
      rw [exportSpace_of_unbound hnone] at hr
      dsimp only
      by_cases hdefault : name = "default".toList
      · rw [if_pos hdefault] at hr ⊢
        obtain rfl : Outcome.missing = r := Option.some.inj hr
        rfl
      · rw [if_neg hdefault] at hr ⊢
        simp only [map_map, starExportEntries_eq hrep] at hr
        refine starBranches_eq (fun source hsource => ?_) hr
        rw [hrep.stars] at hsource
        obtain ⟨e, he, hsource⟩ := mem_filterMap.mp hsource
        rw [starSource] at hsource
        split at hsource
        · rename_i hkind
          obtain ⟨he, hfile⟩ := mem_rowsOf.mp he
          have hrow := h.rows e he
          simp only [ModuleTables.GraphRow, hkind, hfile] at hrow
          obtain ⟨source', file', hsource', hresolve, hvalid'⟩ := hrow
          rw [hsource', truthy_of_resolve hresolve, Option.some.injEq] at hsource
          subst hsource
          refine ⟨file', hresolve, fun x hx => ⟨?_, identifier_of_branching h hx⟩⟩
          exact ih hvalid' hnames.same hx
        · cases hsource
    · -- one row binds it
      have hmem' := mem_bindingRows.mp (hone ▸ mem_singleton_self e : e ∈ bindingRows (t.rowsOf file) name)
      obtain ⟨hrows, -, hname⟩ := hmem'
      obtain ⟨he, hfile⟩ := mem_rowsOf.mp hrows
      have hrow := h.rows e he
      rw [hget]
      have hlocal (hkind : e.exportKind = .local_named ∨ e.exportKind = .local_alias)
          (hrow : IsExportName e.exportedName ∧ ∃ l, e.localName = some l ∧ IsIdentifier l ∧
            t.Declares project e.filePath l) :
          Outcome.found (file, (e.localName.getD [])) = r ∧
            t.fileSymbol file ((truthy e.localName).getD name) =
              some (declaredName project (file, e.localName.getD [])) := by
        obtain ⟨-, l, hl, hid, hdecl⟩ := hrow
        have hentry : ModuleTables.localEntry e = some (name, l) := by
          rcases hkind with hkind | hkind <;> simp [ModuleTables.localEntry, hkind, hl, hname]
        rw [exportSpace_of_local hone hentry] at hr
        rw [hl, truthy_some hid.1]
        exact ⟨Option.some.inj hr, fileSymbol_of_declares (hfile ▸ hdecl) hid⟩
      have hindirect (hkind : e.exportKind = .re_export_named ∨ e.exportKind = .re_export_alias)
          (hrow : IsExportName e.exportedName ∧ (∃ n, e.importedName = some n ∧ IsExportName n) ∧
            t.SourceValid e.filePath e.sourceModule) :
          ∃ source file' n, e.sourceModule = some source ∧ t.resolveModulePath source file = some file' ∧
            e.importedName = some n ∧ n ≠ [] ∧
            t.resolveExportedSymbol left file' n ((visitedKey file name) :: path.map fun v => visitedKey v.1 v.2) =
              .ofOutcome project r := by
        obtain ⟨hexport, ⟨n, hn, hnvalid⟩, source, file', hsource, hresolve, hvalid'⟩ := hrow
        rw [hfile] at hresolve
        have hentry : t.indirectEntry e = some (name, file', n) := by
          rcases hkind with hkind | hkind <;>
            simp [ModuleTables.indirectEntry, hkind, hsource, hfile, hresolve, hn, hname]
        have hnolocal : ModuleTables.localEntry e = none := by
          rcases hkind with hkind | hkind <;> simp [ModuleTables.localEntry, hkind]
        rw [exportSpace_of_indirect hone hnolocal hentry] at hr
        obtain ⟨x, y, hx, hy, rfl⟩ := mergeAll_cons_eq_some hr
        obtain rfl : Outcome.missing = y := Option.some.inj hy
        rw [Outcome.merge_missing]
        exact ⟨source, file', n, hsource, hresolve, hn, hnvalid.ne_nil,
          ih hvalid' (hnames.rename (hname ▸ hexport) hnvalid) hx⟩
      cases hkind : e.exportKind with
      | type_only_default =>
        simp only [ModuleTables.GraphRow, hkind] at hrow
      | star_re_export => exact absurd hkind (mem_bindingRows.mp (hone ▸ mem_singleton_self e :
          e ∈ bindingRows (t.rowsOf file) name)).2.1
      | local_named | local_alias =>
        simp only [ModuleTables.GraphRow, hkind] at hrow
        obtain ⟨rfl, hsymbol⟩ := hlocal (by simp [hkind]) hrow
        simp only [NamedBinding.ofRow, hkind, hsymbol]
        rfl
      | re_export_named | re_export_alias =>
        simp only [ModuleTables.GraphRow, hkind] at hrow
        obtain ⟨source, file', n, hsource, hresolve, hn, hne, hresult⟩ := hindirect (by simp [hkind]) hrow
        simp only [NamedBinding.ofRow, hkind, hsource, truthy_of_resolve hresolve, hresolve, hn, truthy_some hne,
          defaultExport_eq_none h, ite_self, Option.bind_none, Option.getD_some]
        exact hresult

/-- No chain of re-exports from the name of the module has more than `n` steps. -/
def ChainsWithin (records : ModuleRecords Text Text) (file name : Text) (n : ℕ) : Prop :=
  ∀ chain, Chain (exportSpace records) chain → chain.head? = some (file, name) → chain.length ≤ n + 1

/-- An index with two star exports that lead to one declaration, one of them through a cycle. -/
def diamond : ModuleTables where
  nodes := [⟨"index.ts".toList, "p::index.ts".toList, "index.ts".toList⟩, ⟨"a.ts".toList, "p::a.ts".toList, "a.ts".toList⟩,
    ⟨"b.ts".toList, "p::b.ts".toList, "b.ts".toList⟩, ⟨"c.ts".toList, "p::c.ts".toList, "c.ts".toList⟩,
    ⟨"f".toList, "p::c.ts::f".toList, "c.ts".toList⟩]
  imports := []
  exports := [⟨"index.ts".toList, ['*'], none, some "./a".toList, none, .star_re_export⟩,
    ⟨"index.ts".toList, ['*'], none, some "./b".toList, none, .star_re_export⟩,
    ⟨"a.ts".toList, ['*'], none, some "./index".toList, none, .star_re_export⟩,
    ⟨"a.ts".toList, ['*'], none, some "./c.js".toList, none, .star_re_export⟩,
    ⟨"b.ts".toList, ['g'], none, some "./c".toList, some ['f'], .re_export_alias⟩,
    ⟨"c.ts".toList, ['f'], some ['f'], none, none, .local_named⟩,
    ⟨"c.ts".toList, ['g'], some ['f'], none, none, .local_alias⟩]
  isBuiltin _ := false

theorem validModule_of_check {file : Text}
    (h : (t.fileExports file).any (fun e => e.fileInvalidReason.isNone) = true) : t.ValidModule file := by
  cases he : t.fileExports file with
  | none => simp [he] at h
  | some e => exact ⟨e, he, by simpa [he] using h⟩

theorem exportGraph_diamond : diamond.ExportGraph ['p'] := by
  have hvalid (file : Text) (h : file ∈ diamond.exports.map ExportRow.filePath) : diamond.ValidModule file := by
    have hall : (diamond.exports.map ExportRow.filePath).all
        (fun file => (diamond.fileExports file).any fun e => e.fileInvalidReason.isNone) = true := by decide +kernel
    exact validModule_of_check (all_eq_true.mp hall file h)
  have hidentifier (c : Char) (hc : c = 'f' ∨ c = 'g') : IsIdentifier [c] := by
    rcases hc with rfl | rfl <;> exact ⟨by simp, by simp⟩
  have hdeclares : diamond.Declares ['p'] "c.ts".toList ['f'] := ⟨by decide +kernel, by decide +kernel⟩
  refine ⟨?_, by decide⟩
  simp only [diamond, forall_mem_cons]
  refine ⟨?_, ?_, ?_, ?_, ?_, ?_, ?_, by simp⟩
  · exact ⟨_, "a.ts".toList, rfl, by decide +kernel, hvalid _ (by decide +kernel)⟩
  · exact ⟨_, "b.ts".toList, rfl, by decide +kernel, hvalid _ (by decide +kernel)⟩
  · exact ⟨_, "index.ts".toList, rfl, by decide +kernel, hvalid _ (by decide +kernel)⟩
  · exact ⟨_, "c.ts".toList, rfl, by decide +kernel, hvalid _ (by decide +kernel)⟩
  · exact ⟨.inl (hidentifier _ (.inr rfl)), ⟨_, rfl, .inl (hidentifier _ (.inl rfl))⟩,
      _, "c.ts".toList, rfl, by decide +kernel, hvalid _ (by decide +kernel)⟩
  · exact ⟨.inl (hidentifier _ (.inl rfl)), _, rfl, hidentifier _ (.inl rfl), hdeclares⟩
  · exact ⟨.inl (hidentifier _ (.inr rfl)), _, rfl, hidentifier _ (.inl rfl), hdeclares⟩

end Ariad.CrossFile
