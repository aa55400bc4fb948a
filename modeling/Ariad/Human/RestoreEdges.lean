import Ariad.Human.RestoreNotes

/-!
# Edges that come back

What the import of a backup makes of its edges. `importEdge` adds a row or not, and it may add to the
ids of the edge's source.

* `HumanNode.Grown` — only ids of code nodes were added to a node.
* `HumanEdge.Copied` — the row that stands for an edge, with its ends renamed.
* `edgesRestored` — what holds after the edges; `edges_return` — when all of them come back.
-/

namespace Ariad.Human

open List

variable {host : Host} {project : Text} {db db' : Db} {now : ℕ} {clock : ℕ → ℕ}

/-! ## One edge -/

/-- Nothing of the nodes changes but their ids of code nodes, and these only grow. -/
structure HumanNode.Grown (r r' : HumanNode) : Prop where
  keys : r'.keys = r.keys
  view : r'.view = { r.view with cbmNodeIds := r'.cbmNodeIds }
  ids : r.cbmNodeIds ⊆ r'.cbmNodeIds

variable {e : HumanEdge}

theorem HumanNode.Grown.refl (r : HumanNode) : r.Grown r := ⟨rfl, rfl, List.Subset.refl _⟩

theorem HumanNode.Grown.trans {r s t : HumanNode} (h : r.Grown s) (h' : s.Grown t) : r.Grown t where
  keys := h'.keys.trans h.keys
  view := by rw [h'.view, h.view]
  ids := List.Subset.trans h.ids h'.ids

theorem HumanNode.grown_addCbmId (x : Num) (r : HumanNode) : r.Grown (r.addCbmId x) where
  keys := by simp [HumanNode.keys]
  view := by
    unfold HumanNode.addCbmId
    split <;> rfl
  ids := fun _ hy => mem_cbmNodeIds_addCbmId.mpr (.inl hy)

theorem forall₂_map_right {α β : Type} {R : α → β → Prop} {f : α → β} {l : List α}
    (h : ∀ a ∈ l, R a (f a)) : List.Forall₂ R l (l.map f) := by
  rw [forall₂_map_right_iff, forall₂_same]
  exact h

theorem withEdge_grown (hw : db.WellFormed) (row : HumanEdge) :
    List.Forall₂ HumanNode.Grown db.nodes (db.withEdge row).nodes := by
  unfold Db.withEdge
  simp only
  split
  · rw [linkCode_nodes]
    · refine forall₂_map_right fun r _ => ?_
      split
      · exact HumanNode.grown_addCbmId _ r
      · exact HumanNode.Grown.refl r
    · exact hw.nodeIds
  · exact forall₂_same.mpr fun r _ => HumanNode.Grown.refl r

/-- The key of an edge with its ends renamed, in another project. -/
def EdgeKey.rename (project : Text) (f : ℕ → ℕ) (k : EdgeKey) : EdgeKey :=
  ⟨project, f k.source, k.target.rename f, k.type⟩

/-- The row that stands for the edge. -/
structure HumanEdge.Copied (project : Text) (f : ℕ → ℕ) (e row : HumanEdge) : Prop where
  key : row.key = e.key.rename project f
  properties : row.properties = e.properties.stored
  confidence : row.confidence = .finite 1
  sourceFile : row.sourceFile = none
  /-- A target in the code has an id that can be written. -/
  finite : ∀ x, e.target = .code x → ∃ q, x = .finite q

@[simp] theorem rename_id (t : EdgeTarget) : t.rename id = t := by
  cases t <;> rfl

theorem copied_view {f : ℕ → ℕ} {e row : HumanEdge} (h : e.Copied project f row)
    (hconf : e.confidence = .finite 1) (hfile : e.sourceFile = none) : row.view id = e.view f := by
  have hk := h.key
  simp only [HumanEdge.key, EdgeKey.rename, EdgeKey.mk.injEq] at hk
  simp [HumanEdge.view, hk.2.1, hk.2.2.1, hk.2.2.2, h.properties, h.confidence, hconf,
    h.sourceFile, hfile]

/-- The renaming `f` is what the import knows of the ends of the edge. -/
structure HumanEdge.Known (newId : ℕ → Option ℕ) (f : ℕ → ℕ) (e : HumanEdge) : Prop where
  source : newId e.source = some (f e.source) ∧ f e.source ≠ 0
  target : ∀ i, e.target = .human i → newId i = some (f i) ∧ f i ≠ 0

/-- The input that the import makes of an edge with known ends. -/
def HumanEdge.restoredInput (project : Text) (f : ℕ → ℕ) (e : HumanEdge) : CreateHumanEdgeInput where
  project := project
  source := f e.source
  targetKind := e.backup.targetKind
  targetCbmNodeId := e.backup.targetCbmNodeId
  targetHumanNodeId := e.backup.targetHumanNodeId.map f
  type := e.type
  properties := some e.properties

theorem backup_input {newId : ℕ → Option ℕ} {f : ℕ → ℕ} (h : e.Known newId f) :
    e.backup.input project newId = some (e.restoredInput project f) := by
  obtain ⟨hs, hs0⟩ := h.source
  have hne : ∀ {i : ℕ}, f i ≠ 0 → ∃ k, f i = k + 1 := fun h0 => Nat.exists_eq_succ_of_ne_zero h0
  obtain ⟨k, hk⟩ := hne hs0
  rw [BackupEdge.input]
  simp only [HumanEdge.restoredInput, HumanEdge.backup, hs, hk]
  cases ht : e.target with
  | code x => rfl
  | human i =>
    obtain ⟨hi, hi0⟩ := h.target i ht
    obtain ⟨l, hl⟩ := hne hi0
    simp [hi, hl]

theorem restoredInput_target {f : ℕ → ℕ} {target : EdgeTarget} : (e.restoredInput project f).target = .ok target ↔
      target = e.target.rename f ∧ ∀ x, e.target = .code x → ∃ q, x = .finite q := by
  cases ht : e.target with
  | code x =>
    cases x with
    | nan => simp [CreateHumanEdgeInput.target, HumanEdge.restoredInput, HumanEdge.backup, ht, jsonNum]
    | infinite s =>
      simp [CreateHumanEdgeInput.target, HumanEdge.restoredInput, HumanEdge.backup, ht, jsonNum]
    | finite q =>
      simp [CreateHumanEdgeInput.target, HumanEdge.restoredInput, HumanEdge.backup, ht, jsonNum,
        EdgeTarget.rename, eq_comm]
  | human i =>
    simp [CreateHumanEdgeInput.target, HumanEdge.restoredInput, HumanEdge.backup, ht,
      EdgeTarget.rename, eq_comm]

theorem rename_ne_nan {f : ℕ → ℕ} (h : ∀ x, e.target = .code x → ∃ q, x = .finite q) :
    e.target.rename f ≠ .code .nan := by
  cases ht : e.target with
  | code x =>
    obtain ⟨q, rfl⟩ := h x ht
    simp [EdgeTarget.rename]
  | human i => simp [EdgeTarget.rename]

theorem findEdge_eq {k : EdgeKey} (h : k.target ≠ .code .nan) : db.findEdge k = Rows.get HumanEdge.key k db.edges := by
  rw [Db.findEdge, EdgeKey.sought, if_neg h]

/-- **An edge is left out, or a row is added for it** that no edge had the key of. -/
theorem importEdge_cases (project : Text) (now : ℕ) {newId : ℕ → Option ℕ} {f : ℕ → ℕ} (h : e.Known newId f)
    (hw : db.WellFormed) : importEdge project newId now db e.backup = db ∨
      ∃ row, e.Copied project f row ∧ Rows.get HumanEdge.key row.key db.edges = none ∧
        importEdge project newId now db e.backup = db.withEdge row ∧ (db.withEdge row).WellFormed := by
  rw [importEdge, backup_input h]
  simp only
  cases hc : createEdge (e.restoredInput project f) now db with
  | error err => exact .inl rfl
  | ok p =>
    obtain ⟨row, db'⟩ := p
    obtain ⟨target, hchecked, ⟨-, rfl⟩ | ⟨hnone, hnan, rfl, rfl⟩⟩ := createEdge_ok hc
    · exact .inl rfl
    · obtain ⟨rfl, hfin⟩ := restoredInput_target.mp hchecked.target_eq
      refine .inr ⟨_, ⟨rfl, rfl, rfl, rfl, hfin⟩, ?_, rfl, createEdge_wellFormed hw hc⟩
      rw [← findEdge_eq (by exact hnan)]
      exact hnone

/-- Whatever an edge of the file asks for, only ids are added to nodes. -/
theorem importEdge_grown (project : Text) (now : ℕ) (hw : db.WellFormed) (newId : ℕ → Option ℕ) (edge : BackupEdge) :
    (importEdge project newId now db edge).WellFormed ∧
      List.Forall₂ HumanNode.Grown db.nodes (importEdge project newId now db edge).nodes := by
  have same : List.Forall₂ HumanNode.Grown db.nodes db.nodes :=
    forall₂_same.mpr fun r _ => HumanNode.Grown.refl r
  rw [importEdge]
  split
  · exact ⟨hw, same⟩
  · split
    · rename_i row db' hc
      refine ⟨createEdge_wellFormed hw hc, ?_⟩
      obtain ⟨target, -, ⟨-, rfl⟩ | ⟨-, -, -, rfl⟩⟩ := createEdge_ok hc
      · exact same
      · exact withEdge_grown hw row
    · exact ⟨hw, same⟩

/-- An edge whose ends are there and whose key is new is added. -/
theorem importEdge_of_new (now : ℕ) {newId : ℕ → Option ℕ} {f : ℕ → ℕ} (h : e.Known newId f) (hw : db.WellFormed)
    (hsource : ∃ r ∈ db.nodes, r.id = f e.source ∧ r.project = project)
    (htarget : ∀ i, e.target = .human i → ∃ r ∈ db.nodes, r.id = f i ∧ r.project = project)
    (hfin : ∀ x, e.target = .code x → ∃ q, x = .finite q)
    (hnew : Rows.get HumanEdge.key (e.key.rename project f) db.edges = none) :
    ∃ row, e.Copied project f row ∧ importEdge project newId now db e.backup = db.withEdge row ∧
      (db.withEdge row).WellFormed := by
  have get : ∀ {i : ℕ}, (∃ r ∈ db.nodes, r.id = i ∧ r.project = project) →
      ∃ n, db.getNodeById i = some n ∧ n.project = project := by
    rintro i ⟨r, hr, hi, hp⟩
    exact ⟨r, hw.get_iff.mpr ⟨hr, hi⟩, hp⟩
  have hchecked : (e.restoredInput project f).Checked (e.target.rename f) db := by
    refine ⟨restoredInput_target.mpr ⟨rfl, hfin⟩, get hsource, fun i hi => ?_⟩
    cases ht : e.target with
    | code x => simp [ht, EdgeTarget.rename] at hi
    | human j =>
      simp only [ht, EdgeTarget.rename, EdgeTarget.human.injEq] at hi
      exact get (hi ▸ htarget j ht)
  have hnan := rename_ne_nan (f := f) hfin
  have hcreate := createEdge_of_new now hchecked (by rwa [findEdge_eq (by exact hnan)]) hnan
    (by simp [HumanEdge.restoredInput])
  refine ⟨_, ⟨rfl, rfl, rfl, rfl, hfin⟩, ?_, createEdge_wellFormed hw hcreate⟩
  rw [importEdge, backup_input h]
  simp only [hcreate]

/-! ## All edges -/

variable {newId : ℕ → Option ℕ} {f : ℕ → ℕ} {edges : List HumanEdge}

/-- The database after the edges. -/
def restoredEdges (project : Text) (newId : ℕ → Option ℕ) (clock : ℕ → ℕ) (edges : List HumanEdge)
    (db : Db) : Db :=
  importEdges project newId clock (edges.map HumanEdge.backup) db

theorem restoredEdges_concat (e : HumanEdge) : restoredEdges project newId clock (edges ++ [e]) db =
      importEdge project newId (clock e.id) (restoredEdges project newId clock edges db) e.backup := by
  simp [restoredEdges, importEdges]
  rfl

theorem Known.of_concat (h : ∀ d ∈ edges ++ [e], d.Known newId f) : ∀ d ∈ edges, d.Known newId f :=
  fun d hd => h d (mem_append_left _ hd)

theorem forall₂_trans {α : Type} {R : α → α → Prop} (ht : ∀ a b c, R a b → R b c → R a c)
    {l m k : List α} (h : List.Forall₂ R l m) (h' : List.Forall₂ R m k) : List.Forall₂ R l k := by
  induction h generalizing k with
  | nil => exact h'
  | cons hab _ ih =>
    cases h' with
    | cons hbc hrest => exact .cons (ht _ _ _ hab hbc) (ih hrest)

theorem restoredEdges_grown (project : Text) (newId : ℕ → Option ℕ) (clock : ℕ → ℕ)
    (edges : List HumanEdge) (hw : db.WellFormed) : (restoredEdges project newId clock edges db).WellFormed ∧
      List.Forall₂ HumanNode.Grown db.nodes (restoredEdges project newId clock edges db).nodes := by
  induction edges using List.reverseRecOn with
  | nil => exact ⟨hw, forall₂_same.mpr fun r _ => HumanNode.Grown.refl r⟩
  | append_singleton edges e ih =>
    rw [restoredEdges_concat]
    obtain ⟨hwf, hgrown⟩ := importEdge_grown project (clock e.id) ih.1 newId e.backup
    exact ⟨hwf, forall₂_trans (R := HumanNode.Grown) (fun _ _ _ h h' => h.trans h') ih.2 hgrown⟩

/-- What holds after the edges, in a database that had none. -/
structure EdgesRestored (project : Text) (f : ℕ → ℕ) (edges : List HumanEdge) (db' : Db) : Prop where
  wellFormed : db'.WellFormed
  length_le : db'.edges.length ≤ edges.length
  /-- With as many rows as edges, there is one for each. -/
  copied : db'.edges.length = edges.length → List.Forall₂ (HumanEdge.Copied project f) edges db'.edges
  keys : (db'.edges.map HumanEdge.key).Nodup
  listed : ∀ row ∈ db'.edges, row.CodeListed db'

/-- An edge that was listed stays listed when ids are added. -/
theorem codeListed_of_grown (h : List.Forall₂ HumanNode.Grown db.nodes db'.nodes)
    (he : e.CodeListed db) : e.CodeListed db' := by
  intro x hx
  obtain ⟨q, rfl, hlist⟩ := he x hx
  refine ⟨q, rfl, fun hq n' hn' hid => ?_⟩
  obtain ⟨n, hn, hg⟩ := (exists_of_forall₂ h).2 n' hn'
  have hkeys := hg.keys
  simp only [HumanNode.keys, Prod.mk.injEq] at hkeys
  exact hg.ids (hlist hq n hn (hkeys.1.symm.trans hid))

/-- The edge that is added is listed. -/
theorem codeListed_withEdge (hw : db.WellFormed) {row : HumanEdge}
    (hfin : ∀ x, row.target = .code x → ∃ q, x = .finite q) : row.CodeListed (db.withEdge row) := by
  intro x hx
  obtain ⟨q, rfl⟩ := hfin x hx
  refine ⟨q, rfl, fun hq n hn hid => ?_⟩
  unfold Db.withEdge at hn
  simp only [hx] at hn
  rw [linkCode_nodes (by exact hw.nodeIds)] at hn
  have hvalid : validCbmId (.finite q) := by simpa [validCbmId] using hq
  rcases Rows.mem_modify.mp hn with ⟨-, hne⟩ | ⟨r, -, -, rfl⟩
  · exact absurd hid hne
  · exact mem_cbmNodeIds_addCbmId.mpr (.inr ⟨rfl, hvalid⟩)

theorem edgesRestored (project : Text) (clock : ℕ → ℕ) (hw : db.WellFormed) (hempty : db.edges = [])
    (hknown : ∀ e ∈ edges, e.Known newId f) :
    EdgesRestored project f edges (restoredEdges project newId clock edges db) := by
  induction edges using List.reverseRecOn with
  | nil =>
    have hsame : restoredEdges project newId clock [] db = db := rfl
    rw [hsame]
    refine ⟨hw, ?_, ?_, ?_, ?_⟩ <;> simp [hempty]
  | append_singleton edges e ih =>
    have ih' := ih (Known.of_concat hknown)
    rw [restoredEdges_concat]
    rcases importEdge_cases project (clock e.id) (hknown e (by simp))
      ih'.wellFormed with hskip | ⟨row, hc, hnew, hadd, hwf⟩
    · rw [hskip]
      have hlt := ih'.length_le
      refine { ih' with length_le := ?_, copied := fun hlen => ?_ }
      · simp only [length_append, length_singleton]
        omega
      · simp only [length_append, length_singleton] at hlen
        omega
    · rw [hadd]
      have hgrown := withEdge_grown ih'.wellFormed row
      refine
        { wellFormed := hwf
          length_le := ?_
          copied := fun hlen => ?_
          keys := ?_
          listed := fun d hd => ?_ }
      · have := ih'.length_le
        simpa using this
      · simp only [withEdge_edges, length_append, length_singleton] at hlen ⊢
        exact rel_append (ih'.copied (by omega)) (.cons hc .nil)
      · rw [withEdge_edges, map_append, map_singleton, List.nodup_append]
        refine ⟨ih'.keys, by simp, fun k hk l hl => ?_⟩
        obtain ⟨d, hd, rfl⟩ := mem_map.mp hk
        rw [mem_singleton.mp hl]
        exact Rows.get_eq_none_iff.mp hnew d hd
      · rw [withEdge_edges] at hd
        rcases mem_append.mp hd with hd | hd
        · exact codeListed_of_grown hgrown (ih'.listed d hd)
        · obtain rfl := mem_singleton.mp hd
          refine codeListed_withEdge ih'.wellFormed fun x hx => ?_
          have hk := hc.key
          simp only [HumanEdge.key, EdgeKey.rename, EdgeKey.mk.injEq] at hk
          cases ht : e.target with
          | code y =>
            obtain ⟨q, rfl⟩ := hc.finite y ht
            rw [hk.2.2.1, ht, EdgeTarget.rename, EdgeTarget.code.injEq] at hx
            exact ⟨q, hx.symm⟩
          | human i =>
            rw [hk.2.2.1, ht, EdgeTarget.rename] at hx
            cases hx

/-! ## Edges that all come back -/

/-- A link to a listed id changes nothing that is compared. -/
theorem view_addCbmId {x : Num} {r : HumanNode} (h : validCbmId x → x ∈ r.cbmNodeIds) :
    (r.addCbmId x).view = r.view := by
  unfold HumanNode.addCbmId
  split
  · rfl
  · rename_i hx
    have hinvalid : validCbmId x = false := by
      by_contra hv
      exact hx (h (by simpa using hv))
    have hids : HumanNode.cbmNodeIds { r with cbmJson := (r.cbmNodeIds ++ [x]).map jsonNum } =
        r.cbmNodeIds := by
      rw [cbmNodeIds_of_json rfl, filter_append, cbmNodeIds_valid]
      simp [hinvalid]
    simp only [HumanNode.view, hids]

/-- The same ids and keys, and the same of all that is compared. -/
def HumanNode.Same (r r' : HumanNode) : Prop := r'.keys = r.keys ∧ r'.view = r.view

theorem withEdge_same (hw : db.WellFormed) {row : HumanEdge}
    (h : ∀ x, row.target = .code x → validCbmId x → ∀ r ∈ db.nodes, r.id = row.source → x ∈ r.cbmNodeIds) :
    List.Forall₂ HumanNode.Same db.nodes (db.withEdge row).nodes := by
  unfold Db.withEdge
  simp only
  split
  · rename_i x hx
    rw [linkCode_nodes]
    · refine forall₂_map_right fun r hr => ?_
      split
      · rename_i hid
        exact ⟨(HumanNode.grown_addCbmId x r).keys, view_addCbmId fun hv => h x hx hv r hr hid⟩
      · exact ⟨rfl, rfl⟩
    · exact hw.nodeIds
  · exact forall₂_same.mpr fun r _ => ⟨rfl, rfl⟩

/-- What an edge needs to come back. -/
structure HumanEdge.Returns (project : Text) (newId : ℕ → Option ℕ) (f : ℕ → ℕ) (db : Db)
    (e : HumanEdge) : Prop where
  known : e.Known newId f
  source : ∃ r ∈ db.nodes, r.id = f e.source ∧ r.project = project
  target : ∀ i, e.target = .human i → ∃ r ∈ db.nodes, r.id = f i ∧ r.project = project
  code : ∀ x, e.target = .code x → ∃ q, x = .finite q ∧
    (0 < q → ∀ r ∈ db.nodes, r.id = f e.source → x ∈ r.cbmNodeIds)

theorem HumanEdge.Returns.of_same (h : e.Returns project newId f db)
    (hsame : List.Forall₂ HumanNode.Same db.nodes db'.nodes) : e.Returns project newId f db' := by
  have node : ∀ {i : ℕ}, (∃ r ∈ db.nodes, r.id = i ∧ r.project = project) →
      ∃ r ∈ db'.nodes, r.id = i ∧ r.project = project := by
    rintro i ⟨r, hr, hi, hp⟩
    obtain ⟨r', hr', hkeys, -⟩ := (exists_of_forall₂ hsame).1 r hr
    simp only [HumanNode.keys, Prod.mk.injEq] at hkeys
    exact ⟨r', hr', hkeys.1.trans hi, hkeys.2.1.trans hp⟩
  refine ⟨h.known, node h.source, fun i hi => node (h.target i hi), fun x hx => ?_⟩
  obtain ⟨q, rfl, hlist⟩ := h.code x hx
  refine ⟨q, rfl, fun hq r' hr' hid => ?_⟩
  obtain ⟨r, hr, hkeys, hview⟩ := (exists_of_forall₂ hsame).2 r' hr'
  simp only [HumanNode.keys, Prod.mk.injEq] at hkeys
  have hids : r'.cbmNodeIds = r.cbmNodeIds := congrArg NoteView.cbmNodeIds hview
  rw [hids]
  exact hlist hq r hr (hkeys.1.symm.trans hid)

/-- **Edges that each come back, with different keys, all come back**, and nothing that is compared of the
nodes changes. -/
theorem edges_return (clock : ℕ → ℕ) (hw : db.WellFormed) (hempty : db.edges = [])
    (hret : ∀ e ∈ edges, e.Returns project newId f db) (hkeys : (edges.map fun e => e.key.rename project f).Nodup) :
    List.Forall₂ (HumanEdge.Copied project f) edges (restoredEdges project newId clock edges db).edges ∧
      List.Forall₂ HumanNode.Same db.nodes (restoredEdges project newId clock edges db).nodes := by
  induction edges using List.reverseRecOn with
  | nil =>
    have hsame : restoredEdges project newId clock [] db = db := rfl
    rw [hsame, hempty]
    exact ⟨.nil, forall₂_same.mpr fun r _ => ⟨rfl, rfl⟩⟩
  | append_singleton edges e ih =>
    simp only [map_append, map_singleton] at hkeys
    have hret' : ∀ d ∈ edges, d.Returns project newId f db := fun d hd =>
      hret d (mem_append_left _ hd)
    obtain ⟨hcopied, hsame⟩ := ih hret' (List.nodup_append.mp hkeys).1
    have hwf := (edgesRestored project clock hw hempty
      fun d hd => (hret' d hd).known).wellFormed
    have he := (hret e (by simp)).of_same hsame
    have hnew : Rows.get HumanEdge.key (e.key.rename project f)
        (restoredEdges project newId clock edges db).edges = none := by
      refine Rows.get_eq_none_iff.mpr fun row hrow hkey => ?_
      obtain ⟨d, hd, hc⟩ := (exists_of_forall₂ hcopied).2 row hrow
      refine (List.nodup_append.mp hkeys).2.2 _ (mem_map_of_mem hd) _ (mem_singleton_self _) ?_
      rw [← hc.key, hkey]
    obtain ⟨row, hc, hadd, -⟩ := importEdge_of_new (clock e.id) he.known hwf he.source he.target
      (fun x hx => (he.code x hx).imp fun q hq => hq.1) hnew
    rw [restoredEdges_concat, hadd, withEdge_edges]
    refine ⟨rel_append hcopied (.cons hc .nil), ?_⟩
    refine forall₂_trans (R := HumanNode.Same) (fun _ _ _ h h' => ⟨h'.1.trans h.1, h'.2.trans h.2⟩) hsame
      (withEdge_same hwf fun x hx hv r hr hid => ?_)
    have hk := hc.key
    simp only [HumanEdge.key, EdgeKey.rename, EdgeKey.mk.injEq] at hk
    cases ht : e.target with
    | code y =>
      obtain ⟨q, rfl, hlist⟩ := he.code y ht
      rw [hk.2.2.1, ht, EdgeTarget.rename, EdgeTarget.code.injEq] at hx
      subst hx
      exact hlist (by simpa [validCbmId] using hv) r hr (hid.trans hk.2.1)
    | human i =>
      rw [hk.2.2.1, ht, EdgeTarget.rename] at hx
      cases hx

end Ariad.Human
