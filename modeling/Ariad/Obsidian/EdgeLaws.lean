import Ariad.Obsidian.Importer

/-!
# The edges of a file's links

What the loop over the links of a file does to the database: it appends edges of one node, and to that
node and to the links table it adds the ids that the new edges lead to.

* `wikilinkEdge_congr` — which edge a link asks for depends on the ids, slugs and paths of the nodes.
* `EdgesAdded` — the effect of the loop.
* `createEdges_added` — the loop has this effect, and no edge is refused.
-/

namespace Ariad.Obsidian

open Human Text List Rows

variable {host : Host} {project relPath humanBody : Text} {sourceNodeId now : ℕ} {db db' : Db}

/-! ## What a link asks for -/

/-- `Number` of a text of digits is a number. -/
def ReadsDigits (host : Host) : Prop :=
  ∀ t : Text, t ≠ [] → t.all isDigit = true → host.number (.str t) ≠ .nan

/-- The columns that links and look-ups depend on. -/
def place (n : HumanNode) : ℕ × Text × Text × Option Text := (n.id, n.project, n.slug, n.obsidianPath)

section

variable (h : db.nodes.map place = db'.nodes.map place)
include h

theorem get_map_place {κ : Type} [DecidableEq κ] {g : ℕ × Text × Text × Option Text → κ} {k : κ} :
    (Rows.get (fun n => g (place n)) k db.nodes).map place =
      (Rows.get (fun n => g (place n)) k db'.nodes).map place := by
  have key : ∀ rows : List HumanNode, (Rows.get (fun n => g (place n)) k rows).map place =
      (rows.map place).find? fun c => decide (g c = k) := by
    intro rows
    rw [find?_map]
    rfl
  rw [key, key, h]

theorem getNodeBySlug_congr {slug : Text} :
    (db.getNodeBySlug project slug).map place = (db'.getNodeBySlug project slug).map place :=
  get_map_place (g := fun c => (c.2.1, c.2.2.1)) h

theorem getNodeByObsidianPath_congr {path : Text} :
    (db.getNodeByObsidianPath project path).map place =
      (db'.getNodeByObsidianPath project path).map place :=
  get_map_place (g := fun c => (c.2.1, c.2.2.2)) h

theorem source_of_places {i : ℕ}
    (hsource : ∃ n, db.getNodeById i = some n ∧ n.project = project) :
    ∃ n, db'.getNodeById i = some n ∧ n.project = project := by
  obtain ⟨n, hn, hp⟩ := hsource
  have hmap := get_map_place (g := fun c => c.1) (k := i) h
  rw [show Rows.get (fun n => (place n).1) i db.nodes = some n from hn] at hmap
  obtain ⟨m, hm, hplace⟩ := Option.map_eq_some_iff.mp hmap.symm
  exact ⟨m, hm, (congrArg (fun c => c.2.1) hplace).trans hp⟩

end

theorem map_of_place {β : Type} {a b : Option HumanNode} (f : ℕ → β) (h : a.map place = b.map place) :
    (a.map fun n => f n.id) = b.map fun n => f n.id := by
  have := congrArg (Option.map fun c : ℕ × Text × Text × Option Text => f c.1) h
  simpa [Option.map_map, Function.comp_def, place] using this

/-- **What a link asks for** depends on ids, slugs and paths alone. -/
theorem wikilinkEdge_congr (wl : Wikilink) (h : db.nodes.map place = db'.nodes.map place) :
    wikilinkEdge host project sourceNodeId relPath humanBody wl db =
      wikilinkEdge host project sourceNodeId relPath humanBody wl db' := by
  unfold wikilinkEdge
  split
  · rfl
  · exact map_of_place _ (getNodeBySlug_congr h)
  · exact map_of_place _ (getNodeByObsidianPath_congr h)
  · rfl

/-- What every edge has that a link of the file asks for. -/
structure Asked (project relPath : Text) (sourceNodeId : ℕ) (input : CreateHumanEdgeInput)
    (target : EdgeTarget) : Prop where
  project_eq : input.project = project
  source : input.source = sourceNodeId
  sourceFile : input.sourceFile = some relPath
  confidence : input.confidence = none
  notNaN : target ≠ .code .nan

/-- **A link asks for an edge** whose ends are there. -/
theorem wikilinkEdge_asked (hdigits : ReadsDigits host)
    (hsource : ∃ n, db.getNodeById sourceNodeId = some n ∧ n.project = project) (hw : db.WellFormed)
    {wl : Wikilink} {input : CreateHumanEdgeInput}
    (h : wikilinkEdge host project sourceNodeId relPath humanBody wl db = some input) :
    ∃ target, input.Checked target db ∧ Asked project relPath sourceNodeId input target := by
  have human : ∀ {m : HumanNode}, m ∈ db.nodes → m.project = project →
      ∃ n, db.getNodeById m.id = some n ∧ n.project = project := by
    intro m hm hp
    exact ⟨m, hw.get_self hm, hp⟩
  unfold wikilinkEdge at h
  split at h
  · obtain ⟨x, hx, rfl⟩ := Option.map_eq_some_iff.mp h
    rw [parseCodeNodeId] at hx
    split at hx
    · rename_i hd
      obtain rfl := Option.some.inj hx
      refine ⟨.code (host.number (.str wl.target)), ⟨rfl, hsource, fun id hid => by cases hid⟩,
        ⟨rfl, rfl, rfl, rfl, ?_⟩⟩
      simpa using hdigits wl.target hd.1 hd.2
    · cases hx
  case h_2 | h_3 =>
    obtain ⟨m, hm, rfl⟩ := Option.map_eq_some_iff.mp h
    have hkey := key_of_get hm
    simp only [Prod.mk.injEq] at hkey
    refine ⟨.human m.id, ⟨rfl, hsource, fun id hid => ?_⟩, ⟨rfl, rfl, rfl, rfl, by simp⟩⟩
    obtain rfl : m.id = id := by simpa using hid
    exact human (mem_of_get hm) hkey.1
  · cases h

/-! ## The loop -/

/-- The code nodes that edges lead to. -/
def codeTargets (edges : List HumanEdge) : List Num :=
  edges.filterMap fun e => match e.target with
    | .code x => some x
    | .human _ => none

/-- The ids of the links, one after the other. -/
def addCbmIds (xs : List Num) (n : HumanNode) : HumanNode := xs.foldl (fun n x => n.addCbmId x) n

@[simp] theorem place_addCbmId (x : Num) (n : HumanNode) : place (n.addCbmId x) = place n := by
  simp [place]

@[simp] theorem place_addCbmIds (xs : List Num) (n : HumanNode) : place (addCbmIds xs n) = place n := by
  induction xs generalizing n with
  | nil => rfl
  | cons x xs ih => simpa [addCbmIds] using ih (n.addCbmId x)

theorem addCbmIds_id (xs : List Num) (n : HumanNode) : (addCbmIds xs n).id = n.id :=
  congrArg Prod.fst (place_addCbmIds xs n)

theorem addCbmIds_append (xs ys : List Num) (n : HumanNode) :
    addCbmIds (xs ++ ys) n = addCbmIds ys (addCbmIds xs n) :=
  foldl_append

theorem mem_cbmNodeIds_addCbmIds {xs : List Num} {n : HumanNode} {y : Num} :
    y ∈ (addCbmIds xs n).cbmNodeIds ↔ y ∈ n.cbmNodeIds ∨ (y ∈ xs ∧ validCbmId y) := by
  induction xs generalizing n with
  | nil => simp [addCbmIds]
  | cons x xs ih =>
    have := ih (n := n.addCbmId x)
    simp only [addCbmIds, foldl_cons] at this ⊢
    rw [this, mem_cbmNodeIds_addCbmId, mem_cons]
    constructor
    · rintro ((h | ⟨rfl, hv⟩) | ⟨h, hv⟩)
      · exact .inl h
      · exact .inr ⟨.inl rfl, hv⟩
      · exact .inr ⟨.inr h, hv⟩
    · rintro (h | ⟨rfl | h, hv⟩)
      · exact .inl (.inl h)
      · exact .inl (.inr ⟨rfl, hv⟩)
      · exact .inr ⟨h, hv⟩

theorem modify_modify {ρ κ : Type} [DecidableEq κ] {key : ρ → κ} {k : κ} {f g : ρ → ρ} {rows : List ρ}
    (hf : ∀ r, key (f r) = key r) :
    Rows.modify key k g (Rows.modify key k f rows) = Rows.modify key k (fun r => g (f r)) rows := by
  simp only [Rows.modify, map_map]
  refine map_congr_left fun r _ => ?_
  by_cases h : key r = k
  · simp [h, hf]
  · simp [h]

/-- **The effect of the loop**: edges of the node are appended, and what they lead to is linked. `keys`
are the keys of the edges that were asked for, and `seen` the ids of the edges that have them. -/
structure EdgesAdded (project relPath : Text) (sourceNodeId : ℕ) (keys : List EdgeKey) (seen : List ℕ)
    (added : List HumanEdge) (db db' : Db) : Prop where
  wellFormed : db'.WellFormed
  edges : db'.edges = db.edges ++ added
  ofFile : ∀ e ∈ added, e.source = sourceNodeId ∧ e.project = project ∧ e.sourceFile = some relPath
  new : ∀ e ∈ added, e.key ∈ keys ∧ e.key ∉ db.edges.map HumanEdge.key
  nodes : db'.nodes = Rows.modify HumanNode.id sourceNodeId (addCbmIds (codeTargets added)) db.nodes
  links : ∀ m, m ∈ db'.links ↔ m ∈ db.links ∨ (m.1 = sourceNodeId ∧ m.2 ∈ codeTargets added)
  asked : ∀ k ∈ keys, ∃ e ∈ db'.edges, e.key = k ∧ e.id ∈ seen
  ofSeen : ∀ i ∈ seen, ∃ e ∈ db'.edges, e.id = i ∧ e.key ∈ keys

theorem EdgesAdded.refl (hw : db.WellFormed) :
    EdgesAdded project relPath sourceNodeId [] [] [] db db where
  wellFormed := hw
  edges := by simp
  ofFile := by simp
  new := by simp
  nodes := by
    refine (Rows.modify_eq_self fun r _ _ => ?_).symm
    rfl
  links := by simp [codeTargets]
  asked := by simp
  ofSeen := by simp

/-- An edge that is there already. -/
theorem EdgesAdded.of_found {keys : List EdgeKey} {seen : List ℕ} {added : List HumanEdge} {e : HumanEdge}
    (h : EdgesAdded project relPath sourceNodeId keys seen added db db') (he : e ∈ db.edges) :
    EdgesAdded project relPath sourceNodeId (e.key :: keys) (e.id :: seen) added db db' where
  wellFormed := h.wellFormed
  edges := h.edges
  ofFile := h.ofFile
  new := fun d hd => ⟨mem_cons_of_mem _ (h.new d hd).1, (h.new d hd).2⟩
  nodes := h.nodes
  links := h.links
  asked := by
    intro k hk
    rcases mem_cons.mp hk with rfl | hk
    · exact ⟨e, h.edges ▸ mem_append_left _ he, rfl, mem_cons_self⟩
    · obtain ⟨d, hd, hkey, hseen⟩ := h.asked k hk
      exact ⟨d, hd, hkey, mem_cons_of_mem _ hseen⟩
  ofSeen := by
    intro i hi
    rcases mem_cons.mp hi with rfl | hi
    · exact ⟨e, h.edges ▸ mem_append_left _ he, rfl, mem_cons_self⟩
    · obtain ⟨d, hd, hid, hkey⟩ := h.ofSeen i hi
      exact ⟨d, hd, hid, mem_cons_of_mem _ hkey⟩

theorem withEdge_nodes (hw : db.WellFormed) (row : HumanEdge) :
    (db.withEdge row).nodes =
      Rows.modify HumanNode.id row.source (addCbmIds (codeTargets [row])) db.nodes := by
  unfold Db.withEdge
  simp only
  cases ht : row.target with
  | code x =>
    rw [linkCode_nodes (by exact hw.nodeIds)]
    have hx : codeTargets [row] = [x] := by simp [codeTargets, ht]
    rw [hx]
    rfl
  | human i =>
    have hx : codeTargets [row] = [] := by simp [codeTargets, ht]
    rw [hx]
    exact (Rows.modify_eq_self fun r _ _ => rfl).symm

theorem mem_links_withEdge {row : HumanEdge} {m : ℕ × Num} (h : (db.getNodeById row.source).isSome) :
    m ∈ (db.withEdge row).links ↔ m ∈ db.links ∨ (m.1 = row.source ∧ m.2 ∈ codeTargets [row]) := by
  unfold Db.withEdge
  simp only
  cases ht : row.target with
  | code x =>
    rw [mem_links_linkCode (by exact h)]
    obtain ⟨i, y⟩ := m
    simp [codeTargets, ht]
  | human i => simp [codeTargets, ht]

theorem codeTargets_cons (e : HumanEdge) (es : List HumanEdge) :
    codeTargets (e :: es) = codeTargets [e] ++ codeTargets es := by
  unfold codeTargets
  rw [← singleton_append, filterMap_append]

/-- An edge that is inserted before the others. -/
theorem EdgesAdded.of_inserted {keys : List EdgeKey} {seen : List ℕ} {added : List HumanEdge}
    {row : HumanEdge} (hw : db.WellFormed)
    (hrow : row.source = sourceNodeId ∧ row.project = project ∧ row.sourceFile = some relPath)
    (hsource : (db.getNodeById sourceNodeId).isSome) (hnew : row.key ∉ db.edges.map HumanEdge.key)
    (h : EdgesAdded project relPath sourceNodeId keys seen added (db.withEdge row) db') :
    EdgesAdded project relPath sourceNodeId (row.key :: keys) (row.id :: seen) (row :: added) db db' where
  wellFormed := h.wellFormed
  edges := by rw [h.edges, withEdge_edges, append_assoc, singleton_append]
  ofFile := by
    intro e he
    rcases mem_cons.mp he with rfl | he
    · exact hrow
    · exact h.ofFile e he
  new := by
    intro e he
    rcases mem_cons.mp he with rfl | he
    · exact ⟨mem_cons_self, hnew⟩
    · obtain ⟨hk, hn⟩ := h.new e he
      rw [withEdge_edges, map_append, mem_append] at hn
      exact ⟨mem_cons_of_mem _ hk, fun hmem => hn (.inl hmem)⟩
  nodes := by
    rw [h.nodes, withEdge_nodes hw, hrow.1, modify_modify (addCbmIds_id _), codeTargets_cons row added]
    exact modify_congr fun r _ _ => (addCbmIds_append _ _ r).symm
  links := by
    intro m
    rw [h.links, mem_links_withEdge (hrow.1 ▸ hsource), codeTargets_cons row added, mem_append, hrow.1]
    tauto
  asked := by
    have hmem : row ∈ db'.edges := by
      rw [h.edges, withEdge_edges]
      simp
    intro k hk
    rcases mem_cons.mp hk with rfl | hk
    · exact ⟨row, hmem, rfl, mem_cons_self⟩
    · obtain ⟨d, hd, hkey, hseen⟩ := h.asked k hk
      exact ⟨d, hd, hkey, mem_cons_of_mem _ hseen⟩
  ofSeen := by
    have hmem : row ∈ db'.edges := by
      rw [h.edges, withEdge_edges]
      simp
    intro i hi
    rcases mem_cons.mp hi with rfl | hi
    · exact ⟨row, hmem, rfl, mem_cons_self⟩
    · obtain ⟨d, hd, hid, hkey⟩ := h.ofSeen i hi
      exact ⟨d, hd, hid, mem_cons_of_mem _ hkey⟩

/-- The keys of the edges that the links of a file ask for. -/
def askedKeys (host : Host) (project : Text) (sourceNodeId : ℕ) (relPath humanBody : Text)
    (links : List Wikilink) (db : Db) : List EdgeKey :=
  links.filterMap fun wl =>
    match wikilinkEdge host project sourceNodeId relPath humanBody wl db with
    | none => none
    | some input =>
      match input.target with
      | .ok target => some (input.key target)
      | .error _ => none

theorem askedKeys_congr {links : List Wikilink} (h : db.nodes.map place = db'.nodes.map place) :
    askedKeys host project sourceNodeId relPath humanBody links db =
      askedKeys host project sourceNodeId relPath humanBody links db' := by
  refine filterMap_congr fun wl _ => ?_
  rw [wikilinkEdge_congr wl h]

/-- **The loop adds the edges that are asked for**, and none is refused. -/
theorem createEdges_added (relPath humanBody : Text) (now : ℕ) (hdigits : ReadsDigits host) (hw : db.WellFormed)
    (hsource : ∃ n, db.getNodeById sourceNodeId = some n ∧ n.project = project) (links : List Wikilink) :
    ∃ seen added, (createEdges host project sourceNodeId relPath humanBody now links db).1 = (none, seen) ∧
      EdgesAdded project relPath sourceNodeId
        (askedKeys host project sourceNodeId relPath humanBody links db) seen added db
        (createEdges host project sourceNodeId relPath humanBody now links db).2 := by
  induction links generalizing db with
  | nil => exact ⟨[], [], rfl, EdgesAdded.refl hw⟩
  | cons wl links ih =>
    cases hwl : wikilinkEdge host project sourceNodeId relPath humanBody wl db with
    | none =>
      have hkeys : askedKeys host project sourceNodeId relPath humanBody (wl :: links) db =
          askedKeys host project sourceNodeId relPath humanBody links db := by
        simp [askedKeys, hwl]
      rw [createEdges, hwl, hkeys]
      exact ih hw hsource
    | some input =>
      obtain ⟨target, hc, ha⟩ := wikilinkEdge_asked hdigits hsource hw hwl
      have hkeys : askedKeys host project sourceNodeId relPath humanBody (wl :: links) db =
          input.key target :: askedKeys host project sourceNodeId relPath humanBody links db := by
        simp [askedKeys, hwl, hc.target_eq]
      have hnan : (input.key target).target ≠ .code .nan := ha.notNaN
      rw [createEdges, hwl, hkeys]
      cases hf : db.findEdge (input.key target) with
      | some e =>
        have hget : Rows.get HumanEdge.key (input.key target) db.edges = some e := by
          rw [← hf, Db.findEdge, EdgeKey.sought, if_neg hnan]
        simp only [createEdge_of_found hc hf]
        obtain ⟨seen, added, h1, h2⟩ := ih hw hsource
        rw [← key_of_get hget, h1]
        exact ⟨_, added, rfl, h2.of_found (mem_of_get hget)⟩
      | none =>
        have hget : Rows.get HumanEdge.key (input.key target) db.edges = none := by
          rw [← hf, Db.findEdge, EdgeKey.sought, if_neg hnan]
        have hcreate := createEdge_of_new now hc hf ha.notNaN (by simp [ha.confidence])
        simp only [hcreate]
        set row := input.row target db.nextEdge now with hrow
        have hw' : (db.withEdge row).WellFormed := createEdge_wellFormed hw hcreate
        have hnodes := withEdge_nodes hw row
        have hplaces : (db.withEdge row).nodes.map place = db.nodes.map place := by
          rw [hnodes]
          exact Rows.map_modify fun r => place_addCbmIds _ r
        have hsource' := source_of_places hplaces.symm hsource
        obtain ⟨seen, added, h1, h2⟩ := ih hw' hsource'
        rw [askedKeys_congr hplaces] at h2
        rw [h1]
        refine ⟨_, row :: added, rfl, ?_⟩
        refine EdgesAdded.of_inserted hw ⟨ha.source, ha.project_eq, ha.sourceFile⟩ ?_ ?_ h2
        · obtain ⟨n, hn, -⟩ := hsource
          rw [hn]
          rfl
        · intro hmem
          obtain ⟨e, he, hkey⟩ := mem_map.mp hmem
          exact Rows.get_eq_none_iff.mp hget e he hkey

end Ariad.Obsidian
