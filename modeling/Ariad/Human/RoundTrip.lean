import Ariad.Human.RestoreEdges

/-!
# The round trip of a backup

* `renamed` — the new id of an old one.
* `roundTrip_of_restorable`, `restorable_of_roundTrip` — what can be restored comes back, and nothing
  else does.
* `backup_round_trip` — both together.
-/

namespace Ariad.Human

open List

variable {host : Host} {project : Text} {db db' : Db} {now : ℕ} {clock : ℕ → ℕ} {notes : List HumanNode}

/-! ## The renaming -/

theorem restoredNotes_wellFormed (host : Host) (project : Text) (clock : ℕ → ℕ) (notes : List HumanNode) :
    (restoredNotes host project clock notes).WellFormed := by
  induction notes using List.reverseRecOn with
  | nil => exact Db.WellFormed.empty
  | append_singleton notes n ih =>
    rw [restoredNotes_concat]
    rcases importNote_cases host project (clock n.id) (restoredNotes host project clock notes)
      n with hskip | ⟨row, himp⟩
    · rwa [hskip]
    · rw [importNote_of_imported himp]
      exact createNode_wellFormed ih himp.created

/-- Ids are given out from 1 on. -/
theorem restoredNotes_id_pos :
    0 < (restoredNotes host project clock notes).nextNode ∧
      ∀ r ∈ (restoredNotes host project clock notes).nodes, 0 < r.id := by
  induction notes using List.reverseRecOn with
  | nil => simp [restoredNotes, importNotes, Db.empty]
  | append_singleton notes n ih =>
    rw [restoredNotes_concat]
    rcases importNote_cases host project (clock n.id) (restoredNotes host project clock notes)
      n with hskip | ⟨row, himp⟩
    · rwa [hskip]
    · rw [importNote_of_imported himp]
      obtain ⟨attempt, -, hrow, -⟩ := createNode_ok himp.created
      refine ⟨Nat.succ_pos _, fun r hr => ?_⟩
      rcases mem_append.mp hr with hr | hr
      · exact ih.2 r hr
      · rw [mem_singleton.mp hr, hrow]
        exact ih.1

theorem findSome?_eq_some {α β : Type} {g : α → Option β} {b : β} {l : List α}
    (hall : ∀ x ∈ l, g x = none ∨ g x = some b) (hex : ∃ x ∈ l, g x = some b) :
    l.findSome? g = some b := by
  induction l with
  | nil => simp at hex
  | cons x l ih =>
    rw [findSome?_cons]
    rcases hall x mem_cons_self with hx | hx
    · rw [hx]
      refine ih (fun y hy => hall y (mem_cons_of_mem _ hy)) ?_
      obtain ⟨y, hy, hg⟩ := hex
      rcases mem_cons.mp hy with rfl | hy
      · rw [hx] at hg
        cases hg
      · exact ⟨y, hy, hg⟩
    · rw [hx]

/-- **The import knows of a note the node that stands for it.** -/
theorem newNoteId_restored {n r : HumanNode} (hids : (notes.map HumanNode.id).Nodup) (hw : db.WellFormed)
    (hn : n ∈ notes) (hr : r ∈ db.nodes) (h : n.Restored project r) :
    newNoteId project (notes.map HumanNode.backup) db n.id = some r.id := by
  have hslug : db.getNodeBySlug project n.slug = some r :=
    (Rows.get_eq_some_iff hw.slugs).mpr ⟨hr, by simp [h.1.project_eq, h.2]⟩
  refine findSome?_eq_some (fun b hb => ?_) ⟨n.backup, ?_, ?_⟩
  · obtain ⟨m, hm, rfl⟩ := mem_map.mp (mem_reverse.mp hb)
    split
    · rename_i hid
      obtain rfl := inj_on_of_nodup_map hids hm hn hid
      right
      simp [HumanNode.backup, hslug]
    · exact .inl rfl
  · exact mem_reverse.mpr (mem_map_of_mem hn)
  · simp [HumanNode.backup, hslug]

/-! ## What is exported -/

theorem listNodes_perm (h : (db.projectNodes project).length ≤ 100000) :
    (db.listNodes project 100000).Perm (db.projectNodes project) := by
  have hsort : ((db.nodes.filter fun n => decide (n.project = project)).mergeSort
      fun a b => decide (b.updatedAt ≤ a.updatedAt)).Perm (db.projectNodes project) :=
    mergeSort_perm _ _
  rw [Db.listNodes, take_of_length_le (by rw [hsort.length_eq]; exact h)]
  exact hsort

theorem length_listNodes_le : (db.listNodes project 100000).length ≤ (db.projectNodes project).length := by
  rw [Db.listNodes, length_take, length_mergeSort]
  exact Nat.min_le_right _ _

theorem length_listNodes_le_limit : (db.listNodes project 100000).length ≤ 100000 := by
  rw [Db.listNodes, length_take]
  exact Nat.min_le_left _ _

theorem listNodes_slugs_nodup (hw : db.WellFormed) (h : (db.projectNodes project).length ≤ 100000) :
    ((db.listNodes project 100000).map HumanNode.slug).Nodup := by
  rw [((listNodes_perm h).map HumanNode.slug).nodup_iff]
  have hfilter : ((db.projectNodes project).map fun n => (n.project, n.slug)).Nodup :=
    hw.slugs.sublist (filter_sublist.map _)
  refine Nodup.of_map (fun s => (project, s)) ?_
  rw [map_map]
  convert hfilter using 1
  refine map_congr_left fun n hn => ?_
  have hp : n.project = project := by simpa using (mem_filter.mp hn).2
  simp [hp]

theorem listNodes_ids_nodup (hw : db.WellFormed) (h : (db.projectNodes project).length ≤ 100000) :
    ((db.listNodes project 100000).map HumanNode.id).Nodup := by
  rw [((listNodes_perm h).map HumanNode.id).nodup_iff]
  exact hw.nodeIds.sublist (filter_sublist.map _)

theorem length_backupEdges_le (project : Text) (db : Db) :
    (db.backupEdges project).length ≤ min 1000000 (db.projectEdges project).length := by
  refine (length_filter_le _ _).trans ?_
  rw [Db.listAllEdges, length_take]
  exact le_rfl

/-- Below the limits every edge of the project is exported. -/
theorem backupEdges_eq (hw : db.WellFormed) (hn : (db.projectNodes project).length ≤ 100000)
    (he : (db.projectEdges project).length ≤ 1000000) :
    db.backupEdges project = db.projectEdges project := by
  have hall : db.listAllEdges project 1000000 = db.projectEdges project :=
    take_of_length_le he
  rw [Db.backupEdges, hall]
  refine filter_eq_self.mpr fun e hmem => ?_
  obtain ⟨hmem, hp⟩ := mem_filter.mp hmem
  obtain ⟨n, hn', hid, hproj⟩ := hw.edgeSource e hmem
  have hp : e.project = project := by simpa using hp
  have hmemL : n ∈ db.listNodes project 100000 :=
    (listNodes_perm hn).mem_iff.mpr (mem_filter.mpr ⟨hn', by simp [hproj, hp]⟩)
  simpa using ⟨n, hmemL, hid⟩

/-! ## The law -/

section Law

variable {project' : Text} {noteClock edgeClock : ℕ → ℕ}

/-- The new id of an old one, after the import of the notes. -/
def renamed (host : Host) (project' : Text) (clock : ℕ → ℕ) (notes : List HumanNode) : ℕ → Option ℕ :=
  newNoteId project' (notes.map HumanNode.backup) (restoredNotes host project' clock notes)

theorem importBackup_export :
    importBackup host project' noteClock edgeClock (exportBackup project db) Db.empty =
      restoredEdges project' (renamed host project' noteClock (db.listNodes project 100000)) edgeClock
        (db.backupEdges project)
        (restoredNotes host project' noteClock (db.listNodes project 100000)) := rfl

/-- The node that stands for an exported one. -/
theorem exists_renamed (hids : (notes.map HumanNode.id).Nodup)
    (hres : List.Forall₂ (HumanNode.Restored project') notes
      (restoredNotes host project' clock notes).nodes) {n : HumanNode} (hn : n ∈ notes) :
    ∃ r ∈ (restoredNotes host project' clock notes).nodes, n.Restored project' r ∧
      renamed host project' clock notes n.id = some r.id ∧ r.id ≠ 0 := by
  obtain ⟨r, hr, h⟩ := (exists_of_forall₂ hres).1 n hn
  exact ⟨r, hr, h, newNoteId_restored hids (restoredNotes_wellFormed _ _ _ _) hn hr h,
    (restoredNotes_id_pos.2 r hr).ne'⟩

/-- The ends of an edge of the project are known to the import. -/
theorem known_of_restored (hw : db.WellFormed) (hlimit : (db.projectNodes project).length ≤ 100000)
    (hres : List.Forall₂ (HumanNode.Restored project') (db.listNodes project 100000)
      (restoredNotes host project' noteClock (db.listNodes project 100000)).nodes) {e : HumanEdge}
    (he : e ∈ db.projectEdges project) :
    e.Known (renamed host project' noteClock (db.listNodes project 100000))
      (fun i => (renamed host project' noteClock (db.listNodes project 100000) i).getD 0) := by
  have hids := listNodes_ids_nodup hw hlimit
  obtain ⟨hmem, hp⟩ := mem_filter.mp he
  have hp : e.project = project := by simpa using hp
  have end_known : ∀ {i : ℕ}, (∃ n ∈ db.nodes, n.id = i ∧ n.project = e.project) →
      ∃ k, renamed host project' noteClock (db.listNodes project 100000) i = some k ∧ k ≠ 0 := by
    rintro i ⟨n, hn, rfl, hproj⟩
    have hmemL : n ∈ db.listNodes project 100000 :=
      (listNodes_perm hlimit).mem_iff.mpr (mem_filter.mpr ⟨hn, by simp [hproj, hp]⟩)
    obtain ⟨r, -, -, hr, h0⟩ := exists_renamed hids hres hmemL
    exact ⟨r.id, hr, h0⟩
  constructor
  · obtain ⟨k, hk, h0⟩ := end_known (hw.edgeSource e hmem)
    simpa [hk] using h0
  · intro i hi
    obtain ⟨k, hk, h0⟩ := end_known (hw.edgeTarget e hmem i hi)
    simpa [hk] using h0

/-- Different keys stay different when the ends are renamed. -/
theorem rename_keys_nodup (hw : db.WellFormed) {f : ℕ → ℕ}
    (hinj : ∀ n ∈ db.projectNodes project, ∀ m ∈ db.projectNodes project, f n.id = f m.id → n = m)
    (hkeys : ((db.projectEdges project).map HumanEdge.key).Nodup) :
    ((db.projectEdges project).map fun e => e.key.rename project' f).Nodup := by
  have ends : ∀ {e d : HumanEdge} {i j : ℕ}, e ∈ db.projectEdges project → d ∈ db.projectEdges project →
      (∃ n ∈ db.nodes, n.id = i ∧ n.project = e.project) →
      (∃ n ∈ db.nodes, n.id = j ∧ n.project = d.project) → f i = f j → i = j := by
    rintro e d i j he hd ⟨n, hn, rfl, hnp⟩ ⟨m, hm, rfl, hmp⟩ hij
    have hep := (mem_filter.mp he).2
    have hdp := (mem_filter.mp hd).2
    simp only [decide_eq_true_eq] at hep hdp
    rw [hinj n (mem_filter.mpr ⟨hn, by simp [hnp, hep]⟩) m
      (mem_filter.mpr ⟨hm, by simp [hmp, hdp]⟩) hij]
  have hmap := Nodup.map_on (f := EdgeKey.rename project' f) (l := (db.projectEdges project).map
    HumanEdge.key) ?_ hkeys
  · rwa [map_map] at hmap
  intro k hk l hl heq
  obtain ⟨e, he, rfl⟩ := mem_map.mp hk
  obtain ⟨d, hd, rfl⟩ := mem_map.mp hl
  have hem := (mem_filter.mp he).1
  have hdm := (mem_filter.mp hd).1
  simp only [EdgeKey.rename, HumanEdge.key, EdgeKey.mk.injEq, true_and] at heq ⊢
  obtain ⟨hs, ht, htype⟩ := heq
  refine ⟨?_, ends he hd (hw.edgeSource e hem) (hw.edgeSource d hdm) hs, ?_, htype⟩
  · have hep := (mem_filter.mp he).2
    have hdp := (mem_filter.mp hd).2
    simp only [decide_eq_true_eq] at hep hdp
    rw [hep, hdp]
  · cases hte : e.target with
    | code x =>
      cases htd : d.target with
      | code y => simpa [hte, htd, EdgeTarget.rename] using ht
      | human j => simp [hte, htd, EdgeTarget.rename] at ht
    | human i =>
      cases htd : d.target with
      | code y => simp [hte, htd, EdgeTarget.rename] at ht
      | human j =>
        simp only [hte, htd, EdgeTarget.rename, EdgeTarget.human.injEq] at ht ⊢
        exact ends he hd (hw.edgeTarget e hem i hte) (hw.edgeTarget d hdm j htd) ht

/-- Rows of one project are the rows of that project. -/
theorem filter_eq_of_forall₂ {α β : Type} {R : α → β → Prop} {q : β → Bool} {l : List α} {m : List β}
    (h : List.Forall₂ R l m) (hq : ∀ a b, R a b → q b = true) : m.filter q = m := by
  refine filter_eq_self.mpr fun b hb => ?_
  obtain ⟨a, -, hab⟩ := (exists_of_forall₂ h).2 b hb
  exact hq a b hab

theorem map_eq_of_forall₂ {α β γ : Type} {R : α → β → Prop} {g : α → γ} {k : β → γ} {l : List α}
    {m : List β} (h : List.Forall₂ R l m) (hg : ∀ a ∈ l, ∀ b, R a b → k b = g a) :
    m.map k = l.map g := by
  induction h with
  | nil => rfl
  | cons hab _ ih =>
    rw [map_cons, map_cons, hg _ mem_cons_self _ hab,
      ih fun a ha => hg a (mem_cons_of_mem _ ha)]

/-- **What can be restored comes back.** -/
theorem roundTrip_of_restorable (hw : db.WellFormed) (h : db.Restorable host noteClock project) :
    RoundTrip project project' db
      (importBackup host project' noteClock edgeClock (exportBackup project db) Db.empty) := by
  rw [importBackup_export, backupEdges_eq hw h.nodeLimit h.edgeLimit]
  have hslugs := listNodes_slugs_nodup hw h.nodeLimit
  have hids := listNodes_ids_nodup hw h.nodeLimit
  have hperm := listNodes_perm h.nodeLimit
  obtain ⟨hall, hres⟩ := restored_of_restorable project' hslugs h.notes
  set L := db.listNodes project 100000 with hL
  set newId := renamed host project' noteClock L with hnewId
  set f : ℕ → ℕ := fun i => (newId i).getD 0 with hf
  have hconf : ∀ n ∈ L, n.confidence = .finite 1 ∧ n.sourceFile = none := by
    intro n hn
    obtain ⟨before, after, hsplit⟩ := append_of_mem hn
    exact ⟨(h.notes before n after hsplit).confidence, (h.notes before n after hsplit).sourceFile⟩
  -- The node that stands for a node of the project.
  have node : ∀ n ∈ db.projectNodes project, ∃ r ∈ (restoredNotes host project' noteClock L).nodes,
      r.id = f n.id ∧ r.project = project' ∧ r.view = n.view := by
    intro n hn
    have hmemL := hperm.mem_iff.mpr hn
    obtain ⟨r, hr, hrest, hid, -⟩ := exists_renamed hids hres hmemL
    exact ⟨r, hr, by simp [hf, hnewId, hid], hrest.1.project_eq,
      hrest.view (hconf n hmemL).1 (hconf n hmemL).2⟩
  have end_node : ∀ {p : Text} {i : ℕ}, p = project → (∃ n ∈ db.nodes, n.id = i ∧ n.project = p) →
      ∃ r ∈ (restoredNotes host project' noteClock L).nodes, r.id = f i ∧ r.project = project' := by
    rintro p i rfl ⟨n, hn, rfl, hproj⟩
    obtain ⟨r, hr, hid, hp, -⟩ := node n (mem_filter.mpr ⟨hn, by simp [hproj]⟩)
    exact ⟨r, hr, hid, hp⟩
  have hret : ∀ e ∈ db.projectEdges project, e.Returns project' newId f
      (restoredNotes host project' noteClock L) := by
    intro e he
    obtain ⟨hmem, hp⟩ := mem_filter.mp he
    have hp : e.project = project := by simpa using hp
    refine ⟨known_of_restored hw h.nodeLimit hres he, end_node hp (hw.edgeSource e hmem),
      fun i hi => end_node hp (hw.edgeTarget e hmem i hi), fun x hx => ?_⟩
    obtain ⟨q, rfl, hlist⟩ := h.code e he x hx
    refine ⟨q, rfl, fun hq r hr hid => ?_⟩
    obtain ⟨n, hn, hni, hproj⟩ := hw.edgeSource e hmem
    obtain ⟨r', hr', hid', -, hview⟩ := node n (mem_filter.mpr ⟨hn, by simp [hproj, hp]⟩)
    obtain rfl := (restoredNotes_wellFormed _ _ _ _).eq_of_id hr hr' (hid.trans (hni ▸ hid'.symm))
    rw [show r.cbmNodeIds = n.cbmNodeIds from congrArg NoteView.cbmNodeIds hview]
    exact hlist hq n hn hni
  have hinj : ∀ n ∈ db.projectNodes project, ∀ m ∈ db.projectNodes project, f n.id = f m.id → n = m := by
    intro n hn m hm hfij
    obtain ⟨r, hr, hid, -, hview⟩ := node n hn
    obtain ⟨s, hs, his, -, hviews⟩ := node m hm
    obtain rfl := (restoredNotes_wellFormed _ _ _ _).eq_of_id hr hs (hid.trans (hfij.trans his.symm))
    have hslug : n.slug = m.slug := congrArg NoteView.slug (hview.symm.trans hviews)
    exact inj_on_of_nodup_map hslugs (hperm.mem_iff.mpr hn) (hperm.mem_iff.mpr hm) hslug
  obtain ⟨hcopied, hsame⟩ := edges_return edgeClock (restoredNotes_wellFormed _ _ _ _) hall.edges hret
    (rename_keys_nodup hw hinj h.keys)
  set db' := restoredEdges project' newId edgeClock (db.projectEdges project)
    (restoredNotes host project' noteClock L)
  have hproject : ∀ r' ∈ db'.nodes, r'.project = project' := by
    intro r' hr'
    obtain ⟨r, hr, hkeys, -⟩ := (exists_of_forall₂ hsame).2 r' hr'
    obtain ⟨n, -, hn⟩ := (exists_of_forall₂ hres).2 r hr
    simp only [HumanNode.keys, Prod.mk.injEq] at hkeys
    exact hkeys.2.1.trans hn.1.project_eq
  have hnodes : db'.projectNodes project' = db'.nodes :=
    filter_eq_self.mpr fun r' hr' => by simp [hproject r' hr']
  have hedges : db'.projectEdges project' = db'.edges := by
    refine filter_eq_of_forall₂ hcopied fun e row hc => ?_
    have hk := congrArg EdgeKey.project hc.key
    simpa [HumanEdge.key, EdgeKey.rename] using hk
  rw [RoundTrip, hnodes, hedges]
  refine ⟨?_, f, fun n hn => ?_, ?_⟩
  · rw [map_eq_of_forall₂ hsame fun r _ r' hr => hr.2,
      map_eq_of_forall₂ hres fun n hn r hr => hr.view (hconf n hn).1 (hconf n hn).2]
    exact (hperm.map _).symm
  · obtain ⟨r, hr, hid, -, hview⟩ := node n hn
    obtain ⟨r', hr', hkeys, hview'⟩ := (exists_of_forall₂ hsame).1 r hr
    simp only [HumanNode.keys, Prod.mk.injEq] at hkeys
    exact ⟨r', hr', hkeys.1.trans hid, hview'.trans hview⟩
  · rw [map_eq_of_forall₂ hcopied fun e he row hc => copied_view hc (h.confidence e he) (h.sourceFile e he)]

/-- The edges of a database whose notes and edges came back. -/
theorem edges_of_roundTrip (hw : db.WellFormed) (hlimit : (db.projectNodes project).length ≤ 100000)
    (hall : AllImported host project' noteClock (db.listNodes project 100000))
    (hres : List.Forall₂ (HumanNode.Restored project') (db.listNodes project 100000)
      (restoredNotes host project' noteClock (db.listNodes project 100000)).nodes) {f : ℕ → ℕ} {db' : Db}
    (hdb' : restoredEdges project' (renamed host project' noteClock (db.listNodes project 100000))
      edgeClock (db.backupEdges project)
      (restoredNotes host project' noteClock (db.listNodes project 100000)) = db')
    (hf : ∀ n ∈ db.projectNodes project, ∃ n' ∈ db'.nodes, n'.id = f n.id ∧ n'.view = n.view)
    (hviews : ((db.projectEdges project).map (HumanEdge.view f)).Perm
      ((db'.projectEdges project').map (HumanEdge.view id))) :
    (db.projectEdges project).length ≤ 1000000 ∧ ((db.projectEdges project).map HumanEdge.key).Nodup ∧
      ∀ e ∈ db.projectEdges project,
        e.confidence = .finite 1 ∧ e.sourceFile = none ∧ e.CodeListed db := by
  have hids := listNodes_ids_nodup hw hlimit
  have hperm := listNodes_perm hlimit
  set L := db.listNodes project 100000 with hL
  set g : ℕ → ℕ := fun i => (renamed host project' noteClock L i).getD 0 with hg
  have hknown : ∀ e ∈ db.backupEdges project, e.Known (renamed host project' noteClock L) g :=
    fun e he => known_of_restored hw hlimit hres
      ((take_sublist _ _).mem (mem_of_mem_filter he))
  have hrestored := edgesRestored project' edgeClock (restoredNotes_wellFormed host project' noteClock L)
    hall.edges hknown
  have hgrown := (restoredEdges_grown project' (renamed host project' noteClock L) edgeClock
    (db.backupEdges project) (restoredNotes_wellFormed host project' noteClock L)).2
  rw [hdb'] at hrestored hgrown
  -- There are as many rows as edges.
  have hlen := hviews.length_eq
  rw [length_map, length_map] at hlen
  have hle1 : (db'.projectEdges project').length ≤ db'.edges.length := length_filter_le _ _
  have hle2 := hrestored.length_le
  have hle3 := length_backupEdges_le project db
  have hlimit' : (db.projectEdges project).length ≤ 1000000 := by omega
  have hexport := backupEdges_eq hw hlimit hlimit'
  have hcopied := hrestored.copied (by omega)
  rw [hexport] at hcopied
  refine ⟨hlimit', ?_, fun e he => ?_⟩
  · have hkeys := hrestored.keys
    rw [map_eq_of_forall₂ hcopied fun e _ row hc => hc.key] at hkeys
    refine Nodup.of_map (EdgeKey.rename project' g) ?_
    rwa [map_map]
  · have hmem : e.view f ∈ (db'.projectEdges project').map (HumanEdge.view id) :=
      hviews.mem_iff.mp (mem_map_of_mem he)
    obtain ⟨row, hrow, hview⟩ := mem_map.mp hmem
    have hrow' := mem_of_mem_filter hrow
    obtain ⟨d, -, hc⟩ := (exists_of_forall₂ hcopied).2 row hrow'
    refine ⟨(congrArg EdgeView.confidence hview).symm.trans hc.confidence,
      (congrArg EdgeView.sourceFile hview).symm.trans hc.sourceFile, fun x hx => ?_⟩
    have htarget : row.target = .code x := by
      have := congrArg EdgeView.target hview
      simp only [HumanEdge.view, rename_id, hx] at this
      exact this
    obtain ⟨q, rfl, hlist⟩ := hrestored.listed row hrow' x htarget
    refine ⟨q, rfl, fun hq n hn hid => ?_⟩
    have hp : n.project = project := by
      obtain ⟨hmem', hp⟩ := mem_filter.mp he
      obtain ⟨m, hm, hmi, hmp⟩ := hw.edgeSource e hmem'
      obtain rfl := hw.eq_of_id hn hm (hid.trans hmi.symm)
      exact hmp.trans (by simpa using hp)
    obtain ⟨n', hn', hid', hview'⟩ := hf n (mem_filter.mpr ⟨hn, by simpa using hp⟩)
    have hsource : row.source = f e.source := congrArg EdgeView.source hview
    have := hlist hq n' hn' (by rw [hid', hid, hsource])
    rwa [show n'.cbmNodeIds = n.cbmNodeIds from congrArg NoteView.cbmNodeIds hview'] at this

/-- **What comes back could be restored.** -/
theorem restorable_of_roundTrip (hw : db.WellFormed)
    (h : RoundTrip project project' db
      (importBackup host project' noteClock edgeClock (exportBackup project db) Db.empty)) :
    db.Restorable host noteClock project := by
  rw [importBackup_export] at h
  set L := db.listNodes project 100000 with hL
  set db1 := restoredNotes host project' noteClock L with hdb1
  set newId := renamed host project' noteClock L with hnewId
  set db' := restoredEdges project' newId edgeClock (db.backupEdges project) db1 with hdb'
  have hw1 : db1.WellFormed := restoredNotes_wellFormed _ _ _ _
  obtain ⟨hw', hgrown⟩ := restoredEdges_grown project' newId edgeClock (db.backupEdges project) hw1
  rw [← hdb'] at hw' hgrown
  obtain ⟨hviews, f, hf, hedgeViews⟩ := h
  -- There are as many rows as notes.
  have hlen := hviews.length_eq
  rw [length_map, length_map] at hlen
  have hle1 : (db'.projectNodes project').length ≤ db'.nodes.length := length_filter_le _ _
  have hle2 : db1.nodes.length ≤ L.length := length_restoredNotes_le _ _ _ _
  have hle3 : L.length ≤ 100000 := length_listNodes_le_limit
  have hle4 : L.length ≤ (db.projectNodes project).length := length_listNodes_le
  have hgl := hgrown.length_eq
  have hlimit : (db.projectNodes project).length ≤ 100000 := by omega
  have hslugs := listNodes_slugs_nodup hw hlimit
  have hids := listNodes_ids_nodup hw hlimit
  have hperm : L.Perm (db.projectNodes project) := listNodes_perm hlimit
  have hall : AllImported host project' noteClock L := allImported_of_length (by
    show db1.nodes.length = L.length
    omega)
  have hnodes : db'.projectNodes project' = db'.nodes :=
    filter_eq_self.mpr (length_filter_eq_length_iff.mp (by
      have : (db'.projectNodes project').length = db'.nodes.length := by omega
      exact this))
  rw [hnodes] at hviews hf
  -- The slugs are the same, so each note keeps its own.
  have hsame : L.map HumanNode.slug = db1.nodes.map HumanNode.slug := by
    refine slugs_eq_of_perm hslugs hall ?_
    have hslugViews := hviews.map NoteView.slug
    rw [map_map, map_map] at hslugViews
    rw [← map_eq_of_forall₂ (g := HumanNode.slug) (k := HumanNode.slug) hgrown
      fun r _ r' hr => congrArg (fun k => k.2.2) hr.keys]
    exact (hperm.map _).trans hslugViews
  have hres : List.Forall₂ (HumanNode.Restored project') L db1.nodes := forall₂_restored hall.copied hsame
  have hconf : ∀ n ∈ L, n.confidence = .finite 1 ∧ n.sourceFile = none := by
    intro n hn
    obtain ⟨r', hr', hview⟩ := hf n (hperm.mem_iff.mp hn)
    obtain ⟨r, hr, hg⟩ := (exists_of_forall₂ hgrown).2 r' hr'
    obtain ⟨m, -, hm⟩ := (exists_of_forall₂ hres).2 r hr
    have hc : n.confidence = r.confidence :=
      (congrArg NoteView.confidence hview.2).symm.trans (congrArg NoteView.confidence hg.view)
    have hs : n.sourceFile = r.sourceFile :=
      (congrArg NoteView.sourceFile hview.2).symm.trans (congrArg NoteView.sourceFile hg.view)
    exact ⟨hc.trans hm.1.confidence, hs.trans hm.1.sourceFile⟩
  have hedges := edges_of_roundTrip hw hlimit hall hres hdb'.symm hf hedgeViews
  exact
    { nodeLimit := hlimit
      notes := restorable_of_slugs hslugs hall hsame (fun n hn => (hconf n hn).1) fun n hn => (hconf n hn).2
      edgeLimit := hedges.1
      keys := hedges.2.1
      confidence := fun e he => (hedges.2.2 e he).1
      sourceFile := fun e he => (hedges.2.2 e he).2.1
      code := fun e he => (hedges.2.2 e he).2.2 }

/-- **The round trip** of a backup: the notes and edges of a project come back exactly when each of them
can be restored. -/
theorem backup_round_trip (hw : db.WellFormed) :
    RoundTrip project project' db
        (importBackup host project' noteClock edgeClock (exportBackup project db) Db.empty) ↔
      db.Restorable host noteClock project :=
  ⟨restorable_of_roundTrip hw, roundTrip_of_restorable hw⟩

end Law

/-! ## A note with a confidence -/

/-- A database with one note. -/
def oneNoteDb (confidence : Num) : Db where
  nodes :=
    [{ id := 1
       project := "app".toList
       label := .ADR
       title := "Use queues".toList
       slug := "use-queues".toList
       bodyMarkdown := "Because.".toList
       frontmatter := .nil
       status := .active
       source := .human
       obsidianPath := some "ADR/use-queues.md".toList
       cbmJson := []
       tags := []
       confidence := confidence
       sourceFile := none
       author := none
       createdAt := 0
       updatedAt := 0
       lastSyncedAt := none }]
  edges := []
  links := []
  nextNode := 2
  nextEdge := 1

theorem oneNoteDb_wellFormed (c : Num) : (oneNoteDb c).WellFormed := by
  constructor <;> simp [oneNoteDb]

/-- A confidence of zero does not come back. -/
theorem backup_loses_confidence :
    ¬ RoundTrip "app".toList "app".toList (oneNoteDb (.finite 0))
      (importBackup asciiHost "app".toList (fun _ => 0) (fun _ => 0)
        (exportBackup "app".toList (oneNoteDb (.finite 0))) Db.empty) := by
  intro h
  have hr := restorable_of_roundTrip (oneNoteDb_wellFormed _) h
  have hlist : (oneNoteDb (.finite 0)).listNodes "app".toList 100000 =
      [] ++ (oneNoteDb (.finite 0)).nodes.head (by simp [oneNoteDb]) :: [] := by
    simp [Db.listNodes, oneNoteDb]
  exact absurd (hr.notes _ _ _ hlist).confidence (by decide)

/-- The law for a note that comes back. -/
theorem backup_round_trip_one :
    RoundTrip "app".toList "app".toList (oneNoteDb (.finite 1))
      (importBackup asciiHost "app".toList (fun _ => 0) (fun _ => 0)
        (exportBackup "app".toList (oneNoteDb (.finite 1))) Db.empty) := by
  refine (backup_round_trip (oneNoteDb_wellFormed _)).mpr ?_
  refine { nodeLimit := ?_, notes := ?_, edgeLimit := ?_, keys := ?_, confidence := ?_, sourceFile := ?_, code := ?_ }
  · exact (length_filter_le _ _).trans (by decide)
  · intro before n after heq
    have hlist : (oneNoteDb (.finite 1)).listNodes "app".toList 100000 =
        [(oneNoteDb (.finite 1)).nodes.head (by simp [oneNoteDb])] := by
      simp [Db.listNodes, oneNoteDb]
    rw [hlist] at heq
    obtain ⟨rfl, rfl, rfl⟩ : before = [] ∧ n = (oneNoteDb (.finite 1)).nodes.head (by simp [oneNoteDb]) ∧
        after = [] := by
      cases before with
      | nil => simpa [eq_comm] using heq
      | cons b bs => simp at heq
    refine ⟨by decide, by decide, ⟨0, by decide, by decide, by simp⟩, by simp, by decide, by decide⟩
  all_goals simp [Db.projectEdges, oneNoteDb]

end Ariad.Human
