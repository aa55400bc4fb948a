import Ariad.Human.StoreLaws
import Ariad.Indexer.NodeRows
import Ariad.Indexer.Gates

/-!
# What links lead to

Row ids come back: an index run deletes rows, and counts the ids of new ones on from the greatest id that is left.

* `LinkWorld.Named` — an id with a name that it has, or had when a link to it was made.
* `LinkWorld.Identified` — an id has one name.
* `NumbersAbove` — the condition on the writes of index runs.
* `links_resolve` — under it, a link leads to a node of the name that it was made for, or to none.
* `LinkWorld` — both databases, and the links that were made; `linkMachine` — the operations on them.
-/

open List

namespace Ariad.Human

/-! ## Links from notes to code -/

variable {φ χ δ : Type}

/-- A link, with the qualified name of its node when it was made. -/
structure Link where
  id : Num
  qualifiedName : Option Text
  deriving DecidableEq

structure LinkWorld (φ χ δ : Type) where
  index : IndexWorld φ χ δ
  rows : List NodeRow
  /-- The rows of the active generation. -/
  activeRows : Option (List NodeRow)
  human : Db
  made : List Link

namespace LinkWorld

/-- Nothing is linked yet. -/
def start (index : IndexWorld φ χ δ) (rows : List NodeRow) : LinkWorld φ χ δ := ⟨index, rows, none, .empty, []⟩

variable (w : LinkWorld φ χ δ)

/-- The rows that a reader is given: those of the active generation if there is one. -/
def served : List NodeRow := w.activeRows.getD w.rows

/-- `SELECT * FROM nodes WHERE id = ?` -/
def resolve (x : Num) : Option NodeRow := w.served.find? fun r => Num.finite r.id = x

/-- The links to the nodes with these ids. -/
def linksTo (ids : List Num) : List Link := ids.map fun x => ⟨x, (w.resolve x).map NodeRow.qualifiedName⟩

/-- The human database after a call that has linked these ids. -/
def link (human : Db) (ids : List Num) : LinkWorld φ χ δ := { w with human, made := w.made ++ w.linksTo ids }

end LinkWorld

/-- The id stands in the database as a link to code. -/
def Db.CodeId (db : Db) (x : Num) : Prop :=
  (∃ n ∈ db.nodes, x ∈ n.cbmNodeIds) ∨ (∃ l ∈ db.links, l.2 = x) ∨ ∃ e ∈ db.edges, e.target = .code x

/-- The ids that an edge links. -/
def EdgeTarget.codeIds : EdgeTarget → List Num
  | .code x => [x]
  | .human _ => []

/-! ## Index runs -/

section

variable [DecidableEq φ] (S : SymbolExtractor φ χ δ) (project : Text)

/-- What an operation that does not fail does to the rows. -/
def IndexOp.runRows (w : LinkWorld φ χ δ) : IndexOp φ χ δ → LinkWorld φ χ δ
  | .write u => { w with rows := u.runNodes S project w.rows }
  | .publishGenerationSnapshot => { w with activeRows := some w.rows }
  | _ => w

def linkMachine : Machine (IndexOp φ χ δ) IndexOp.Val IndexFault (LinkWorld φ χ δ) (IndexChoice χ) where
  exec := fun _ o ch w =>
    let (r, index) := o.exec S.toExtractor ch w.index
    (r, { (if ch.fails then w else IndexOp.runRows S project w o) with index })
  kill := fun _ w => w

end

/-! ## Between index runs -/

/-- A call of the store that returns, or edits of the source tree. -/
inductive Between (host : Host) (w : LinkWorld φ χ δ) : LinkWorld φ χ δ → Prop where
  | createNode {input : CreateHumanNodeInput} {now : ℕ} {row : HumanNode} {db : Db} :
    createNode host input now w.human = .ok (row, db) →
      Between host w (w.link db (input.cbmNodeIds.getD []))
  | updateNode {id : ℕ} {input : UpdateHumanNodeInput} {now : ℕ} {row : Option HumanNode} {db : Db} :
    updateNode id input now w.human = .ok (row, db) →
      Between host w (w.link db (if row.isSome then input.cbmNodeIds.getD [] else []))
  -- an edge that is there already is returned as it is, and links nothing anew
  | createEdge {input : CreateHumanEdgeInput} {now : ℕ} {row : HumanEdge} {db : Db} :
    createEdge input now w.human = .ok (row, db) →
      Between host w (w.link db (if row ∈ w.human.edges then [] else row.target.codeIds))
  | edit (writes : List (AbsPath × Option (SourceFile χ))) : Between host w { w with index := w.index.edited writes }

end Ariad.Human

namespace Ariad.Human

variable {φ χ δ : Type} {S : SymbolExtractor φ χ δ} {project : Text} {host : Host} {w w' : LinkWorld φ χ δ}
  {x : Num} {q q' : Text} {db db' : Db}

/-- Every id that links to code stands for a link that was made, and leads to a node of the name that its node had
then, or to none. -/
def LinkLaw (w : LinkWorld φ χ δ) : Prop :=
  ∀ x, w.human.CodeId x → (∃ l ∈ w.made, l.id = x) ∧
    ∀ q, ⟨x, some q⟩ ∈ w.made → ∀ row, w.resolve x = some row → row.qualifiedName = q

/-- The row id that a link may stand for. -/
def rowId : Num → Option ℕ
  | .finite q => if q.den = 1 ∧ 0 ≤ q.num then some q.num.toNat else none
  | _ => none

variable {index : IndexWorld φ χ δ} {rows : List NodeRow}

theorem rowId_finite (i : ℕ) : rowId (.finite i) = some i := by
  rw [rowId, if_pos ⟨Rat.den_natCast i, Int.natCast_nonneg i⟩, Rat.num_natCast, Int.toNat_natCast]

/-- The ids of the links and those of the active generation, which may still be linked. -/
def LinkWorld.knownIds (w : LinkWorld φ χ δ) : List ℕ :=
  w.made.filterMap (fun l => rowId l.id) ++ (w.activeRows.getD []).map NodeRow.id

/-- The condition: when a write gives out ids, it counts on from a row that is not below any known id. -/
def NumbersAbove (S : SymbolExtractor φ χ δ) (project : Text) (_ : IndexOptions φ) (o : IndexOp φ χ δ)
    (_ : IndexChoice χ) (w : LinkWorld φ χ δ) : Prop :=
  match o with
  | .write u => u.inserted S ≠ [] → ∀ i ∈ w.knownIds, ∃ row ∈ u.numberedFrom project w.rows, i ≤ row.id
  | _ => True

namespace LinkWorld

/-- The id has the name, or had it when a link was made. -/
def Named (w : LinkWorld φ χ δ) (x : Num) (q : Text) : Prop :=
  ⟨x, some q⟩ ∈ w.made ∨ (∃ r ∈ w.rows, Num.finite r.id = x ∧ r.qualifiedName = q) ∨
    ∃ r ∈ w.activeRows.getD [], Num.finite r.id = x ∧ r.qualifiedName = q

/-- An id has one name, and those that link to code were linked. -/
structure Identified (w : LinkWorld φ χ δ) : Prop where
  wellFormed : w.human.WellFormed
  linked : ∀ x, w.human.CodeId x → ∃ l ∈ w.made, l.id = x
  ids : (w.rows.map NodeRow.id).Nodup
  same : ∀ x q q', w.Named x q → w.Named x q' → q = q'

/-- The node that an id leads to has the name. -/
theorem named_of_resolve {row : NodeRow} (h : w.resolve x = some row) : w.Named x row.qualifiedName := by
  have hmem : row ∈ w.served := mem_of_find?_eq_some h
  have hid : Num.finite row.id = x := by simpa using find?_some h
  rw [served] at hmem
  cases hactive : w.activeRows with
  | none =>
    rw [hactive] at hmem
    exact .inr (.inl ⟨row, hmem, hid, rfl⟩)
  | some rows =>
    rw [hactive] at hmem
    refine .inr (.inr ⟨row, ?_, hid, rfl⟩)
    rw [hactive]
    exact hmem

theorem Identified.linkLaw (hs : w.Identified) : LinkLaw w :=
  fun x hx => ⟨hs.linked x hx, fun _ hmade _ hrow => hs.same x _ _ (named_of_resolve hrow) (.inl hmade)⟩

/-! ## Index runs -/

theorem rows_eq_of_id (h : (rows.map NodeRow.id).Nodup) {r r' : NodeRow} (hr : r ∈ rows)
    (hr' : r' ∈ rows) (hid : Num.finite r.id = Num.finite r'.id) : r = r' := by
  have hid' : (r.id : ℚ) = r'.id := Num.finite.inj hid
  exact inj_on_of_nodup_map h hr hr' (Nat.cast_injective hid')

/-- A write that counts on from above the ids that are known. -/
theorem Identified.write [DecidableEq φ] (hs : w.Identified) {u : DbWrite φ χ δ} {opts : IndexOptions φ}
    {ch : IndexChoice χ} (h : NumbersAbove S project opts (.write u) ch w) :
    Identified { w with rows := u.runNodes S project w.rows, index } := by
  have hids : ((u.runNodes S project w.rows).map NodeRow.id).Nodup := DbWrite.runNodes_nodup u hs.ids
  refine ⟨hs.wellFormed, hs.linked, hids, ?_⟩
  -- a row of a new id bears no id that a link or the active generation has
  have hnew {r : NodeRow} (hr : NodeRow.maxId (u.numberedFrom project w.rows) < r.id ∧ u.inserted S ≠ [])
      (hknown : r.id ∈ w.knownIds) : False := by
    obtain ⟨row, hrow, hle⟩ := h hr.2 r.id hknown
    exact absurd (hle.trans (NodeRow.id_le_maxId hrow)) (Nat.not_le_of_lt hr.1)
  have hother {x : Num} {q q' : Text} {r : NodeRow} (hr : r ∈ u.runNodes S project w.rows)
      (hid : Num.finite r.id = x) (hq : r.qualifiedName = q)
      (hknown : ⟨x, some q'⟩ ∈ w.made ∨ ∃ r' ∈ w.activeRows.getD [], Num.finite r'.id = x ∧ r'.qualifiedName = q') :
      q = q' := by
    rcases DbWrite.mem_runNodes hr with hold | hfresh
    · exact hs.same x q q' (.inr (.inl ⟨r, hold, hid, hq⟩)) (hknown.imp_right .inr)
    · refine (hnew hfresh ?_).elim
      rcases hknown with hmade | ⟨r', hr', hid', -⟩
      · refine mem_append_left _ (mem_filterMap.mpr ⟨_, hmade, ?_⟩)
        rw [← hid]
        exact rowId_finite r.id
      · have hcast : (r'.id : ℚ) = r.id := Num.finite.inj (hid'.trans hid.symm)
        exact mem_append_right _ (mem_map.mpr ⟨r', hr', Nat.cast_injective hcast⟩)
  rintro x q q' (hmade | ⟨r, hr, hid, hq⟩ | hactive) (hmade' | ⟨r', hr', hid', hq'⟩ | hactive')
  · exact hs.same x q q' (.inl hmade) (.inl hmade')
  · exact (hother hr' hid' hq' (.inl hmade)).symm
  · exact hs.same x q q' (.inl hmade) (.inr (.inr hactive'))
  · exact hother hr hid hq (.inl hmade')
  · exact hq.symm.trans ((rows_eq_of_id hids hr hr' (hid.trans hid'.symm)) ▸ hq')
  · exact hother hr hid hq (.inr hactive')
  · exact hs.same x q q' (.inr (.inr hactive)) (.inl hmade')
  · exact (hother hr' hid' hq' (.inr hactive)).symm
  · exact hs.same x q q' (.inr (.inr hactive)) (.inr (.inr hactive'))

/-- The rows of the table become those of the active generation. -/
theorem Identified.publish (hs : w.Identified) : Identified { w with activeRows := some w.rows, index } := by
  refine ⟨hs.wellFormed, hs.linked, hs.ids, fun x q q' h h' => hs.same x q q' ?_ ?_⟩
  · exact h.imp_right fun h => .inl (h.elim id id)
  · exact h'.imp_right fun h' => .inl (h'.elim id id)

theorem Identified.exec [DecidableEq φ] (hs : w.Identified) {opts : IndexOptions φ} {o : IndexOp φ χ δ}
    {ch : IndexChoice χ} (h : NumbersAbove S project opts o ch w) : ((linkMachine S project).exec 0 o ch w).2.Identified := by
  have hsame {index : IndexWorld φ χ δ} : Identified { w with index } := ⟨hs.wellFormed, hs.linked, hs.ids, hs.same⟩
  simp only [linkMachine]
  split
  · exact hsame
  · cases o with
    | write u => exact hs.write h
    | publishGenerationSnapshot => exact hs.publish
    | assertDiscoveryRoot => exact hsame
    | discoverSourceFiles => exact hsame
    | statFile => exact hsame
    | readFile => exact hsame
    | read => exact hsame

/-! ## Calls of the store -/

theorem codeId_withNode {row : HumanNode} {ids : List Num} (hrow : row.cbmJson = ids.map jsonNum)
    (h : (db.withNode row ids).CodeId x) : db.CodeId x ∨ x ∈ ids := by
  rcases h with ⟨n, hn, hx⟩ | ⟨l, hl, rfl⟩ | hedge
  · rcases mem_append.mp hn with hn | hn
    · exact .inl (.inl ⟨n, hn, hx⟩)
    · obtain rfl := mem_singleton.mp hn
      rw [cbmNodeIds_of_json hrow] at hx
      exact .inr (mem_filter.mp hx).1
  · rcases mem_links_syncCbmLinks.mp hl with ⟨hl, -⟩ | ⟨-, hl, -⟩
    · exact .inl (.inr (.inl ⟨l, hl, rfl⟩))
    · exact .inr hl
  · exact .inl (.inr (.inr hedge))

theorem codeId_withUpdate {id now : ℕ} {input : UpdateHumanNodeInput} (h : (db.withUpdate id input now).CodeId x) :
    db.CodeId x ∨ x ∈ input.cbmNodeIds.getD [] := by
  rcases h with ⟨n, hn, hx⟩ | ⟨l, hl, rfl⟩ | hedge
  · rw [withUpdate_nodes] at hn
    rcases Rows.mem_modify.mp hn with ⟨hm, -⟩ | ⟨m, hm, -, rfl⟩
    · exact .inl (.inl ⟨n, hm, hx⟩)
    · cases hids : input.cbmNodeIds with
      | none =>
        refine .inl (.inl ⟨m, hm, ?_⟩)
        rw [HumanNode.cbmNodeIds, UpdateHumanNodeInput.apply, hids] at hx
        exact hx
      | some ids =>
        have hjson : (input.apply now m).cbmJson = ids.map jsonNum := by
          rw [UpdateHumanNodeInput.apply, hids]
          rfl
        rw [cbmNodeIds_of_json hjson] at hx
        exact .inr (mem_filter.mp hx).1
  · unfold Db.withUpdate at hl
    cases hids : input.cbmNodeIds with
    | none =>
      rw [hids] at hl
      exact .inl (.inr (.inl ⟨l, hl, rfl⟩))
    | some ids =>
      rw [hids] at hl
      rcases mem_links_syncCbmLinks.mp hl with ⟨hl, -⟩ | ⟨-, hl, -⟩
      · exact .inl (.inr (.inl ⟨l, hl, rfl⟩))
      · exact .inr hl
  · rw [withUpdate_edges] at hedge
    exact .inl (.inr (.inr hedge))

theorem codeId_linkCode {source : ℕ} {y : Num} (hw : (db.nodes.map HumanNode.id).Nodup)
    (h : (db.linkCode source y).CodeId x) : db.CodeId x ∨ x = y := by
  rcases h with ⟨n, hn, hx⟩ | ⟨l, hl, rfl⟩ | hedge
  · rw [linkCode_nodes hw] at hn
    rcases Rows.mem_modify.mp hn with ⟨hm, -⟩ | ⟨m, hm, -, rfl⟩
    · exact .inl (.inl ⟨n, hm, hx⟩)
    · exact (mem_cbmNodeIds_addCbmId.mp hx).imp (fun hx => .inl ⟨m, hm, hx⟩) And.left
  · cases hsource : db.getNodeById source with
    | none =>
      rw [Db.linkCode, hsource] at hl
      exact .inl (.inr (.inl ⟨l, hl, rfl⟩))
    | some n =>
      rcases (mem_links_linkCode (hsource ▸ rfl)).mp hl with hl | rfl
      · exact .inl (.inr (.inl ⟨l, hl, rfl⟩))
      · exact .inr rfl
  · rw [linkCode_edges] at hedge
    exact .inl (.inr (.inr hedge))

theorem codeId_withEdge {row : HumanEdge} (hw : db.WellFormed) (h : (db.withEdge row).CodeId x) :
    db.CodeId x ∨ x ∈ row.target.codeIds := by
  have hmore (h : Db.CodeId { db with edges := db.edges ++ [row], nextEdge := db.nextEdge + 1 } x) :
      db.CodeId x ∨ x ∈ row.target.codeIds := by
    rcases h with hnode | hlink | ⟨e, he, htarget⟩
    · exact .inl (.inl hnode)
    · exact .inl (.inr (.inl hlink))
    · rcases mem_append.mp he with he | he
      · exact .inl (.inr (.inr ⟨e, he, htarget⟩))
      · obtain rfl := mem_singleton.mp he
        rw [htarget]
        exact .inr (mem_singleton_self x)
  rw [Db.withEdge] at h
  split at h
  · rename_i y hy
    have hnodes : (Db.nodes { db with edges := db.edges ++ [row], nextEdge := db.nextEdge + 1 }).map HumanNode.id =
      db.nodes.map HumanNode.id := rfl
    rcases codeId_linkCode (hnodes ▸ hw.nodeIds) h with h | rfl
    · exact hmore h
    · rw [hy]
      exact .inr (mem_singleton_self _)
  · exact hmore h

/-- The links of a call lead to nodes that are there. -/
theorem Identified.link (hs : w.Identified) {ids : List Num} (hw : db.WellFormed)
    (hcode : ∀ x, db.CodeId x → w.human.CodeId x ∨ x ∈ ids) : (w.link db ids).Identified := by
  have hnamed {x : Num} {q : Text} (h : (w.link db ids).Named x q) : w.Named x q := by
    rcases h with hmade | hrows
    · rcases mem_append.mp hmade with hmade | hmade
      · exact .inl hmade
      · obtain ⟨y, -, hy⟩ := mem_map.mp hmade
        obtain ⟨rfl, hname⟩ := Link.mk.inj hy
        obtain ⟨row, hrow, rfl⟩ := Option.map_eq_some_iff.mp hname
        exact named_of_resolve hrow
    · exact .inr hrows
  refine ⟨hw, fun x hx => ?_, hs.ids, fun x q q' h h' => hs.same x q q' (hnamed h) (hnamed h')⟩
  rcases hcode x hx with hx | hx
  · obtain ⟨l, hl, hid⟩ := hs.linked x hx
    exact ⟨l, mem_append_left _ hl, hid⟩
  · exact ⟨_, mem_append_right _ (mem_map_of_mem hx), rfl⟩

theorem Identified.between (hs : w.Identified) (h : Between host w w') : w'.Identified := by
  cases h with
  | createNode h =>
    refine hs.link (createNode_wellFormed hs.wellFormed h) fun x hx => ?_
    obtain ⟨attempt, -, rfl, rfl⟩ := createNode_ok h
    exact codeId_withNode rfl hx
  | @updateNode id input now row _ h =>
    refine hs.link (updateNode_wellFormed hs.wellFormed h) fun x hx => ?_
    rcases updateNode_ok h with ⟨rfl, -⟩ | ⟨⟨n, hn⟩, -, rfl, hr⟩
    · exact .inl hx
    · rcases codeId_withUpdate hx with hx | hx
      · exact .inl hx
      · have hfound : row.isSome = true := by
          rw [hr, Db.getNodeById, withUpdate_nodes, Rows.get_modify_self (f := input.apply now) fun _ => rfl]
          exact Option.isSome_map.trans (Option.isSome_iff_exists.mpr ⟨n, hn⟩)
        rw [if_pos hfound]
        exact .inr hx
  | createEdge h =>
    refine hs.link (createEdge_wellFormed hs.wellFormed h) fun x hx => ?_
    obtain ⟨target, hc, ⟨-, rfl⟩ | ⟨-, -, rfl, rfl⟩⟩ := createEdge_ok h
    · exact .inl hx
    · rcases codeId_withEdge hs.wellFormed hx with hx | hx
      · exact .inl hx
      · rw [if_neg fun hmem => absurd (hs.wellFormed.edgeFresh _ hmem) (lt_irrefl _)]
        exact .inr hx
  | edit writes => exact ⟨hs.wellFormed, hs.linked, hs.ids, hs.same⟩

theorem identified_start (hids : (rows.map NodeRow.id).Nodup) : (start index rows).Identified := by
  refine ⟨.empty, fun x hx => ?_, hids, fun x q q' h h' => ?_⟩
  · rcases hx with ⟨n, hn, -⟩ | ⟨l, hl, -⟩ | ⟨e, he, -⟩
    · cases hn
    · cases hl
    · cases he
  · rcases h with hmade | ⟨r, hr, hid, rfl⟩ | ⟨r, hr, -⟩
    · cases hmade
    · rcases h' with hmade | ⟨r', hr', hid', rfl⟩ | ⟨r', hr', -⟩
      · cases hmade
      · rw [rows_eq_of_id hids hr hr' (hid.trans hid'.symm)]
      · cases hr'
    · cases hr

end LinkWorld

/-! ## Histories -/

section

variable [DecidableEq φ] [DecidableEq δ]

/-- The history of a project: index runs, and what happens between them. -/
def History (S : SymbolExtractor φ χ δ) (project : Text) (host : Host)
    (A : IndexOptions φ → IndexOp φ χ δ → IndexChoice χ → LinkWorld φ χ δ → Prop) (w₀ : LinkWorld φ χ δ)
    (runs : List (IndexOptions φ × Option (Except IndexFault IndexResult × PUnit))) (w : LinkWorld φ χ δ) : Prop :=
  Sequence (linkMachine S project) 0 (fun opts => indexProjectWasm S.toExtractor opts ⟨⟩) A (Between host) w₀ runs w

end

/-! ## An id that comes back -/

instance (S : SymbolExtractor φ χ δ) (project : Text) (opts : IndexOptions φ) (ch : IndexChoice χ)
    (w : LinkWorld φ χ δ) : (o : IndexOp φ χ δ) → Decidable (NumbersAbove S project opts o ch w)
  | .write u => inferInstanceAs (Decidable (u.inserted S ≠ [] → _))
  | .assertDiscoveryRoot _ => isTrue trivial
  | .discoverSourceFiles _ _ => isTrue trivial
  | .statFile _ => isTrue trivial
  | .readFile _ => isTrue trivial
  | .read _ => isTrue trivial
  | .publishGenerationSnapshot => isTrue trivial

/-- Every text holds one symbol, named by a letter. -/
def letterExtractor : SymbolExtractor ℕ ℕ ℕ :=
  { plainExtractor with
    symbols := fun _ c => [[Char.ofNat ('a'.toNat + c)]]
    yields_nodes := fun _ _ => rfl }

/-- A full run in which nothing fails. -/
def fullIndex (w : LinkWorld ℕ ℕ ℕ) : (Except IndexFault IndexResult × PUnit) × LinkWorld ℕ ℕ ℕ :=
  (indexProjectWasm letterExtractor.toExtractor (wholeRoot false false 1) ⟨⟩).follow (linkMachine letterExtractor ['p']) 0
    (fun _ _ => ⟨false, [], shown true, 2⟩) w

theorem fullIndex_leads {A : IndexOp ℕ ℕ ℕ → IndexChoice ℕ → LinkWorld ℕ ℕ ℕ → Prop} [∀ o ch w, Decidable (A o ch w)]
    (w : LinkWorld ℕ ℕ ℕ)
    (h : (indexProjectWasm letterExtractor.toExtractor (wholeRoot false false 1) ⟨⟩).allows (linkMachine letterExtractor ['p'])
      0 (fun _ _ => ⟨false, [], shown true, 2⟩) A w = true) :
    (indexProjectWasm letterExtractor.toExtractor (wholeRoot false false 1) ⟨⟩).Leads (linkMachine letterExtractor ['p']) 0 A
      w (some (fullIndex w).1) (fullIndex w).2 := Prog.follow_leads_of_allows _ _ _ _ _ h

def noteOn (x : Num) : CreateHumanNodeInput where
  project := ['p']
  label := .ADR
  title := ['n']
  cbmNodeIds := some [x]

/-- The human database with the note. -/
def notedDb (x : Num) : Db :=
  match createNode asciiHost (noteOn x) 0 .empty with
  | .ok (_, db) => db
  | .error _ => .empty

/-- The project is indexed and the note is made; then the file is written anew. -/
def noted (x : Num) (rows : List NodeRow) : LinkWorld ℕ ℕ ℕ := (fullIndex (.start unindexedWorld rows)).2.link (notedDb x) [x]

def rewritten (x : Num) (rows : List NodeRow) : LinkWorld ℕ ℕ ℕ :=
  { noted x rows with index := (noted x rows).index.edited [(Discovery.linkedFile, some ⟨8, 2, 1⟩)] }

theorem createNode_noteOn {x : Num} (h : (createNode asciiHost (noteOn x) 0 .empty).toOption.isSome = true) :
    ∃ row, createNode asciiHost (noteOn x) 0 .empty = .ok (row, notedDb x) := by
  rw [notedDb]
  cases hcreate : createNode asciiHost (noteOn x) 0 .empty with
  | ok r => exact ⟨r.1, rfl⟩
  | error e =>
    rw [hcreate] at h
    cases h

/-- The note is made behind the first run, and the file is written behind the note. -/
theorem history_rewritten {A : IndexOptions ℕ → IndexOp ℕ ℕ ℕ → IndexChoice ℕ → LinkWorld ℕ ℕ ℕ → Prop} {x : Num} {runs : List (IndexOptions ℕ × Option (Except IndexFault IndexResult × PUnit))}
    (hrun : History letterExtractor ['p'] asciiHost A (.start unindexedWorld rows) runs
      (fullIndex (.start unindexedWorld rows)).2)
    (hcreated : (createNode asciiHost (noteOn x) 0 .empty).toOption.isSome = true)
    (hhuman : (fullIndex (.start unindexedWorld rows)).2.human = .empty) :
    History letterExtractor ['p'] asciiHost A (.start unindexedWorld rows) runs (rewritten x rows) := by
  obtain ⟨row, hrow⟩ := createNode_noteOn hcreated
  rw [← hhuman] at hrow
  have hnoted : Between asciiHost (fullIndex (.start unindexedWorld rows)).2 (noted x rows) := .createNode hrow
  have hedited : Between asciiHost (noted x rows) (rewritten x rows) := .edit [(Discovery.linkedFile, some ⟨8, 2, 1⟩)]
  exact .between (.between hrun hnoted) hedited

/-- A row of another project keeps the ids above it. -/
def otherRows : List NodeRow := [⟨9, ['o'], ['z'], ["z.ts"]⟩]

end Ariad.Human
