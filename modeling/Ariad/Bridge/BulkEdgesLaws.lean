import Ariad.Bridge.BulkEdges

/-!
# The sample is bounded, maximal and connected

* `mem_visibleRows`, `nodup_visibleRows` — the rows are the edges between the nodes, each once.
* `HasRoom`, `Capped` — the caps on the edges of a node.
* `ForestInv`, `FillInv` — what holds in the two loops: a row that was not admitted has no room, now and later.
* `BulkEdgesExact` — what a result says; `getBulkEdgesWithStats_iff`: when it does.
-/

namespace Ariad.Bridge

open Keyset PlainObject UnionFind List OrderedMap

/-! ## Keys -/

variable {forest : List EdgeTriple}

theorem append_cons_inj {c : Char} {x x' z z' : Text} (hx : c ∉ x) (hx' : c ∉ x') (h : x ++ c :: z = x' ++ c :: z') :
    x = x' ∧ z = z' := by
  induction x generalizing x' with
  | nil =>
    cases x' with
    | nil => exact ⟨rfl, (List.cons.inj h).2⟩
    | cons d x' => exact absurd ((List.cons.inj h).1 ▸ mem_cons_self) hx'
  | cons d x ih =>
    cases x' with
    | nil => exact absurd ((List.cons.inj h).1 ▸ mem_cons_self) hx
    | cons d' x' =>
      obtain ⟨rfl, hrest⟩ := List.cons.inj h
      obtain ⟨rfl, rfl⟩ := ih (fun hc => hx (mem_cons_of_mem _ hc)) (fun hc => hx' (mem_cons_of_mem _ hc)) hrest
      exact ⟨rfl, rfl⟩

theorem dash_notMem_toDigits (n : ℕ) : '-' ∉ Nat.toDigits 10 n := fun h =>
  absurd (Nat.isDigit_of_mem_toDigits (by omega) (by omega) h) (by decide)

theorem toDigits_injective {m n : ℕ} (h : Nat.toDigits 10 m = Nat.toDigits 10 n) : m = n := by
  have hvalue (n : ℕ) := Nat.ofDigitChars_toDigits (b := 10) (n := n) (by omega) (by omega)
  rw [← hvalue m, h, hvalue]

theorem edgeKey_injective {a b : EdgeTriple} (h : edgeKey a = edgeKey b) : a = b := by
  obtain ⟨hsource, hrest⟩ := append_cons_inj (dash_notMem_toDigits _) (dash_notMem_toDigits _) h
  obtain ⟨htarget, htype⟩ := append_cons_inj (dash_notMem_toDigits _) (dash_notMem_toDigits _) hrest
  cases a
  cases b
  rw [EdgeTriple.mk.injEq]
  exact ⟨toDigits_injective hsource, toDigits_injective htarget, htype⟩

theorem edgeKey_mem_iff {rows : List EdgeTriple} {row : EdgeTriple} :
    edgeKey row ∈ (rows.map edgeKey).toFinset ↔ row ∈ rows := by
  rw [mem_toFinset, mem_map]
  constructor
  · rintro ⟨row', hrow, hkey⟩
    exact edgeKey_injective hkey ▸ hrow
  · exact fun h => ⟨row, h, rfl⟩

/-! ## Rows -/

section Rows

variable {g : CodeGraph} {nodeIds : List ℕ}

/-- An edge between two of the nodes. -/
def Induced (g : CodeGraph) (nodeIds : List ℕ) (row : EdgeTriple) : Prop :=
  row.sourceId ∈ nodeIds ∧ row.targetId ∈ nodeIds ∧
    ∃ e ∈ g.edges, e.sourceId = row.sourceId ∧ e.targetId = row.targetId ∧ e.type = row.type

theorem foldl_seeRow (rows : List EdgeTriple) {s : Finset Text × List EdgeTriple}
    (hkeys : s.1 = (s.2.map edgeKey).toFinset) (hnodup : s.2.Nodup) :
    (rows.foldl seeRow s).2.Nodup ∧ ∀ row, row ∈ (rows.foldl seeRow s).2 ↔ row ∈ s.2 ∨ row ∈ rows := by
  induction rows generalizing s with
  | nil => exact ⟨hnodup, fun row => by simp⟩
  | cons r rows ih =>
    rw [foldl_cons, seeRow, hkeys]
    by_cases hseen : r ∈ s.2
    · rw [if_pos (edgeKey_mem_iff.mpr hseen)]
      obtain ⟨hrest, hmem⟩ := ih hkeys hnodup
      refine ⟨hrest, fun row => ?_⟩
      rw [hmem, mem_cons]
      constructor
      · exact fun h => h.imp_right .inr
      · rintro (h | rfl | h)
        · exact .inl h
        · exact .inl hseen
        · exact .inr h
    · rw [if_neg (edgeKey_mem_iff.not.mpr hseen)]
      have hinsert : insert (edgeKey r) (s.2.map edgeKey).toFinset = ((s.2 ++ [r]).map edgeKey).toFinset := by
        ext key
        simp [or_comm]
      obtain ⟨hrest, hmem⟩ := ih (s := (insert (edgeKey r) (s.2.map edgeKey).toFinset, s.2 ++ [r]))
        hinsert (List.nodup_append.mpr ⟨hnodup, nodup_singleton r, by
          intro a ha b hb hab
          exact hseen (mem_singleton.mp hb ▸ hab ▸ ha)⟩)
      refine ⟨hrest, fun row => ?_⟩
      rw [hmem, mem_append, mem_singleton, mem_cons, or_assoc]

theorem mem_outRows {chunk : List ℕ} {row : EdgeTriple} : row ∈ outRows g nodeIds chunk ↔
    row.sourceId ∈ chunk ∧ row.targetId ∈ nodeIds ∧
      ∃ e ∈ g.edges, e.sourceId = row.sourceId ∧ e.targetId = row.targetId ∧ e.type = row.type := by
  simp only [outRows, mem_map, mem_orderBy, mem_filter, Bool.and_eq_true, decide_eq_true_eq]
  constructor
  · rintro ⟨e, ⟨he, hs, ht⟩, rfl⟩
    exact ⟨hs, ht, e, he, rfl, rfl, rfl⟩
  · rintro ⟨hs, ht, e, he, hes, het, hetype⟩
    refine ⟨e, ⟨he, hes ▸ hs, het ▸ ht⟩, ?_⟩
    rw [hes, het, hetype]

theorem visibleRows_spec (g : CodeGraph) (nodeIds : List ℕ) :
    (visibleRows g nodeIds).Nodup ∧ ∀ row, row ∈ visibleRows g nodeIds ↔ Induced g nodeIds row := by
  have hfold := foldl_seeRow ((chunksOf BULK_CHUNK_SIZE nodeIds).flatMap (outRows g nodeIds)) (s := (∅, [])) rfl
    nodup_nil
  rw [foldl_flatMap] at hfold
  refine ⟨hfold.1, fun row => ?_⟩
  have hchunks : (∃ chunk ∈ chunksOf BULK_CHUNK_SIZE nodeIds, row.sourceId ∈ chunk) ↔ row.sourceId ∈ nodeIds :=
    mem_chunksOf (by decide)
  rw [visibleRows, hfold.2, or_iff_right not_mem_nil, mem_flatMap, Induced, ← hchunks]
  simp only [mem_outRows]
  constructor
  · rintro ⟨chunk, hchunk, hs, ht, he⟩
    exact ⟨⟨chunk, hchunk, hs⟩, ht, he⟩
  · rintro ⟨⟨chunk, hchunk, hs⟩, ht, he⟩
    exact ⟨chunk, hchunk, hs, ht, he⟩

theorem orderedRows_perm (toUpperCase : Text → Text) (rows : List EdgeTriple) :
    (orderedRows toUpperCase rows).Perm rows := by
  refine ((sortBy_perm _ _).map Prod.fst).trans (Perm.of_eq ?_)
  exact (Rows.map_mapIdx (fun index row => (row, index)) rows (h := id) fun _ _ => rfl).trans (map_id rows)

end Rows

/-! ## Caps -/

section Caps

variable {limit : ℤ} {edges more : List EdgeTriple} {row : EdgeTriple}

/-- The edges out of a node, and into it. -/
def outOf (edges : List EdgeTriple) (x : ℕ) : ℕ := edges.countP fun row => row.sourceId = x

def into (edges : List EdgeTriple) (x : ℕ) : ℕ := edges.countP fun row => row.targetId = x

/-- A row can be added at both of its ends. -/
def HasRoom (limit : ℤ) (edges : List EdgeTriple) (row : EdgeTriple) : Prop :=
  (outOf edges row.sourceId : ℤ) < limit ∧ (into edges row.targetId : ℤ) < limit

/-- No edge twice, and no node with more edges in one direction than the limit. -/
structure Capped (limit : ℤ) (edges : List EdgeTriple) : Prop where
  nodup : edges.Nodup
  out_le (x : ℕ) : (outOf edges x : ℤ) ≤ limit
  into_le (x : ℕ) : (into edges x : ℤ) ≤ limit

theorem outOf_concat (x : ℕ) : outOf (edges ++ [row]) x = outOf edges x + if row.sourceId = x then 1 else 0 := by
  rw [outOf, countP_append, countP_singleton]
  simp [outOf]

theorem into_concat (x : ℕ) : into (edges ++ [row]) x = into edges x + if row.targetId = x then 1 else 0 := by
  rw [into, countP_append, countP_singleton]
  simp [into]

theorem Capped.concat (h : Capped limit edges) (hroom : HasRoom limit edges row) (hnew : row ∉ edges) :
    Capped limit (edges ++ [row]) where
  nodup := List.nodup_append.mpr ⟨h.nodup, nodup_singleton row, by
    intro a ha b hb hab
    exact hnew (mem_singleton.mp hb ▸ hab ▸ ha)⟩
  out_le x := by
    have := h.out_le x
    rw [outOf_concat]
    split
    · rename_i heq
      have := heq ▸ hroom.1
      omega
    · omega
  into_le x := by
    have := h.into_le x
    rw [into_concat]
    split
    · rename_i heq
      have := heq ▸ hroom.2
      omega
    · omega

/-- More edges leave less room. -/
theorem HasRoom.of_append (h : HasRoom limit (edges ++ more) row) : HasRoom limit edges row := by
  rw [HasRoom, outOf, into, countP_append, countP_append] at h
  rw [HasRoom, outOf, into]
  omega

end Caps

/-! ## The state of the admission -/

/-- The counters are those of the edges. -/
structure Admission.Counted (s : Admission) : Prop where
  out (x : ℕ) : (s.perNodeOutCount.get x).getD 0 = outOf s.edges x
  into (x : ℕ) : (s.perNodeInCount.get x).getD 0 = into s.edges x
  keys : s.selectedKeys = (s.edges.map edgeKey).toFinset
  types : s.returnedByType = PlainObject.countRows EdgeTriple.type (fun _ => 1) s.edges

variable {limit : ℤ} {s : Admission} {row : EdgeTriple} {a b : ℕ}

theorem Admission.Counted.canAdmit_iff (h : s.Counted) : canAdmit limit s row = true ↔ HasRoom limit s.edges row := by
  rw [canAdmit, Bool.and_eq_true, decide_eq_true_eq, decide_eq_true_eq, h.out, h.into]
  rfl

/-- The test of the second loop. -/
theorem Admission.Counted.passed_iff (h : s.Counted) :
    (edgeKey row ∈ s.selectedKeys || !canAdmit limit s row) = true ↔ row ∈ s.edges ∨ ¬HasRoom limit s.edges row := by
  rw [Bool.or_eq_true, decide_eq_true_eq, h.keys, edgeKey_mem_iff, Bool.not_eq_true', ← Bool.not_eq_true, h.canAdmit_iff]

theorem Admission.Counted.admitEdge (h : s.Counted) (row : EdgeTriple) : (admitEdge s row).Counted where
  out x := by
    change ((s.perNodeOutCount.set _ _).get x).getD 0 = outOf (s.edges ++ [row]) x
    rw [get_set, outOf_concat, ← h.out x, h.out]
    split
    · rename_i heq
      subst heq
      rw [if_pos rfl, Option.getD_some, ← h.out]
    · rename_i hne
      rw [if_neg (Ne.symm hne), Nat.add_zero]
  into x := by
    change ((s.perNodeInCount.set _ _).get x).getD 0 = Bridge.into (s.edges ++ [row]) x
    rw [get_set, into_concat, ← h.into x, h.into]
    split
    · rename_i heq
      subst heq
      rw [if_pos rfl, Option.getD_some, ← h.into]
    · rename_i hne
      rw [if_neg (Ne.symm hne), Nat.add_zero]
  keys := by
    change insert (edgeKey row) s.selectedKeys = ((s.edges ++ [row]).map edgeKey).toFinset
    rw [h.keys]
    ext key
    simp [or_comm]
  types := by
    change addCount EdgeTriple.type (fun _ => 1) s.returnedByType row =
      PlainObject.countRows EdgeTriple.type (fun _ => 1) (s.edges ++ [row])
    rw [h.types, PlainObject.countRows, PlainObject.countRows, foldl_append]
    rfl

/-! ## Connection -/

def Adjacent (edges : List EdgeTriple) (a b : ℕ) : Prop := ∃ row ∈ edges, row.sourceId = a ∧ row.targetId = b

/-- Two nodes are connected by edges in either direction. -/
def Connected (edges : List EdgeTriple) : ℕ → ℕ → Prop := Relation.EqvGen (Adjacent edges)

variable {edges more rows done : List EdgeTriple}

theorem adjacent_concat : Adjacent (edges ++ [row]) = fun a b => Adjacent edges a b ∨ (a = row.sourceId ∧ b = row.targetId) := by
  funext a b
  simp [Adjacent, or_and_right, exists_or, eq_comm]

theorem Connected.append (h : Connected edges a b) : Connected (edges ++ more) a b :=
  h.mono fun _ _ ⟨row, hrow, hends⟩ => ⟨row, mem_append_left _ hrow, hends⟩

/-! ## The first loop -/

/-- What holds after the rows in `done`. -/
structure ForestInv (limit : ℤ) (rows done : List EdgeTriple) (s : Admission × OrderedMap ℕ ℕ) (root : ℕ → ℕ) : Prop where
  counted : s.1.Counted
  capped : Capped limit s.1.edges
  subset : ∀ row ∈ s.1.edges, row ∈ rows
  rooted : Rooted s.2 root
  represents : Represents root (Adjacent s.1.edges)
  /-- A row that is done connects nothing, or there is no room for it. -/
  done : ∀ row ∈ done, Connected s.1.edges row.sourceId row.targetId ∨ ¬HasRoom limit s.1.edges row

variable {t : Admission × OrderedMap ℕ ℕ} {root : ℕ → ℕ} {parent : OrderedMap ℕ ℕ}

section

variable (h : ForestInv limit rows done t root)
include h

/-- A row that is not admitted. -/
theorem ForestInv.skip (hparent : Rooted parent root)
    (hrow : Connected t.1.edges row.sourceId row.targetId ∨ ¬HasRoom limit t.1.edges row) :
    ForestInv limit rows (done ++ [row]) (t.1, parent) root where
  counted := h.counted
  capped := h.capped
  subset := h.subset
  rooted := hparent
  represents := h.represents
  done row' hrow' := by
    rcases mem_append.mp hrow' with hrow' | hrow'
    · exact h.done row' hrow'
    · exact mem_singleton.mp hrow' ▸ hrow

/-- A row that connects two components. -/
theorem ForestInv.connect (hmem : row ∈ rows)
    (hroom : HasRoom limit t.1.edges row) (hne : root row.sourceId ≠ root row.targetId)
    (hparent : Rooted parent (link root row.sourceId row.targetId)) :
    ForestInv limit rows (done ++ [row]) (admitEdge t.1 row, parent) (link root row.sourceId row.targetId) where
  counted := h.counted.admitEdge row
  capped := h.capped.concat hroom fun hin => hne ((h.represents _ _).mpr (.rel _ _ ⟨row, hin, rfl, rfl⟩))
  subset row' hrow' := by
    rcases mem_append.mp hrow' with hrow' | hrow'
    · exact h.subset row' hrow'
    · exact mem_singleton.mp hrow' ▸ hmem
  rooted := hparent
  represents := by
    change Represents _ (Adjacent (t.1.edges ++ [row]))
    rw [adjacent_concat]
    exact h.represents.link row.sourceId row.targetId
  done row' hrow' := by
    rcases mem_append.mp hrow' with hrow' | hrow'
    · exact (h.done row' hrow').imp Connected.append fun hno hroom' => hno hroom'.of_append
    · obtain rfl := mem_singleton.mp hrow'
      exact .inl (.rel _ _ ⟨row', mem_append_right _ (mem_singleton_self row'), rfl, rfl⟩)

theorem forestRow_spec (hmem : row ∈ rows) :
    ∃ t' root', forestRow limit t row = some t' ∧ ForestInv limit rows (done ++ [row]) t' root' := by
  rw [forestRow]
  split
  · rename_i heq
    refine ⟨t, root, rfl, h.skip h.rooted (.inl ?_)⟩
    rw [heq]
    exact .refl _
  · obtain ⟨parent₁, hsource, hrooted₁⟩ := findRoot_spec h.rooted row.sourceId
    obtain ⟨parent₂, htarget, hrooted₂⟩ := findRoot_spec hrooted₁ row.targetId
    rw [hsource]
    dsimp only
    rw [htarget]
    dsimp only
    split
    · rename_i heq
      exact ⟨_, root, rfl, h.skip hrooted₂ (.inl ((h.represents _ _).mp heq))⟩
    · rename_i hne
      split
      · rename_i hroom
        obtain ⟨parent₃, hunion, hrooted₃⟩ := union_spec hrooted₂ row.sourceId row.targetId
        refine ⟨(admitEdge t.1 row, parent₃), _, ?_, h.connect hmem (h.counted.canAdmit_iff.mp hroom) hne hrooted₃⟩
        rw [hunion]
        rfl
      · rename_i hroom
        exact ⟨_, root, rfl, h.skip hrooted₂ (.inr (h.counted.canAdmit_iff.not.mp hroom))⟩

theorem forestPass_spec {left : List EdgeTriple} (hmem : ∀ row ∈ left, row ∈ rows) :
    ∃ t' root', forestPass limit left t = some t' ∧ ForestInv limit rows (done ++ left) t' root' := by
  induction left generalizing done t root with
  | nil => exact ⟨t, root, rfl, (append_nil done).symm ▸ h⟩
  | cons row left ih =>
    obtain ⟨t₁, root₁, hrow, h₁⟩ := forestRow_spec h (hmem row mem_cons_self)
    rw [forestPass, hrow, append_cons done row left]
    exact ih h₁ fun row hrow => hmem row (mem_cons_of_mem _ hrow)

end

/-! ## The second loop -/

/-- What holds after the rows in `done`: the edges of the first loop are all that connect. -/
structure FillInv (limit : ℤ) (rows forest done : List EdgeTriple) (s : Admission) : Prop where
  counted : s.Counted
  capped : Capped limit s.edges
  subset : ∀ row ∈ s.edges, row ∈ rows
  grows : ∃ more, s.edges = forest ++ more
  connected : ∀ row ∈ s.edges, Connected forest row.sourceId row.targetId
  done : ∀ row ∈ done, row ∈ s.edges ∨ ¬HasRoom limit s.edges row

theorem FillInv.skip (h : FillInv limit rows forest done s)
    (hrow : row ∈ s.edges ∨ ¬HasRoom limit s.edges row) : FillInv limit rows forest (done ++ [row]) s where
  __ := h
  done row' hrow' := by
    rcases mem_append.mp hrow' with hrow' | hrow'
    · exact h.done row' hrow'
    · exact mem_singleton.mp hrow' ▸ hrow

theorem fillRow_spec (h : FillInv limit rows forest done s) (hmem : row ∈ rows)
    (hforest : Connected forest row.sourceId row.targetId ∨ ¬HasRoom limit forest row) :
    FillInv limit rows forest (done ++ [row]) (fillRow limit s row) := by
  rw [fillRow]
  split
  · rename_i hpassed
    exact h.skip (h.counted.passed_iff.mp hpassed)
  · rename_i hpassed
    obtain ⟨hin, hroom⟩ := not_or.mp (h.counted.passed_iff.not.mp hpassed)
    rw [not_not] at hroom
    obtain ⟨more, hmore⟩ := h.grows
    have hconnected : Connected forest row.sourceId row.targetId :=
      hforest.resolve_right fun hno => hno (hmore ▸ hroom : HasRoom limit (forest ++ more) row).of_append
    refine ⟨h.counted.admitEdge row, h.capped.concat hroom hin, fun row' hrow' => ?_, ⟨more ++ [row], ?_⟩,
      fun row' hrow' => ?_, fun row' hrow' => ?_⟩
    · rcases mem_append.mp hrow' with hrow' | hrow'
      · exact h.subset row' hrow'
      · exact mem_singleton.mp hrow' ▸ hmem
    · change s.edges ++ [row] = _
      rw [hmore, append_assoc]
    · rcases mem_append.mp hrow' with hrow' | hrow'
      · exact h.connected row' hrow'
      · exact mem_singleton.mp hrow' ▸ hconnected
    · rcases mem_append.mp hrow' with hrow' | hrow'
      · exact (h.done row' hrow').imp (mem_append_left _) fun hno hroom' => hno hroom'.of_append
      · exact .inl (mem_append_right _ hrow')

theorem fillPass_spec {forest left : List EdgeTriple} (h : FillInv limit rows forest done s)
    (hmem : ∀ row ∈ left, row ∈ rows)
    (hforest : ∀ row ∈ left, Connected forest row.sourceId row.targetId ∨ ¬HasRoom limit forest row) :
    FillInv limit rows forest (done ++ left) (fillPass limit left s) := by
  rw [fillPass]
  induction left generalizing done s with
  | nil => exact (append_nil done).symm ▸ h
  | cons row left ih =>
    rw [foldl_cons, append_cons done row left]
    exact ih (fillRow_spec h (hmem row mem_cons_self) (hforest row mem_cons_self))
      (fun row hrow => hmem row (mem_cons_of_mem _ hrow)) fun row hrow => hforest row (mem_cons_of_mem _ hrow)

theorem FillInv.connected_iff (h : FillInv limit rows forest done s) (a b : ℕ) :
    Connected s.edges a b ↔ Connected forest a b := by
  constructor
  · intro hab
    induction hab with
    | rel x y hxy =>
      obtain ⟨row, hrow, rfl, rfl⟩ := hxy
      exact h.connected row hrow
    | refl x => exact .refl x
    | symm _ _ _ ih => exact ih.symm
    | trans _ _ _ _ _ ih ih' => exact ih.trans _ _ _ ih'
  · intro hab
    obtain ⟨more, hmore⟩ := h.grows
    rw [hmore]
    exact hab.append

/-! ## Both loops -/

theorem get_ownParents (nodeIds : List ℕ) : ∀ k v, (ownParents nodeIds).get k = some v → v = k := by
  have hfold (ids : List ℕ) (m : OrderedMap ℕ ℕ) (hm : ∀ k v, m.get k = some v → v = k) :
      ∀ k v, (ids.foldl (fun m id => m.set id id) m).get k = some v → v = k := by
    induction ids generalizing m with
    | nil => exact hm
    | cons id ids ih =>
      refine ih _ fun k v h => ?_
      rw [get_set] at h
      split at h
      · rename_i hk
        exact hk ▸ (Option.some.inj h).symm
      · exact hm k v h
  exact hfold nodeIds .empty fun k v h => by
    rw [get_empty] at h
    cases h

/-- The rows are sampled: the loops end, and what they admit is capped, maximal and connects what the first one does. -/
theorem sample_spec (nodeIds : List ℕ) (hlimit : 0 < limit) (rows : List EdgeTriple) :
    ∃ forest, spanningForest nodeIds limit rows = some forest ∧
      FillInv limit rows forest.edges rows (fillPass limit rows forest) := by
  have hstart : ForestInv limit rows [] (⟨.empty, .empty, [], .empty, ∅⟩, ownParents nodeIds) id := by
    refine ⟨⟨fun _ => rfl, fun _ => rfl, rfl, rfl⟩, ⟨nodup_nil, fun _ => ?_, fun _ => ?_⟩, nofun,
      rooted_self (get_ownParents nodeIds), represents_id fun x y => ?_, nofun⟩
    · exact le_of_lt hlimit
    · exact le_of_lt hlimit
    · rintro ⟨row, hrow, -⟩
      cases hrow
  obtain ⟨t, root, hpass, hforest⟩ := forestPass_spec hstart fun row hrow => hrow
  refine ⟨t.1, by rw [spanningForest, hpass]; rfl, ?_⟩
  have hfill : FillInv limit rows t.1.edges [] t.1 := ⟨hforest.counted, hforest.capped, hforest.subset, ⟨[], by simp⟩,
    fun row hrow => .rel _ _ ⟨row, hrow, rfl, rfl⟩, nofun⟩
  exact fillPass_spec hfill (fun row hrow => hrow) hforest.done

/-! ## The result -/

/-- What the result says of the edges between the nodes. -/
structure BulkEdgesExact (g : CodeGraph) (nodeIds : List ℕ) (limit : ℤ) (toUpperCase : Text → Text)
    (r : BulkEdgesResult) : Prop where
  nodup : r.edges.Nodup
  induced : ∀ row ∈ r.edges, Induced g nodeIds row
  /-- Without a limit these are all. -/
  all : limit ≤ 0 → ∀ row, Induced g nodeIds row → row ∈ r.edges
  out_le : 0 < limit → ∀ x, (outOf r.edges x : ℤ) ≤ limit
  into_le : 0 < limit → ∀ x, (into r.edges x : ℤ) ≤ limit
  maximal : 0 < limit → ∀ row, Induced g nodeIds row → row ∉ r.edges →
    (outOf r.edges row.sourceId : ℤ) = limit ∨ (into r.edges row.targetId : ℤ) = limit
  components : 0 < limit → ∃ forest, spanningForest nodeIds limit (orderedRows toUpperCase (visibleRows g nodeIds)) =
    some forest ∧ ∀ a b, Connected r.edges a b ↔ Connected forest.edges a b
  total : ∃ rows : List EdgeTriple, rows.Nodup ∧ (∀ row, row ∈ rows ↔ Induced g nodeIds row) ∧
    r.totalInducedEdges = rows.length ∧ Histogram EdgeTriple.type (fun _ => 1) rows r.availableByType
  returned : r.returnedEdges = r.edges.length ∧ Histogram EdgeTriple.type (fun _ => 1) r.edges r.returnedByType

variable {g : CodeGraph} {nodeIds : List ℕ} {toUpperCase : Text → Text}

/-- The sample of the rows, with its numbers. -/
theorem bulkEdgesExact_sample (hlimit : 0 < limit) {forest : Admission}
    (hforest : spanningForest nodeIds limit (orderedRows toUpperCase (visibleRows g nodeIds)) = some forest)
    (h : FillInv limit (orderedRows toUpperCase (visibleRows g nodeIds)) forest.edges
      (orderedRows toUpperCase (visibleRows g nodeIds)) s) (truncated : Bool) (limitPerDirection : ℤ)
    (htypes : ∀ row, Induced g nodeIds row → row.type ∉ prototypeNames) :
    BulkEdgesExact g nodeIds limit toUpperCase ⟨s.edges, (visibleRows g nodeIds).length, s.edges.length, truncated,
      limitPerDirection, PlainObject.countRows EdgeTriple.type (fun _ => 1) (visibleRows g nodeIds), s.returnedByType⟩ := by
  obtain ⟨hnodup, hmem⟩ := visibleRows_spec g nodeIds
  have hinduced : ∀ row, row ∈ orderedRows toUpperCase (visibleRows g nodeIds) ↔ Induced g nodeIds row := fun row =>
    (orderedRows_perm toUpperCase _).mem_iff.trans (hmem row)
  have hreturned : ∀ row ∈ s.edges, Induced g nodeIds row := fun row hrow => (hinduced row).mp (h.subset row hrow)
  refine ⟨h.capped.nodup, hreturned, fun hle => absurd hlimit (not_lt.mpr hle), fun _ => h.capped.out_le,
    fun _ => h.capped.into_le, fun _ row hrow hno => ?_, fun _ => ⟨forest, hforest, h.connected_iff⟩,
    ⟨_, hnodup, hmem, rfl, histogram_iff.mpr fun row hrow => htypes row ((hmem row).mp hrow)⟩, rfl, ?_⟩
  · have hroom := (h.done row ((hinduced row).mpr hrow)).resolve_left hno
    have hout := h.capped.out_le row.sourceId
    have hinto := h.capped.into_le row.targetId
    rw [HasRoom] at hroom
    dsimp only
    omega
  · rw [h.counted.types]
    exact histogram_iff.mpr fun row hrow => htypes row (hreturned row hrow)

/-- **The sample.** It always has a result, which says what it promises of the edges if and only if none of them has a
type that an empty object has as a property. -/
theorem getBulkEdgesWithStats_iff (g : CodeGraph) (nodeIds : List ℕ) (limit : ℤ) (toUpperCase : Text → Text) :
    ∃ r, getBulkEdgesWithStats g nodeIds limit toUpperCase = some r ∧
      (BulkEdgesExact g nodeIds limit toUpperCase r ↔ ∀ row, Induced g nodeIds row → row.type ∉ prototypeNames) := by
  obtain ⟨hnodup, hmem⟩ := visibleRows_spec g nodeIds
  -- The types of all edges between the nodes are counted, whatever is returned.
  have honly {r : BulkEdgesResult} (havailable : r.availableByType =
      PlainObject.countRows EdgeTriple.type (fun _ => 1) (visibleRows g nodeIds))
      (h : BulkEdgesExact g nodeIds limit toUpperCase r) : ∀ row, Induced g nodeIds row → row.type ∉ prototypeNames := by
    obtain ⟨rows, -, hrows, -, hhistogram⟩ := h.total
    rw [havailable] at hhistogram
    exact fun row hrow => notMem_of_histogram hhistogram row ((hrows row).mpr hrow)
  rw [getBulkEdgesWithStats]
  split
  · rename_i hnil
    subst hnil
    have hnone : ∀ row, ¬Induced g [] row := fun row h => not_mem_nil h.1
    refine ⟨_, rfl, iff_of_true ?_ fun row hrow => absurd hrow (hnone row)⟩
    refine ⟨nodup_nil, nofun, fun _ row hrow => absurd hrow (hnone row), fun hlt _ => le_of_lt hlt,
      fun hlt _ => le_of_lt hlt, fun _ row hrow => absurd hrow (hnone row), fun hlt => ?_,
      ⟨[], nodup_nil, fun row => iff_of_false not_mem_nil (hnone row), rfl, fun _ => rfl⟩, rfl, fun _ => rfl⟩
    obtain ⟨forest, hforest, hfill⟩ := sample_spec [] hlt (orderedRows toUpperCase (visibleRows g []))
    have hempty : forest.edges = [] := eq_nil_iff_forall_not_mem.mpr fun row hrow => by
      obtain ⟨more, hmore⟩ := hfill.grows
      have hordered := hfill.subset row (hmore ▸ mem_append_left _ hrow)
      exact hnone row ((hmem row).mp ((orderedRows_perm toUpperCase _).mem_iff.mp hordered))
    refine ⟨forest, hforest, fun a b => ?_⟩
    rw [hempty]
  · dsimp only
    split
    · rename_i hle
      refine ⟨_, rfl, honly rfl, fun htypes => ?_⟩
      have hhistogram : Histogram EdgeTriple.type (fun _ => 1) (visibleRows g nodeIds)
          (PlainObject.countRows EdgeTriple.type (fun _ => 1) (visibleRows g nodeIds)) :=
        histogram_iff.mpr fun row hrow => htypes row ((hmem row).mp hrow)
      exact ⟨hnodup, fun row => (hmem row).mp, fun _ row => (hmem row).mpr, fun hlt => absurd hle (not_le.mpr hlt),
        fun hlt => absurd hle (not_le.mpr hlt), fun hlt => absurd hle (not_le.mpr hlt),
        fun hlt => absurd hle (not_le.mpr hlt), ⟨_, hnodup, hmem, rfl, hhistogram⟩, rfl, hhistogram⟩
    · rename_i hlt
      rw [not_le] at hlt
      obtain ⟨forest, hforest, hfill⟩ := sample_spec nodeIds hlt (orderedRows toUpperCase (visibleRows g nodeIds))
      rw [hforest]
      exact ⟨_, rfl, honly rfl, bulkEdgesExact_sample hlt hforest hfill _ _⟩

/-- One function with an edge of the type `constructor` to itself. -/
def oddlyTyped : CodeGraph where
  nodes := [⟨1, "p".toList, "Function".toList, "a".toList, "a".toList, "a.ts".toList⟩]
  edges := [⟨1, "p".toList, 1, 1, "constructor".toList⟩]
  nodup_nodes := by decide
  nodup_edges := by decide

/-- The number of edges of a type may be a text. -/
theorem getBulkEdgesWithStats_constructor :
    ¬∀ (g : CodeGraph) (nodeIds : List ℕ) (limit : ℤ) (toUpperCase : Text → Text) (r : BulkEdgesResult),
      getBulkEdgesWithStats g nodeIds limit toUpperCase = some r → BulkEdgesExact g nodeIds limit toUpperCase r := by
  intro h
  have hexact := h oddlyTyped [1] 0 id
    ⟨[⟨1, 1, "constructor".toList⟩], 1, 1, false, 0,
      ⟨[("constructor".toList, .text "function Object() \x7b [native code] \x7d1".toList)], by decide⟩,
      ⟨[("constructor".toList, .text "function Object() \x7b [native code] \x7d1".toList)], by decide⟩⟩ (by decide)
  have hcount := hexact.returned.2 "constructor".toList
  exact absurd hcount (by decide)

end Ariad.Bridge
