import Ariad.Bridge.CodeGraph
import Ariad.Relational.Chunks
import Ariad.Relational.Keyset

/-!
# Queries about one node and about many

* `getNeighbors`, `getNodeDegree` — the edges of a node.
* `getBulkNeighbors`, `getBulkNodeDegrees`, `getBulkNodeDegreesSplit` — the same for a list of ids, in chunks.
* `bulk_queries_agree` — when the answers are the same: ids that stand in two chunks are read twice.
-/

namespace Ariad.Bridge

open Keyset List OrderedMap Rows

def BULK_CHUNK_SIZE : ℕ := 500

inductive NeighborDirection where
  | inbound
  | outbound
  | both
  deriving DecidableEq

/-- The side of an edge on which a node stands: the edge goes out of it or comes in. -/
inductive Side where
  | out
  | inn
  deriving DecidableEq

namespace Side

def anchor : Side → CodeEdge → ℕ
  | out, e => e.sourceId
  | inn, e => e.targetId

def neighbor : Side → CodeEdge → ℕ
  | out, e => e.targetId
  | inn, e => e.sourceId

end Side

def NeighborDirection.asks (direction : NeighborDirection) (side : Side) : Bool :=
  match side with
  | .out => direction = .outbound || direction = .both
  | .inn => direction = .inbound || direction = .both

/-! ## One node -/

/-- `LIMIT ?`: a negative limit is none. -/
def sqlLimit {α : Type} (limit : ℤ) (rows : List α) : List α := if limit < 0 then rows else rows.take limit.toNat

/-- An edge with the node at its other end, if that is there. -/
def joined (g : CodeGraph) (side : Side) (e : CodeEdge) : Option (CodeEdge × CodeNode) :=
  (Rows.get CodeNode.id (side.neighbor e) g.nodes).map fun n => (e, n)

/-- The edges of a node on one side, by id. -/
def edgesAt (g : CodeGraph) (side : Side) (nodeId : ℕ) : List CodeEdge :=
  orderBy CodeEdge.id (g.edges.filter fun e => side.anchor e = nodeId)

/-- The query of one direction: `JOIN nodes … ORDER BY e.id ASC LIMIT ?`. -/
def sideRows (g : CodeGraph) (side : Side) (nodeId : ℕ) (limit : ℤ) : List (CodeEdge × CodeNode) :=
  sqlLimit limit ((edgesAt g side nodeId).filterMap (joined g side))

def getNeighbors (g : CodeGraph) (nodeId : ℕ) (direction : NeighborDirection) (limit : ℤ) :
    List (CodeEdge × CodeNode) :=
  (if direction.asks .out then sideRows g .out nodeId limit else []) ++
    if direction.asks .inn then sideRows g .inn nodeId limit else []

/-- `SELECT COUNT(*) … WHERE source_id = ?`, and the same for `target_id`. -/
def edgeCount (g : CodeGraph) (side : Side) (nodeId : ℕ) : ℕ := g.edges.countP fun e => side.anchor e = nodeId

def getNodeDegree (g : CodeGraph) (nodeId : ℕ) : ℕ := edgeCount g .out nodeId + edgeCount g .inn nodeId

/-! ## Many nodes -/

/-- The ids with a value each, in their order. -/
def initial {ν : Type} (nodeIds : List ℕ) (v : ν) : OrderedMap ℕ ν := nodeIds.foldl (fun m id => m.set id v) .empty

/-- ` AND type = ?`, if a type is given that is not empty. -/
def typeFilter (edgeType : Option Text) (e : CodeEdge) : Bool :=
  match edgeType with
  | none | some [] => true
  | some type => e.type = type

/-- `WHERE source_id IN (…)` or `WHERE target_id IN (…)`, with the filter on the type. -/
def chunkEdges (g : CodeGraph) (side : Side) (chunk : List ℕ) (edgeType : Option Text) : List CodeEdge :=
  g.edges.filter fun e => side.anchor e ∈ chunk && typeFilter edgeType e

structure EdgeRow where
  anchorId : ℕ
  edge : CodeEdge
  neighborId : ℕ
  side : Side

def toRow (side : Side) (e : CodeEdge) : EdgeRow := ⟨side.anchor e, e, side.neighbor e, side⟩

structure BulkState where
  outCount : OrderedMap ℕ ℕ
  inCount : OrderedMap ℕ ℕ
  allRows : List EdgeRow

/-- The rows of a chunk on one side, up to the limit of each anchor. -/
def pushSide (g : CodeGraph) (side : Side) (chunk : List ℕ) (limitPerNode : ℤ) (edgeType : Option Text)
    (s : OrderedMap ℕ ℕ × List EdgeRow) : OrderedMap ℕ ℕ × List EdgeRow :=
  ((orderBy CodeEdge.id (chunkEdges g side chunk edgeType)).map (toRow side)).foldl
    (Rows.pushUpTo EdgeRow.anchorId limitPerNode) s

def collectChunk (g : CodeGraph) (direction : NeighborDirection) (limitPerNode : ℤ) (edgeType : Option Text)
    (s : BulkState) (chunk : List ℕ) : BulkState :=
  let s :=
    if direction.asks .out then
      let (outCount, allRows) := pushSide g .out chunk limitPerNode edgeType (s.outCount, s.allRows)
      { s with outCount, allRows }
    else s
  if direction.asks .inn then
    let (inCount, allRows) := pushSide g .inn chunk limitPerNode edgeType (s.inCount, s.allRows)
    { s with inCount, allRows }
  else s

/-- `SELECT * FROM nodes WHERE id IN (…)`, in chunks. -/
def getNodesByIds (g : CodeGraph) (ids : List ℕ) : OrderedMap ℕ CodeNode :=
  (chunksOf BULK_CHUNK_SIZE ids).foldl (fun result chunk =>
    (g.nodes.filter fun n => n.id ∈ chunk).foldl (fun result n => result.set n.id n) result) .empty

/-- The row with its neighbor goes to its anchor. -/
def attach (neighborNodeMap : OrderedMap ℕ CodeNode) (result : OrderedMap ℕ (List (CodeEdge × CodeNode)))
    (row : EdgeRow) : OrderedMap ℕ (List (CodeEdge × CodeNode)) :=
  match neighborNodeMap.get row.neighborId with
  | some node => result.set row.anchorId ((result.get row.anchorId).getD [] ++ [(row.edge, node)])
  | none => result

def getBulkNeighbors (g : CodeGraph) (nodeIds : List ℕ) (direction : NeighborDirection) (limitPerNode : ℤ)
    (edgeType : Option Text) : OrderedMap ℕ (List (CodeEdge × CodeNode)) :=
  let s := (chunksOf BULK_CHUNK_SIZE nodeIds).foldl (collectChunk g direction limitPerNode edgeType) ⟨.empty, .empty, []⟩
  let uniqueNeighborIds := (s.allRows.map EdgeRow.neighborId).eraseDups
  s.allRows.foldl (attach (getNodesByIds g uniqueNeighborIds)) (initial nodeIds [])

/-- `SELECT source_id AS id, COUNT(*) AS c … GROUP BY source_id` -/
def countRows (g : CodeGraph) (side : Side) (chunk : List ℕ) (edgeType : Option Text) : List (ℕ × ℕ) :=
  (Rows.groups side.anchor (chunkEdges g side chunk edgeType)).map fun group => (group.1, group.2.length)

def addCounts (rows : List (ℕ × ℕ)) (result : OrderedMap ℕ ℕ) : OrderedMap ℕ ℕ :=
  rows.foldl (fun result r => result.set r.1 ((result.get r.1).getD 0 + r.2)) result

def getBulkNodeDegrees (g : CodeGraph) (nodeIds : List ℕ) : OrderedMap ℕ ℕ :=
  (chunksOf BULK_CHUNK_SIZE nodeIds).foldl
    (fun result chunk => addCounts (countRows g .inn chunk none) (addCounts (countRows g .out chunk none) result))
    (initial nodeIds 0)

structure SplitDegree where
  inDegree : ℕ
  outDegree : ℕ
  deriving DecidableEq

def SplitDegree.put (side : Side) (count : ℕ) (entry : SplitDegree) : SplitDegree :=
  match side with
  | .out => { entry with outDegree := count }
  | .inn => { entry with inDegree := count }

/-- `entry.out = r.c` for the entries that are there. -/
def putCounts (side : Side) (rows : List (ℕ × ℕ)) (result : OrderedMap ℕ SplitDegree) : OrderedMap ℕ SplitDegree :=
  rows.foldl (fun result r =>
    match result.get r.1 with
    | some entry => result.set r.1 (entry.put side r.2)
    | none => result) result

def getBulkNodeDegreesSplit (g : CodeGraph) (nodeIds : List ℕ) (edgeType : Option Text) : OrderedMap ℕ SplitDegree :=
  (chunksOf BULK_CHUNK_SIZE nodeIds).foldl
    (fun result chunk =>
      putCounts .inn (countRows g .inn chunk edgeType) (putCounts .out (countRows g .out chunk edgeType) result))
    (initial nodeIds ⟨0, 0⟩)

/-! ## The rows that are collected -/

variable {g : CodeGraph}

variable {nodeIds : List ℕ} {n : ℕ}

theorem chunkEdges_filter (side : Side) (chunk : List ℕ) (n : ℕ) :
    ((chunkEdges g side chunk none).filter fun e => side.anchor e = n) =
      if n ∈ chunk then g.edges.filter fun e => side.anchor e = n else [] := by
  rw [chunkEdges, filter_filter]
  split
  · rename_i hn
    refine filter_congr fun e _ => ?_
    by_cases he : side.anchor e = n
    · simp [he, hn, typeFilter]
    · simp [he]
  · rename_i hn
    rw [filter_eq_nil_iff]
    intro e _ he
    simp only [typeFilter, Bool.and_eq_true, decide_eq_true_eq, and_true] at he
    exact hn (he.1 ▸ he.2)

/-- The rows of a node on one side. -/
def rowsAt (g : CodeGraph) (side : Side) (n : ℕ) : List EdgeRow := (edgesAt g side n).map (toRow side)

/-- Of a node the statement for a chunk has all rows or none. -/
theorem chunkRows_filter (side : Side) (chunk : List ℕ) (n : ℕ) :
    (((orderBy CodeEdge.id (chunkEdges g side chunk none)).map (toRow side)).filter fun r => r.anchorId = n) =
      if n ∈ chunk then rowsAt g side n else [] := by
  have hnodup : ((chunkEdges g side chunk none).map CodeEdge.id).Nodup :=
    g.nodup_edges.sublist (filter_sublist.map _)
  have hedges : ((orderBy CodeEdge.id (chunkEdges g side chunk none)).filter fun e => side.anchor e = n) =
      if n ∈ chunk then edgesAt g side n else [] := by
    rw [← orderBy_filter hnodup, chunkEdges_filter]
    split
    · rfl
    · rfl
  rw [filter_map]
  change (((orderBy CodeEdge.id (chunkEdges g side chunk none)).filter fun e => side.anchor e = n).map (toRow side)) = _
  rw [hedges]
  split
  · rfl
  · rfl

theorem pushSide_spec (side : Side) (chunk : List ℕ) (limit : ℤ) (n : ℕ) (s : OrderedMap ℕ ℕ × List EdgeRow) :
    ∃ new, (pushSide g side chunk limit none s).2 = s.2 ++ new ∧ (new.filter fun r => r.anchorId = n) =
        (if n ∈ chunk then rowsAt g side n else []).take (limit.toNat - (s.1.get n).getD 0) ∧
      ((pushSide g side chunk limit none s).1.get n).getD 0 =
        (s.1.get n).getD 0 + (new.filter fun r => r.anchorId = n).length := by
  have hpush := foldl_pushUpTo EdgeRow.anchorId limit
    ((orderBy CodeEdge.id (chunkEdges g side chunk none)).map (toRow side)) s
  obtain ⟨new, hnew, hkeys⟩ := hpush
  have hn := hkeys n
  rw [chunkRows_filter] at hn
  exact ⟨new, hnew, hn⟩

/-- The rows that the call wants of a node on one side. -/
def wanted (g : CodeGraph) (direction : NeighborDirection) (side : Side) (n : ℕ) : List EdgeRow :=
  if direction.asks side then rowsAt g side n else []

def BulkState.count (s : BulkState) (side : Side) (n : ℕ) : ℕ :=
  match side with
  | .out => (s.outCount.get n).getD 0
  | .inn => (s.inCount.get n).getD 0

/-- What a chunk adds to the rows of a node. -/
theorem collectChunk_spec (direction : NeighborDirection) (limit : ℤ) (s : BulkState) (chunk : List ℕ) (n : ℕ) :
    ∃ new : Side → List EdgeRow,
      ((collectChunk g direction limit none s chunk).allRows.filter fun r => r.anchorId = n) =
        (s.allRows.filter fun r => r.anchorId = n) ++ (new .out ++ new .inn) ∧
      ∀ side, new side = (if n ∈ chunk then wanted g direction side n else []).take (limit.toNat - s.count side n) ∧
        (collectChunk g direction limit none s chunk).count side n = s.count side n + (new side).length := by
  obtain ⟨newOut, hout, houtRows, houtCount⟩ := pushSide_spec (g := g) .out chunk limit n (s.outCount, s.allRows)
  by_cases ho : direction.asks .out = true
  · obtain ⟨newIn, hin, hinRows, hinCount⟩ := pushSide_spec (g := g) .inn chunk limit n (s.inCount, s.allRows ++ newOut)
    by_cases hi : direction.asks .inn = true
    · refine ⟨fun side => (if side = .out then newOut else newIn).filter fun r => r.anchorId = n, ?_, ?_⟩
      · simp [collectChunk, ho, hi, hout, hin]
      · rintro (_ | _)
        · simpa [collectChunk, ho, hi, wanted, BulkState.count] using ⟨houtRows, houtCount⟩
        · simpa [collectChunk, ho, hi, hout, wanted, BulkState.count] using ⟨hinRows, hinCount⟩
    · refine ⟨fun side => if side = .out then newOut.filter fun r => r.anchorId = n else [], ?_, ?_⟩
      · simp [collectChunk, ho, hi, hout]
      · rintro (_ | _)
        · simpa [collectChunk, ho, hi, wanted, BulkState.count] using ⟨houtRows, houtCount⟩
        · simp [collectChunk, ho, hi, wanted, BulkState.count]
  · obtain ⟨newIn, hin, hinRows, hinCount⟩ := pushSide_spec (g := g) .inn chunk limit n (s.inCount, s.allRows)
    by_cases hi : direction.asks .inn = true
    · refine ⟨fun side => if side = .out then [] else newIn.filter fun r => r.anchorId = n, ?_, ?_⟩
      · simp [collectChunk, ho, hi, hin]
      · rintro (_ | _)
        · simp [collectChunk, ho, hi, wanted, BulkState.count]
        · simpa [collectChunk, ho, hi, wanted, BulkState.count] using ⟨hinRows, hinCount⟩
    · refine ⟨fun _ => [], ?_, ?_⟩
      · simp [collectChunk, ho, hi]
      · rintro (_ | _)
        iterate 2
          · simp [collectChunk, ho, hi, wanted, BulkState.count]

/-- The rows of a node after chunks of which `m` have it: those of the first one, and what the others repeat. -/
structure Collected (g : CodeGraph) (direction : NeighborDirection) (limit : ℤ) (n m : ℕ) (s : BulkState) : Prop where
  count (side : Side) : s.count side n = min limit.toNat (m * (wanted g direction side n).length)
  rows : ∃ rest, (s.allRows.filter fun r => r.anchorId = n) =
    (if m = 0 then [] else (wanted g direction .out n).take limit.toNat ++ (wanted g direction .inn n).take limit.toNat) ++
      rest
  length : (s.allRows.filter fun r => r.anchorId = n).length = s.count .out n + s.count .inn n
  mem : ∀ r ∈ s.allRows.filter fun r => r.anchorId = n, ∃ side, r ∈ wanted g direction side n

theorem collected_chunks (g : CodeGraph) (direction : NeighborDirection) (limit : ℤ) (n : ℕ) (chunks : List (List ℕ)) :
    Collected g direction limit n (chunks.countP fun chunk => n ∈ chunk)
      (chunks.foldl (collectChunk g direction limit none) ⟨.empty, .empty, []⟩) := by
  induction chunks using List.reverseRecOn with
  | nil =>
    refine ⟨fun side => ?_, ⟨[], rfl⟩, rfl, fun r hr => absurd hr not_mem_nil⟩
    cases side with
    | out => simp [BulkState.count]
    | inn => simp [BulkState.count]
  | append_singleton chunks chunk ih =>
    rw [foldl_append, foldl_cons, foldl_nil, countP_append, countP_singleton]
    generalize chunks.foldl (collectChunk g direction limit none) ⟨.empty, .empty, []⟩ = s at *
    generalize (chunks.countP fun chunk => n ∈ chunk) = m at *
    obtain ⟨new, hrows, hnew⟩ := collectChunk_spec (g := g) direction limit s chunk n
    have hlength : ((collectChunk g direction limit none s chunk).allRows.filter fun r => r.anchorId = n).length =
        (collectChunk g direction limit none s chunk).count .out n +
          (collectChunk g direction limit none s chunk).count .inn n := by
      rw [hrows, length_append, length_append, ih.length, (hnew .out).2, (hnew .inn).2]
      omega
    have hmem : ∀ r ∈ (collectChunk g direction limit none s chunk).allRows.filter fun r => r.anchorId = n,
        ∃ side, r ∈ wanted g direction side n := by
      have hside (side : Side) (r : EdgeRow) (hr : r ∈ new side) : r ∈ wanted g direction side n := by
        rw [(hnew side).1] at hr
        have hr := mem_of_mem_take hr
        split at hr
        · exact hr
        · cases hr
      intro r hr
      rw [hrows, mem_append, mem_append] at hr
      rcases hr with hr | hr | hr
      · exact ih.mem r hr
      · exact ⟨.out, hside .out r hr⟩
      · exact ⟨.inn, hside .inn r hr⟩
    obtain ⟨rest, hrest⟩ := ih.rows
    by_cases hn : n ∈ chunk
    · rw [if_pos (decide_eq_true hn)]
      refine ⟨fun side => ?_, ?_, hlength, hmem⟩
      · -- The node is read once more, up to the limit.
        have hside := hnew side
        rw [if_pos hn, ih.count side] at hside
        rw [hside.2, hside.1, length_take, Nat.succ_mul]
        omega
      · rw [if_neg (Nat.succ_ne_zero m)]
        by_cases hm : m = 0
        · subst hm
          have hfirst (side : Side) : new side = (wanted g direction side n).take limit.toNat := by
            rw [(hnew side).1, if_pos hn, ih.count side, Nat.zero_mul, Nat.min_zero, Nat.sub_zero]
          have hnil : (s.allRows.filter fun r => r.anchorId = n) = [] := by
            rw [← length_eq_zero_iff, ih.length, ih.count, ih.count]
            omega
          exact ⟨[], by rw [hrows, hnil, hfirst, hfirst, nil_append, append_nil]⟩
        · rw [if_neg hm] at hrest
          exact ⟨rest ++ (new .out ++ new .inn), by rw [hrows, hrest, append_assoc]⟩
    · have hnone (side : Side) : new side = [] := by
        rw [(hnew side).1, if_neg hn, take_nil]
      rw [if_neg (by simpa using hn), Nat.add_zero]
      refine ⟨fun side => ?_, ⟨rest, ?_⟩, hlength, hmem⟩
      · rw [(hnew side).2, hnone, ih.count side, length_nil, Nat.add_zero]
      · rw [hrows, hnone, hnone, hrest, append_nil, append_nil]

/-! ## The neighbors -/

/-- Edges join existing nodes. -/
def EdgesJoin (g : CodeGraph) : Prop :=
  ∀ e ∈ g.edges, ∀ side : Side, ∃ n, Rows.get CodeNode.id (side.neighbor e) g.nodes = some n

/-- The row with its neighbor. -/
def withNeighbor (g : CodeGraph) (row : EdgeRow) : Option (CodeEdge × CodeNode) :=
  (Rows.get CodeNode.id row.neighborId g.nodes).map fun n => (row.edge, n)

theorem get_getNodesByIds {ids : List ℕ} {id : ℕ} (h : id ∈ ids) :
    (getNodesByIds g ids).get id = Rows.get CodeNode.id id g.nodes := by
  have hrows : getNodesByIds g ids = ((chunksOf BULK_CHUNK_SIZE ids).flatMap fun chunk =>
      g.nodes.filter fun n => n.id ∈ chunk).foldl (fun result n => result.set n.id n) .empty := by
    rw [foldl_flatMap]
    rfl
  have hlast (rows : List CodeNode) (o : Option CodeNode) :
      rows.foldl (fun _ n => some n) o = rows.getLast?.or o := by
    induction rows using List.reverseRecOn with
    | nil => rfl
    | append_singleton rows n ih => simp
  rw [hrows, get_foldl_set CodeNode.id fun n _ => n, hlast, get_empty, Option.or_none]
  generalize hfound : (((chunksOf BULK_CHUNK_SIZE ids).flatMap fun chunk =>
    g.nodes.filter fun n => n.id ∈ chunk).filter fun n => n.id = id) = found
  have hmem (n : CodeNode) : n ∈ found ↔ n ∈ g.nodes ∧ n.id = id := by
    rw [← hfound, mem_filter, mem_flatMap, decide_eq_true_iff]
    simp only [mem_filter, decide_eq_true_eq]
    constructor
    · rintro ⟨⟨chunk, -, hn, -⟩, hid⟩
      exact ⟨hn, hid⟩
    · rintro ⟨hn, hid⟩
      obtain ⟨chunk, hchunk, hid'⟩ := (mem_chunksOf (show 0 < BULK_CHUNK_SIZE by decide)).mpr h
      exact ⟨⟨chunk, hchunk, hn, hid ▸ hid'⟩, hid⟩
  cases hlast : found.getLast? with
  | none =>
    obtain rfl := getLast?_eq_none_iff.mp hlast
    refine (Rows.get_eq_none_iff.mpr fun n hn hid => ?_).symm
    exact not_mem_nil ((hmem n).mpr ⟨hn, hid⟩)
  | some n => exact ((Rows.get_eq_some_iff g.nodup_nodes).mpr ((hmem n).mp (mem_of_getLast? hlast))).symm

theorem get_initial {ν : Type} (h : n ∈ nodeIds) (v : ν) : (initial nodeIds v).get n = some v := by
  have hany (rows : List ℕ) (o : Option ν) (hne : rows ≠ []) : rows.foldl (fun _ _ => some v) o = some v := by
    induction rows generalizing o with
    | nil => exact absurd rfl hne
    | cons a rows ih =>
      cases rows with
      | nil => rfl
      | cons b rows => exact ih (some v) (cons_ne_nil b rows)
  refine (get_foldl_set id (fun _ _ => v) nodeIds).trans (hany _ _ ?_)
  exact ne_nil_of_mem (mem_filter.mpr ⟨h, by simp⟩)

theorem get_foldl_attach {map : OrderedMap ℕ CodeNode} {rows : List EdgeRow}
    (hmap : ∀ r ∈ rows, map.get r.neighborId = Rows.get CodeNode.id r.neighborId g.nodes)
    {result : OrderedMap ℕ (List (CodeEdge × CodeNode))} {v : List (CodeEdge × CodeNode)} (h : result.get n = some v) :
    (rows.foldl (attach map) result).get n =
      some (v ++ (rows.filter fun r => r.anchorId = n).filterMap (withNeighbor g)) := by
  induction rows generalizing result v with
  | nil => simpa using h
  | cons r rows ih =>
    have htail := @ih fun r hr => hmap r (mem_cons_of_mem _ hr)
    rw [foldl_cons, attach, hmap r mem_cons_self]
    cases hget : Rows.get CodeNode.id r.neighborId g.nodes with
    | none =>
      dsimp only
      rw [htail h]
      by_cases hr : r.anchorId = n
      · rw [filter_cons_of_pos (by simpa using hr), filterMap_cons_none (by rw [withNeighbor, hget]; rfl)]
      · rw [filter_cons_of_neg (by simpa using hr)]
    | some node =>
      dsimp only
      by_cases hr : r.anchorId = n
      · rw [hr, h, htail (get_set_self ..), filter_cons_of_pos (by simpa using hr),
          filterMap_cons_some (by rw [withNeighbor, hget]; rfl)]
        simp
      · rw [htail ((OrderedMap.get_set_of_ne (Ne.symm hr)).trans h), filter_cons_of_neg (by simpa using hr)]

section FilterMap

variable {α β : Type} {f : α → Option β}

theorem length_filterMap_of_isSome {l : List α} (h : ∀ a ∈ l, (f a).isSome = true) :
    (l.filterMap f).length = l.length := by
  induction l with
  | nil => rfl
  | cons a l ih =>
    obtain ⟨b, hb⟩ := Option.isSome_iff_exists.mp (h a mem_cons_self)
    rw [filterMap_cons_some hb, length_cons, length_cons,
      ih fun a ha => h a (mem_cons_of_mem _ ha)]

theorem filterMap_take_of_isSome {l : List α} (h : ∀ a ∈ l, (f a).isSome = true) (k : ℕ) :
    (l.take k).filterMap f = (l.filterMap f).take k := by
  induction l generalizing k with
  | nil => simp
  | cons a l ih =>
    obtain ⟨b, hb⟩ := Option.isSome_iff_exists.mp (h a mem_cons_self)
    cases k with
    | zero => rfl
    | succ k =>
      rw [take_succ_cons, filterMap_cons_some hb, filterMap_cons_some hb, take_succ_cons,
        ih fun a ha => h a (mem_cons_of_mem _ ha)]

end FilterMap

theorem length_edgesAt (g : CodeGraph) (side : Side) (n : ℕ) : (edgesAt g side n).length = edgeCount g side n := by
  rw [edgesAt, length_orderBy, edgeCount, countP_eq_length_filter]

theorem withNeighbor_isSome (hjoin : EdgesJoin g) (direction : NeighborDirection) {side : Side} {row : EdgeRow}
    (h : row ∈ wanted g direction side n) : (withNeighbor g row).isSome = true := by
  rw [wanted] at h
  split at h
  · obtain ⟨e, he, rfl⟩ := mem_map.mp h
    obtain ⟨node, hnode⟩ := hjoin e (mem_filter.mp (mem_orderBy.mp he)).1 side
    simp [withNeighbor, toRow, hnode]
  · cases h

/-- The query for one node has the wanted rows, up to the limit. -/
theorem getNeighbors_eq (hjoin : EdgesJoin g) (n : ℕ) (direction : NeighborDirection) (limit : ℤ) :
    getNeighbors g n direction limit = (sqlLimit limit (wanted g direction .out n) ++
      sqlLimit limit (wanted g direction .inn n)).filterMap (withNeighbor g) := by
  have hside (side : Side) : (if direction.asks side = true then sideRows g side n limit else []) =
      (sqlLimit limit (wanted g direction side n)).filterMap (withNeighbor g) := by
    have hrows : (edgesAt g side n).filterMap (joined g side) = (rowsAt g side n).filterMap (withNeighbor g) := by
      rw [rowsAt, filterMap_map]
      rfl
    by_cases hasks : direction.asks side = true
    · rw [if_pos hasks, sideRows, hrows, wanted, if_pos hasks, sqlLimit, sqlLimit]
      split
      · rfl
      · refine (filterMap_take_of_isSome (fun row hrow => ?_) _).symm
        exact withNeighbor_isSome hjoin direction (by rwa [wanted, if_pos hasks])
    · rw [if_neg hasks, wanted, if_neg hasks, sqlLimit]
      simp
  rw [getNeighbors, hside, hside, filterMap_append]

/-- The rows of a node in the answer for many. -/
theorem get_getBulkNeighbors (hn : n ∈ nodeIds) (direction : NeighborDirection) (limit : ℤ) :
    (getBulkNeighbors g nodeIds direction limit none).get n =
      some ((((chunksOf BULK_CHUNK_SIZE nodeIds).foldl (collectChunk g direction limit none)
        ⟨.empty, .empty, []⟩).allRows.filter fun r => r.anchorId = n).filterMap (withNeighbor g)) := by
  rw [getBulkNeighbors]
  refine (get_foldl_attach (fun r hr => ?_) (get_initial hn [])).trans (by rw [nil_append])
  exact get_getNodesByIds (mem_eraseDups.mpr (mem_map_of_mem hr))

/-- Reading the edges on a side once for each chunk gives them once. -/
def SideAgrees (g : CodeGraph) (nodeIds : List ℕ) (limit : ℤ) (side : Side) (n : ℕ) : Prop :=
  edgeCount g side n = 0 ∨
    0 ≤ limit ∧ (chunkCount BULK_CHUNK_SIZE nodeIds n = 1 ∨ limit ≤ edgeCount g side n)

theorem min_mul_eq_iff {l m q : ℕ} (hm : 0 < m) : min l (m * q) = min l q ↔ q = 0 ∨ m = 1 ∨ l ≤ q := by
  rcases Nat.lt_or_ge m 2 with hlt | hge
  · obtain rfl : m = 1 := by omega
    simp
  · have hle : 2 * q ≤ m * q := Nat.mul_le_mul_right q hge
    rcases Nat.eq_zero_or_pos q with rfl | hq
    · simp
    · omega

theorem length_wanted (direction : NeighborDirection) (side : Side) (n : ℕ) :
    (wanted g direction side n).length = if direction.asks side then edgeCount g side n else 0 := by
  rw [wanted]
  split
  · rw [rowsAt, length_map, length_edgesAt]
  · rfl

/-- The answer for many has the neighbors of a node just if every side that is asked for agrees. -/
theorem getBulkNeighbors_iff (hjoin : EdgesJoin g) (hn : n ∈ nodeIds) (direction : NeighborDirection) (limit : ℤ) :
    (getBulkNeighbors g nodeIds direction limit none).get n = some (getNeighbors g n direction limit) ↔
      ∀ side, direction.asks side = true → SideAgrees g nodeIds limit side n := by
  have hcollected : Collected g direction limit n (chunkCount BULK_CHUNK_SIZE nodeIds n) _ :=
    collected_chunks g direction limit n (chunksOf BULK_CHUNK_SIZE nodeIds)
  have hpos : 0 < chunkCount BULK_CHUNK_SIZE nodeIds n := (chunkCount_pos (by decide)).mpr hn
  rw [get_getBulkNeighbors hn, getNeighbors_eq hjoin, Option.some.injEq]
  generalize (chunksOf BULK_CHUNK_SIZE nodeIds).foldl _ _ = s at *
  generalize hm : chunkCount BULK_CHUNK_SIZE nodeIds n = m at *
  obtain ⟨rest, hrows⟩ := hcollected.rows
  have hlength := hcollected.length
  rw [if_neg (Nat.ne_of_gt hpos)] at hrows
  rw [hcollected.count, hcollected.count] at hlength
  have hsome (side : Side) (row : EdgeRow) (hrow : row ∈ wanted g direction side n) :=
    withNeighbor_isSome hjoin direction hrow
  have hagrees (side : Side) : (direction.asks side = true → SideAgrees g nodeIds limit side n) ↔
      (wanted g direction side n).length = 0 ∨
        0 ≤ limit ∧ (m = 1 ∨ limit.toNat ≤ (wanted g direction side n).length) := by
    rw [length_wanted, SideAgrees, hm]
    by_cases hasks : direction.asks side = true
    · rw [if_pos hasks]
      simp only [hasks, forall_const]
      refine or_congr_right (and_congr_right fun hlimit => or_congr_right ?_)
      omega
    · simp [hasks]
  have hsides : (∀ side, direction.asks side = true → SideAgrees g nodeIds limit side n) ↔
      (direction.asks .out = true → SideAgrees g nodeIds limit .out n) ∧
        (direction.asks .inn = true → SideAgrees g nodeIds limit .inn n) :=
    ⟨fun h => ⟨h .out, h .inn⟩, fun h side => by cases side with | out => exact h.1 | inn => exact h.2⟩
  rw [hsides, hagrees, hagrees]
  by_cases hlimit : limit < 0
  · -- Nothing is collected, and the single queries have no limit.
    have hnil : (s.allRows.filter fun r => r.anchorId = n) = [] := by
      rw [← length_eq_zero_iff, hlength]
      omega
    have hall : ∀ row ∈ wanted g direction .out n ++ wanted g direction .inn n, (withNeighbor g row).isSome = true := by
      intro row hrow
      rcases mem_append.mp hrow with hrow | hrow
      · exact hsome .out row hrow
      · exact hsome .inn row hrow
    rw [hnil, sqlLimit, sqlLimit, if_pos hlimit, if_pos hlimit, filterMap_nil, eq_comm,
      ← length_eq_zero_iff, length_filterMap_of_isSome hall, length_append]
    omega
  · have hrest : rest.filterMap (withNeighbor g) = [] ↔ rest.length = 0 := by
      rw [← length_eq_zero_iff, length_filterMap_of_isSome fun row hrow => ?_]
      obtain ⟨side, hside⟩ := hcollected.mem row (by rw [hrows]; exact mem_append_right _ hrow)
      exact hsome side row hside
    rw [hrows, sqlLimit, sqlLimit, if_neg hlimit, if_neg hlimit, filterMap_append, append_right_eq_self, hrest]
    rw [hrows] at hlength
    simp only [length_append, length_take] at hlength
    have hout := min_mul_eq_iff (l := limit.toNat) (q := (wanted g direction .out n).length) hpos
    have hin := min_mul_eq_iff (l := limit.toNat) (q := (wanted g direction .inn n).length) hpos
    have hmul (q : ℕ) : q ≤ m * q := Nat.le_mul_of_pos_left q hpos
    have hmulOut := hmul (wanted g direction .out n).length
    have hmulIn := hmul (wanted g direction .inn n).length
    omega

/-! ## The degrees -/

theorem countP_chunkEdges (side : Side) (chunk : List ℕ) (n : ℕ) :
    ((chunkEdges g side chunk none).countP fun e => side.anchor e = n) = if n ∈ chunk then edgeCount g side n else 0 := by
  rw [countP_eq_length_filter, chunkEdges_filter, edgeCount, countP_eq_length_filter]
  split
  · rfl
  · rfl

/-- The groups of a chunk have at most one row for a node: its number of edges. -/
theorem countRows_filter (side : Side) (chunk : List ℕ) (n : ℕ) :
    ((countRows g side chunk none).filter fun r => r.1 = n) =
      if n ∈ chunk ∧ edgeCount g side n ≠ 0 then [(n, edgeCount g side n)] else [] := by
  have hcount := countP_chunkEdges (g := g) side chunk n
  have hnodup : ((countRows g side chunk none).map Prod.fst).Nodup := by
    rw [countRows, map_map]
    exact nodup_keys_groups side.anchor (chunkEdges g side chunk none)
  rw [filter_key_eq hnodup]
  by_cases h : n ∈ chunk ∧ edgeCount g side n ≠ 0
  · rw [if_pos h.1] at hcount
    have hmem : (n, edgeCount g side n) ∈ countRows g side chunk none := by
      have hpos : 0 < (chunkEdges g side chunk none).countP fun e => side.anchor e = n := by
        rw [hcount]
        exact Nat.pos_of_ne_zero h.2
      obtain ⟨e, he, hn⟩ := countP_pos_iff.mp hpos
      rw [countRows, mem_map]
      refine ⟨(n, (chunkEdges g side chunk none).filter fun e => side.anchor e = n), ?_, ?_⟩
      · exact mem_groups.mpr ⟨⟨e, he, of_decide_eq_true hn⟩, rfl⟩
      · rw [← hcount, countP_eq_length_filter]
    rw [if_pos h, (Rows.get_eq_some_iff hnodup).mpr ⟨hmem, rfl⟩]
    rfl
  · rw [if_neg h]
    cases hget : Rows.get Prod.fst n (countRows g side chunk none) with
    | none => rfl
    | some r =>
      -- A group has an edge of the chunk, so the node is in the chunk and has edges.
      obtain ⟨hr, hid⟩ := (Rows.get_eq_some_iff hnodup).mp hget
      obtain ⟨group, hgroup, rfl⟩ := mem_map.mp hr
      obtain ⟨⟨e, he, hanchor⟩, -⟩ := mem_groups.mp hgroup
      have hpos : 0 < (chunkEdges g side chunk none).countP fun e => side.anchor e = n :=
        countP_pos_iff.mpr ⟨e, he, decide_eq_true (hanchor.trans hid)⟩
      rw [hcount] at hpos
      split at hpos
      · rename_i hn
        exact absurd ⟨hn, Nat.ne_of_gt hpos⟩ h
      · omega

theorem get_addCounts {side : Side} {chunk : List ℕ} {result : OrderedMap ℕ ℕ} {n v : ℕ} (h : result.get n = some v) :
    (addCounts (countRows g side chunk none) result).get n =
      some (v + if n ∈ chunk then edgeCount g side n else 0) := by
  rw [addCounts, get_foldl_set Prod.fst fun (r : ℕ × ℕ) o => o.getD 0 + r.2, countRows_filter, h]
  by_cases hn : n ∈ chunk
  · by_cases hzero : edgeCount g side n = 0
    · simp [hn, hzero]
    · simp [hn, hzero]
  · simp [hn]

/-- Each chunk with the node adds its degree. -/
theorem get_getBulkNodeDegrees (hn : n ∈ nodeIds) :
    (getBulkNodeDegrees g nodeIds).get n = some (chunkCount BULK_CHUNK_SIZE nodeIds n * getNodeDegree g n) := by
  have hfold (chunks : List (List ℕ)) {result : OrderedMap ℕ ℕ} {v : ℕ} (h : result.get n = some v) :
      (chunks.foldl (fun result chunk =>
        addCounts (countRows g .inn chunk none) (addCounts (countRows g .out chunk none) result)) result).get n =
        some (v + (chunks.countP fun chunk => n ∈ chunk) * getNodeDegree g n) := by
    induction chunks generalizing result v with
    | nil => simpa using h
    | cons chunk chunks ih =>
      rw [foldl_cons, ih (get_addCounts (get_addCounts h)), countP_cons, Nat.add_mul, getNodeDegree]
      by_cases hc : n ∈ chunk
      · simp only [hc, if_true, decide_true, Nat.one_mul, Option.some.injEq]
        omega
      · simp [hc]
  rw [getBulkNodeDegrees, hfold _ (get_initial hn 0), Nat.zero_add]
  rfl

/-- The answer for many has the degree of a node just if the node is in one chunk or has no edges. -/
theorem getBulkNodeDegrees_iff (hn : n ∈ nodeIds) : (getBulkNodeDegrees g nodeIds).get n = some (getNodeDegree g n) ↔
      chunkCount BULK_CHUNK_SIZE nodeIds n = 1 ∨ getNodeDegree g n = 0 := by
  rw [get_getBulkNodeDegrees hn, Option.some.injEq]
  constructor
  · intro h
    rcases Nat.eq_zero_or_pos (getNodeDegree g n) with hzero | hpos
    · exact .inr hzero
    · exact .inl (Nat.eq_of_mul_eq_mul_right hpos (h.trans (Nat.one_mul _).symm))
  · rintro (h | h)
    · rw [h, Nat.one_mul]
    · rw [h, Nat.mul_zero]

theorem get_putCounts {side : Side} {chunk : List ℕ} {result : OrderedMap ℕ SplitDegree} {entry : SplitDegree}
    (h : result.get n = some entry) : (putCounts side (countRows g side chunk none) result).get n =
      some (if n ∈ chunk ∧ edgeCount g side n ≠ 0 then entry.put side (edgeCount g side n) else entry) := by
  have hfold (rows : List (ℕ × ℕ)) (result : OrderedMap ℕ SplitDegree) :
      (putCounts side rows result).get n =
        (rows.filter fun r => r.1 = n).foldl (fun o r => o.map (SplitDegree.put side r.2)) (result.get n) := by
    rw [putCounts]
    induction rows generalizing result with
    | nil => rfl
    | cons r rows ih =>
      rw [foldl_cons, ih]
      by_cases hr : r.1 = n
      · subst hr
        rw [filter_cons_of_pos (by simp), foldl_cons]
        cases hget : result.get r.1 with
        | none =>
          dsimp only
          rw [hget]
          rfl
        | some entry => simp
      · rw [filter_cons_of_neg (by simpa using hr)]
        cases hget : result.get r.1 with
        | none => rfl
        | some entry =>
          dsimp only
          rw [OrderedMap.get_set_of_ne (Ne.symm hr)]
  rw [hfold, countRows_filter, h]
  split
  · rfl
  · rfl

/-- Putting the same number again changes nothing. -/
theorem get_getBulkNodeDegreesSplit (hn : n ∈ nodeIds) :
    (getBulkNodeDegreesSplit g nodeIds none).get n = some ⟨edgeCount g .inn n, edgeCount g .out n⟩ := by
  have hstep (chunk : List ℕ) {result : OrderedMap ℕ SplitDegree} {entry : SplitDegree} (h : result.get n = some entry) :
      (putCounts .inn (countRows g .inn chunk none) (putCounts .out (countRows g .out chunk none) result)).get n =
        some ⟨if n ∈ chunk ∧ edgeCount g .inn n ≠ 0 then edgeCount g .inn n else entry.inDegree,
          if n ∈ chunk ∧ edgeCount g .out n ≠ 0 then edgeCount g .out n else entry.outDegree⟩ := by
    rw [get_putCounts (get_putCounts h)]
    by_cases hin : n ∈ chunk ∧ edgeCount g .inn n ≠ 0
    · by_cases hout : n ∈ chunk ∧ edgeCount g .out n ≠ 0
      · rw [if_pos hin, if_pos hout, if_pos hin, if_pos hout]
        rfl
      · rw [if_pos hin, if_neg hout, if_pos hin, if_neg hout]
        rfl
    · by_cases hout : n ∈ chunk ∧ edgeCount g .out n ≠ 0
      · rw [if_neg hin, if_pos hout, if_neg hin, if_pos hout]
        rfl
      · rw [if_neg hin, if_neg hout, if_neg hin, if_neg hout]
  -- A number that was put before is put again.
  have hput (chunk : List ℕ) (count : ℕ) (seen : Bool) :
      (if n ∈ chunk ∧ count ≠ 0 then count else if seen then count else 0) =
        if seen || decide (n ∈ chunk) then count else 0 := by
    by_cases hc : n ∈ chunk
    · by_cases hzero : count = 0
      · simp [hzero]
      · simp [hc, hzero]
    · simp [hc]
  have hfold (chunks : List (List ℕ)) {result : OrderedMap ℕ SplitDegree} {s : Bool}
      (h : result.get n = some ⟨if s then edgeCount g .inn n else 0, if s then edgeCount g .out n else 0⟩) :
      (chunks.foldl (fun result chunk =>
        putCounts .inn (countRows g .inn chunk none) (putCounts .out (countRows g .out chunk none) result)) result).get n =
        some ⟨if s || chunks.any (n ∈ ·) then edgeCount g .inn n else 0,
          if s || chunks.any (n ∈ ·) then edgeCount g .out n else 0⟩ := by
    induction chunks generalizing result s with
    | nil => simpa using h
    | cons chunk chunks ih =>
      have hnext := hstep chunk h
      rw [hput, hput] at hnext
      rw [foldl_cons, ih hnext, any_cons, Bool.or_assoc]
  have hchunk : (chunksOf BULK_CHUNK_SIZE nodeIds).any (n ∈ ·) = true := by
    rw [any_eq_true]
    simpa using (mem_chunksOf (show 0 < BULK_CHUNK_SIZE by decide)).mpr hn
  have hall := hfold (s := false) (chunksOf BULK_CHUNK_SIZE nodeIds) (get_initial hn (SplitDegree.mk 0 0))
  rw [hchunk] at hall
  exact hall

/-! ## Agreement -/

/-- The answers for many are those for one. -/
def BulkAgrees (g : CodeGraph) (nodeIds : List ℕ) (direction : NeighborDirection) (limit : ℤ) : Prop :=
  ∀ n ∈ nodeIds,
    (getBulkNeighbors g nodeIds direction limit none).get n = some (getNeighbors g n direction limit) ∧
      (getBulkNodeDegrees g nodeIds).get n = some (getNodeDegree g n) ∧
        ∃ d, (getBulkNodeDegreesSplit g nodeIds none).get n = some d ∧ d.inDegree + d.outDegree = getNodeDegree g n

/-- The answers agree just if every id with edges is in one chunk only and, where edges are asked for, the limit is
not negative. -/
theorem bulk_queries_agree (g : CodeGraph) (hjoin : EdgesJoin g) (nodeIds : List ℕ) (direction : NeighborDirection)
    (limit : ℤ) : BulkAgrees g nodeIds direction limit ↔ ∀ n ∈ nodeIds,
      (chunkCount BULK_CHUNK_SIZE nodeIds n = 1 ∨ getNodeDegree g n = 0) ∧
        ∀ side, direction.asks side = true → edgeCount g side n = 0 ∨ 0 ≤ limit := by
  refine forall₂_congr fun n hn => ?_
  rw [getBulkNeighbors_iff hjoin hn, getBulkNodeDegrees_iff hn]
  have hsplit : ∃ d, (getBulkNodeDegreesSplit g nodeIds none).get n = some d ∧
      d.inDegree + d.outDegree = getNodeDegree g n :=
    ⟨_, get_getBulkNodeDegreesSplit hn, Nat.add_comm _ _⟩
  have hle (side : Side) : edgeCount g side n ≤ getNodeDegree g n := by
    cases side with
    | out => exact Nat.le_add_right ..
    | inn => exact Nat.le_add_left ..
  constructor
  · rintro ⟨hsides, hdegree, -⟩
    exact ⟨hdegree, fun side hasks => (hsides side hasks).imp_right And.left⟩
  · rintro ⟨hdegree, hsides⟩
    refine ⟨fun side hasks => ?_, hdegree, hsplit⟩
    rcases hsides side hasks with hzero | hlimit
    · exact .inl hzero
    · rcases hdegree with honce | hnone
      · exact .inr ⟨hlimit, .inl honce⟩
      · exact .inl (Nat.eq_zero_of_le_zero (hnone ▸ hle side))

/-- Two nodes and an edge between them. -/
def edgeGraph : CodeGraph where
  nodes := [⟨1, "p".toList, "Function".toList, "f".toList, "f".toList, "a.ts".toList⟩,
    ⟨2, "p".toList, "Function".toList, "h".toList, "h".toList, "a.ts".toList⟩]
  edges := [⟨5, "p".toList, 1, 2, "CALLS".toList⟩]
  nodup_nodes := by decide
  nodup_edges := by decide

theorem edgesJoin_edgeGraph : EdgesJoin edgeGraph := by
  intro e he side
  obtain rfl := mem_singleton.mp he
  cases side with
  | out => exact ⟨_, rfl⟩
  | inn => exact ⟨_, rfl⟩

theorem bulk_queries_agree_edge : BulkAgrees edgeGraph [1, 2, 1] .both 50 ↔ ∀ n ∈ [1, 2, 1],
      (chunkCount BULK_CHUNK_SIZE [1, 2, 1] n = 1 ∨ getNodeDegree edgeGraph n = 0) ∧
        ∀ side, NeighborDirection.both.asks side = true → edgeCount edgeGraph side n = 0 ∨ (0 : ℤ) ≤ 50 :=
  bulk_queries_agree edgeGraph edgesJoin_edgeGraph [1, 2, 1] .both 50

/-- An id that comes again in the second chunk. -/
theorem bulk_queries_repeated : ¬BulkAgrees edgeGraph (List.replicate 501 1) .outbound 50 := by
  intro h
  have hdegree := (h 1 (mem_replicate.mpr ⟨by decide, rfl⟩)).2.1
  rw [get_getBulkNodeDegrees (mem_replicate.mpr ⟨by decide, rfl⟩)] at hdegree
  have hcount : chunkCount BULK_CHUNK_SIZE (List.replicate 501 1) 1 = 2 := by decide +kernel
  rw [hcount] at hdegree
  exact absurd hdegree (by decide)

end Ariad.Bridge
