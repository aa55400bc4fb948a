import Mathlib.Data.List.Nodup
import Mathlib.Data.List.Sort
import Ariad.Store.Types

/-!
# The CAS database

`publication-cas.sqlite` holds three tables: the singleton `publication_state`, the
`generation_catalog`, and the append-only `publication_history`
(`internal/generation-cas-store.ts`). This file has the tables as a value (`Cas`), the queries, and
the single SQL statements that change them (`CasStmt`); the methods of `CasStore` are programs made
of these statements and follow in `CasStore.lean`.

* `Catalog` carries its primary key as a field: no two rows have the same generation id.
* `CasStmt.run` is the effect of one statement; what whole transactions make of the tables follows
  in `CasLaws.lean`.
-/

namespace Ariad

open List

/-! ## The catalog -/

/-- `generation_catalog`: rows in insertion order, with its primary key. -/
structure Catalog where
  rows : List CasGenerationCatalogEntry
  nodup : (rows.map fun e => e.generationId).Nodup
  deriving DecidableEq

namespace Catalog

/-- The row of a generation. -/
def lookup (c : Catalog) (g : GenerationId) : Option CasGenerationCatalogEntry :=
  c.rows.find? fun e => e.generationId = g

/-- The table without rows. -/
def empty : Catalog := ⟨[], List.nodup_nil⟩

variable {e : CasGenerationCatalogEntry}

theorem lookup_mem {c : Catalog} {g : GenerationId}
    (h : c.lookup g = some e) : e ∈ c.rows := mem_of_find?_eq_some h

/-- The primary key finds every row. -/
theorem lookup_of_mem {c : Catalog} (h : e ∈ c.rows) : c.lookup e.generationId = some e := by
  obtain ⟨rows, nodup⟩ := c
  simp only [lookup] at h ⊢
  induction rows with
  | nil => cases h
  | cons r rows ih =>
    simp only [map_cons, nodup_cons, mem_map, not_exists, not_and] at nodup
    rcases mem_cons.mp h with rfl | h
    · simp
    · have hne : r.generationId ≠ e.generationId := fun heq => nodup.1 e h heq.symm
      simpa [find?_cons, hne] using ih nodup.2 h

theorem mem_iff_lookup {c : Catalog} : e ∈ c.rows ↔ c.lookup e.generationId = some e :=
  ⟨lookup_of_mem, lookup_mem⟩

/-- `INSERT`: fails on a duplicate key. -/
def insert (c : Catalog) (e : CasGenerationCatalogEntry) : Option Catalog :=
  if h : c.lookup e.generationId = none then
    some ⟨c.rows ++ [e], by
      simp only [lookup, List.find?_eq_none, decide_eq_true_eq] at h
      simp only [List.map_append, List.map_cons, List.map_nil]
      refine List.Nodup.append c.nodup (List.nodup_singleton _) ?_
      simpa [List.disjoint_singleton] using h⟩
  else
    none

/-- `UPDATE … WHERE generation_id = g` of mutable columns. -/
def update (c : Catalog) (g : GenerationId) (f : CasMutableColumns → CasMutableColumns) :
    Catalog where
  rows := c.rows.map fun e =>
    if e.generationId = g then { e with toCasMutableColumns := f e.toCasMutableColumns } else e
  nodup := by
    have h : (fun e : CasGenerationCatalogEntry => e.generationId) ∘ (fun e =>
        if e.generationId = g then { e with toCasMutableColumns := f e.toCasMutableColumns } else e)
        = fun e => e.generationId := by
      funext e
      simp only [Function.comp]
      split <;> rfl
    rw [List.map_map, h]
    exact c.nodup

@[simp] theorem lookup_empty (g : GenerationId) : empty.lookup g = none := rfl

theorem insert_eq_some {c c' : Catalog}
    (h : c.insert e = some c') : c.lookup e.generationId = none ∧ c'.rows = c.rows ++ [e] := by
  unfold insert at h
  split at h
  · rename_i hn
    cases h
    exact ⟨hn, rfl⟩
  · cases h

theorem lookup_insert {c c' : Catalog} (h : c.insert e = some c') (g : GenerationId) :
    c'.lookup g = if e.generationId = g then some e else c.lookup g := by
  obtain ⟨hn, hrows⟩ := insert_eq_some h
  simp only [lookup, hrows, find?_append, find?_cons, find?_nil]
  by_cases hg : e.generationId = g
  · subst hg
    have : c.rows.find? (fun r => decide (r.generationId = e.generationId)) = none := hn
    simp [this]
  · simp [hg]

theorem lookup_update (c : Catalog) (g : GenerationId) (f : CasMutableColumns → CasMutableColumns)
    (g' : GenerationId) : (c.update g f).lookup g' = if g' = g
      then (c.lookup g').map fun e => { e with toCasMutableColumns := f e.toCasMutableColumns }
      else c.lookup g' := by
  obtain ⟨rows, nodup⟩ := c
  simp only [lookup, update]
  induction rows with
  | nil => simp
  | cons r rows ih =>
    simp only [map_cons, nodup_cons] at nodup
    have ih := ih nodup.2
    simp only [map_cons, find?_cons]
    by_cases hr : r.generationId = g
    · by_cases hg : g' = g
      · subst hg
        simp [hr]
      · have : g ≠ g' := fun h => hg h.symm
        simpa [hr, this, hg] using ih
    · by_cases hg : r.generationId = g'
      · subst hg
        simp [hr]
      · simpa [hr, hg] using ih

end Catalog

/-! ## The tables -/

/-- The CAS database of one project. -/
structure Cas where
  activeGenerationId : Option GenerationId
  revision : ℕ
  catalog : Catalog
  /-- `publication_history` in the order of `history_id`. -/
  history : List CasPublicationHistoryEntry
  deriving DecidableEq

namespace Cas

/-- What `openCasStore` creates. -/
def initial : Cas := ⟨none, 0, .empty, []⟩

/-- `SELECT … WHERE generation_id = ?`. -/
def getGenerationCatalogEntry (c : Cas) (g : GenerationId) : Option CasGenerationCatalogEntry :=
  c.catalog.lookup g

/-- `SELECT … WHERE status = ? ORDER BY first_published_at ASC`. -/
def listCatalogEntriesByStatus (c : Cas) (st : CatalogStatus) : List CasGenerationCatalogEntry :=
  (c.catalog.rows.filter fun e => e.status = st).insertionSort
    fun a b => a.firstPublishedAt ≤ b.firstPublishedAt

/-- An ACTIVE row with the same content, the most recently seen one first. -/
def findDedupCandidate (c : Cas) (sha256 : Sha256) (sizeBytes : ℕ) (rootFingerprint : String)
    (extractorSemanticsVersion discoveryPolicyVersion : ℕ) : Option CasGenerationCatalogEntry :=
  ((c.catalog.rows.filter fun e => e.status = .active ∧ e.sha256 = sha256 ∧
      e.sizeBytes = sizeBytes ∧ e.rootFingerprint = rootFingerprint ∧
      e.extractorSemanticsVersion = extractorSemanticsVersion ∧
      e.discoveryPolicyVersion = discoveryPolicyVersion).insertionSort
    fun a b => b.lastSeenAt ≤ a.lastSeenAt).head?

/-- `ORDER BY published_at DESC, history_id DESC`: `a` comes before `b`. -/
def historyBefore (a b : CasPublicationHistoryEntry) : Prop :=
  b.publishedAt < a.publishedAt ∨ (b.publishedAt = a.publishedAt ∧ b.historyId ≤ a.historyId)

instance : DecidableRel historyBefore := fun _ _ => inferInstanceAs (Decidable (_ ∨ _))

/-- `SELECT … WHERE project = ? ORDER BY published_at DESC, history_id DESC`. -/
def listPublicationHistory (c : Cas) (project : String) : List CasPublicationHistoryEntry :=
  (c.history.filter fun r => r.project = project).insertionSort historyBefore

theorem mem_listCatalogEntriesByStatus {c : Cas} {st : CatalogStatus} :
    e ∈ c.listCatalogEntriesByStatus st ↔
      c.getGenerationCatalogEntry e.generationId = some e ∧ e.status = st := by
  simp only [listCatalogEntriesByStatus, mem_insertionSort, mem_filter,
    decide_eq_true_eq, Catalog.mem_iff_lookup, getGenerationCatalogEntry]

theorem findDedupCandidate_some {c : Cas} {sha256 : Sha256} {sizeBytes : ℕ}
    {rootFingerprint : String} {esv dpv : ℕ}
    (h : c.findDedupCandidate sha256 sizeBytes rootFingerprint esv dpv = some e) :
    c.getGenerationCatalogEntry e.generationId = some e ∧ e.status = .active ∧
      e.sha256 = sha256 ∧ e.sizeBytes = sizeBytes ∧ e.rootFingerprint = rootFingerprint ∧
      e.extractorSemanticsVersion = esv ∧ e.discoveryPolicyVersion = dpv := by
  have hmem := mem_of_head? h
  simp only [mem_insertionSort, mem_filter, decide_eq_true_eq,
    Catalog.mem_iff_lookup] at hmem
  exact hmem

end Cas

/-! ## Statements -/

/-- The SQL statements that change the tables, each of them atomic. -/
inductive CasStmt where
  /-- `UPDATE publication_state SET active_generation_id = ?`. -/
  | updateActive (g : Option GenerationId)
  /-- `UPDATE publication_state SET revision = revision + 1`. -/
  | bumpRevision
  /-- `UPDATE publication_state SET active_generation_id = ?, revision = revision + 1`. -/
  | updateActiveAndBump (g : Option GenerationId)
  /-- `INSERT INTO generation_catalog`. -/
  | insertCatalog (e : CasGenerationCatalogEntry)
  /-- `UPDATE generation_catalog SET last_seen_at = ?, pinned = ?, status = ?`. -/
  | updateCatalog (g : GenerationId) (m : CasMutableColumns)
  /-- `UPDATE generation_catalog SET status = ?`. -/
  | updateStatus (g : GenerationId) (st : CatalogStatus)
  /-- `UPDATE generation_catalog SET pinned = ?`. -/
  | updatePinned (g : GenerationId) (pinned : Bool)
  /-- `INSERT INTO publication_history`; the id is the next one. -/
  | insertHistory (g : GenerationId) (project : String) (publishedAt : Timestamp)
      (action : HistoryAction) (previousActiveGenerationId : Option GenerationId)
      (casRevision : ℕ)
  deriving DecidableEq

/-- The effect of a statement, with the number of rows it changed; `none` when a constraint fails. -/
def CasStmt.run : CasStmt → Cas → Option (Cas × ℕ)
  | .updateActive g, c => some ({ c with activeGenerationId := g }, 1)
  | .bumpRevision, c => some ({ c with revision := c.revision + 1 }, 1)
  | .updateActiveAndBump g, c =>
    some ({ c with activeGenerationId := g, revision := c.revision + 1 }, 1)
  | .insertCatalog e, c => (c.catalog.insert e).map fun cat => ({ c with catalog := cat }, 1)
  | .updateCatalog g m, c =>
    some ({ c with catalog := c.catalog.update g fun _ => m },
      if (c.catalog.lookup g).isSome then 1 else 0)
  | .updateStatus g st, c =>
    some ({ c with catalog := c.catalog.update g fun m => { m with status := st } },
      if (c.catalog.lookup g).isSome then 1 else 0)
  | .updatePinned g b, c =>
    some ({ c with catalog := c.catalog.update g fun m => { m with pinned := b } },
      if (c.catalog.lookup g).isSome then 1 else 0)
  | .insertHistory g project at_ action prev rev, c =>
    some ({ c with history := c.history ++
      [⟨c.history.length + 1, g, project, at_, action, prev, rev⟩] }, 1)

end Ariad
