import Ariad.Store.CasStore

/-!
# What transactions do to the CAS tables

The relations between two contents of the tables that the store's guarantees are about, as facts
about the tables alone.

* `Cas.Advances c c'` — one transaction may turn `c` into `c'`: immutable columns stay, a status
  moves at most one step forward, a pinned row keeps its status, new rows are `ACTIVE`, the history
  is only appended to.
* `Cas.RevSound c c'` — the revision never falls, and while it stays the same so do the active
  generation, every status and every pin.
* `Cas.HistoryOk c` — the rows of the history are numbered without gaps, and each carries the
  revision that its own increment produced.
-/

namespace Ariad

/-- What a transaction may do to one catalog row. -/
structure RowAdvances (e e' : CasGenerationCatalogEntry) : Prop where
  immutable : e'.toCasImmutableColumns = e.toCasImmutableColumns
  status : e'.status = e.status ∨ (CasStore.statusAllowed e.status e'.status = true ∧ e.pinned = false)

variable {c c' : Cas}

theorem RowAdvances.refl (e : CasGenerationCatalogEntry) : RowAdvances e e := ⟨rfl, .inl rfl⟩

namespace Cas

/-- The row of a generation. -/
abbrev entry (c : Cas) (g : GenerationId) : Option CasGenerationCatalogEntry :=
  c.getGenerationCatalogEntry g

/-- What one transaction may do to the tables. -/
structure Advances (c c' : Cas) : Prop where
  row : ∀ g e, c.entry g = some e → ∃ e', c'.entry g = some e' ∧ RowAdvances e e'
  fresh : ∀ g e', c.entry g = none → c'.entry g = some e' → e'.status = .active
  history : c.history <+: c'.history

theorem Advances.refl (c : Cas) : Advances c c where
  row _ e h := ⟨e, h, .refl e⟩
  fresh g e' hn hs := by
    rw [hn] at hs
    cases hs
  history := List.prefix_rfl

/-- A row that was there is still there. -/
theorem Advances.none_of_none (h : Advances c c') {g : GenerationId}
    (hn : c'.entry g = none) : c.entry g = none := by
  cases hc : c.entry g with
  | none => rfl
  | some e =>
    obtain ⟨e', he', -⟩ := h.row g e hc
    rw [he'] at hn
    cases hn

/-- What the revision stands for: the active generation, and of every row the status and the pin. -/
structure SameView (c c' : Cas) : Prop where
  active : c'.activeGenerationId = c.activeGenerationId
  row : ∀ g, (c'.entry g).map (fun e => (e.status, e.pinned)) =
    (c.entry g).map (fun e => (e.status, e.pinned))

theorem SameView.refl (c : Cas) : SameView c c := ⟨rfl, fun _ => rfl⟩

theorem SameView.trans {c₁ c₂ c₃ : Cas} (h₁ : SameView c₁ c₂) (h₂ : SameView c₂ c₃) :
    SameView c₁ c₃ :=
  ⟨h₂.active.trans h₁.active, fun g => (h₂.row g).trans (h₁.row g)⟩

/-- The revision never falls, and it stays the same only while the view does. -/
structure RevSound (c c' : Cas) : Prop where
  le : c.revision ≤ c'.revision
  view : c.revision = c'.revision → SameView c c'

theorem RevSound.refl (c : Cas) : RevSound c c := ⟨le_refl _, fun _ => .refl c⟩

theorem RevSound.trans {c₁ c₂ c₃ : Cas} (h₁ : RevSound c₁ c₂) (h₂ : RevSound c₂ c₃) :
    RevSound c₁ c₃ where
  le := h₁.le.trans h₂.le
  view h := by
    have hle₁ := h₁.le
    have hle₂ := h₂.le
    exact (h₁.view (by omega)).trans (h₂.view (by omega))

/-- Rows are numbered from one, and each carries its own number as its revision. -/
def HistoryOk (c : Cas) : Prop :=
  ∀ i row, c.history[i]? = some row → row.historyId = i + 1 ∧ row.casRevision = i + 1

/-- The active generation, if any, is catalogued as `ACTIVE`. -/
def ActiveOk (c : Cas) : Prop :=
  ∀ g, c.activeGenerationId = some g → ∃ e, c.entry g = some e ∧ e.status = .active

/-! ### The effect of the statements -/

/-- What `appendPublicationHistory` does to the tables. -/
def appended (c : Cas) (g : GenerationId) (project : String) (now : Timestamp)
    (action : HistoryAction) (prev : Option GenerationId) : Cas :=
  { c with
    revision := c.revision + 1
    history := c.history ++
      [⟨c.history.length + 1, g, project, now, action, prev, c.revision + 1⟩] }

@[simp] theorem appended_entry (c : Cas) (g g' : GenerationId) (project : String)
    (now : Timestamp) (action : HistoryAction) (prev : Option GenerationId) :
    (c.appended g project now action prev).entry g' = c.entry g' := rfl

@[simp] theorem appended_active (c : Cas) (g : GenerationId) (project : String)
    (now : Timestamp) (action : HistoryAction) (prev : Option GenerationId) :
    (c.appended g project now action prev).activeGenerationId = c.activeGenerationId := rfl

@[simp] theorem appended_revision (c : Cas) (g : GenerationId) (project : String)
    (now : Timestamp) (action : HistoryAction) (prev : Option GenerationId) :
    (c.appended g project now action prev).revision = c.revision + 1 := rfl

@[simp] theorem appended_history_length (c : Cas) (g : GenerationId) (project : String)
    (now : Timestamp) (action : HistoryAction) (prev : Option GenerationId) :
    (c.appended g project now action prev).history.length = c.history.length + 1 := by
  simp [appended]

theorem HistoryOk.insertHistory (h : c.HistoryOk)
    (row : CasPublicationHistoryEntry) (hid : row.historyId = c.history.length + 1)
    (hrev : row.casRevision = c.history.length + 1) (hc' : c'.history = c.history ++ [row]) :
    c'.HistoryOk := by
  intro i r hr
  rw [hc', List.getElem?_append] at hr
  split at hr
  · exact h i r hr
  · rename_i hi
    rw [List.getElem?_singleton] at hr
    split at hr
    · cases hr
      omega
    · cases hr

theorem HistoryOk.of_history (h : c.HistoryOk) (hc' : c'.history = c.history) : c'.HistoryOk := by
  intro i r hr
  rw [hc'] at hr
  exact h i r hr

theorem HistoryOk.initial : HistoryOk Cas.initial := by
  intro i r hr
  simp [Cas.initial] at hr

end Cas

theorem CasStmt.run_insertCatalog {e : CasGenerationCatalogEntry} {n : ℕ}
    (h : (CasStmt.insertCatalog e).run c = some (c', n)) : c.entry e.generationId = none ∧
      (∀ g, c'.entry g = if e.generationId = g then some e else c.entry g) ∧
      c'.activeGenerationId = c.activeGenerationId ∧ c'.revision = c.revision ∧
      c'.history = c.history := by
  simp only [run, Option.map_eq_some_iff, Prod.mk.injEq] at h
  obtain ⟨cat, hcat, rfl, -⟩ := h
  exact ⟨(Catalog.insert_eq_some hcat).1, Catalog.lookup_insert hcat, rfl, rfl, rfl⟩

/-- A statement that updates mutable columns of one row. -/
theorem Cas.entry_update (c : Cas) (g g' : GenerationId)
    (f : CasMutableColumns → CasMutableColumns) :
    ({ c with catalog := c.catalog.update g f } : Cas).entry g' = if g' = g
      then (c.entry g').map fun e => { e with toCasMutableColumns := f e.toCasMutableColumns }
      else c.entry g' :=
  Catalog.lookup_update c.catalog g f g'

end Ariad
