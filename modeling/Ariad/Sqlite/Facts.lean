import Ariad.Sqlite.Database

/-!
# What migrations establish

A migration asks whether it is done: whether there is a table, a column, an index. Here are the facts of this kind,
and a check of the text of an action that tells whether it keeps such a fact.

* `Fact` — a fact about a schema, or that an update has nothing left to do.
* `Action.keeps` — the check, which only reads names.
* `Action.keeps_sound` — an action that passes it keeps the fact, if the index of a rebuilt table is where it belongs.
-/

namespace Ariad.Sqlite

open List Function Bool

inductive Fact where
  | hasTable (n : Name)
  | noTable (n : Name)
  | indexOn (i n : Name)
  | hasColumn (n c : Name)
  /-- The table has the column, if there is the table. -/
  | column (n c : Name)
  /-- Likewise for a uniqueness constraint. -/
  | unique (n : Name) (columns : List Name)
  /-- The column is not of the type. -/
  | notTyped (n c : Name) (type : String)
  /-- The update changes nothing. -/
  | updated (u : Update)

/-- Whether one of the columns has the name. -/
def named (columns : List Column) (c : Name) : Bool := columns.any fun k => k.name = c

/-- The name of a type in capital letters. -/
def upper (type : String) : Text := type.toList.map Char.toUpper

/-- Whether the column of the name, if there is one, is not of the type. -/
def untyped (columns : List Column) (c : Name) (type : String) : Bool :=
  (columns.find? fun k => k.name = c).all fun k => upper k.type ≠ type.toList

variable (engine : Engine)

def Fact.Holds : Fact → Db → Prop
  | hasTable n, db => db.tables n ≠ none
  | noTable n, db => db.tables n = none
  | indexOn i n, db => ∃ j ∈ db.indexes, j.name = i ∧ j.table = n
  | hasColumn n c, db => ∃ t, db.tables n = some t ∧ named t.columns c = true
  | column n c, db => ∀ t, db.tables n = some t → named t.columns c = true
  | unique n columns, db => db.tables n = none ∨ db.hasUnique n columns = true
  | notTyped n c type, db => ∀ t, db.tables n = some t → untyped t.columns c type = true
  | updated u, db => (Statement.update u).apply engine db = .ok db

/-- The table of which a fact tells something. -/
def Fact.table : Fact → Name
  | hasTable n | noTable n | indexOn _ n | hasColumn n _ | column n _ | unique n _ | notTyped n _ _ => n
  | updated u => u.table

/-- Whether a fact about a table of this shape holds. -/
def Fact.shaped (columns : List Column) (uniques : List (List Name)) : Fact → Bool
  | hasTable _ => true
  | hasColumn _ c | column _ c => named columns c
  | unique _ us => uniques.contains us
  | notTyped _ c type => untyped columns c type
  | noTable _ | indexOn _ _ | updated _ => false

def Statement.keeps : Statement → Fact → Bool
  | createTable _ n columns uniques, f =>
    match f with
    | .noTable m => m ≠ n
    | .column m _ | .unique m _ | .notTyped m _ _ => m ≠ n || f.shaped columns uniques
    | _ => true
  | createIndex _, _ => true
  | dropTable _ n, f => f.table ≠ n
  | renameTable n m, f => f.table ≠ n && f.table ≠ m
  | addColumn n c, f =>
    match f with
    | .notTyped m c' _ => m ≠ n || c' ≠ c.name
    | _ => true
  | update u, f =>
    match f with
    | .updated u' => u'.table ≠ u.table
    | _ => true
  | insertSelect n _ _, f =>
    match f with
    | .updated u => u.table ≠ n
    | _ => true

/-- The temporary table is gone, and the index is there. -/
def Rebuild.makes (b : Rebuild) : Fact → Bool
  | .noTable n => n = b.temporary
  | .indexOn i n => i = b.index.name && n = b.table
  | _ => false

def Action.keeps : Action → Fact → Bool
  | statement st, f => st.keeps f
  | rebuild b, f =>
    (f.table ≠ b.table && f.table ≠ b.temporary) || f.table = b.table && f.shaped b.columns b.uniques || b.makes f

variable {engine} {db db' : Db} {f : Fact}

/-! ## Updates -/

/-- The value that an update gives to a row. -/
def Update.new (engine : Engine) (u : Update) (c : Column) (r : Row) : Option Value :=
  (u.value (u.reads.map r.get)).map (engine.store c.type)

variable {n : Name} {t : Table}

variable {u : Update}

theorem mem_names {r : Row} {c : Name} (hr : r ∈ t.rows) (hc : c ∈ t.names) : c ∈ r.map Prod.fst :=
  t.fits r hr ▸ hc

theorem update_eq_self_iff {column : Name} {value : Row → Option Value} :
    t.update column value = t ↔ ∀ r ∈ t.rows, ∀ v, value r = some v → r.set column v = r := by
  constructor
  · intro h r hr v hv
    have hmap := congrArg Table.rows h
    rw [Table.update] at hmap
    have hrow := map_inj_left.mp (hmap.trans (map_id _).symm) r hr
    rw [hv] at hrow
    exact hrow
  · intro h
    refine Table.ext rfl rfl ?_
    rw [Table.update]
    refine (map_congr_left fun r hr => ?_).trans (map_id _)
    cases hv : value r with
    | none => rfl
    | some v => exact h r hr v hv

@[simp] theorem Db.tables_set_self (db : Db) (n : Name) (t : Table) : (db.set n t).tables n = some t :=
  update_self _ _ _

theorem Db.set_set (db : Db) (n : Name) (t t' : Table) : (db.set n t).set n t' = db.set n t' := by
  rw [set, set, set, update_idem]

theorem Db.set_self (h : db.tables n = some t) : db.set n t = db := by
  rw [Db.set, ← h, update_eq_self]

/-- The constraint that an update checks. -/
theorem nulls_iff (c : Column) (t : Table) : (c.notNull && t.rows.any fun r =>
      decide ((u.value (u.reads.map r.get)).map (engine.store c.type) = some .null)) = false ↔
      (c.notNull = true → ∀ r ∈ t.rows, u.new engine c r ≠ some .null) := by
  simp [Update.new]

theorem update_ok (h : (Statement.update u).apply engine db = .ok db') :
    ∃ t c, db.tables u.table = some t ∧ t.columns.find? (fun c => c.name = u.column) = some c ∧ u.reads ⊆ t.names ∧
      (c.notNull = true → ∀ r ∈ t.rows, u.new engine c r ≠ some .null) ∧
      db' = db.set u.table (t.update u.column (u.new engine c)) := by
  rw [Statement.apply] at h
  cases hn : db.tables u.table with
  | none => simp only [hn, reduceCtorEq] at h
  | some t =>
    simp only [hn] at h
    cases hc : t.columns.find? fun c => decide (c.name = u.column) with
    | none => simp only [hc, reduceCtorEq] at h
    | some c =>
      simp only [hc] at h
      split at h
      · rename_i hreads
        split at h
        · exact absurd h (by simp)
        · rename_i hnull
          exact ⟨t, c, rfl, hc, hreads, (nulls_iff c t).mp (eq_false_iff.mpr hnull), (Except.ok.inj h).symm⟩
      · exact absurd h (by simp)

/-- When an update changes nothing. -/
theorem updated_iff : (Statement.update u).apply engine db = .ok db ↔
    ∃ t c, db.tables u.table = some t ∧ t.columns.find? (fun c => c.name = u.column) = some c ∧ u.reads ⊆ t.names ∧
      (c.notNull = true → ∀ r ∈ t.rows, u.new engine c r ≠ some .null) ∧
      ∀ r ∈ t.rows, ∀ v, u.new engine c r = some v → r.set u.column v = r := by
  constructor
  · intro h
    obtain ⟨t, c, ht, hc, hreads, hnull, hdb⟩ := update_ok h
    refine ⟨t, c, ht, hc, hreads, hnull, update_eq_self_iff.mp (Option.some.inj ?_)⟩
    rw [← Db.tables_set_self db u.table, ← ht]
    exact (congrArg (fun d : Db => d.tables u.table) hdb).symm
  · rintro ⟨t, c, ht, hc, hreads, hnull, hrows⟩
    have hself : t.update u.column (fun r => (u.value (u.reads.map r.get)).map (engine.store c.type)) = t :=
      update_eq_self_iff.mpr hrows
    rw [Statement.apply]
    simp only [ht, hc]
    rw [if_pos hreads, (nulls_iff c t).mpr hnull, if_neg Bool.false_ne_true, hself, Db.set_self ht]

/-! ## What the statements do -/

/-- The same tables and columns, and the indexes of before. -/
structure Db.Same (n : Name) (db db' : Db) : Prop where
  tables : db'.tables n = db.tables n
  indexes : ∀ j ∈ db.indexes, j.table = n → j ∈ db'.indexes

/-- A fact depends on its table and its indexes. -/
theorem Fact.Holds.same (h : f.Holds engine db) (hsame : db.Same f.table db') : f.Holds engine db' := by
  obtain ⟨htables, hindexes⟩ := hsame
  cases f with
  | hasTable n => exact fun hn => h (htables.symm.trans hn)
  | noTable n => exact htables.trans h
  | indexOn i n =>
    obtain ⟨j, hj, hname, htable⟩ := h
    exact ⟨j, hindexes j hj htable, hname, htable⟩
  | hasColumn n c =>
    obtain ⟨t, ht, hc⟩ := h
    exact ⟨t, htables.trans ht, hc⟩
  | column n c => exact fun t ht => h t (htables.symm.trans ht)
  | unique n columns =>
    rcases h with h | h
    · exact .inl (htables.trans h)
    · refine .inr ?_
      have htable : db'.tables n = db.tables n := htables
      rw [Db.hasUnique, or_eq_true, any_eq_true] at h ⊢
      rw [htable]
      refine h.imp_right ?_
      rintro ⟨j, hj, hprop⟩
      refine ⟨j, hindexes j hj ?_, hprop⟩
      simp only [and_eq_true, decide_eq_true_eq] at hprop
      exact hprop.1.1
  | notTyped n c type => exact fun t ht => h t (htables.symm.trans ht)
  | updated u =>
    obtain ⟨t, c, ht, hrest⟩ := updated_iff.mp h
    exact updated_iff.mpr ⟨t, c, htables.trans ht, hrest⟩

theorem Db.same_set {n m : Name} (h : n ≠ m) : db.Same n (db.set m t) :=
  ⟨update_of_ne h _ _, fun _ hj _ => hj⟩

/-- What a statement can do, for one statement after the other. -/
theorem createTable_ok {b : Bool} {columns : List Column} {uniques : List (List Name)}
    (h : (Statement.createTable b n columns uniques).apply engine db = .ok db') :
    b = true ∧ db.tables n ≠ none ∧ db' = db ∨ db.tables n = none ∧ db' = db.set n (Table.empty columns uniques) := by
  rw [Statement.apply] at h
  cases ht : db.tables n with
  | none =>
    simp only [ht] at h
    exact .inr ⟨rfl, (Except.ok.inj h).symm⟩
  | some t =>
    simp only [ht] at h
    split at h
    · rename_i hb
      exact .inl ⟨hb, by simp, (Except.ok.inj h).symm⟩
    · exact absurd h (by simp)

theorem createIndex_ok {i : Index} (h : (Statement.createIndex i).apply engine db = .ok db') :
    (∃ j ∈ db.indexes, j.name = i.name) ∧ db' = db ∨ db' = { db with indexes := db.indexes ++ [i] } := by
  rw [Statement.apply] at h
  split at h
  · rename_i hany
    rw [any_eq_true] at hany
    obtain ⟨j, hj, hname⟩ := hany
    exact .inl ⟨⟨j, hj, of_decide_eq_true hname⟩, (Except.ok.inj h).symm⟩
  · refine .inr ?_
    cases ht : db.tables i.table with
    | none => simp only [ht, reduceCtorEq] at h
    | some t =>
      simp only [ht] at h
      split at h
      · exact (Except.ok.inj h).symm
      · exact absurd h (by simp)

theorem dropTable_ok {b : Bool} (h : (Statement.dropTable b n).apply engine db = .ok db') :
    db.tables n = none ∧ db' = db ∨ db.tables n ≠ none ∧ db' =
      { tables := Function.update db.tables n none, indexes := db.indexes.filter fun i => i.table ≠ n } := by
  rw [Statement.apply] at h
  cases ht : db.tables n with
  | none =>
    simp only [ht] at h
    split at h
    · exact .inl ⟨rfl, (Except.ok.inj h).symm⟩
    · exact absurd h (by simp)
  | some t =>
    simp only [ht] at h
    exact .inr ⟨by simp, (Except.ok.inj h).symm⟩

theorem renameTable_ok {n m : Name} (h : (Statement.renameTable n m).apply engine db = .ok db') :
    ∃ t, db.tables n = some t ∧ db.tables m = none ∧ db' =
      { tables := Function.update (Function.update db.tables n none) m (some t)
        indexes := db.indexes.map fun i => if i.table = n then { i with table := m } else i } := by
  rw [Statement.apply] at h
  cases hn : db.tables n with
  | none => simp only [hn, reduceCtorEq] at h
  | some t =>
    cases hm : db.tables m with
    | some t' => simp only [hn, hm, reduceCtorEq] at h
    | none =>
      simp only [hn, hm] at h
      exact ⟨t, rfl, rfl, (Except.ok.inj h).symm⟩

theorem addColumn_ok {c : Column} (h : (Statement.addColumn n c).apply engine db = .ok db') :
    ∃ t, db.tables n = some t ∧ c.name ∉ t.names ∧ db' = db.set n (t.addColumn c) := by
  rw [Statement.apply] at h
  cases hn : db.tables n with
  | none => simp only [hn, reduceCtorEq] at h
  | some t =>
    simp only [hn] at h
    split at h
    · exact absurd h (by simp)
    · rename_i hnew
      split at h
      · exact absurd h (by simp)
      · exact ⟨t, rfl, hnew, (Except.ok.inj h).symm⟩

theorem insertRow_ok {t t' : Table} {given : Row} (h : insertRow engine n t given = .ok t') :
    t'.columns = t.columns ∧ t'.uniques = t.uniques := by
  rw [insertRow] at h
  split at h
  · rw [← Except.ok.inj h]
    exact ⟨rfl, rfl⟩
  · exact absurd h (by simp)

theorem insertRows_ok {rows : List Row} {t t' : Table}
    (h : rows.foldlM (insertRow engine n) t = .ok t') : t'.columns = t.columns ∧ t'.uniques = t.uniques := by
  induction rows generalizing t with
  | nil =>
    obtain rfl := Except.ok.inj h
    exact ⟨rfl, rfl⟩
  | cons r rows ih =>
    rw [foldlM_cons] at h
    cases hr : insertRow engine n t r with
    | error e =>
      rw [hr] at h
      exact absurd h (by simp [bind, Except.bind])
    | ok u =>
      rw [hr] at h
      have hrest := ih h
      have hone := insertRow_ok hr
      exact ⟨hrest.1.trans hone.1, hrest.2.trans hone.2⟩

theorem insertSelect_ok {n source : Name} {copy : Copy}
    (h : (Statement.insertSelect n source copy).apply engine db = .ok db') :
    ∃ t t', db.tables n = some t ∧ t'.columns = t.columns ∧ t'.uniques = t.uniques ∧ db' = db.set n t' := by
  rw [Statement.apply] at h
  cases hn : db.tables n with
  | none => simp only [hn, reduceCtorEq] at h
  | some t =>
    cases hs : db.tables source with
    | none => simp only [hn, hs, reduceCtorEq] at h
    | some t₀ =>
      simp only [hn, hs] at h
      split at h
      · cases hrows : (copy.select t₀.rows).foldlM (insertRow engine n) t with
        | error e => simp only [hrows, reduceCtorEq] at h
        | ok t' =>
          simp only [hrows] at h
          have hshape := insertRows_ok hrows
          exact ⟨t, t', rfl, hshape.1, hshape.2, (Except.ok.inj h).symm⟩
      · exact absurd h (by simp)

/-! ## What they keep -/

theorem Fact.Holds.table_ne_none (h : f.Holds engine db) (hf : match f with
    | .hasTable _ | .hasColumn _ _ | .updated _ => True | _ => False) : db.tables f.table ≠ none := by
  cases f with
  | hasTable n => exact h
  | hasColumn n c =>
    obtain ⟨t, ht, -⟩ := h
    exact fun hn => absurd (ht.symm.trans hn) (by simp)
  | updated u =>
    obtain ⟨t, -, ht, -⟩ := updated_iff.mp h
    exact fun hn => absurd (ht.symm.trans hn) (by simp)
  | noTable _ | indexOn _ _ | column _ _ | unique _ _ | notTyped _ _ _ => exact hf.elim

/-- A table of a new shape has the facts of that shape. -/
theorem Fact.holds_of_shaped (ht : db.tables f.table = some t)
    (h : f.shaped t.columns t.uniques = true) : f.Holds engine db := by
  cases f with
  | hasTable n => exact fun hn => absurd (ht.symm.trans hn) (by simp)
  | hasColumn n c => exact ⟨t, ht, h⟩
  | column n c =>
    intro t' ht'
    obtain rfl := Option.some.inj (ht.symm.trans ht')
    exact h
  | unique n us =>
    have htable : db.tables n = some t := ht
    rw [shaped] at h
    refine .inr ?_
    rw [Db.hasUnique, htable, Option.elim, h]
    rfl
  | notTyped n c type =>
    intro t' ht'
    obtain rfl := Option.some.inj (ht.symm.trans ht')
    exact h
  | noTable _ | indexOn _ _ | updated _ => exact absurd h (by simp [shaped])

/-- A table that grows keeps its facts, but for those that tell what is not there. -/
theorem Fact.Holds.grow {t t' : Table} (ht : db.tables n = some t)
    (hcolumns : ∀ c, named t.columns c = true → named t'.columns c = true) (huniques : t'.uniques = t.uniques)
    (hn : f.table = n) (h : f.Holds engine db)
    (htyped : ∀ m c type, f = .notTyped m c type → untyped t.columns c type = true → untyped t'.columns c type = true)
    (hupdated : ∀ u, f ≠ .updated u) : f.Holds engine (db.set n t') := by
  have hset : (db.set n t').tables f.table = some t' := by
    rw [hn]
    exact update_self _ _ _
  have htable : db.tables f.table = some t := by rw [hn, ht]
  cases f with
  | noTable m => exact absurd (htable.symm.trans h) (by simp)
  | indexOn i m => exact h
  | updated u => exact absurd rfl (hupdated u)
  | hasTable m => exact holds_of_shaped hset rfl
  | hasColumn m c =>
    obtain ⟨t₀, ht₀, hc⟩ := h
    obtain rfl := Option.some.inj (htable.symm.trans ht₀)
    exact holds_of_shaped hset (hcolumns c hc)
  | column m c => exact holds_of_shaped hset (hcolumns c (h t htable))
  | notTyped m c type => exact holds_of_shaped hset (htyped m c type rfl (h t htable))
  | unique m us =>
    rcases h with h | h
    · exact absurd (htable.symm.trans h) (by simp)
    · refine .inr ?_
      have hset' : (db.set n t').tables m = some t' := hset
      have htable' : db.tables m = some t := htable
      rw [Db.hasUnique, htable', Option.elim] at h
      rw [Db.hasUnique, hset', Option.elim, huniques]
      exact h

theorem named_append {columns : List Column} {c : Name} (h : named columns c = true) (k : Column) :
    named (columns ++ [k]) c = true := by
  rw [named, any_append]
  exact or_eq_true_iff.mpr (.inl h)

/-- An update that changes nothing changes nothing in a table with one more column. -/
theorem updated_addColumn {c : Column} (ht : db.tables u.table = some t)
    (hnew : c.name ∉ t.names) (h : (Statement.update u).apply engine db = .ok db) :
    (Statement.update u).apply engine (db.set u.table (t.addColumn c)) = .ok (db.set u.table (t.addColumn c)) := by
  obtain ⟨t₀, k, ht₀, hk, hreads, hnull, hrows⟩ := updated_iff.mp h
  obtain rfl := Option.some.inj (ht.symm.trans ht₀)
  -- the value only depends on columns of before
  have hval : ∀ r ∈ t.rows, u.new engine k (r ++ [(c.name, c.default)]) = u.new engine k r := by
    intro r hr
    rw [Update.new, Update.new, map_congr_left fun x hx => Row.get_append_of_mem (mem_names hr (hreads hx)) _]
  have hcolumn : u.column ∈ t.names := by
    have hname := find?_some hk
    simp only [decide_eq_true_eq] at hname
    exact hname ▸ mem_map_of_mem (mem_of_find?_eq_some hk)
  refine updated_iff.mpr ⟨t.addColumn c, k, update_self _ _ _, ?_, ?_, ?_, ?_⟩
  · rw [Table.addColumn, find?_append, hk]
    rfl
  · intro x hx
    rw [Table.names, Table.addColumn, map_append]
    exact mem_append_left _ (hreads hx)
  · intro hnn r hr
    obtain ⟨r', hr', rfl⟩ := mem_map.mp hr
    rw [hval r' hr']
    exact hnull hnn r' hr'
  · intro r hr v hv
    obtain ⟨r', hr', rfl⟩ := mem_map.mp hr
    have hfixed := hrows r' hr' v ((hval r' hr').symm.trans hv)
    have hne : c.name ≠ u.column := fun heq => hnew (heq ▸ hcolumn)
    rw [Row.set] at hfixed ⊢
    rw [map_append, hfixed, map_singleton, if_neg hne]

/-! ## Soundness of the check -/

theorem Statement.keeps_sound {st : Statement} (hkeeps : st.keeps f = true) (h : st.apply engine db = .ok db')
    (hf : f.Holds engine db) : f.Holds engine db' := by
  cases st with
  | createTable b n columns uniques =>
    rcases createTable_ok h with ⟨-, -, rfl⟩ | ⟨hn, rfl⟩
    · exact hf
    · by_cases hne : f.table = n
      · have hset : (db.set n (Table.empty columns uniques)).tables f.table = some (Table.empty columns uniques) := by
          rw [hne]
          exact update_self _ _ _
        cases f with
        | hasTable _ | hasColumn _ _ | updated _ => exact absurd (hne ▸ hn) (hf.table_ne_none trivial)
        | indexOn i m => exact hf
        | noTable m => simp [keeps, show m = n from hne] at hkeeps
        | column m c =>
          have hm : m = n := hne
          rw [keeps, hm, decide_eq_false (not_not.mpr rfl), Bool.false_or] at hkeeps
          exact Fact.holds_of_shaped hset hkeeps
        | unique m us =>
          have hm : m = n := hne
          rw [keeps, hm, decide_eq_false (not_not.mpr rfl), Bool.false_or] at hkeeps
          exact Fact.holds_of_shaped hset hkeeps
        | notTyped m c type =>
          have hm : m = n := hne
          rw [keeps, hm, decide_eq_false (not_not.mpr rfl), Bool.false_or] at hkeeps
          exact Fact.holds_of_shaped hset hkeeps
      · exact hf.same (Db.same_set hne)
  | createIndex i =>
    rcases createIndex_ok h with ⟨-, rfl⟩ | rfl
    · exact hf
    · exact hf.same ⟨rfl, fun j hj _ => mem_append_left _ hj⟩
  | dropTable b n =>
    have hne : f.table ≠ n := of_decide_eq_true hkeeps
    rcases dropTable_ok h with ⟨-, rfl⟩ | ⟨-, rfl⟩
    · exact hf
    · refine hf.same ⟨update_of_ne hne _ _, fun j hj htable => ?_⟩
      exact mem_filter.mpr ⟨hj, decide_eq_true (htable ▸ hne)⟩
  | renameTable n m =>
    rw [keeps, and_eq_true, decide_eq_true_eq, decide_eq_true_eq] at hkeeps
    obtain ⟨t, -, -, rfl⟩ := renameTable_ok h
    refine hf.same ⟨?_, fun j hj htable => ?_⟩
    · exact (update_of_ne hkeeps.2 _ _).trans (update_of_ne hkeeps.1 _ _)
    · exact mem_map.mpr ⟨j, hj, if_neg (htable ▸ hkeeps.1)⟩
  | addColumn n c =>
    obtain ⟨t, ht, hnew, rfl⟩ := addColumn_ok h
    by_cases hne : f.table = n
    · cases f with
      | updated u =>
        obtain rfl : u.table = n := hne
        exact updated_addColumn ht hnew hf
      | notTyped m k type =>
        have hk : k ≠ c.name := by simpa [keeps, show m = n from hne] using hkeeps
        refine hf.grow ht (fun x hx => named_append hx c) rfl hne ?_ (by simp)
        rintro _ _ _ ⟨⟩ htyped
        have hother : [c].find? (fun x => decide (x.name = k)) = none := by
          simp [Ne.symm hk]
        rw [Table.addColumn, untyped, find?_append, hother, Option.or_none]
        exact htyped
      | hasTable _ | noTable _ | indexOn _ _ | hasColumn _ _ | column _ _ | unique _ _ =>
        exact hf.grow ht (fun x hx => named_append hx c) rfl hne (by simp) (by simp)
    · exact hf.same (Db.same_set hne)
  | update u =>
    obtain ⟨t, c, ht, -, -, -, rfl⟩ := update_ok h
    by_cases hne : f.table = u.table
    · refine hf.grow ht (fun x hx => hx) rfl hne (fun _ _ _ _ hx => hx) ?_
      rintro u' rfl
      rw [keeps, decide_eq_true_eq] at hkeeps
      exact hkeeps hne
    · exact hf.same (Db.same_set hne)
  | insertSelect n source copy =>
    obtain ⟨t, t', ht, hcolumns, huniques, rfl⟩ := insertSelect_ok h
    by_cases hne : f.table = n
    · refine hf.grow ht (fun x hx => hcolumns ▸ hx) huniques hne (fun _ _ _ _ hx => hcolumns ▸ hx) ?_
      rintro u' rfl
      rw [keeps, decide_eq_true_eq] at hkeeps
      exact hkeeps hne
    · exact hf.same (Db.same_set hne)

theorem commit_cons_ok {st : Statement} {sts : List Statement} (h : commit engine (st :: sts) db = .ok db') :
    ∃ d, st.apply engine db = .ok d ∧ commit engine sts d = .ok db' := by
  rw [commit] at h
  cases hst : st.apply engine db with
  | error e => simp only [hst, reduceCtorEq] at h
  | ok d => exact ⟨d, rfl, by simpa only [hst] using h⟩

/-- **What a rebuild leaves**: the table in its new shape and nothing under the temporary name. -/
theorem commit_rebuild {b : Rebuild} (hne : b.temporary ≠ b.table) (h : commit engine b.statements db = .ok db') :
    ∃ t, t.columns = b.columns ∧ t.uniques = b.uniques ∧
      db'.tables = Function.update (Function.update db.tables b.temporary none) b.table (some t) ∧
      ((∃ j ∈ db.indexes, j.table ≠ b.table ∧ j.name = b.index.name) ∨ b.index ∈ db'.indexes) ∧
      ∀ j ∈ db.indexes, j.table ≠ b.table → j.table ≠ b.temporary → j ∈ db'.indexes := by
  -- the statements, one after the other
  obtain ⟨d₁, h₁, h⟩ := commit_cons_ok h
  obtain ⟨d₂, h₂, h⟩ := commit_cons_ok h
  obtain ⟨d₃, h₃, h⟩ := commit_cons_ok h
  obtain ⟨d₄, h₄, h⟩ := commit_cons_ok h
  obtain ⟨d₅, h₅, h⟩ := commit_cons_ok h
  obtain rfl := Except.ok.inj h
  obtain ⟨hb, -⟩ | ⟨-, rfl⟩ := createTable_ok h₁
  · exact absurd hb (by simp)
  obtain ⟨t₁, t, ht₁, hcolumns, huniques, rfl⟩ := insertSelect_ok h₂
  obtain rfl := Option.some.inj ((Db.tables_set_self _ _ _).symm.trans ht₁)
  rw [Db.set_set] at h₃
  -- the table of the old shape was there, and it was dropped
  have hdrop : d₃ =
      { tables := Function.update (Function.update db.tables b.temporary (some t)) b.table none
        indexes := db.indexes.filter fun i => i.table ≠ b.table } := by
    rw [Statement.apply] at h₃
    cases ht : (db.set b.temporary t).tables b.table with
    | none => simp only [ht, false_eq_true, if_false, reduceCtorEq] at h₃
    | some t₀ =>
      simp only [ht] at h₃
      exact (Except.ok.inj h₃).symm
  subst hdrop
  obtain ⟨t₄, ht₄, -, rfl⟩ := renameTable_ok h₄
  have ht : t = t₄ := by
    have htemp : Function.update (Function.update db.tables b.temporary (some t)) b.table none b.temporary = some t := by
      rw [update_of_ne hne, update_self]
    exact Option.some.inj (htemp.symm.trans ht₄)
  subst ht
  have htables : Function.update (Function.update (Function.update (Function.update db.tables b.temporary (some t))
      b.table none) b.temporary none) b.table (some t) =
      Function.update (Function.update db.tables b.temporary none) b.table (some t) := by
    rw [update_comm hne.symm, update_idem, update_idem]
  -- an index of another table is neither dropped nor renamed
  have hother : ∀ j ∈ db.indexes, j.table ≠ b.table → j.table ≠ b.temporary →
      j ∈ (db.indexes.filter fun i => i.table ≠ b.table).map fun i =>
        if i.table = b.temporary then { i with table := b.table } else i := by
    intro j hj htable htemp
    exact mem_map.mpr ⟨j, mem_filter.mpr ⟨hj, decide_eq_true htable⟩, if_neg htemp⟩
  obtain ⟨⟨j, hj, hname⟩, rfl⟩ | rfl := createIndex_ok h₅
  · refine ⟨t, hcolumns, huniques, htables, .inl ?_, hother⟩
    obtain ⟨i, hi, rfl⟩ := mem_map.mp hj
    obtain ⟨hi, htable⟩ := mem_filter.mp hi
    refine ⟨i, hi, of_decide_eq_true htable, ?_⟩
    split at hname
    · exact hname
    · exact hname
  · exact ⟨t, hcolumns, huniques, htables, .inr (mem_append_right _ (mem_singleton_self _)),
      fun j hj htable htemp => mem_append_left _ (hother j hj htable htemp)⟩

/-- The indexes of these names are on these tables. -/
def Homed (indexes : List Index) (db : Db) : Prop := ∀ j ∈ db.indexes, ∀ i ∈ indexes, j.name = i.name → j.table = i.table

/-- What a rebuild establishes. -/
theorem Rebuild.establishes {b : Rebuild} {indexes : List Index} (hne : b.temporary ≠ b.table)
    (htable : b.index.table = b.table) (hmem : b.index ∈ indexes) (hhomed : Homed indexes db)
    (h : commit engine b.statements db = .ok db')
    (hf : (f.table = b.table && f.shaped b.columns b.uniques || b.makes f) = true) : f.Holds engine db' := by
  obtain ⟨t, hcolumns, huniques, htables, hindex, -⟩ := commit_rebuild hne h
  have hnew : db'.tables b.table = some t := by rw [htables, update_self]
  rw [or_eq_true, and_eq_true, decide_eq_true_eq] at hf
  rcases hf with ⟨hn, hshaped⟩ | hspecial
  · refine Fact.holds_of_shaped (t := t) (hn ▸ hnew) ?_
    rw [hcolumns, huniques]
    exact hshaped
  · cases f with
    | noTable n =>
      rw [makes, decide_eq_true_eq] at hspecial
      subst hspecial
      rw [Fact.Holds, htables, update_of_ne hne, update_self]
    | indexOn i n =>
      rw [makes, and_eq_true, decide_eq_true_eq, decide_eq_true_eq] at hspecial
      obtain ⟨rfl, rfl⟩ := hspecial
      rcases hindex with ⟨j, hj, hjtable, hjname⟩ | hin
      · exact absurd ((hhomed j hj b.index hmem hjname).trans htable) hjtable
      · exact ⟨b.index, hin, rfl, htable⟩
    | hasTable _ | hasColumn _ _ | column _ _ | unique _ _ | notTyped _ _ _ | updated _ =>
      exact absurd hspecial (by simp [makes])

theorem Action.keeps_sound {a : Action} {indexes : List Index} (hkeeps : a.keeps f = true)
    (hrebuild : ∀ b, a = .rebuild b → b.temporary ≠ b.table ∧ b.index.table = b.table ∧ b.index ∈ indexes)
    (hhomed : Homed indexes db) (h : a.apply engine db = .ok db') (hf : f.Holds engine db) : f.Holds engine db' := by
  cases a with
  | statement st => exact Statement.keeps_sound hkeeps h hf
  | rebuild b =>
    obtain ⟨hne, htable, hmem⟩ := hrebuild b rfl
    rw [keeps, Bool.or_assoc, or_eq_true, and_eq_true, decide_eq_true_eq, decide_eq_true_eq] at hkeeps
    rcases hkeeps with ⟨hn, hm⟩ | hmade
    · obtain ⟨t, -, -, htables, -, hother⟩ := commit_rebuild hne h
      refine hf.same ⟨?_, fun j hj hjf => hother j hj (hjf ▸ hn) (hjf ▸ hm)⟩
      rw [htables, update_of_ne hn, update_of_ne hm]
    · exact Rebuild.establishes hne htable hmem hhomed h hmade

/-! ## Tables that stay as they are -/

/-- Whether a table of the name, if it exists, stays as it is. -/
def Action.leaves (n : Name) : Action → Bool
  | statement st =>
    match st with
    | .createTable .. | .createIndex _ => true
    | .dropTable _ m | .addColumn m _ | .insertSelect m _ _ => n ≠ m
    | .renameTable m k => n ≠ m && n ≠ k
    | .update u => n ≠ u.table
  | rebuild b => n ≠ b.table && n ≠ b.temporary && b.temporary ≠ b.table

theorem createIndex_tables {i : Index} (h : (Statement.createIndex i).apply engine db = .ok db') :
    db'.tables = db.tables := by
  obtain ⟨-, rfl⟩ | rfl := createIndex_ok h
  · rfl
  · rfl

theorem Action.leaves_sound {a : Action} (ha : a.leaves n = true)
    (h : a.apply engine db = .ok db') (ht : db.tables n = some t) : db'.tables n = some t := by
  cases a with
  | statement st =>
    replace h : st.apply engine db = .ok db' := h
    cases st with
    | createTable b m columns uniques =>
      obtain ⟨-, -, rfl⟩ | ⟨hm, rfl⟩ := createTable_ok h
      · exact ht
      · have hne : n ≠ m := fun heq => absurd (ht.symm.trans (heq ▸ hm)) (by simp)
        exact (update_of_ne hne _ _).trans ht
    | createIndex i =>
      obtain ⟨-, rfl⟩ | rfl := createIndex_ok h
      · exact ht
      · exact ht
    | dropTable b m =>
      obtain ⟨-, rfl⟩ | ⟨-, rfl⟩ := dropTable_ok h
      · exact ht
      · exact (update_of_ne (of_decide_eq_true ha) _ _).trans ht
    | renameTable m k =>
      rw [leaves, and_eq_true, decide_eq_true_eq, decide_eq_true_eq] at ha
      obtain ⟨t', -, -, rfl⟩ := renameTable_ok h
      exact ((update_of_ne ha.2 _ _).trans (update_of_ne ha.1 _ _)).trans ht
    | addColumn m c =>
      obtain ⟨t', -, -, rfl⟩ := addColumn_ok h
      exact (update_of_ne (of_decide_eq_true ha) _ _).trans ht
    | update u =>
      obtain ⟨t', c, -, -, -, -, rfl⟩ := update_ok h
      exact (update_of_ne (of_decide_eq_true ha) _ _).trans ht
    | insertSelect m source copy =>
      obtain ⟨t', t'', -, -, -, rfl⟩ := insertSelect_ok h
      exact (update_of_ne (of_decide_eq_true ha) _ _).trans ht
  | rebuild b =>
    rw [leaves, and_eq_true, and_eq_true, decide_eq_true_eq, decide_eq_true_eq, decide_eq_true_eq] at ha
    obtain ⟨t', -, -, htables, -⟩ := commit_rebuild ha.2 h
    rw [htables, update_of_ne ha.1.1, update_of_ne ha.1.2]
    exact ht

end Ariad.Sqlite
