import Mathlib.Logic.Function.Basic
import Ariad.Javascript.Text

/-!
# SQL databases

The tables of a database with their columns and rows, its indexes, and what the statements of a schema migration do
to them.

* `Engine` — what values are, as far as the engine decides it: JSON functions, comparisons, type affinity.
* `Table` — columns, uniqueness constraints and rows; a row has a value for each column.
* `Db` — the tables by their names, and the indexes.
* `Statement.apply` — one statement; `commit` — a transaction.
* `Rebuild` — the transaction that puts a table of another shape in the place of a table.
-/

namespace Ariad.Sqlite

open List

/-- A name of a table, a column or an index. -/
abbrev Name := String

inductive Value where
  | null
  | integer (n : ℤ)
  | real (bits : UInt64)
  | text (t : Text)
  | blob (bytes : List UInt8)
  deriving DecidableEq

/-- What the engine does with values. -/
structure Engine where
  jsonValid : Value → Bool
  /-- `json_extract`, for valid JSON and a path. -/
  jsonExtract : Value → Text → Value
  /-- What a column of a type stores of a value. -/
  store : String → Value → Value
  /-- `CAST(… AS TEXT)` -/
  castText : Value → Value
  /-- `a < b`, for values that are not NULL. -/
  less : Value → Value → Bool

structure Column where
  name : Name
  type : String
  notNull : Bool
  default : Value
  /-- `INTEGER PRIMARY KEY`: an alias of the row id. -/
  rowid : Bool
  /-- `CHECK (… IN …)`, if there are any. -/
  oneOf : List Value
  deriving DecidableEq

/-- The values of a row, by the names of the columns and in their order. -/
abbrev Row := List (Name × Value)

namespace Row

def get (r : Row) (c : Name) : Value := (r.lookup c).getD .null

def set (r : Row) (c : Name) (v : Value) : Row := r.map fun x => if x.1 = c then (c, v) else x

theorem map_fst_set (r : Row) (c : Name) (v : Value) : (r.set c v).map Prod.fst = r.map Prod.fst := by
  rw [set, map_map]
  refine map_congr_left fun x _ => ?_
  rw [Function.comp_apply]
  split
  · rename_i h
    exact h.symm
  · rfl

theorem set_of_notMem {r : Row} {c : Name} (h : c ∉ r.map Prod.fst) (v : Value) : r.set c v = r := by
  have hid : ∀ x ∈ r, (if x.1 = c then (c, v) else x) = id x := by
    intro x hx
    have hne : x.1 ≠ c := fun heq => h (heq ▸ mem_map_of_mem hx)
    rw [if_neg hne, id]
  rw [set, map_congr_left hid, map_id]

theorem set_append_of_notMem {r : Row} {c : Name} (h : c ∉ r.map Prod.fst) (v w : Value) :
    Row.set (r ++ [(c, v)]) c w = r ++ [(c, w)] := by
  have hr := set_of_notMem h w
  rw [set] at hr ⊢
  rw [map_append, hr, map_singleton, if_pos rfl]

theorem set_set (r : Row) (c : Name) (v : Value) : (r.set c v).set c v = r.set c v := by
  rw [set, set, map_map]
  refine map_congr_left fun x _ => ?_
  rw [Function.comp_apply]
  by_cases hx : x.1 = c
  · rw [if_pos hx, if_pos rfl]
  · rw [if_neg hx, if_neg hx]

/-- A further column does not hide those that a row has. -/
theorem get_append_of_mem {r : Row} {c : Name} (h : c ∈ r.map Prod.fst) (r' : Row) : get (r ++ r') c = r.get c := by
  rw [get, get, lookup_append]
  cases hl : r.lookup c with
  | some v => rfl
  | none =>
    obtain ⟨x, hx, rfl⟩ := mem_map.mp h
    have := lookup_eq_none_iff.mp hl x hx
    simp at this

theorem get_set_of_ne {r : Row} {c d : Name} (h : d ≠ c) (v : Value) : (r.set c v).get d = r.get d := by
  induction r with
  | nil => rfl
  | cons x r ih =>
    rw [set, map_cons, get, get, lookup_cons, lookup_cons]
    have hx : (if x.1 = c then (c, v) else x).1 = x.1 := by
      split
      · rename_i hc
        exact hc.symm
      · rfl
    rw [hx]
    cases hd : d == x.1 with
    | false => exact ih
    | true =>
      have hne : x.1 ≠ c := fun hc => h ((beq_iff_eq.mp hd).trans hc)
      simp only [if_neg hne]

end Row

/-- A table; every row has a value for each column. -/
@[ext]
structure Table where
  columns : List Column
  uniques : List (List Name)
  rows : List Row
  fits : ∀ r ∈ rows, r.map Prod.fst = columns.map Column.name

namespace Table

/-- The names that `PRAGMA table_info` shows. -/
def names (t : Table) : List Name := t.columns.map Column.name

def empty (columns : List Column) (uniques : List (List Name)) : Table :=
  ⟨columns, uniques, [], fun _ hr => absurd hr List.not_mem_nil⟩

/-- `ADD COLUMN`: every row gets the default. -/
def addColumn (t : Table) (c : Column) : Table where
  columns := t.columns ++ [c]
  uniques := t.uniques
  rows := t.rows.map fun r => r ++ [(c.name, c.default)]
  fits r hr := by
    obtain ⟨r', hr', rfl⟩ := List.mem_map.mp hr
    rw [List.map_append, List.map_append, t.fits r' hr']
    rfl

/-- `SET column = value`, for the rows with a value. -/
def update (t : Table) (column : Name) (value : Row → Option Value) : Table where
  columns := t.columns
  uniques := t.uniques
  rows := t.rows.map fun r => match value r with | none => r | some v => r.set column v
  fits r hr := by
    obtain ⟨r', hr', rfl⟩ := List.mem_map.mp hr
    cases value r' with
    | none => exact t.fits r' hr'
    | some v => exact (r'.map_fst_set column v).trans (t.fits r' hr')

/-- A new row with values for the columns. -/
def insert (t : Table) (value : Column → Value) : Table where
  columns := t.columns
  uniques := t.uniques
  rows := t.rows ++ [t.columns.map fun c => (c.name, value c)]
  fits r hr := by
    rcases List.mem_append.mp hr with hr | hr
    · exact t.fits r hr
    · rw [List.mem_singleton.mp hr, List.map_map]
      rfl

/-- The row id that a new row gets: one more than the largest. -/
def nextRowid (t : Table) (c : Name) : ℤ :=
  t.rows.foldl (fun m r => match r.get c with | .integer n => max m (n + 1) | _ => m) 1

end Table

structure Index where
  name : Name
  table : Name
  columns : List Name
  unique : Bool
  deriving DecidableEq

structure Db where
  tables : Name → Option Table
  indexes : List Index

namespace Db

variable (db : Db)

def columns (table : Name) : List Column := (db.tables table).elim [] Table.columns

/-- Whether `PRAGMA table_info` has a column of the name. -/
def hasColumn (table column : Name) : Bool := (db.columns table).any fun c => c.name = column

/-- A uniqueness constraint, or a unique index, on exactly these columns. -/
def hasUnique (table : Name) (columns : List Name) : Bool :=
  ((db.tables table).elim [] Table.uniques).contains columns ||
    db.indexes.any fun i => i.table = table && i.unique && i.columns = columns

def set (n : Name) (t : Table) : Db := { db with tables := Function.update db.tables n (some t) }

end Db

inductive Error where
  | noSuchTable (n : Name)
  | noSuchColumn
  | exists (n : Name)
  | constraint (n : Name)
  deriving DecidableEq

/-- `UPDATE table SET column = …`: the value is one of those that the statement reads; there is none where the
condition does not hold. -/
structure Update where
  table : Name
  column : Name
  reads : List Name
  value : List Value → Option Value

/-- `INSERT INTO … SELECT … FROM source`, where the rows to insert depend on the rows of the source. -/
structure Copy where
  reads : List Name
  select : List Row → List Row

inductive Statement where
  | createTable (ifNotExists : Bool) (n : Name) (columns : List Column) (uniques : List (List Name))
  | createIndex (i : Index)
  | dropTable (ifExists : Bool) (n : Name)
  | renameTable (n m : Name)
  | addColumn (n : Name) (c : Column)
  | update (u : Update)
  | insertSelect (n source : Name) (copy : Copy)

variable (engine : Engine)

/-- What an insert stores in a column. -/
def Table.stored (t : Table) (given : Row) (c : Column) : Value :=
  match given.lookup c.name with
  | none => if c.rowid then .integer (t.nextRowid c.name) else c.default
  | some v => if c.rowid ∧ v = .null then .integer (t.nextRowid c.name) else engine.store c.type v

/-- The constraints of the table, for the values of a new row. -/
def Table.allows (t : Table) (value : Name → Value) : Bool :=
  t.columns.all (fun c =>
    (!c.notNull || value c.name ≠ .null) &&
      (c.oneOf.isEmpty || value c.name = .null || c.oneOf.contains (value c.name))) &&
  (t.uniques ++ (t.columns.filter Column.rowid).map fun c => [c.name]).all fun u =>
    t.rows.all fun r => u.any fun c => value c = .null || r.get c ≠ value c

def insertRow (n : Name) (t : Table) (given : Row) : Except Error Table :=
  let t' := t.insert (t.stored engine given)
  if t.allows (Row.get (t.columns.map fun c => (c.name, t.stored engine given c))) then .ok t'
  else .error (.constraint n)

/-- What a statement does, with `IF NOT EXISTS` for every index. -/
def Statement.apply : Statement → Db → Except Error Db
  | createTable ifNotExists n columns uniques, db =>
    match db.tables n with
    | some _ => if ifNotExists then .ok db else .error (.exists n)
    | none => .ok (db.set n (Table.empty columns uniques))
  | createIndex i, db =>
    if db.indexes.any fun j => j.name = i.name then .ok db
    else
      match db.tables i.table with
      | none => .error (.noSuchTable i.table)
      | some t =>
        if i.columns ⊆ t.names then .ok { db with indexes := db.indexes ++ [i] } else .error .noSuchColumn
  | dropTable ifExists n, db =>
    match db.tables n with
    | none => if ifExists then .ok db else .error (.noSuchTable n)
    | some _ =>
      .ok { tables := Function.update db.tables n none, indexes := db.indexes.filter fun i => i.table ≠ n }
  | renameTable n m, db =>
    match db.tables n, db.tables m with
    | none, _ => .error (.noSuchTable n)
    | some _, some _ => .error (.exists m)
    | some t, none =>
      .ok { tables := Function.update (Function.update db.tables n none) m (some t)
            indexes := db.indexes.map fun i => if i.table = n then { i with table := m } else i }
  | addColumn n c, db =>
    match db.tables n with
    | none => .error (.noSuchTable n)
    | some t =>
      if c.name ∈ t.names then .error (.exists c.name)
      else if c.notNull ∧ c.default = .null then .error (.constraint n)
      else .ok (db.set n (t.addColumn c))
  | update u, db =>
    match db.tables u.table with
    | none => .error (.noSuchTable u.table)
    | some t =>
      match t.columns.find? fun c => c.name = u.column with
      | none => .error .noSuchColumn
      | some c =>
        if u.reads ⊆ t.names then
          let value (r : Row) := (u.value (u.reads.map r.get)).map (engine.store c.type)
          if c.notNull && t.rows.any fun r => value r = some .null then .error (.constraint u.table)
          else .ok (db.set u.table (t.update u.column value))
        else .error .noSuchColumn
  | insertSelect n source copy, db =>
    match db.tables n, db.tables source with
    | none, _ => .error (.noSuchTable n)
    | _, none => .error (.noSuchTable source)
    | some t, some from_ =>
      if copy.reads ⊆ from_.names then
        match (copy.select from_.rows).foldlM (insertRow engine n) t with
        | .error e => .error e
        | .ok t => .ok (db.set n t)
      else .error .noSuchColumn

/-- A transaction: all of the statements, or none. -/
def commit : List Statement → Db → Except Error Db
  | [], db => .ok db
  | st :: sts, db =>
    match st.apply engine db with
    | .error e => .error e
    | .ok db' => commit sts db'

/-- A table is put in the place of one with another shape, under a temporary name until then. -/
structure Rebuild where
  table : Name
  temporary : Name
  columns : List Column
  uniques : List (List Name)
  copy : Copy
  index : Index

def Rebuild.statements (b : Rebuild) : List Statement :=
  [.createTable false b.temporary b.columns b.uniques,
   .insertSelect b.temporary b.table b.copy,
   .dropTable false b.table,
   .renameTable b.temporary b.table,
   .createIndex b.index]

/-- What becomes durable at once: a statement of its own, or a transaction. -/
inductive Action where
  | statement (st : Statement)
  | rebuild (b : Rebuild)

def Action.apply : Action → Db → Except Error Db
  | statement st => st.apply engine
  | rebuild b => commit engine b.statements

end Ariad.Sqlite
