import Ariad.Concurrency.Transitions
import Ariad.Human.TextIndex
import Ariad.Sqlite.Sessions

/-!
# Opening a human database

Every process that opens a human database brings its schema up to date: it reads which migrations were applied and
then applies the others, each in a transaction of its own.

* `SchemaStatement` — the statements of the migrations.
* `MIGRATIONS` — the migrations with their SQL.
* `Phase` — how far the constructor of a store has come in one process.
* `World.after` — the next statement of one process, or the end of its patience with the lock.
-/

namespace Ariad.Human

open Sqlite Sqlite.Sessions

/-! ## Migrations -/

/-- A human database file: the names of its tables, indexes and triggers, and its rows. -/
structure DbFile where
  objects : List String
  stored : StoredDb

inductive SchemaStatement where
  /-- `CREATE … IF NOT EXISTS` -/
  | create (n : String)
  /-- `DROP INDEX IF EXISTS` -/
  | dropIndex (n : String)
  /-- An `INSERT … SELECT`. -/
  | rows (f : StoredDb → StoredDb)
  /-- `INSERT INTO schema_migrations` -/
  | record (version : ℕ)

namespace SchemaStatement

/-- Whether the statement needs the write lock. -/
def writes : SchemaStatement → DbFile → Bool
  | create n, f => n ∉ f.objects
  | dropIndex n, f => n ∈ f.objects
  | rows _, _ => true
  | record _, _ => true

/-- The version is the primary key of `schema_migrations`. -/
def apply : SchemaStatement → DbFile → Except Unit DbFile
  | create n, f => .ok (if n ∈ f.objects then f else { f with objects := f.objects ++ [n] })
  | dropIndex n, f => .ok { f with objects := f.objects.filter (· ≠ n) }
  | rows g, f => .ok { f with stored := g f.stored }
  | record v, f =>
    if v ∈ f.stored.applied then .error ()
    else .ok { f with stored := { f.stored with applied := f.stored.applied ++ [v] } }

end SchemaStatement

def schemaStatements : Statements DbFile SchemaStatement Unit := ⟨SchemaStatement.writes, SchemaStatement.apply⟩

structure Migration where
  version : ℕ
  name : String
  sql : List SchemaStatement

def SCHEMA_V1 : List SchemaStatement :=
  ["human_nodes", "idx_human_nodes_project_label", "idx_human_nodes_project_status", "idx_human_nodes_obsidian_path",
    "idx_human_nodes_updated_at", "human_edges", "idx_human_edges_project", "idx_human_edges_source",
    "idx_human_edges_target_cbm", "idx_human_edges_target_human", "idx_human_edges_type", "human_metrics",
    "idx_human_metrics_project", "idx_human_metrics_doc", "idx_human_metrics_risk", "sync_state",
    "schema_migrations"].map .create

def SCHEMA_V2 : List SchemaStatement :=
  ["idx_human_nodes_cbm_node_ids", "idx_human_nodes_label", "idx_human_nodes_status",
    "idx_human_nodes_project"].map .dropIndex ++
  ["idx_human_nodes_project_label", "idx_human_nodes_project_status"].map .create

def SCHEMA_V3 : List SchemaStatement :=
  [.create "human_node_cbm_links", .create "idx_cbm_links_cbm_id", .rows linksMigration]

variable (fts : FullText)

def SCHEMA_V4 : List SchemaStatement :=
  [.create "human_nodes_fts", .rows (ftsMigration fts), .create "human_nodes_fts_ai", .create "human_nodes_fts_ad",
    .create "human_nodes_fts_au"]

def MIGRATIONS : List Migration :=
  [⟨1, "initial_schema", SCHEMA_V1⟩, ⟨2, "optimize_indexes", SCHEMA_V2⟩, ⟨3, "cbm_links_junction_table", SCHEMA_V3⟩,
    ⟨4, "human_nodes_fts", SCHEMA_V4 fts⟩]

/-- The statements of the transaction of a migration. -/
def Migration.statements (m : Migration) : List SchemaStatement := m.sql ++ [.record m.version]

/-- The migrations that a process finds not to be applied. -/
def missing (f : DbFile) : List Migration := (MIGRATIONS fts).filter fun m => m.version ∉ f.stored.applied

/-! ## Processes -/

/-- The constructor of a store in one process. -/
inductive Phase where
  /-- Before `CREATE TABLE IF NOT EXISTS schema_migrations`. -/
  | start
  /-- Before `SELECT version FROM schema_migrations`. -/
  | ready
  /-- Between transactions: these migrations are to be applied. -/
  | running (todo : List Migration)
  /-- In the transaction of a migration: these of its statements are left. -/
  | inside (m : Migration) (left : List SchemaStatement) (conn : Conn DbFile) (todo : List Migration)
  | opened
  /-- The constructor has thrown. -/
  | failed

structure World where
  file : Sessions.File DbFile
  procs : ℕ → Phase

namespace World

variable (w : World) (p : ℕ)

def set (file : Sessions.File DbFile) (phase : Phase) : World := ⟨file, Function.update w.procs p phase⟩

/-- The next statement of a process; there is none if it has to wait. -/
def next : Option World :=
  match w.procs p with
  | .start =>
    -- a statement of its own, outside of any transaction
    if "schema_migrations" ∈ w.file.content.objects then some (w.set p w.file .ready)
    else
      match w.file.writer with
      | some _ => none
      | none =>
        let content := { w.file.content with objects := w.file.content.objects ++ ["schema_migrations"] }
        some (w.set p ⟨content, w.file.stamp + 1, none⟩ .ready)
  | .ready => some (w.set p w.file (.running (missing fts w.file.content)))
  | .running [] =>
    -- the statements of the store are prepared, for which its table has to be there
    some (w.set p w.file (if "human_nodes" ∈ w.file.content.objects then .opened else .failed))
  | .running (m :: todo) => some (w.set p w.file (.inside m m.statements .idle todo))
  | .inside _ [] conn todo => some (w.set p (conn.commit w.file) (.running todo))
  | .inside m (st :: left) conn todo =>
    match conn.exec schemaStatements p w.file st with
    | .blocked => none
    | .failed => some (w.set p (conn.rollback w.file) .failed)
    | .done file conn => some (w.set p file (.inside m left conn todo))
  | .opened | .failed => none

/-- A process that waits for the lock gives up. -/
def giveUp : Option World :=
  match w.procs p with
  | .start | .inside .. => if (w.next fts p).isNone then some (w.set p w.file .failed) else none
  | _ => none

end World

inductive OpenEvent where
  | next (p : ℕ)
  | giveUp (p : ℕ)
  deriving DecidableEq

def World.after (w : World) : OpenEvent → Option World
  | .next p => w.next fts p
  | .giveUp p => w.giveUp fts p

/-- One event of one of the processes. -/
def openStep (w : World) (e : OpenEvent) (w' : World) : Prop := w.after fts e = some w'

/-- Any number of processes that have not begun yet, on a file. -/
def World.initial (f : DbFile) : World := ⟨⟨f, 0, none⟩, fun _ => .start⟩

end Ariad.Human
