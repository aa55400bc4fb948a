import Ariad.Sqlite.Migrations

/-!
# The schema of the code database

Opening a code database creates what is missing of the schema and migrates what earlier versions left.

* `SCHEMA_SQL` — the tables and indexes, each created if it does not exist.
* `migrate…` — the migrations, each behind its own test whether it is done.
* `initIndexerSchema` — all of them in a row. The pragmas before them change no table.
-/

namespace Ariad.CodeSchema

open Sqlite Durable

/-! ## Columns -/

def text (n : Name) : Column := ⟨n, "TEXT", false, .null, false, []⟩

def integer (n : Name) : Column := ⟨n, "INTEGER", false, .null, false, []⟩

def rowId : Column := ⟨"id", "INTEGER", false, .null, true, []⟩

/-- `NOT NULL` -/
def required (c : Column) : Column := { c with notNull := true }

/-- `DEFAULT` -/
def defaulting (c : Column) (v : Value) : Column := { c with default := v }

def str (s : String) : Value := .text s.toList

/-! ## `SCHEMA_SQL` -/

def nodesColumns : List Column :=
  [rowId, required (text "project"), required (text "label"), required (text "name"),
    required (text "qualified_name"), required (text "file_path"), integer "start_line", integer "end_line",
    defaulting (text "properties_json") (str "\x7b\x7d")]

def resolutionColumn : Column := defaulting (required (text "resolution")) (str "")

def edgesColumns : List Column :=
  [rowId, required (text "project"), required (integer "source_id"), required (integer "target_id"),
    required (text "type"), defaulting (text "properties_json") (str "\x7b\x7d"), resolutionColumn]

def sizeColumn : Column := defaulting (required (integer "size")) (.integer 0)

def fileHashesColumns : List Column :=
  [rowId, required (text "project"), required (text "file_path"), required (text "content_hash"),
    required (integer "mtime"), text "mtime_ns", sizeColumn, required (text "indexed_at")]

def projectsColumns : List Column :=
  [text "name", required (text "root_path"), required (text "indexed_at"),
    defaulting (integer "node_count") (.integer 0), defaulting (integer "edge_count") (.integer 0),
    defaulting (integer "cross_file_calls_stale") (.integer 0),
    defaulting (integer "call_sites_initialized") (.integer 0),
    defaulting (integer "extractor_semantics_version") (.integer 0), text "last_successful_index_at",
    text "last_index_attempt_at", text "last_index_error",
    defaulting (integer "alias_history_initialized") (.integer 0),
    defaulting (integer "discovery_policy_version") (.integer 0), text "root_fingerprint"]

def callSitesColumns : List Column :=
  [rowId, required (text "project"), required (text "file_path"), required (text "source_qn"),
    required (text "callee"), required (text "last_segment"), required (text "call_kind"), required (integer "line")]

def importsColumns : List Column :=
  [rowId, required (text "project"), required (text "file_path"), required (text "local_name"),
    required (text "source_module"), required (text "imported_name"), required (text "import_kind"),
    required (integer "line")]

def exportsColumns : List Column :=
  [rowId, required (text "project"), required (text "file_path"), required (text "exported_name"), text "local_name",
    text "source_module", text "imported_name", required (text "export_kind"), required (integer "line")]

def targetKindColumn : Column := { required (text "target_kind") with oneOf := [str "file", str "directory"] }

def aliasHistoryColumns : List Column :=
  [rowId, required (text "project"), required (text "alias_path"), required (text "canonical_target"),
    targetKindColumn, required (text "last_seen_success_at"),
    defaulting (required (text "root_fingerprint")) (str ""), text "last_observed_run_id"]

def aliasHistoryUniques : List (List Name) := [["project", "root_fingerprint", "alias_path"]]

def index (n table : Name) (columns : List Name) : Index := ⟨n, table, columns, false⟩

def idx_file_hashes_path : Index := index "idx_file_hashes_path" "file_hashes" ["project", "file_path"]

def idx_alias_history_project : Index := index "idx_alias_history_project" "alias_history" ["project"]

/-- `CREATE TABLE IF NOT EXISTS` -/
def createTables : List (Name × List Column × List (List Name)) :=
  [("nodes", nodesColumns, []), ("edges", edgesColumns, []),
    ("file_hashes", fileHashesColumns, [["project", "file_path"]]), ("projects", projectsColumns, [["name"]]),
    ("call_sites", callSitesColumns, []), ("imports", importsColumns, []), ("exports", exportsColumns, []),
    ("alias_history", aliasHistoryColumns, aliasHistoryUniques)]

/-- `CREATE INDEX IF NOT EXISTS` -/
def createIndexes : List Index :=
  [index "idx_nodes_project" "nodes" ["project"],
    index "idx_nodes_qn" "nodes" ["project", "qualified_name"],
    index "idx_nodes_label" "nodes" ["project", "label"],
    index "idx_nodes_file" "nodes" ["file_path"],
    index "idx_edges_source" "edges" ["source_id"],
    index "idx_edges_target" "edges" ["target_id"],
    index "idx_edges_project" "edges" ["project"],
    idx_file_hashes_path,
    index "idx_call_sites_project_file" "call_sites" ["project", "file_path"],
    index "idx_imports_project_file" "imports" ["project", "file_path"],
    index "idx_exports_project_file" "exports" ["project", "file_path"],
    idx_alias_history_project]

def SCHEMA_SQL : List Statement :=
  (createTables.map fun t => .createTable true t.1 t.2.1 t.2.2) ++ createIndexes.map .createIndex

/-! ## Migrations -/

variable (engine : Engine)

/-- `a = b`, which NULL never is. -/
def equal (a b : Value) : Bool := a ≠ .null && b ≠ .null && !engine.less a b && !engine.less b a

/-- `a > b` -/
def greater (a b : Value) : Bool := a ≠ .null && b ≠ .null && engine.less b a

/-- The rows with the latest `indexed_at` of their project and path, and the largest id among these. -/
def latestFileHashes : Copy where
  reads := ["id", "project", "file_path", "content_hash", "mtime", "indexed_at"]
  select rows :=
    let latest := rows.filter fun fh1 => !rows.any fun fh2 =>
      equal engine (fh2.get "project") (fh1.get "project") &&
        equal engine (fh2.get "file_path") (fh1.get "file_path") &&
        (greater engine (fh2.get "indexed_at") (fh1.get "indexed_at") ||
          equal engine (fh2.get "indexed_at") (fh1.get "indexed_at") && greater engine (fh2.get "id") (fh1.get "id"))
    (rows.filter fun r => latest.any fun fh1 => equal engine (r.get "id") (fh1.get "id")).map fun r =>
      ["project", "file_path", "content_hash", "mtime", "indexed_at"].map fun c => (c, r.get c)

def fileHashesRebuild : Rebuild where
  table := "file_hashes"
  temporary := "file_hashes_new"
  columns := [rowId, required (text "project"), required (text "file_path"), required (text "content_hash"),
    required (integer "mtime"), required (text "indexed_at")]
  uniques := [["project", "file_path"]]
  copy := latestFileHashes engine
  index := idx_file_hashes_path

def migrateFileHashesSchema : Script Db Sqlite.Action :=
  .exec (.statement (.dropTable true "file_hashes_new")) <|
    .ask fun db =>
      if db.hasUnique "file_hashes" ["project", "file_path"] then .done
      else if (db.tables "file_hashes").isNone then .done
      else .exec (.rebuild (fileHashesRebuild engine)) .done

def migrateFileHashesSizeColumn : Script Db Sqlite.Action := ensureColumns "file_hashes" [sizeColumn]

def migrateFileHashesMtimeNsColumn : Script Db Sqlite.Action := ensureColumns "file_hashes" [text "mtime_ns"]

def migrateProjectsCrossFileStale : Script Db Sqlite.Action :=
  ensureColumns "projects" [defaulting (integer "cross_file_calls_stale") (.integer 0)]

def migrateProjectsCallSitesInitialized : Script Db Sqlite.Action :=
  ensureColumns "projects" [defaulting (integer "call_sites_initialized") (.integer 0)]

def migrateProjectsExtractorSemanticsVersion : Script Db Sqlite.Action :=
  ensureColumns "projects" [defaulting (integer "extractor_semantics_version") (.integer 0)]

/-- The time of the last index, where it is known to have succeeded. -/
def backfillLastSuccess : Update where
  table := "projects"
  column := "last_successful_index_at"
  reads := ["last_successful_index_at", "indexed_at", "cross_file_calls_stale"]
  value
    | [last, indexed, stale] =>
      if last = .null ∧ indexed ≠ .null ∧ equal engine stale (.integer 0) then some indexed else none
    | _ => none

def migrateProjectsIndexStateColumns : Script Db Sqlite.Action :=
  (ensureColumns "projects"
    [text "last_successful_index_at", text "last_index_attempt_at", text "last_index_error"]).seq <|
  .exec (.statement (.update (backfillLastSuccess engine))) .done

/-- The table as it was before it knew roots. -/
def legacyAliasHistory : Statement :=
  .createTable true "alias_history"
    [rowId, required (text "project"), required (text "alias_path"), required (text "canonical_target"),
      required (text "target_kind"), required (text "last_seen_success_at")] [["project", "alias_path"]]

def migrateAliasHistoryTable : Script Db Sqlite.Action :=
  .ask fun db =>
    if (db.tables "alias_history").isNone then
      .exec (.statement legacyAliasHistory) (.exec (.statement (.createIndex idx_alias_history_project)) .done)
    else .exec (.statement (.createIndex idx_alias_history_project)) .done

def migrateProjectsR154Columns : Script Db Sqlite.Action :=
  ensureColumns "projects"
    [defaulting (integer "alias_history_initialized") (.integer 0),
      defaulting (integer "discovery_policy_version") (.integer 0), text "root_fingerprint"]

/-- The columns that every version of the table has. -/
def aliasHistoryShared : List Name :=
  ["id", "project", "alias_path", "canonical_target", "target_kind", "last_seen_success_at"]

def aliasHistoryRebuild (copy : Copy) : Rebuild where
  table := "alias_history"
  temporary := "alias_history_new"
  columns := aliasHistoryColumns
  uniques := aliasHistoryUniques
  copy := copy
  index := idx_alias_history_project

/-- Run ids become texts. -/
def retypedRunIds : Copy where
  reads := aliasHistoryShared ++ ["root_fingerprint", "last_observed_run_id"]
  select rows := rows.map fun r =>
    ((aliasHistoryShared ++ ["root_fingerprint"]).map fun c => (c, r.get c)) ++
      [("last_observed_run_id", engine.castText (r.get "last_observed_run_id"))]

/-- Rows of before belong to no root. -/
def rootlessRows : Copy where
  reads := aliasHistoryShared
  select rows := rows.map fun r =>
    (aliasHistoryShared.map fun c => (c, r.get c)) ++ [("root_fingerprint", str ""), ("last_observed_run_id", .null)]

def rebuildAliasHistory (copy : Copy) : Script Db Sqlite.Action :=
  .exec (.statement (.dropTable true "alias_history_new")) (.exec (.rebuild (aliasHistoryRebuild copy)) .done)

def migrateAliasHistoryR154Columns : Script Db Sqlite.Action :=
  .ask fun db =>
    if db.hasColumn "alias_history" "root_fingerprint" && db.hasColumn "alias_history" "last_observed_run_id" then
      if untyped (db.columns "alias_history") "last_observed_run_id" "INTEGER" then
        .exec (.statement (.createIndex idx_alias_history_project)) .done
      else rebuildAliasHistory (retypedRunIds engine)
    else rebuildAliasHistory rootlessRows

/-- The marker of the JSON, where there is one. -/
def backfillResolution : Update where
  table := "edges"
  column := "resolution"
  reads := ["properties_json"]
  value
    | [properties] =>
      if engine.jsonValid properties ∧ engine.jsonExtract properties "$.resolution".toList ≠ .null then
        some (engine.jsonExtract properties "$.resolution".toList)
      else none
    | _ => none

def idx_edges_project_resolution : Index := index "idx_edges_project_resolution" "edges" ["project", "resolution"]

def addResolution : Sqlite.Action := .statement (.addColumn "edges" resolutionColumn)

def migrateEdgesResolutionColumn : Script Db Sqlite.Action :=
  .ask fun db =>
    if db.hasColumn "edges" "resolution" then .exec (.statement (.createIndex idx_edges_project_resolution)) .done
    else
      .exec addResolution <|
      .exec (.statement (.update (backfillResolution engine))) <|
      .exec (.statement (.createIndex idx_edges_project_resolution)) .done

def initIndexerSchema : Script Db Sqlite.Action :=
  .seqs
    [.execs (SCHEMA_SQL.map .statement),
      migrateFileHashesSchema engine,
      migrateFileHashesSizeColumn,
      migrateFileHashesMtimeNsColumn,
      migrateProjectsCrossFileStale,
      migrateProjectsCallSitesInitialized,
      migrateProjectsExtractorSemanticsVersion,
      migrateProjectsIndexStateColumns engine,
      migrateAliasHistoryTable,
      migrateProjectsR154Columns,
      migrateAliasHistoryR154Columns engine,
      migrateEdgesResolutionColumn engine]

end Ariad.CodeSchema
