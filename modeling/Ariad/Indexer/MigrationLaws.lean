import Ariad.Indexer.SchemaMigrations

/-!
# Migrations that are interrupted

The process may die between any two statements that become durable on their own. Every migration but the last one
then comes to the same result when the schema is initialised again: its test is false until its work is done.

* `migrations` — all but the last, with the facts that they establish.
* `phase_migrations` — they are a phase: the tests of the earlier ones are not disturbed by the later ones.
* `initIndexerSchema_resumes` — death does no harm, unless it falls between the new column of the edges and the
  statement that fills it, and there is a marker to fill in.
-/

namespace Ariad.CodeSchema

open Sqlite Durable List Script Option

/-- The indexes of the schema. -/
def schemaIndexes : List Index := createIndexes ++ [idx_edges_project_resolution]

/-- What every version of the schema has. -/
def sharedFacts : List Fact := [.column "edges" "project", .column "edges" "properties_json"]

variable (engine : Engine)

/-- A code database of this schema or of an earlier one: edges belong to projects and have properties, and an index
of the schema is on its table. -/
def EarlierSchema (db : Db) : Prop := Schema engine schemaIndexes sharedFacts db

/-! ## The migrations -/

def createTableMigration (t : Name × List Column × List (List Name)) : Migration where
  script := .exec (.statement (.createTable true t.1 t.2.1 t.2.2)) .done
  facts := [.hasTable t.1]
  actions := [.statement (.createTable true t.1 t.2.1 t.2.2)]

def createIndexMigration (i : Index) : Migration where
  script := .exec (.statement (.createIndex i)) .done
  facts := [.indexOn i.name i.table]
  actions := [.statement (.createIndex i)]

/-- The statements of `SCHEMA_SQL`. -/
def creations : List Migration := createTables.map createTableMigration ++ createIndexes.map createIndexMigration

def schemaMigration : Migration where
  script := .execs (SCHEMA_SQL.map .statement)
  facts := creations.flatMap Migration.facts
  actions := SCHEMA_SQL.map .statement

def columnsMigration (n : Name) (columns : List Column) : Migration where
  script := ensureColumns n columns
  facts := columns.map fun c => .hasColumn n c.name
  actions := columns.map fun c => .statement (.addColumn n c)

def fileHashesMigration : Migration where
  script := migrateFileHashesSchema engine
  facts := [.noTable "file_hashes_new", .unique "file_hashes" ["project", "file_path"]]
  actions := [.statement (.dropTable true "file_hashes_new"), .rebuild (fileHashesRebuild engine)]

def indexStateColumns : List Column :=
  [text "last_successful_index_at", text "last_index_attempt_at", text "last_index_error"]

def indexStateMigration : Migration where
  script := migrateProjectsIndexStateColumns engine
  facts := (columnsMigration "projects" indexStateColumns).facts ++ [.updated (backfillLastSuccess engine)]
  actions := (columnsMigration "projects" indexStateColumns).actions ++
    [.statement (.update (backfillLastSuccess engine))]

def aliasHistoryIndexed : Fact := .indexOn "idx_alias_history_project" "alias_history"

def aliasTableMigration : Migration where
  script := migrateAliasHistoryTable
  facts := [.hasTable "alias_history", aliasHistoryIndexed]
  actions := [.statement legacyAliasHistory, .statement (.createIndex idx_alias_history_project)]

def aliasColumnsMigration : Migration where
  script := migrateAliasHistoryR154Columns engine
  facts := [.hasColumn "alias_history" "root_fingerprint", .hasColumn "alias_history" "last_observed_run_id",
    .notTyped "alias_history" "last_observed_run_id" "INTEGER", aliasHistoryIndexed]
  actions := [.statement (.createIndex idx_alias_history_project), .statement (.dropTable true "alias_history_new"),
    .rebuild (aliasHistoryRebuild (retypedRunIds engine)), .rebuild (aliasHistoryRebuild rootlessRows)]

/-- All migrations but the last one. -/
def migrations : List Migration :=
  [schemaMigration,
    fileHashesMigration engine,
    columnsMigration "file_hashes" [sizeColumn],
    columnsMigration "file_hashes" [text "mtime_ns"],
    columnsMigration "projects" [defaulting (integer "cross_file_calls_stale") (.integer 0)],
    columnsMigration "projects" [defaulting (integer "call_sites_initialized") (.integer 0)],
    columnsMigration "projects" [defaulting (integer "extractor_semantics_version") (.integer 0)],
    indexStateMigration engine,
    aliasTableMigration,
    columnsMigration "projects"
      [defaulting (integer "alias_history_initialized") (.integer 0),
        defaulting (integer "discovery_policy_version") (.integer 0), text "root_fingerprint"],
    aliasColumnsMigration engine]

variable {l : List Sqlite.Action} {s s' : Db} {t : Sqlite.Table}

theorem initIndexerSchema_eq : initIndexerSchema engine =
      (Script.seqs ((migrations engine).map Migration.script)).seq (migrateEdgesResolutionColumn engine) :=
  seqs_concat ((migrations engine).map Migration.script) (migrateEdgesResolutionColumn engine)

/-! ## Each of them is a phase -/

/-- A phase over the databases of these schemas. -/
def IsPhase (m : Migration) : Prop :=
  Phase (Action.apply engine) (Schema engine schemaIndexes sharedFacts) m.script (Holding engine m.facts)

def Sound (m : Migration) : Prop := ∀ a ∈ m.actions, a.sound schemaIndexes sharedFacts = true

variable {engine}

theorem sound_of_all {m : Migration} (h : m.actions.all (Action.sound schemaIndexes sharedFacts) = true) : Sound m :=
  all_eq_true.mp h

theorem isPhase_createTable {t : Name × List Column × List (List Name)} (h : Sound (createTableMigration t)) :
    IsPhase engine (createTableMigration t) :=
  phase_createTable (h _ (mem_singleton_self _))

theorem isPhase_createIndex {i : Index} (hi : i ∈ schemaIndexes) (h : Sound (createIndexMigration i)) :
    IsPhase engine (createIndexMigration i) :=
  phase_createIndex hi (h _ (mem_singleton_self _))

theorem sound_creations : ∀ m ∈ creations, Sound m := by
  have h : creations.all (fun m => m.actions.all (Action.sound schemaIndexes sharedFacts)) = true := rfl
  exact fun m hm => sound_of_all (all_eq_true.mp h m hm)

theorem isPhase_schema : IsPhase engine schemaMigration := by
  have hphase : ∀ m ∈ creations, IsPhase engine m := by
    intro m hm
    have hsound := sound_creations m hm
    rcases mem_append.mp hm with hm | hm
    · obtain ⟨t, -, rfl⟩ := mem_map.mp hm
      exact isPhase_createTable hsound
    · obtain ⟨i, hi, rfl⟩ := mem_map.mp hm
      exact isPhase_createIndex (mem_append_left _ hi) hsound
  have honly : ∀ m ∈ creations, m.script.Only (· ∈ m.actions) := by
    intro m hm
    rcases mem_append.mp hm with hm | hm
    · obtain ⟨t, -, rfl⟩ := mem_map.mp hm
      exact ⟨mem_singleton_self _, trivial⟩
    · obtain ⟨i, -, rfl⟩ := mem_map.mp hm
      exact ⟨mem_singleton_self _, trivial⟩
  have hscript : schemaMigration.script = Script.seqs (creations.map Migration.script) := execs_eq_seqs _
  have hfacts : Holding engine schemaMigration.facts = fun db => ∀ m ∈ creations, Holding engine m.facts db := by
    funext db
    rw [schemaMigration, Holding]
    simp only [mem_flatMap, forall_exists_index, and_imp, eq_iff_iff]
    exact ⟨fun h m hm f hf => h f m hm hf, fun h f m hm hf => h m hm f hf⟩
  rw [IsPhase, hscript, hfacts]
  exact Migration.phase_seqs hphase honly sound_creations (Migration.pairwise_keptBy rfl)

theorem isPhase_columns {n : Name} {columns : List Column} (hnodup : (columns.map Column.name).Nodup)
    (h : Sound (columnsMigration n columns)) : IsPhase engine (columnsMigration n columns) :=
  phase_ensureColumns hnodup fun _ hc => h _ (mem_map_of_mem hc)

/-- The update of the last success gives no other value when it runs again. -/
theorem backfillLastSuccess_stable (c : Column) (r : Row) (v w : Value)
    (hv : (backfillLastSuccess engine).new engine c r = some v)
    (hw : (backfillLastSuccess engine).new engine c (r.set "last_successful_index_at" v) = some w) : w = v := by
  have hindexed : (r.set "last_successful_index_at" v).get "indexed_at" = r.get "indexed_at" :=
    Row.get_set_of_ne (by decide) v
  rw [Update.new, backfillLastSuccess] at hv hw
  simp only [map_cons, map_nil, hindexed] at hv hw
  split at hv
  · split at hw
    · exact (Option.some.inj hw).symm.trans (Option.some.inj hv)
    · exact absurd hw (by simp)
  · exact absurd hv (by simp)

theorem isPhase_indexState : IsPhase engine (indexStateMigration engine) := by
  have hsound : Sound (indexStateMigration engine) := sound_of_all rfl
  have hcolumns : IsPhase engine (columnsMigration "projects" indexStateColumns) :=
    isPhase_columns (by decide) (sound_of_all rfl)
  have hupdate := phase_update (u := backfillLastSuccess engine)
    (hsound _ (mem_append_right _ (mem_singleton_self _)))
    fun c r v w _ => backfillLastSuccess_stable c r v w
  have hseq := hcolumns.seq hupdate <|
    keeps_of_check [.statement (.update (backfillLastSuccess engine))]
      ⟨mem_singleton_self _, trivial⟩ (fun a ha => hsound a (mem_append_right _ ha)) <| by
        have h : (columnsMigration "projects" indexStateColumns).facts.all (fun f =>
          [Action.statement (.update (backfillLastSuccess engine))].all fun a => a.keeps f) = true := rfl
        exact fun f hf a ha => all_eq_true.mp (all_eq_true.mp h f hf) a ha
  have hfacts : Holding engine (indexStateMigration engine).facts = fun db =>
      Holding engine (columnsMigration "projects" indexStateColumns).facts db ∧
        Holding engine [.updated (backfillLastSuccess engine)] db := by
    funext db
    exact propext forall_mem_append
  rw [IsPhase, hfacts]
  exact hseq

theorem only_aliasTable : aliasTableMigration.script.Only (· ∈ aliasTableMigration.actions) := by
  intro s
  dsimp only
  split
  · exact ⟨.head _, .tail _ (.head _), trivial⟩
  · exact ⟨.tail _ (.head _), trivial⟩

theorem inv_of_actions {m : Migration} (honly : m.script.Only (· ∈ m.actions)) (hsound : Sound m) (s : Db)
    (l : List Sqlite.Action) (s' : Db) (hs : EarlierSchema engine s) (h : m.script.Dies (Action.apply engine) s l s') :
    EarlierSchema engine s' :=
  h.invariant (fun a _ _ ha hs hstep => Action.apply_schema (hsound a ha) hs hstep) honly hs

theorem forall_keeps {fs : List Fact} {actions : List Sqlite.Action}
    (h : (fs.all fun f => actions.all fun a => a.keeps f) = true) : ∀ f ∈ fs, ∀ a ∈ actions, a.keeps f = true :=
  fun f hf a ha => all_eq_true.mp (all_eq_true.mp h f hf) a ha

theorem holding_append (fs gs : List Fact) :
    Holding engine (fs ++ gs) = fun db => Holding engine fs db ∧ Holding engine gs db := by
  funext db
  exact propext forall_mem_append

/-- The table is there in all but damaged databases; this is a test in front of its index. -/
theorem isPhase_aliasTable : IsPhase engine aliasTableMigration := by
  have hsound : Sound aliasTableMigration := sound_of_all rfl
  have hscript : aliasTableMigration.script =
      (Script.when (fun db => (db.tables "alias_history").isNone) (.statement legacyAliasHistory)).seq
        (createIndexMigration idx_alias_history_project).script := by
    refine congrArg Script.ask (funext fun db => ?_)
    dsimp only
    split
    · rfl
    · rfl
  have htable : Phase (Action.apply engine) (Schema engine schemaIndexes sharedFacts)
      (Script.when (fun db => (db.tables "alias_history").isNone) (.statement legacyAliasHistory))
      (Holding engine [.hasTable "alias_history"]) := by
    refine Phase.when (fun s t hs h => Action.apply_schema (hsound _ (.head _)) hs h) ?_ ?_ ?_
    · intro s t _ _ h
      exact holding_singleton.mpr (createTable_settles h)
    · intro s _ hs
      rw [holding_singleton, Fact.Holds]
      exact isNone_eq_false_iff.mp hs |> isSome_iff_ne_none.mp
    · intro s hs
      rw [holding_singleton, Fact.Holds] at hs
      exact isNone_eq_false_iff.mpr (isSome_iff_ne_none.mpr hs)
  have hindex : IsPhase engine (createIndexMigration idx_alias_history_project) :=
    isPhase_createIndex (by decide) (sound_of_all rfl)
  have hseq := htable.seq hindex <| keeps_of_check [.statement (.createIndex idx_alias_history_project)]
    ⟨.head _, trivial⟩ (fun a ha => hsound a (.tail _ ha)) (forall_keeps rfl)
  rw [IsPhase, hscript]
  exact holding_append [.hasTable "alias_history"] [aliasHistoryIndexed] ▸ hseq

/-- A temporary table that is left is dropped, and then the table is rebuilt unless it has its constraint. -/
theorem isPhase_fileHashes : IsPhase engine (fileHashesMigration engine) := by
  have hsound : Sound (fileHashesMigration engine) := sound_of_all rfl
  let test (db : Db) : Bool :=
    !db.hasUnique "file_hashes" ["project", "file_path"] && !(db.tables "file_hashes").isNone
  have hscript : (fileHashesMigration engine).script =
      (Script.exec (.statement (.dropTable true "file_hashes_new")) .done).seq
        (Script.when test (.rebuild (fileHashesRebuild engine))) := by
    refine congrArg (Script.exec _) (congrArg Script.ask (funext fun db => ?_))
    cases hunique : db.hasUnique "file_hashes" ["project", "file_path"] with
    | true => simp [test, hunique]
    | false =>
      cases hnone : (db.tables "file_hashes").isNone with
      | true => simp [test, hnone]
      | false => simp [test, hunique, hnone]
  have hdrop : Phase (Action.apply engine) (Schema engine schemaIndexes sharedFacts)
      (Script.exec (.statement (.dropTable true "file_hashes_new")) .done)
      (Holding engine [.noTable "file_hashes_new"]) :=
    phase_statement (hsound _ (.head _)) (fun _ _ _ h => dropTable_gone h) fun _ hs => dropTable_of_gone hs
  have htest (s : Db) : test s = false ↔ (Fact.unique "file_hashes" ["project", "file_path"]).Holds engine s := by
    rw [Fact.Holds, Bool.and_eq_false_iff, Bool.not_eq_false', Bool.not_eq_false', isNone_iff_eq_none]
    exact Or.comm
  have hrebuild : Phase (Action.apply engine) (Schema engine schemaIndexes sharedFacts)
      (Script.when test (.rebuild (fileHashesRebuild engine)))
      (Holding engine [.unique "file_hashes" ["project", "file_path"]]) := by
    refine Phase.when (fun s t hs h => Action.apply_schema (hsound _ (.tail _ (.head _))) hs h) ?_ ?_ ?_
    · intro s t hs _ h
      obtain ⟨hne, htable, hmem⟩ := Action.sound_rebuild (hsound _ (.tail _ (.head _))) _ rfl
      exact holding_singleton.mpr (Rebuild.establishes hne htable hmem hs.homed h rfl)
    · exact fun s _ hs => holding_singleton.mpr ((htest s).mp hs)
    · exact fun s hs => (htest s).mpr (holding_singleton.mp hs)
  have honly : (Script.when test (.rebuild (fileHashesRebuild engine))).Only
      (· ∈ [Action.rebuild (fileHashesRebuild engine)]) := by
    intro s
    dsimp only
    split
    · exact ⟨.head _, trivial⟩
    · exact trivial
  have hseq := hdrop.seq hrebuild <| keeps_of_check _ honly (fun a ha => hsound a (.tail _ ha)) (forall_keeps rfl)
  rw [IsPhase, hscript]
  exact holding_append [.noTable "file_hashes_new"] [.unique "file_hashes" ["project", "file_path"]] ▸ hseq

/-! ### The aliases -/

/-- Whether the table of the aliases has its columns. -/
def aliasColumns (db : Db) : Bool :=
  db.hasColumn "alias_history" "root_fingerprint" && db.hasColumn "alias_history" "last_observed_run_id"

/-- Whether the table of the aliases is as it should be. -/
def aliasCurrent (db : Db) : Bool :=
  aliasColumns db && untyped (db.columns "alias_history") "last_observed_run_id" "INTEGER"

variable (engine) in
/-- What is copied if it is not. -/
def aliasCopy (db : Db) : Copy := if aliasColumns db then retypedRunIds engine else rootlessRows

theorem aliasColumns_script (db : Db) : (if aliasColumns db then
      if untyped (db.columns "alias_history") "last_observed_run_id" "INTEGER" then
        Script.exec (.statement (.createIndex idx_alias_history_project)) .done
      else rebuildAliasHistory (retypedRunIds engine) else rebuildAliasHistory rootlessRows) =
      if aliasCurrent db then Script.exec (.statement (.createIndex idx_alias_history_project)) .done
      else rebuildAliasHistory (aliasCopy engine db) := by
  rw [aliasCurrent, aliasCopy]
  cases aliasColumns db with
  | true => rfl
  | false => rfl

theorem aliasColumnsMigration_script : (aliasColumnsMigration engine).script = .ask fun db =>
      if aliasCurrent db then Script.exec (.statement (.createIndex idx_alias_history_project)) .done
      else rebuildAliasHistory (aliasCopy engine db) :=
  congrArg Script.ask (funext fun db => aliasColumns_script db)

/-- The tests only look at the table of the aliases. -/
theorem aliasColumns_congr {s t : Db} (h : t.tables "alias_history" = s.tables "alias_history") :
    t.columns "alias_history" = s.columns "alias_history" ∧ aliasColumns t = aliasColumns s := by
  have hcolumns : t.columns "alias_history" = s.columns "alias_history" := by rw [Db.columns, h, Db.columns]
  refine ⟨hcolumns, ?_⟩
  rw [aliasColumns, aliasColumns, Db.hasColumn, Db.hasColumn, Db.hasColumn, Db.hasColumn, hcolumns]

theorem aliasCurrent_congr {s t : Db} (h : t.tables "alias_history" = s.tables "alias_history") :
    aliasCurrent t = aliasCurrent s := by
  rw [aliasCurrent, aliasCurrent, (aliasColumns_congr h).1, (aliasColumns_congr h).2]

theorem aliasCopy_congr {s t : Db} (h : t.tables "alias_history" = s.tables "alias_history") :
    aliasCopy engine t = aliasCopy engine s := by
  rw [aliasCopy, aliasCopy, (aliasColumns_congr h).2]

variable (engine) in
theorem aliasCurrent_iff {s : Db} : aliasCurrent s = true ↔
    (Fact.hasColumn "alias_history" "root_fingerprint").Holds engine s ∧
      (Fact.hasColumn "alias_history" "last_observed_run_id").Holds engine s ∧
      (Fact.notTyped "alias_history" "last_observed_run_id" "INTEGER").Holds engine s := by
  rw [aliasCurrent, aliasColumns, Bool.and_eq_true, Bool.and_eq_true, hasColumn_iff, hasColumn_iff, and_assoc]
  refine and_congr_right fun _ => and_congr_right ?_
  rintro ⟨t, ht, -⟩
  rw [Db.columns, ht, Option.elim, Fact.Holds]
  exact ⟨fun h t' ht' => Option.some.inj (ht.symm.trans ht') ▸ h, fun h => h t ht⟩

theorem aliasFacts_iff {s : Db} : Holding engine (aliasColumnsMigration engine).facts s ↔
    aliasCurrent s = true ∧ aliasHistoryIndexed.Holds engine s := by
  rw [aliasCurrent_iff engine, aliasColumnsMigration, Holding]
  simp [and_assoc]

theorem only_aliasColumns :
    (aliasColumnsMigration engine).script.Only (· ∈ (aliasColumnsMigration engine).actions) := by
  rw [aliasColumnsMigration_script]
  intro s
  dsimp only
  split
  · exact ⟨.head _, trivial⟩
  · rw [aliasCopy]
    split
    · exact ⟨.tail _ (.head _), .tail _ (.tail _ (.head _)), trivial⟩
    · exact ⟨.tail _ (.head _), .tail _ (.tail _ (.tail _ (.head _))), trivial⟩

/-- A rebuild of the aliases leaves the table as it should be. -/
theorem aliasRebuild_settles {copy : Copy} {s t : Db} (hs : EarlierSchema engine s)
    (h : (Action.rebuild (aliasHistoryRebuild copy)).apply engine s = .ok t) :
    Holding engine (aliasColumnsMigration engine).facts t := by
  have hsound : (Action.rebuild (aliasHistoryRebuild copy)).sound schemaIndexes sharedFacts = true := rfl
  obtain ⟨hne, htable, hmem⟩ := Action.sound_rebuild hsound _ rfl
  have hall : (aliasColumnsMigration engine).facts.all (fun f =>
      decide (f.table = (aliasHistoryRebuild copy).table) &&
        f.shaped (aliasHistoryRebuild copy).columns (aliasHistoryRebuild copy).uniques ||
        (aliasHistoryRebuild copy).makes f) = true := rfl
  exact fun f hf => Rebuild.establishes hne htable hmem hs.homed h (all_eq_true.mp hall f hf)

/-- What a process that migrates the aliases has done. -/
theorem dies_aliasColumns (h : (aliasColumnsMigration engine).script.Dies (Action.apply engine) s l s') : s' = s ∨
    aliasCurrent s = true ∧ (Action.statement (.createIndex idx_alias_history_project)).apply engine s = .ok s' ∨
    aliasCurrent s = false ∧ ∃ t, (Action.statement (.dropTable true "alias_history_new")).apply engine s = .ok t ∧
      (s' = t ∨ (Action.rebuild (aliasHistoryRebuild (aliasCopy engine s))).apply engine t = .ok s') := by
  rw [aliasColumnsMigration_script] at h
  cases h with
  | here => exact .inl rfl
  | ask h =>
    cases hcur : aliasCurrent s with
    | true =>
      simp only [hcur, if_true] at h
      cases h with
      | here => exact .inl rfl
      | exec ha h =>
        cases h
        exact .inr (.inl ⟨rfl, ha⟩)
    | false =>
      simp only [hcur, Bool.false_eq_true, if_false] at h
      cases h with
      | here => exact .inl rfl
      | exec ha h =>
        cases h with
        | here => exact .inr (.inr ⟨rfl, _, ha, .inl rfl⟩)
        | exec hb h =>
          cases h
          exact .inr (.inr ⟨rfl, _, ha, .inr hb⟩)

theorem run_aliasColumns_of_current {s : Db} (h : aliasCurrent s = true) :
    (aliasColumnsMigration engine).script.run (Action.apply engine) s =
      (createIndexMigration idx_alias_history_project).script.run (Action.apply engine) s := by
  rw [aliasColumnsMigration_script, Script.run, if_pos h]
  rfl

theorem run_aliasColumns_of_not_current {s : Db} (h : aliasCurrent s = false) :
    (aliasColumnsMigration engine).script.run (Action.apply engine) s =
      (rebuildAliasHistory (aliasCopy engine s)).run (Action.apply engine) s := by
  rw [aliasColumnsMigration_script, Script.run, if_neg (Bool.eq_false_iff.mp h)]

theorem isPhase_aliasColumns : IsPhase engine (aliasColumnsMigration engine) := by
  have hquiet (s : Db) (hs : Holding engine (aliasColumnsMigration engine).facts s) :
      (aliasColumnsMigration engine).script.run (Action.apply engine) s = .ok s := by
    obtain ⟨hcur, hindex⟩ := aliasFacts_iff.mp hs
    rw [run_aliasColumns_of_current hcur]
    exact run_exec (createIndex_of_holds hindex)
  have hsound : Sound (aliasColumnsMigration engine) := sound_of_all rfl
  have hmem : idx_alias_history_project ∈ schemaIndexes := by decide
  refine ⟨inv_of_actions only_aliasColumns hsound, ?_, hquiet, ?_⟩
  · intro s l t hs h
    rw [aliasColumnsMigration_script] at h
    cases h with
    | ask h =>
      cases hcur : aliasCurrent s with
      | true =>
        simp only [hcur, if_true] at h
        cases h with
        | exec ha h =>
          cases h
          replace ha : (Statement.createIndex idx_alias_history_project).apply engine s = .ok t := ha
          have htables : t.tables "alias_history" = s.tables "alias_history" := congrFun (createIndex_tables ha) _
          exact aliasFacts_iff.mpr ⟨(aliasCurrent_congr htables).trans hcur,
            createIndex_settles hmem hs.homed ha⟩
      | false =>
        simp only [hcur, Bool.false_eq_true, if_false] at h
        cases h with
        | exec ha h =>
          cases h with
          | exec hb h =>
            cases h
            exact aliasRebuild_settles (Action.apply_schema rfl hs ha) hb
  · intro s l s' hs h
    rcases dies_aliasColumns h with rfl | ⟨hcur, ha⟩ | ⟨hcur, t, ha, rfl | hb⟩
    · rfl
    · have hindex : (Statement.createIndex idx_alias_history_project).apply engine s = .ok s' := ha
      have htables : s'.tables "alias_history" = s.tables "alias_history" := congrFun (createIndex_tables hindex) _
      have hcur' : aliasCurrent s' = true := (aliasCurrent_congr htables).trans hcur
      rw [run_aliasColumns_of_current hcur, run_aliasColumns_of_current hcur']
      have hagain : (Action.statement (.createIndex idx_alias_history_project)).apply engine s' = .ok s' :=
        createIndex_again hindex
      exact (run_exec hagain).trans (run_exec ha).symm
    · -- only the temporary table is gone, and the tests do not look at it
      have hdrop : (Statement.dropTable true "alias_history_new").apply engine s = .ok s' := ha
      have hsame : s'.tables "alias_history" = s.tables "alias_history" := (dropTable_frame hdrop (by decide)).tables
      have hcur' : aliasCurrent s' = false := (aliasCurrent_congr hsame).trans hcur
      rw [run_aliasColumns_of_not_current hcur, run_aliasColumns_of_not_current hcur', aliasCopy_congr hsame]
      have hagain : (Statement.dropTable true "alias_history_new").apply engine s' = .ok s' :=
        dropTable_of_gone (dropTable_gone hdrop)
      replace hagain : (Action.statement (.dropTable true "alias_history_new")).apply engine s' = .ok s' := hagain
      exact (run_exec hagain).trans (run_exec ha).symm
    · rw [hquiet s' (aliasRebuild_settles (Action.apply_schema rfl hs ha) hb), run_aliasColumns_of_not_current hcur]
      have hrun : (rebuildAliasHistory (aliasCopy engine s)).run (Action.apply engine) s = .ok s' :=
        (run_exec ha).trans (run_exec hb)
      exact hrun.symm

/-! ## All but the last -/

theorem only_ensureColumns (n : Name) (columns : List Column) :
    (columnsMigration n columns).script.Only (· ∈ (columnsMigration n columns).actions) := by
  refine fun s => Script.Only.execs fun a ha => ?_
  obtain ⟨c, hc, rfl⟩ := mem_map.mp ha
  exact mem_map_of_mem (mem_of_mem_filter hc)

theorem Only.mono {P Q : Sqlite.Action → Prop} (h : ∀ a, P a → Q a) {p : Script Db Sqlite.Action} (hp : p.Only P) :
    p.Only Q := by
  induction p with
  | done => trivial
  | exec a p ih => exact ⟨h a hp.1, ih hp.2⟩
  | ask f ih => exact fun s => ih s (hp s)

theorem only_fileHashes : (fileHashesMigration engine).script.Only (· ∈ (fileHashesMigration engine).actions) := by
  refine ⟨.head _, fun s => ?_⟩
  dsimp only
  split
  · trivial
  · split
    · trivial
    · exact ⟨.tail _ (.head _), trivial⟩

theorem only_indexState : (indexStateMigration engine).script.Only (· ∈ (indexStateMigration engine).actions) := by
  have hcolumns := only_ensureColumns "projects" indexStateColumns
  refine Script.Only.seq (Only.mono (fun a ha => mem_append_left _ ha) hcolumns) ?_
  exact ⟨mem_append_right _ (mem_singleton_self _), trivial⟩

theorem sound_migrations : ∀ m ∈ migrations engine, Sound m := by
  have h : (migrations engine).all (fun m => m.actions.all (Action.sound schemaIndexes sharedFacts)) = true := rfl
  exact fun m hm => sound_of_all (all_eq_true.mp h m hm)

theorem only_migrations : ∀ m ∈ migrations engine, m.script.Only (· ∈ m.actions) := by
  have hcolumns := only_ensureColumns
  simp only [migrations, forall_mem_cons]
  exact ⟨Script.Only.execs fun _ ha => ha, only_fileHashes, hcolumns _ _, hcolumns _ _, hcolumns _ _, hcolumns _ _,
    hcolumns _ _, only_indexState, only_aliasTable, hcolumns _ _, only_aliasColumns, nofun⟩

theorem isPhase_migrations : ∀ m ∈ migrations engine, IsPhase engine m := by
  simp only [migrations, forall_mem_cons]
  refine ⟨isPhase_schema, isPhase_fileHashes, ?_, ?_, ?_, ?_, ?_, isPhase_indexState, isPhase_aliasTable, ?_,
    isPhase_aliasColumns, nofun⟩
  all_goals exact isPhase_columns (by decide) (sound_of_all rfl)

variable (engine) in
/-- All migrations but the last one, in a row. -/
def allButLast : Script Db Sqlite.Action := .seqs ((migrations engine).map Migration.script)

/-- **All migrations but the last are a phase.** -/
theorem phase_migrations : Phase (Action.apply engine) (Schema engine schemaIndexes sharedFacts) (allButLast engine)
    fun db => ∀ m ∈ migrations engine, Holding engine m.facts db :=
  Migration.phase_seqs isPhase_migrations only_migrations sound_migrations (Migration.pairwise_keptBy rfl)

/-! ## The edges -/

theorem only_of_migrations {P : Sqlite.Action → Prop} (h : ∀ m ∈ migrations engine, ∀ a ∈ m.actions, P a) :
    (allButLast engine).Only P := by
  have honly : ∀ m ∈ migrations engine, m.script.Only (· ∈ m.actions) := only_migrations
  rw [allButLast]
  generalize migrations engine = ms at h honly
  induction ms with
  | nil => trivial
  | cons m ms ih =>
    refine Script.Only.seq (Only.mono (h m mem_cons_self) (honly m mem_cons_self)) ?_
    exact ih (fun n hn => h n (mem_cons_of_mem m hn)) fun n hn => honly n (mem_cons_of_mem m hn)

/-- What the check of the names says of the edges: a table that is there stays as it is, a new one has the column. -/
def sparesEdges (a : Sqlite.Action) : Bool :=
  a.leaves "edges" && a.keeps (.column "edges" "resolution")

theorem only_sparesEdges : (allButLast engine).Only fun a => sparesEdges a = true ∧
    a.sound schemaIndexes sharedFacts = true := by
  have h : (migrations engine).all (fun m => m.actions.all sparesEdges) = true := rfl
  refine only_of_migrations fun m hm a ha => ⟨?_, sound_migrations m hm a ha⟩
  exact all_eq_true.mp (all_eq_true.mp h m hm) a ha

theorem ne_addResolution {a : Sqlite.Action} (h : sparesEdges a = true) : a ≠ addResolution := by
  rintro rfl
  exact absurd h (by decide)

/-- The table of the edges that a database had is the one before the last migration. -/
theorem edges_kept (h : (allButLast engine).Dies (Action.apply engine) s l s') (ht : s.tables "edges" = some t) :
    s'.tables "edges" = some t := by
  refine h.invariant (I := fun d => d.tables "edges" = some t) ?_ only_sparesEdges ht
  rintro a d d' ⟨ha, -⟩ hd hstep
  rw [sparesEdges, Bool.and_eq_true] at ha
  exact Action.leaves_sound ha.1 hstep hd

/-- A database without edges gets them with the column. -/
theorem resolution_of_new (hs : EarlierSchema engine s)
    (h : (allButLast engine).Ends (Action.apply engine) s l s') (hnone : s.tables "edges" = none) :
    s'.hasColumn "edges" "resolution" = true := by
  have hcolumn : (Fact.column "edges" "resolution").Holds engine s' := by
    refine (h.dies.invariant (I := fun d => EarlierSchema engine d ∧ (Fact.column "edges" "resolution").Holds engine d)
      ?_ only_sparesEdges ⟨hs, fun t ht => absurd (hnone.symm.trans ht) (by simp)⟩).2
    rintro a d d' ⟨ha, hsound⟩ ⟨hd, hc⟩ hstep
    rw [sparesEdges, Bool.and_eq_true] at ha
    exact ⟨Action.apply_schema hsound hd hstep,
      Action.keeps_sound ha.2 (Action.sound_rebuild hsound) hd.homed hstep hc⟩
  have hdone := phase_migrations.settles s l s' hs h
  have htable : (Fact.hasTable "edges").Holds engine s' := by
    refine hdone schemaMigration (.head _) _ ?_
    exact mem_flatMap.mpr ⟨createTableMigration ("edges", edgesColumns, []), .tail _ (.head _), .head _⟩
  cases ht : s'.tables "edges" with
  | none => exact absurd ht htable
  | some t =>
    have hhas : (Fact.hasColumn "edges" "resolution").Holds engine s' := ⟨t, ht, hcolumn t ht⟩
    exact hasColumn_iff.mpr hhas

variable (engine) in
/-- An edge with a marker that the new column does not show by default. -/
def Marked (r : Row) : Prop :=
  ∃ v, (backfillResolution engine).new engine resolutionColumn r = some v ∧ v ≠ resolutionColumn.default

/-- The end of the last migration: the index. -/
def indexResolution : Script Db Sqlite.Action := .exec (.statement (.createIndex idx_edges_project_resolution)) .done

theorem run_indexResolution
    (h : (Action.statement (.createIndex idx_edges_project_resolution)).apply engine s = .ok s') :
    indexResolution.run (Action.apply engine) s = .ok s' :=
  run_exec h

theorem run_edges_of_column {s : Db} (h : s.hasColumn "edges" "resolution" = true) :
    (migrateEdgesResolutionColumn engine).run (Action.apply engine) s = indexResolution.run (Action.apply engine) s := by
  rw [migrateEdgesResolutionColumn, Script.run, if_pos h]
  rfl

theorem run_edges_of_no_column {s : Db} (h : s.hasColumn "edges" "resolution" = false) :
    (migrateEdgesResolutionColumn engine).run (Action.apply engine) s =
      (Script.exec addResolution <| .exec (.statement (.update (backfillResolution engine))) indexResolution).run
        (Action.apply engine) s := by
  have hno : ¬s.hasColumn "edges" "resolution" = true := Bool.eq_false_iff.mp h
  rw [migrateEdgesResolutionColumn, run_ask, if_neg hno]
  rfl

theorem hasColumn_keeps {a : Sqlite.Action} {n c : Name} (ha : a.keeps (.hasColumn n c) = true)
    (hsound : a.sound schemaIndexes sharedFacts = true) (hhomed : Homed schemaIndexes s)
    (h : a.apply engine s = .ok s') (hs : s.hasColumn n c = true) : s'.hasColumn n c = true := by
  have hholds : (Fact.hasColumn n c).Holds engine s := hasColumn_iff.mp hs
  exact hasColumn_iff.mpr (Action.keeps_sound ha (Action.sound_rebuild hsound) hhomed h hholds)

theorem hasColumn_addResolution (h : addResolution.apply engine s = .ok s') :
    s'.hasColumn "edges" "resolution" = true := by
  have hadd : (Statement.addColumn "edges" resolutionColumn).apply engine s = .ok s' := h
  rw [hasColumn_addColumn hadd]
  exact Bool.or_eq_true_iff.mpr (.inr (by decide))

/-- A process that has created the index has nothing left to do. -/
theorem run_edges_of_index (hs : s.hasColumn "edges" "resolution" = true)
    (h : (Action.statement (.createIndex idx_edges_project_resolution)).apply engine s = .ok s') :
    (migrateEdgesResolutionColumn engine).run (Action.apply engine) s' = .ok s' := by
  have hindex : (Statement.createIndex idx_edges_project_resolution).apply engine s = .ok s' := h
  have hcolumn : s'.hasColumn "edges" "resolution" = true := by
    rw [Db.hasColumn, Db.columns, createIndex_tables hindex]
    exact hs
  have hagain : (Action.statement (.createIndex idx_edges_project_resolution)).apply engine s' = .ok s' :=
    createIndex_again hindex
  rw [run_edges_of_column hcolumn]
  exact run_exec hagain

/-- **Where a process dies in the last migration**: it resumes from everywhere but from behind the new column. -/
theorem dies_edges (hs : EarlierSchema engine s)
    (h : (migrateEdgesResolutionColumn engine).Dies (Action.apply engine) s l s') : l.getLast? ≠ some addResolution ∧
      (migrateEdgesResolutionColumn engine).run (Action.apply engine) s' =
        (migrateEdgesResolutionColumn engine).run (Action.apply engine) s ∨
    l = [addResolution] ∧ s.hasColumn "edges" "resolution" = false ∧ addResolution.apply engine s = .ok s' := by
  have hindex : Action.statement (.createIndex idx_edges_project_resolution) ≠ addResolution := nofun
  have hupdate : Action.statement (.update (backfillResolution engine)) ≠ addResolution := nofun
  cases h with
  | here => exact .inl ⟨nofun, rfl⟩
  | ask h =>
    cases hcolumn : s.hasColumn "edges" "resolution" with
    | true =>
      simp only [hcolumn, if_true] at h
      cases h with
      | here => exact .inl ⟨nofun, rfl⟩
      | exec ha h =>
        cases h
        refine .inl ⟨by simpa using hindex, ?_⟩
        rw [run_edges_of_index hcolumn ha, run_edges_of_column hcolumn, run_indexResolution ha]
    | false =>
      simp only [hcolumn, Bool.false_eq_true, if_false] at h
      cases h with
      | here => exact .inl ⟨nofun, rfl⟩
      | @exec _ _ _ t _ _ ha h =>
        have ht : t.hasColumn "edges" "resolution" = true := hasColumn_addResolution ha
        cases h with
        | here => exact .inr ⟨rfl, rfl, ha⟩
        | @exec _ _ _ u _ _ hb h =>
          have hhomed : Homed schemaIndexes t := (Action.apply_schema rfl hs ha).homed
          have hu : u.hasColumn "edges" "resolution" = true := hasColumn_keeps rfl rfl hhomed hb ht
          have hrun : (migrateEdgesResolutionColumn engine).run (Action.apply engine) s =
              indexResolution.run (Action.apply engine) u := by
            rw [run_edges_of_no_column hcolumn]
            exact (run_exec ha).trans (run_exec hb)
          cases h with
          | here =>
            refine .inl ⟨by simpa using hupdate, ?_⟩
            rw [run_edges_of_column hu, hrun]
          | exec hc h =>
            cases h
            refine .inl ⟨by simpa using hindex, ?_⟩
            rw [run_edges_of_index hu hc, hrun, run_indexResolution hc]

variable (engine) in
/-- The actions of the last migration. -/
def edgesActions : List Sqlite.Action :=
  [addResolution, .statement (.update (backfillResolution engine)),
    .statement (.createIndex idx_edges_project_resolution)]

theorem only_edges : (migrateEdgesResolutionColumn engine).Only (· ∈ edgesActions engine) := by
  intro s
  dsimp only
  split
  · exact ⟨.tail _ (.tail _ (.head _)), trivial⟩
  · exact ⟨.head _, .tail _ (.head _), .tail _ (.tail _ (.head _)), trivial⟩

/-- The last migration does not undo what the others have done. -/
theorem edges_keeps (hs : EarlierSchema engine s) (hdone : ∀ m ∈ migrations engine, Holding engine m.facts s)
    (h : (migrateEdgesResolutionColumn engine).Dies (Action.apply engine) s l s') :
    ∀ m ∈ migrations engine, Holding engine m.facts s' := by
  have hkept : (migrations engine).all (fun m => m.facts.all fun f =>
      (edgesActions engine).all fun a => a.keeps f) = true := rfl
  have hsound : (edgesActions engine).all (Action.sound schemaIndexes sharedFacts) = true := rfl
  intro m hm
  exact keeps_of_check _ only_edges (all_eq_true.mp hsound) (forall_keeps (all_eq_true.mp hkept m hm))
    s l s' hs (hdone m hm) h

/-- The row of an edge in a table with the new column. -/
def resolved (r : Row) : Row := r ++ [("resolution", resolutionColumn.default)]

theorem new_resolved {r : Row} (hr : r ∈ t.rows) (hproperties : "properties_json" ∈ t.names) :
    (backfillResolution engine).new engine resolutionColumn (resolved r) =
      (backfillResolution engine).new engine resolutionColumn r := by
  have hget : (resolved r).get "properties_json" = r.get "properties_json" :=
    Row.get_append_of_mem (mem_names hr hproperties) _
  rw [Update.new, Update.new]
  simp only [backfillResolution, map_cons, map_nil, hget]

theorem named_iff {columns : List Column} {c : Name} : named columns c = true ↔ c ∈ columns.map Column.name := by
  simp [named, List.mem_map]

/-- The statement that adds the column. -/
theorem addResolution_ok (h : addResolution.apply engine s = .ok s') :
    ∃ t, s.tables "edges" = some t ∧ "resolution" ∉ t.names ∧ s' = s.set "edges" (t.addColumn resolutionColumn) := by
  have hadd : (Statement.addColumn "edges" resolutionColumn).apply engine s = .ok s' := h
  exact addColumn_ok hadd

variable (engine) in
/-- With the column and the projects, the index can be created. -/
theorem indexResolution_total {s : Db} (ht : s.tables "edges" = some t)
    (hproject : "project" ∈ t.names) (hresolution : "resolution" ∈ t.names) :
    ∃ d, indexResolution.run (Action.apply engine) s = .ok d ∧ d.tables = s.tables := by
  have hcolumns : idx_edges_project_resolution.columns ⊆ t.names := by
    intro c hc
    rcases mem_cons.mp hc with rfl | hc
    · exact hproject
    · exact mem_singleton.mp hc ▸ hresolution
  have htable : s.tables idx_edges_project_resolution.table = some t := ht
  have htotal : ∃ d, (Statement.createIndex idx_edges_project_resolution).apply engine s = .ok d := by
    rw [Statement.apply]
    split
    · exact ⟨s, rfl⟩
    · simp only [htable]
      rw [if_pos hcolumns]
      exact ⟨_, rfl⟩
  obtain ⟨d, hd⟩ := htotal
  exact ⟨d, run_indexResolution hd, createIndex_tables hd⟩

/-- Behind the new column, the rest of the migration comes to the same result just where there is no marker. -/
theorem run_edges_behind_column (hs : EarlierSchema engine s)
    (ht : s.tables "edges" = some t) (hcolumn : s.hasColumn "edges" "resolution" = false)
    (h : addResolution.apply engine s = .ok s') :
    (∀ d, (migrateEdgesResolutionColumn engine).run (Action.apply engine) s' = .ok d →
      (migrateEdgesResolutionColumn engine).run (Action.apply engine) s = .ok d) ↔ ¬∃ r ∈ t.rows, Marked engine r := by
  have hproject : "project" ∈ t.names := named_iff.mp (hs.base _ (.head _) t ht)
  have hproperties : "properties_json" ∈ t.names := named_iff.mp (hs.base _ (.tail _ (.head _)) t ht)
  obtain ⟨t₀, ht₀, hnew, hs'⟩ := addResolution_ok h
  obtain rfl := Option.some.inj (ht.symm.trans ht₀)
  have ht' : s'.tables "edges" = some (t.addColumn resolutionColumn) := hs' ▸ Db.tables_set_self _ _ _
  have hnames (c : Name) (hc : c ∈ t.names) : c ∈ (t.addColumn resolutionColumn).names := by
    rw [Table.names, Table.addColumn, map_append]
    exact mem_append_left _ hc
  have hresolution : "resolution" ∈ (t.addColumn resolutionColumn).names := by
    rw [Table.names, Table.addColumn, map_append]
    exact mem_append_right _ (mem_singleton_self _)
  have hfind : (t.addColumn resolutionColumn).columns.find? (fun c => c.name = "resolution") =
      some resolutionColumn := by
    have hnone : t.columns.find? (fun c => decide (c.name = "resolution")) = none := by
      rw [find?_eq_none]
      intro c hc hname
      exact hnew (of_decide_eq_true hname ▸ mem_map_of_mem hc)
    rw [Table.addColumn, find?_append, hnone]
    rfl
  have hlater : (migrateEdgesResolutionColumn engine).run (Action.apply engine) s' =
      indexResolution.run (Action.apply engine) s' := run_edges_of_column (hasColumn_addResolution h)
  have hearlier : (migrateEdgesResolutionColumn engine).run (Action.apply engine) s =
      (Script.exec (.statement (.update (backfillResolution engine))) indexResolution).run (Action.apply engine) s' := by
    rw [run_edges_of_no_column hcolumn]
    exact run_exec h
  -- the row of an edge with a value to fill in
  have hset (r : Row) (hr : r ∈ t.rows) (v : Value) :
      (resolved r).set "resolution" v = resolved r ↔ v = resolutionColumn.default := by
    have hfits : "resolution" ∉ r.map Prod.fst := t.fits r hr ▸ hnew
    rw [resolved, Row.set_append_of_notMem hfits]
    simp
  constructor
  · rintro hsame ⟨r, hr, v, hv, hne⟩
    obtain ⟨d, hd, htables⟩ := indexResolution_total engine ht' (hnames _ hproject) hresolution
    have hdone := hearlier.symm.trans (hsame d (hlater.trans hd))
    obtain ⟨l, hl⟩ := exists_ends hdone
    cases hl with
    | @exec _ _ _ u _ _ hu hl =>
      cases hl with
      | exec hi hl =>
        cases hl
        replace hu : (Statement.update (backfillResolution engine)).apply engine s' = .ok u := hu
        replace hi : (Statement.createIndex idx_edges_project_resolution).apply engine u = .ok d := hi
        obtain ⟨t₁, c, ht₁, hc, -, -, rfl⟩ := update_ok hu
        obtain rfl := Option.some.inj (ht'.symm.trans ht₁)
        obtain rfl := Option.some.inj (hfind.symm.trans hc)
        -- the update has changed nothing, although there is a marker
        have hself := congrFun ((createIndex_tables hi).symm.trans htables) "edges"
        have hupdate := Option.some.inj ((Db.tables_set_self _ _ _).symm.trans (hself.trans ht'))
        refine hne ((hset r hr v).mp (update_eq_self_iff.mp hupdate (resolved r) (mem_map_of_mem hr) v ?_))
        exact (new_resolved hr hproperties).trans hv
  · intro hnone d hd
    have hquiet : (Action.statement (.update (backfillResolution engine))).apply engine s' = .ok s' := by
      refine updated_iff.mpr ⟨_, _, ht', hfind, ?_, ?_, ?_⟩
      · exact fun c hc => mem_singleton.mp hc ▸ hnames _ hproperties
      · intro _ r hr hnull
        obtain ⟨r', hr', rfl⟩ := mem_map.mp hr
        exact hnone ⟨r', hr', .null, (new_resolved hr' hproperties).symm.trans hnull, by decide⟩
      · intro r hr v hv
        obtain ⟨r', hr', rfl⟩ := mem_map.mp hr
        refine (hset r' hr' v).mpr (not_not.mp fun hne => hnone ⟨r', hr', v, ?_, hne⟩)
        exact (new_resolved hr' hproperties).symm.trans hv
    rw [hearlier, run_exec hquiet]
    exact hlater.symm.trans hd

/-! ## The whole -/

variable (engine) in
/-- Death behind the statement that adds the column, of a database whose edges have markers. -/
def DiesBeforeBackfill (db : Db) (l : List Sqlite.Action) : Prop :=
  l.getLast? = some addResolution ∧ ∃ t, db.tables "edges" = some t ∧ ∃ r ∈ t.rows, Marked engine r

theorem getLast_ne_addResolution
    (h : (allButLast engine).Dies (Action.apply engine) s l s') : l.getLast? ≠ some addResolution := by
  intro hlast
  exact ne_addResolution (h.forall_mem only_sparesEdges _ (mem_of_getLast? hlast)).1 rfl

/-- **A migration that was interrupted comes to the result of one that was not, just where it did not die between
the column and its values.** -/
theorem initIndexerSchema_resumes {db d : Db} (hdb : EarlierSchema engine db)
    (h : (initIndexerSchema engine).Dies (Action.apply engine) db l d) :
    (∀ d', (initIndexerSchema engine).run (Action.apply engine) d = .ok d' →
      (initIndexerSchema engine).run (Action.apply engine) db = .ok d') ↔ ¬DiesBeforeBackfill engine db l := by
  have hinit : initIndexerSchema engine = (allButLast engine).seq (migrateEdgesResolutionColumn engine) :=
    initIndexerSchema_eq engine
  rw [hinit] at h ⊢
  rcases h.of_seq with h | ⟨s, l₁, l₂, hend, hedges, rfl⟩
  · -- before the last migration
    refine iff_of_true (fun d' hd' => ?_) fun hbad => getLast_ne_addResolution h hbad.1
    rwa [Script.run_seq, phase_migrations.resumes db l d hdb h, ← Script.run_seq] at hd'
  · -- the others have nothing left to do
    have hs : EarlierSchema engine s := phase_migrations.inv db l₁ s hdb hend.dies
    have hdone := edges_keeps hs (phase_migrations.settles db l₁ s hdb hend) hedges
    rw [Script.run_seq_of_ok (phase_migrations.quiet d hdone), Script.run_seq_of_ok hend.run_eq]
    rcases dies_edges hs hedges with ⟨hlast, hsame⟩ | ⟨rfl, hcolumn, hadd⟩
    · refine iff_of_true (fun d' hd' => hsame ▸ hd') fun hbad => ?_
      have hboth := hbad.1
      rw [getLast?_append] at hboth
      cases hl₂ : l₂.getLast? with
      | none =>
        rw [hl₂, Option.none_or] at hboth
        exact getLast_ne_addResolution hend.dies hboth
      | some a =>
        rw [hl₂, Option.some_or] at hboth
        exact hlast (hl₂.trans hboth)
    · -- the edges are those that the database had
      have hlast : (l₁ ++ [addResolution]).getLast? = some addResolution := getLast?_concat
      cases ht : db.tables "edges" with
      | none =>
        have hnew := resolution_of_new hdb hend ht
        exact absurd (hnew.symm.trans hcolumn) (by decide)
      | some t =>
        rw [run_edges_behind_column hs (edges_kept hend.dies ht) hcolumn hadd]
        refine not_congr ⟨fun hmarked => ⟨hlast, t, ht, hmarked⟩, ?_⟩
        rintro ⟨-, t', ht', hmarked⟩
        exact Option.some.inj (ht.symm.trans ht') ▸ hmarked

/-! ## A database of before the column -/

def markedProperties : Value := str "\x7b\"resolution\":\"cross_file_import_exact\"\x7d"

def exactMarker : Value := str "cross_file_import_exact"

/-- An engine that knows the JSON of one edge. -/
def sampleEngine : Engine where
  jsonValid v := v = markedProperties
  jsonExtract v _ := if v = markedProperties then exactMarker else .null
  store _ v := v
  castText v := v
  less
    | .integer a, .integer b => a < b
    | .text a, .text b => a < b
    | .integer _, .text _ => true
    | _, _ => false

/-- A call that was resolved across files. -/
def legacyEdge : Row :=
  [("id", .integer 1), ("project", str "p"), ("source_id", .integer 1), ("target_id", .integer 2),
    ("type", str "CALLS"), ("properties_json", markedProperties)]

def legacyEdges : Sqlite.Table where
  columns := edgesColumns.dropLast
  uniques := []
  rows := [legacyEdge]
  fits _ hr := List.mem_singleton.mp hr ▸ rfl

/-- A database of all but the newest schema, with that edge. -/
def legacyDb : Db where
  tables n :=
    if n = "edges" then some legacyEdges
    else (createTables.find? fun t => t.1 = n).map fun t => Table.empty t.2.1 t.2.2
  indexes := createIndexes

theorem legacyDb_earlier : EarlierSchema sampleEngine legacyDb where
  homed j hj i hi hname := by
    have h : createIndexes.all (fun j => schemaIndexes.all fun i => j.name ≠ i.name || j.table = i.table) = true := rfl
    have hboth := all_eq_true.mp (all_eq_true.mp h j hj) i hi
    rw [Bool.or_eq_true, decide_eq_true_eq, decide_eq_true_eq] at hboth
    exact hboth.resolve_left (not_not.mpr hname)
  base f hf := by
    have hedges : legacyDb.tables "edges" = some legacyEdges := rfl
    rcases mem_cons.mp hf with rfl | hf
    · exact fun t ht => Option.some.inj (hedges.symm.trans ht) ▸ rfl
    · rw [mem_singleton.mp hf]
      exact fun t ht => Option.some.inj (hedges.symm.trans ht) ▸ rfl

theorem initIndexerSchema_resumes_legacy :
    ∃ x, (initIndexerSchema sampleEngine).after (Action.apply sampleEngine) 26 legacyDb = some x ∧
      ∀ d', (initIndexerSchema sampleEngine).run (Action.apply sampleEngine) x.2 = .ok d' →
        (initIndexerSchema sampleEngine).run (Action.apply sampleEngine) legacyDb = .ok d' := by
  have hafter : ∃ x, (initIndexerSchema sampleEngine).after (Action.apply sampleEngine) 26 legacyDb = some x ∧
      x.1.getLast? = some (.statement (.update (backfillResolution sampleEngine))) := ⟨_, rfl, rfl⟩
  obtain ⟨x, hx, hlast⟩ := hafter
  refine ⟨x, hx, (initIndexerSchema_resumes legacyDb_earlier (Script.dies_of_after hx)).mpr ?_⟩
  rintro ⟨hadd, -⟩
  exact absurd (hlast.symm.trans hadd) nofun

/-- What the edges of a database show as their resolution. -/
def resolutions (db : Db) : List Value := ((db.tables "edges").elim [] Table.rows).map fun r => r.get "resolution"

/-- Death behind the new column: the next initialisation ends, and the marker is never filled in. -/
theorem initIndexerSchema_unfilled : EarlierSchema sampleEngine legacyDb ∧ ∃ l d d₁ d₂,
      (initIndexerSchema sampleEngine).Dies (Action.apply sampleEngine) legacyDb l d ∧
      (initIndexerSchema sampleEngine).run (Action.apply sampleEngine) d = .ok d₁ ∧
      (initIndexerSchema sampleEngine).run (Action.apply sampleEngine) legacyDb = .ok d₂ ∧
      resolutions d₁ = [str ""] ∧ resolutions d₂ = [exactMarker] := by
  have hafter : ∃ x d₁ d₂,
      (initIndexerSchema sampleEngine).after (Action.apply sampleEngine) 25 legacyDb = some x ∧
      (initIndexerSchema sampleEngine).run (Action.apply sampleEngine) x.2 = .ok d₁ ∧
      (initIndexerSchema sampleEngine).run (Action.apply sampleEngine) legacyDb = .ok d₂ ∧
      resolutions d₁ = [str ""] ∧ resolutions d₂ = [exactMarker] :=
    ⟨_, _, _, rfl, rfl, rfl, rfl, rfl⟩
  obtain ⟨x, d₁, d₂, hx, hresults⟩ := hafter
  exact ⟨legacyDb_earlier, x.1, x.2, d₁, d₂, Script.dies_of_after hx, hresults⟩

end Ariad.CodeSchema
