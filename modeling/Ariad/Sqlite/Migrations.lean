import Mathlib.Data.List.Nodup
import Ariad.Durable.Script
import Ariad.Relational.Rows
import Ariad.Sqlite.Facts

/-!
# Migrations as programs

The forms that migrations of a schema have, each of them a phase: what it asks for is what it has done.

* `Schema` — the invariant: indexes are on their tables, and some facts hold throughout.
* `ensureColumns` — the columns that are missing are added, one by one.
* `rebuildUnless` — a table is rebuilt unless it has its shape.
* `Migration` — a program with the facts that it establishes and with its actions.
* `Migration.phase_seqs` — migrations in a row are a phase, by a check of names.
-/

namespace Ariad.Sqlite

open Durable List Bool

variable (engine : Engine) (indexes : List Index) (base : List Fact)

/-- What holds of a database before, between and behind the migrations. -/
structure Schema (db : Db) : Prop where
  homed : Homed indexes db
  base : ∀ f ∈ base, f.Holds engine db

/-! ## Actions that keep the invariant -/

def Statement.homes (indexes : List Index) : Statement → Bool
  | createIndex i => indexes.all fun j => i.name ≠ j.name || i.table = j.table
  | renameTable n _ => indexes.all fun j => j.table ≠ n
  | _ => true

/-- The index of a rebuilt table is where it belongs. -/
def Rebuild.sound (b : Rebuild) : Bool :=
  b.temporary ≠ b.table && b.index.table = b.table && indexes.contains b.index

def Action.sound : Action → Bool
  | statement st => st.homes indexes && base.all st.keeps
  | rebuild b => b.statements.all (Statement.homes indexes) && b.sound indexes && base.all (rebuild b).keeps

variable {engine indexes base} {db db' : Db} {f : Fact} {a : Action}

variable {columns : List Column} {n : Name}

theorem Statement.homes_sound {st : Statement} (hst : st.homes indexes = true) (hdb : Homed indexes db)
    (h : st.apply engine db = .ok db') : Homed indexes db' := by
  cases st with
  | createTable b n columns uniques =>
    obtain ⟨-, -, rfl⟩ | ⟨-, rfl⟩ := createTable_ok h
    · exact hdb
    · exact hdb
  | createIndex i =>
    obtain ⟨-, rfl⟩ | rfl := createIndex_ok h
    · exact hdb
    · intro j hj k hk hname
      rcases mem_append.mp hj with hj | hj
      · exact hdb j hj k hk hname
      · rw [mem_singleton.mp hj] at hname ⊢
        have hhome := all_eq_true.mp hst k hk
        rw [or_eq_true, decide_eq_true_eq, decide_eq_true_eq] at hhome
        exact hhome.resolve_left (not_not.mpr hname)
  | dropTable b n =>
    obtain ⟨-, rfl⟩ | ⟨-, rfl⟩ := dropTable_ok h
    · exact hdb
    · exact fun j hj => hdb j (mem_filter.mp hj).1
  | renameTable n m =>
    obtain ⟨t, -, -, rfl⟩ := renameTable_ok h
    intro j hj k hk hname
    obtain ⟨i, hi, rfl⟩ := mem_map.mp hj
    have hne : k.table ≠ n := of_decide_eq_true (all_eq_true.mp hst k hk)
    by_cases hn : i.table = n
    · rw [if_pos hn] at hname
      exact absurd ((hdb i hi k hk hname).symm.trans hn) hne
    · rw [if_neg hn] at hname ⊢
      exact hdb i hi k hk hname
  | addColumn n c =>
    obtain ⟨t, -, -, rfl⟩ := addColumn_ok h
    exact hdb
  | update u =>
    obtain ⟨t, c, -, -, -, -, rfl⟩ := update_ok h
    exact hdb
  | insertSelect n source copy =>
    obtain ⟨t, t', -, -, -, rfl⟩ := insertSelect_ok h
    exact hdb

theorem commit_homed {sts : List Statement} (hsts : ∀ st ∈ sts, st.homes indexes = true) (hdb : Homed indexes db)
    (h : commit engine sts db = .ok db') : Homed indexes db' := by
  induction sts generalizing db with
  | nil =>
    obtain rfl := Except.ok.inj h
    exact hdb
  | cons st sts ih =>
    obtain ⟨d, hd, h⟩ := commit_cons_ok h
    exact ih (fun x hx => hsts x (mem_cons_of_mem st hx))
      (Statement.homes_sound (hsts st mem_cons_self) hdb hd) h

theorem Action.sound_rebuild (ha : a.sound indexes base = true) :
    ∀ b, a = .rebuild b → b.temporary ≠ b.table ∧ b.index.table = b.table ∧ b.index ∈ indexes := by
  rintro b rfl
  rw [sound, and_eq_true, and_eq_true, Rebuild.sound, and_eq_true, and_eq_true, decide_eq_true_eq,
    decide_eq_true_eq, contains_iff_mem] at ha
  exact ⟨ha.1.2.1.1, ha.1.2.1.2, ha.1.2.2⟩

theorem Action.apply_schema (ha : a.sound indexes base = true) (hdb : Schema engine indexes base db)
    (h : a.apply engine db = .ok db') : Schema engine indexes base db' := by
  have hbase : ∀ f ∈ base, a.keeps f = true := by
    cases a with
    | statement st =>
      rw [sound, and_eq_true] at ha
      exact all_eq_true.mp ha.2
    | rebuild b =>
      rw [sound, and_eq_true] at ha
      exact all_eq_true.mp ha.2
  refine ⟨?_, fun f hf => Action.keeps_sound (hbase f hf) (sound_rebuild ha) hdb.homed h (hdb.base f hf)⟩
  cases a with
  | statement st =>
    rw [sound, and_eq_true] at ha
    exact Statement.homes_sound ha.1 hdb.homed h
  | rebuild b =>
    rw [sound, and_eq_true, and_eq_true] at ha
    exact commit_homed (all_eq_true.mp ha.1.1) hdb.homed h

/-! ## Single actions -/

variable {p : Script Db Action}

theorem inv_of_only (hp : p.Only fun a => a.sound indexes base = true) (s : Db) (l : List Action) (s' : Db)
    (hs : Schema engine indexes base s) (h : p.Dies (Action.apply engine) s l s') : Schema engine indexes base s' :=
  h.invariant (fun _ _ _ ha hs hstep => Action.apply_schema ha hs hstep) hp hs

/-- All of the facts hold. -/
def Holding (engine : Engine) (fs : List Fact) (db : Db) : Prop := ∀ f ∈ fs, f.Holds engine db

theorem holding_singleton : Holding engine [f] db ↔ f.Holds engine db := by
  rw [Holding, forall_mem_singleton]

/-- A statement that does nothing where a fact holds, and that makes it hold. -/
theorem phase_statement {st : Statement} (ha : (Action.statement st).sound indexes base = true)
    (hsettles : ∀ s t, Schema engine indexes base s → st.apply engine s = .ok t → f.Holds engine t)
    (hquiet : ∀ s, f.Holds engine s → st.apply engine s = .ok s) :
    Phase (Action.apply engine) (Schema engine indexes base) (.exec (.statement st) .done) (Holding engine [f]) :=
  .action (fun _ _ hs h => Action.apply_schema ha hs h)
    (fun s t hs h => holding_singleton.mpr (hsettles s t hs h))
    fun s hs => hquiet s (holding_singleton.mp hs)

theorem createTable_settles {b : Bool} {uniques : List (List Name)}
    (h : (Statement.createTable b n columns uniques).apply engine db = .ok db') :
    (Fact.hasTable n).Holds engine db' := by
  obtain ⟨-, hn, rfl⟩ | ⟨-, rfl⟩ := createTable_ok h
  · exact hn
  · rw [Fact.Holds, Db.tables_set_self]
    simp

theorem phase_createTable {uniques : List (List Name)}
    (ha : (Action.statement (.createTable true n columns uniques)).sound indexes base = true) :
    Phase (Action.apply engine) (Schema engine indexes base)
      (.exec (.statement (.createTable true n columns uniques)) .done) (Holding engine [.hasTable n]) := by
  refine phase_statement ha (fun _ _ _ h => createTable_settles h) ?_
  intro s hs
  rw [Statement.apply]
  cases ht : s.tables n with
  | none => exact absurd ht hs
  | some t => rfl

theorem createIndex_of_holds {i : Index} (h : (Fact.indexOn i.name n).Holds engine db) :
    (Statement.createIndex i).apply engine db = .ok db := by
  obtain ⟨j, hj, hname, -⟩ := h
  have hany : (db.indexes.any fun j => j.name = i.name) = true := any_eq_true.mpr ⟨j, hj, decide_eq_true hname⟩
  rw [Statement.apply, if_pos hany]

theorem createIndex_settles {i : Index} (hi : i ∈ indexes) (hdb : Homed indexes db)
    (h : (Statement.createIndex i).apply engine db = .ok db') : (Fact.indexOn i.name i.table).Holds engine db' := by
  obtain ⟨⟨j, hj, hname⟩, rfl⟩ | rfl := createIndex_ok h
  · exact ⟨j, hj, hname, hdb j hj i hi hname⟩
  · exact ⟨i, mem_append_right _ (mem_singleton_self _), rfl, rfl⟩

/-- An index is created a second time without effect. -/
theorem createIndex_again {i : Index} {db db' : Db} (h : (Statement.createIndex i).apply engine db = .ok db') :
    (Statement.createIndex i).apply engine db' = .ok db' := by
  rcases createIndex_ok h with ⟨⟨j, hj, hname⟩, heq⟩ | rfl
  · have hon : (Fact.indexOn i.name j.table).Holds engine db := ⟨j, hj, hname, rfl⟩
    exact heq ▸ createIndex_of_holds hon
  · have hmem : i ∈ db.indexes ++ [i] := mem_append_right _ (mem_singleton_self _)
    have hon : (Fact.indexOn i.name i.table).Holds engine ⟨db.tables, db.indexes ++ [i]⟩ := ⟨i, hmem, rfl, rfl⟩
    exact createIndex_of_holds hon

theorem phase_createIndex {i : Index} (hi : i ∈ indexes)
    (ha : (Action.statement (.createIndex i)).sound indexes base = true) :
    Phase (Action.apply engine) (Schema engine indexes base) (.exec (.statement (.createIndex i)) .done)
      (Holding engine [.indexOn i.name i.table]) :=
  phase_statement ha (fun _ _ hs h => createIndex_settles hi hs.homed h) fun _ hs => createIndex_of_holds hs

/-- An update is a phase if it does not change the values that it gives. -/
theorem phase_update {u : Update} (ha : (Action.statement (.update u)).sound indexes base = true)
    (hstable : ∀ c r v w, u.column ∈ r.map Prod.fst → u.new engine c r = some v →
      u.new engine c (r.set u.column v) = some w → w = v) :
    Phase (Action.apply engine) (Schema engine indexes base) (.exec (.statement (.update u)) .done)
      (Holding engine [.updated u]) := by
  refine phase_statement ha ?_ fun s hs => hs
  intro s t _ h
  obtain ⟨tb, c, -, hc, hreads, hnull, rfl⟩ := update_ok h
  have hcolumn : u.column ∈ tb.names := by
    have hname := find?_some hc
    simp only [decide_eq_true_eq] at hname
    exact hname ▸ mem_map_of_mem (mem_of_find?_eq_some hc)
  refine updated_iff.mpr ⟨tb.update u.column (u.new engine c), c, Db.tables_set_self _ _ _, hc, hreads, ?_, ?_⟩
  · intro hnn r hr
    obtain ⟨r', hr', rfl⟩ := mem_map.mp hr
    intro hw
    cases hv : u.new engine c r' with
    | none =>
      rw [hv] at hw
      exact absurd (hv.symm.trans hw) (by simp)
    | some v =>
      rw [hv] at hw
      have := hstable c r' v .null (mem_names hr' hcolumn) hv hw
      exact hnull hnn r' hr' (hv.trans (congrArg some this.symm))
  · intro r hr w hw
    obtain ⟨r', hr', rfl⟩ := mem_map.mp hr
    cases hv : u.new engine c r' with
    | none =>
      rw [hv] at hw
      exact absurd (hv.symm.trans hw) (by simp)
    | some v =>
      rw [hv] at hw
      obtain rfl := hstable c r' v w (mem_names hr' hcolumn) hv hw
      exact Row.set_set r' u.column w

/-! ## Missing columns -/

/-- The columns that are missing are added. Whether they are is asked once. -/
def ensureColumns (n : Name) (columns : List Column) : Script Db Action :=
  .ask fun db =>
    .execs ((columns.filter fun c => !db.hasColumn n c.name).map fun c => .statement (.addColumn n c))

theorem hasColumn_iff {n c : Name} : db.hasColumn n c = true ↔ (Fact.hasColumn n c).Holds engine db := by
  rw [Db.hasColumn, Db.columns, Fact.Holds]
  cases db.tables n with
  | none => simp
  | some t => simp [named]

theorem hasColumn_addColumn {c : Column} (h : (Statement.addColumn n c).apply engine db = .ok db')
    (k : Name) : db'.hasColumn n k = (db.hasColumn n k || c.name = k) := by
  obtain ⟨t, ht, -, rfl⟩ := addColumn_ok h
  rw [Db.hasColumn, Db.columns, Db.tables_set_self, Db.hasColumn, Db.columns, ht, Option.elim, Option.elim,
    Table.addColumn, any_append]
  simp

/-- Death among additions of columns: the rest of them leads to the same end, and no other columns are there. -/
theorem dies_addColumns {s s' : Db} {l : List Action}
    (h : (Script.execs (columns.map fun c => .statement (.addColumn n c))).Dies (Action.apply engine) s l s') :
    ∃ k, (∀ x, s'.hasColumn n x = (s.hasColumn n x || ((columns.take k).map Column.name).contains x)) ∧
      (Script.execs ((columns.drop k).map fun c => .statement (.addColumn n c))).run (Action.apply engine) s' =
        (Script.execs (columns.map fun c => .statement (.addColumn n c))).run (Action.apply engine) s := by
  induction columns generalizing s l with
  | nil =>
    cases h
    exact ⟨0, by simp, rfl⟩
  | cons c columns ih =>
    rw [map_cons, Script.dies_execs_cons_iff] at h
    obtain ⟨-, rfl⟩ | ⟨t, l', ht, h, -⟩ := h
    · exact ⟨0, by simp, rfl⟩
    · obtain ⟨k, hcolumns, hrun⟩ := ih h
      have hone : (Statement.addColumn n c).apply engine s = .ok t := ht
      refine ⟨k + 1, fun x => ?_, ?_⟩
      · have hc : (c.name == x) = (x == c.name) := beq_comm
        rw [hcolumns x, hasColumn_addColumn hone, take_succ_cons, map_cons, contains_cons, Bool.or_assoc,
          ← hc]
        rfl
      · exact hrun.trans (Script.run_exec ht).symm

theorem ends_addColumns {s t : Db} {l : List Action}
    (h : (Script.execs (columns.map fun c => .statement (.addColumn n c))).Ends (Action.apply engine) s l t) :
    ∀ x, t.hasColumn n x = (s.hasColumn n x || (columns.map Column.name).contains x) := by
  induction columns generalizing s l with
  | nil =>
    cases h
    simp
  | cons c columns ih =>
    cases h with
    | @exec _ _ _ u _ _ ht h =>
      intro x
      have hone : (Statement.addColumn n c).apply engine s = .ok u := ht
      have hc : (c.name == x) = (x == c.name) := beq_comm
      rw [ih h x, hasColumn_addColumn hone, map_cons, contains_cons, Bool.or_assoc, ← hc]
      rfl

theorem phase_ensureColumns (hnodup : (columns.map Column.name).Nodup)
    (ha : ∀ c ∈ columns, (Action.statement (.addColumn n c)).sound indexes base = true) :
    Phase (Action.apply engine) (Schema engine indexes base) (ensureColumns n columns)
      (Holding engine (columns.map fun c => .hasColumn n c.name)) where
  inv := by
    refine inv_of_only fun s => Script.Only.execs ?_
    intro a h
    obtain ⟨c, hc, rfl⟩ := mem_map.mp h
    exact ha c (mem_of_mem_filter hc)
  settles s l t _ h := by
    cases h with
    | ask h =>
      intro f hf
      obtain ⟨c, hc, rfl⟩ := mem_map.mp hf
      rw [← hasColumn_iff, ends_addColumns h]
      -- it was there, or it was one of those that were missing
      cases hs : s.hasColumn n c.name with
      | true => rfl
      | false =>
        rw [Bool.false_or, contains_iff_mem]
        exact mem_map_of_mem (mem_filter.mpr ⟨hc, by rw [hs]; rfl⟩)
  quiet s hs := by
    have hnone : (columns.filter fun c => !s.hasColumn n c.name) = [] := by
      rw [filter_eq_nil_iff]
      intro c hc
      rw [hasColumn_iff.mpr (hs _ (mem_map_of_mem hc))]
      simp
    rw [ensureColumns, Script.run, hnone]
    rfl
  resumes s l s' _ h := by
    cases h with
    | here => rfl
    | ask h =>
      obtain ⟨k, hcolumns, hrun⟩ := dies_addColumns h
      rw [ensureColumns, Script.run, Script.run, ← hrun]
      -- what is still missing is what has not been added yet
      have hmissing : (columns.filter fun c => !s'.hasColumn n c.name) =
          (columns.filter fun c => !s.hasColumn n c.name).drop k := by
        have hsub : ((columns.filter fun c => !s.hasColumn n c.name).map Column.name).Nodup :=
          hnodup.sublist (filter_sublist.map _)
        rw [← Rows.filter_notMem_take hsub k, filter_filter]
        refine filter_congr fun c _ => ?_
        rw [hcolumns c.name, Bool.not_or, Bool.and_comm, contains_eq_mem, decide_not]
      rw [hmissing]

/-! ## Rebuilt tables -/

/-- A temporary table that is left is dropped. -/
theorem dropTable_frame {n m : Name} (h : (Statement.dropTable true m).apply engine db = .ok db') (hne : n ≠ m) :
    db.Same n db' := by
  obtain ⟨-, rfl⟩ | ⟨-, rfl⟩ := dropTable_ok h
  · exact ⟨rfl, fun _ hj _ => hj⟩
  · exact ⟨Function.update_of_ne hne _ _, fun j hj htable => mem_filter.mpr ⟨hj, decide_eq_true (htable ▸ hne)⟩⟩

theorem dropTable_gone {m : Name} (h : (Statement.dropTable true m).apply engine db = .ok db') :
    db'.tables m = none := by
  obtain ⟨hm, rfl⟩ | ⟨-, rfl⟩ := dropTable_ok h
  · exact hm
  · exact Function.update_self _ _ _

theorem dropTable_of_gone {m : Name} (h : db.tables m = none) :
    (Statement.dropTable true m).apply engine db = .ok db := by
  rw [Statement.apply]
  simp only [h, if_true]

/-! ## Migrations in a row -/

/-- A program with the facts that it establishes and with the actions that it may take. -/
structure Migration where
  script : Script Db Action
  facts : List Fact
  actions : List Action

/-- Whether the facts of one are kept by every action of another. -/
def Migration.keptBy (x y : Migration) : Bool := x.facts.all fun f => y.actions.all fun a => a.keeps f

theorem keeps_of_check {fs : List Fact} (actions : List Action) (honly : p.Only (· ∈ actions))
    (hsound : ∀ a ∈ actions, a.sound indexes base = true) (hkeeps : ∀ f ∈ fs, ∀ a ∈ actions, a.keeps f = true) :
    Keeps (Action.apply engine) (Schema engine indexes base) (Holding engine fs) p := by
  intro s l s' hs hfs h
  refine (h.invariant (I := fun d => Schema engine indexes base d ∧ Holding engine fs d) ?_ honly ⟨hs, hfs⟩).2
  rintro a d d' ha ⟨hd, hfd⟩ hstep
  refine ⟨Action.apply_schema (hsound a ha) hd hstep, fun f hf => ?_⟩
  exact Action.keeps_sound (hkeeps f hf a ha) (Action.sound_rebuild (hsound a ha)) hd.homed hstep (hfd f hf)

/-- **Migrations in a row are a phase**, by a check of the names in their texts. -/
theorem Migration.phase_seqs {ms : List Migration}
    (hphase : ∀ m ∈ ms, Phase (Action.apply engine) (Schema engine indexes base) m.script (Holding engine m.facts))
    (honly : ∀ m ∈ ms, m.script.Only (· ∈ m.actions)) (hsound : ∀ m ∈ ms, ∀ a ∈ m.actions, a.sound indexes base = true)
    (hkept : ms.Pairwise fun x y => x.keptBy y = true) :
    Phase (Action.apply engine) (Schema engine indexes base) (Script.seqs (ms.map Migration.script))
      fun db => ∀ m ∈ ms, Holding engine m.facts db := by
  have hlist : ms.map Migration.script = (ms.map fun m => (m.script, Holding engine m.facts)).map Prod.fst := by
    rw [map_map]
    rfl
  have hdone : (fun db => ∀ m ∈ ms, Holding engine m.facts db) =
      fun db => ∀ x ∈ ms.map (fun m => (m.script, Holding engine m.facts)), x.2 db := by
    funext db
    rw [forall_mem_map]
  rw [hlist, hdone]
  refine Phase.seqs ?_ ?_
  · rw [forall_mem_map]
    exact hphase
  · rw [pairwise_map]
    refine hkept.imp_of_mem fun {x y} _ hy hxy => ?_
    refine keeps_of_check y.actions (honly y hy) (hsound y hy) fun f hf a ha => ?_
    exact all_eq_true.mp (all_eq_true.mp hxy f hf) a ha

/-- The check that the facts of each are kept by all that come behind it. -/
def Migration.allKept : List Migration → Bool
  | [] => true
  | m :: ms => ms.all m.keptBy && allKept ms

theorem Migration.pairwise_keptBy {ms : List Migration} (h : allKept ms = true) :
    ms.Pairwise fun x y => x.keptBy y = true := by
  induction ms with
  | nil => exact .nil
  | cons m ms ih =>
    rw [allKept, and_eq_true] at h
    exact .cons (all_eq_true.mp h.1) (ih h.2)

end Ariad.Sqlite
