import Ariad.Human.MigrationRunner
import Ariad.Human.SearchLaws

/-!
# Several processes that open a human database

Each process reads the applied migrations outside of the transactions in which it applies the others. As long as no
process reads the list with a migration missing while another one is applying migrations, every open succeeds.

* `Harmless` — what the statements of the migrations have in common; `Settled` — that a statement has had its effect.
* `fileAt` — the file with the first of its missing migrations applied, one after the other.
* `Inv` — the invariant: one process migrates at a time, and its transaction is a prefix of that of its migration.
* `migrations_apart` — the law of runs in which the processes keep apart.
-/

namespace Ariad.Human

open Sqlite Sqlite.Sessions List Function

variable {fts : FullText} {f f₀ : DbFile} {st st' : SchemaStatement} {m : Migration}

/-! ## Statements -/

/-- The indexes that a later schema does without. -/
def obsolete : List String :=
  ["idx_human_nodes_cbm_node_ids", "idx_human_nodes_label", "idx_human_nodes_status", "idx_human_nodes_project"]

/-- The rows of `human_nodes` and `human_edges` are the same, no link is lost, and the applied migrations are those
of before. -/
structure Preserved (d d' : StoredDb) : Prop where
  nodes : d'.db.nodes = d.db.nodes
  edges : d'.db.edges = d.db.edges
  links : d.db.links ⊆ d'.db.links

variable {sts : List SchemaStatement} {ms : List Migration}

theorem Preserved.refl (d : StoredDb) : Preserved d d := ⟨rfl, rfl, List.Subset.refl _⟩

theorem Preserved.trans {d d' d'' : StoredDb} (h : Preserved d d') (h' : Preserved d' d'') : Preserved d d'' :=
  ⟨h'.nodes.trans h.nodes, h'.edges.trans h.edges, List.Subset.trans h.links h'.links⟩

/-- What a statement of a migration does: it drops nothing but obsolete indexes, and it changes no row. -/
def Harmless : SchemaStatement → Prop
  | .create n => n ∉ obsolete
  | .dropIndex n => n ∈ obsolete
  | .rows g => ∀ d, (g d).applied = d.applied ∧ Preserved d (g d)
  | .record _ => False

/-- The statement has had its effect on the schema. -/
def Settled : SchemaStatement → DbFile → Prop
  | .create n, f => n ∈ f.objects
  | .dropIndex n, f => n ∉ f.objects
  | .rows _, _ => True
  | .record _, _ => True

/-- The file after a statement. -/
def effect (st : SchemaStatement) (f : DbFile) : DbFile :=
  match st.apply f with
  | .ok f => f
  | .error _ => f

/-- The file after statements. -/
def effects (sts : List SchemaStatement) (f : DbFile) : DbFile := sts.foldl (fun f st => effect st f) f

theorem effects_append (sts sts' : List SchemaStatement) (f : DbFile) :
    effects (sts ++ sts') f = effects sts' (effects sts f) := foldl_append

theorem effects_concat (sts : List SchemaStatement) (st : SchemaStatement) (f : DbFile) :
    effects (sts ++ [st]) f = effect st (effects sts f) := effects_append sts [st] f

theorem apply_of_harmless (h : Harmless st) (f : DbFile) : st.apply f = .ok (effect st f) := by
  cases st with
  | create n => rfl
  | dropIndex n => rfl
  | rows g => rfl
  | record v => exact h.elim

theorem apply_record {v : ℕ} (h : v ∉ f.stored.applied) :
    (SchemaStatement.record v).apply f = .ok (effect (.record v) f) ∧
      (effect (.record v) f).stored = { f.stored with applied := f.stored.applied ++ [v] } ∧
      (effect (.record v) f).objects = f.objects := by
  have happly : (SchemaStatement.record v).apply f =
      .ok { f with stored := { f.stored with applied := f.stored.applied ++ [v] } } := if_neg h
  have heffect : effect (.record v) f = { f with stored := { f.stored with applied := f.stored.applied ++ [v] } } := by
    rw [effect, happly]
  rw [heffect]
  exact ⟨happly, rfl, rfl⟩

/-- A statement that does not write leaves the file as it is. -/
theorem effect_of_not_writes (h : st.writes f = false) : effect st f = f := by
  cases st with
  | create n =>
    have hn : n ∈ f.objects := by simpa [SchemaStatement.writes] using h
    rw [effect, SchemaStatement.apply, if_pos hn]
  | dropIndex n =>
    have hn : n ∉ f.objects := by simpa [SchemaStatement.writes] using h
    have hfilter : f.objects.filter (· ≠ n) = f.objects := by
      rw [filter_eq_self]
      exact fun x hx => decide_eq_true fun heq => hn (heq ▸ hx)
    rw [effect, SchemaStatement.apply, hfilter]
  | rows g => exact absurd h (by simp [SchemaStatement.writes])
  | record v => exact absurd h (by simp [SchemaStatement.writes])

theorem mem_objects_create {n k : String} : k ∈ (effect (.create n) f).objects ↔ k ∈ f.objects ∨ k = n := by
  rw [effect, SchemaStatement.apply]
  by_cases hn : n ∈ f.objects
  · simp only [hn, if_true]
    exact ⟨.inl, fun h => h.elim id fun heq => heq ▸ hn⟩
  · simp [hn]

theorem mem_objects_dropIndex {n k : String} : k ∈ (effect (.dropIndex n) f).objects ↔ k ∈ f.objects ∧ k ≠ n := by
  simp [effect, SchemaStatement.apply]

theorem stored_effect_create (n : String) : (effect (.create n) f).stored = f.stored := by
  rw [effect, SchemaStatement.apply]
  by_cases hn : n ∈ f.objects
  · simp only [hn, if_true]
  · simp only [hn, if_false]

theorem harmless_stored (h : Harmless st) (f : DbFile) :
    (effect st f).stored.applied = f.stored.applied ∧ Preserved f.stored (effect st f).stored := by
  cases st with
  | create n => exact (stored_effect_create (f := f) n).symm ▸ ⟨rfl, .refl _⟩
  | dropIndex n => exact ⟨rfl, .refl _⟩
  | rows g => exact h f.stored
  | record v => exact h.elim

theorem settled_effect_self (h : Harmless st) (f : DbFile) : Settled st (effect st f) := by
  cases st with
  | create n => exact mem_objects_create.mpr (.inr rfl)
  | dropIndex n => exact fun hn => (mem_objects_dropIndex.mp hn).2 rfl
  | rows g => trivial
  | record v => exact h.elim

/-- No statement undoes what another one has done to the schema. -/
theorem Settled.keep (hst : Harmless st) (hst' : Harmless st') (h : Settled st f) : Settled st (effect st' f) := by
  cases st with
  | rows g => trivial
  | record v => trivial
  | create k =>
    cases st' with
    | record v => exact hst'.elim
    | rows g => exact h
    | create n => exact mem_objects_create.mpr (.inl h)
    | dropIndex n => exact mem_objects_dropIndex.mpr ⟨h, fun heq => hst (heq ▸ hst')⟩
  | dropIndex k =>
    cases st' with
    | record v => exact hst'.elim
    | rows g => exact h
    | create n =>
      intro hk
      rcases mem_objects_create.mp hk with hk | rfl
      · exact h hk
      · exact hst' hst
    | dropIndex n => exact fun hk => h (mem_objects_dropIndex.mp hk).1

/-! ## Migrations -/

theorem links_preserved (d : StoredDb) : (linksMigration d).applied = d.applied ∧ Preserved d (linksMigration d) := by
  have hlink (links : List (ℕ × Num)) (x : ℕ × Num) : links ⊆ Db.insertLink links x := by
    rw [Db.insertLink]
    split
    · exact List.Subset.refl _
    · exact subset_append_left _ _
  have hlinks (xs links : List (ℕ × Num)) : links ⊆ xs.foldl Db.insertLink links := by
    induction xs generalizing links with
    | nil => exact List.Subset.refl _
    | cons x xs ih => exact List.Subset.trans (hlink links x) (ih _)
  exact ⟨rfl, rfl, rfl, hlinks _ _⟩

/-- All statements of the migrations are of the same harmless kind. -/
theorem harmless_sql (hm : m ∈ MIGRATIONS fts) : ∀ st ∈ m.sql, Harmless st := by
  have hcreate (ns : List String) (h : ns.all (fun n => n ∉ obsolete) = true) :
      ∀ st ∈ ns.map SchemaStatement.create, Harmless st := by
    intro st hst
    obtain ⟨n, hn, rfl⟩ := mem_map.mp hst
    have hn' : n ∉ obsolete := of_decide_eq_true (all_eq_true.mp h n hn)
    exact hn'
  simp only [MIGRATIONS, mem_cons, not_mem_nil, or_false] at hm
  rcases hm with rfl | rfl | rfl | rfl
  · exact hcreate _ (by decide)
  · intro st hst
    rcases mem_append.mp hst with hst | hst
    · obtain ⟨n, hn, rfl⟩ := mem_map.mp hst
      exact hn
    · exact hcreate _ (by decide) st hst
  · intro st hst
    simp only [SCHEMA_V3, mem_cons, not_mem_nil, or_false] at hst
    rcases hst with rfl | rfl | rfl
    · exact hcreate ["human_node_cbm_links"] (by decide) _ (.head _)
    · exact hcreate ["idx_cbm_links_cbm_id"] (by decide) _ (.head _)
    · exact links_preserved
  · intro st hst
    simp only [SCHEMA_V4, mem_cons, not_mem_nil, or_false] at hst
    rcases hst with rfl | rfl | rfl | rfl | rfl
    · exact hcreate ["human_nodes_fts"] (by decide) _ (.head _)
    · exact fun d => ⟨rfl, rfl, rfl, List.Subset.refl _⟩
    · exact hcreate ["human_nodes_fts_ai"] (by decide) _ (.head _)
    · exact hcreate ["human_nodes_fts_ad"] (by decide) _ (.head _)
    · exact hcreate ["human_nodes_fts_au"] (by decide) _ (.head _)

theorem effects_stored (h : ∀ st ∈ sts, Harmless st) (f : DbFile) :
    (effects sts f).stored.applied = f.stored.applied ∧ Preserved f.stored (effects sts f).stored := by
  induction sts generalizing f with
  | nil => exact ⟨rfl, .refl _⟩
  | cons st sts ih =>
    have hone := harmless_stored (h st mem_cons_self) f
    have hrest := ih (fun x hx => h x (mem_cons_of_mem st hx)) (effect st f)
    exact ⟨hrest.1.trans hone.1, hone.2.trans hrest.2⟩

theorem effects_settled (h : ∀ st ∈ sts, Harmless st) (f : DbFile)
    (hst : Harmless st) (hsettled : Settled st f ∨ st ∈ sts) : Settled st (effects sts f) := by
  induction sts generalizing f with
  | nil => exact hsettled.resolve_right not_mem_nil
  | cons x sts ih =>
    have hx := h x mem_cons_self
    refine ih (fun y hy => h y (mem_cons_of_mem x hy)) (effect x f) ?_
    rcases hsettled with hf | hmem
    · exact .inl (hf.keep hst hx)
    · rcases mem_cons.mp hmem with rfl | hmem
      · exact .inl (settled_effect_self hst f)
      · exact .inr hmem

/-- The file after the whole transaction of a migration. -/
def applyMigration (m : Migration) (f : DbFile) : DbFile := effects m.statements f

theorem applyMigration_eq (hm : m ∈ MIGRATIONS fts) (hnew : m.version ∉ f.stored.applied) :
    (SchemaStatement.record m.version).apply (effects m.sql f) = .ok (applyMigration m f) ∧
      (applyMigration m f).stored.applied = f.stored.applied ++ [m.version] ∧
      Preserved f.stored (applyMigration m f).stored := by
  have hsql := effects_stored (harmless_sql hm) f
  obtain ⟨happly, hstored, -⟩ := apply_record (f := effects m.sql f) (hsql.1 ▸ hnew)
  have heq : applyMigration m f = effect (.record m.version) (effects m.sql f) := effects_concat _ _ _
  rw [heq]
  refine ⟨happly, ?_, ?_⟩
  · rw [hstored, hsql.1]
  · rw [hstored]
    exact hsql.2.trans ⟨rfl, rfl, List.Subset.refl _⟩

theorem settled_record {v : ℕ} (h : Settled st f) : Settled st (effect (.record v) f) := by
  have hobjects : (effect (.record v) f).objects = f.objects := by
    rw [effect, SchemaStatement.apply]
    by_cases hv : v ∈ f.stored.applied
    · simp only [hv, if_true]
    · simp only [hv, if_false]
  cases st with
  | create n =>
    rw [Settled, hobjects]
    exact h
  | dropIndex n =>
    rw [Settled, hobjects]
    exact h
  | rows g => trivial
  | record w => trivial

theorem applyMigration_settled (hm : m ∈ MIGRATIONS fts) (hst : Harmless st) (h : Settled st f ∨ st ∈ m.sql) :
    Settled st (applyMigration m f) := by
  have heq : applyMigration m f = effect (.record m.version) (effects m.sql f) := effects_concat _ _ _
  rw [heq]
  exact settled_record (effects_settled (harmless_sql hm) f hst h)

/-! ## Files -/

/-- The file with the table of the applied migrations. -/
def withTable (f : DbFile) : DbFile := effect (.create "schema_migrations") f

/-- Migrations applied one after the other. -/
def applyAll (ms : List Migration) (f : DbFile) : DbFile := ms.foldl (fun f m => applyMigration m f) f

variable (fts) in
/-- The file with the first `j` of the migrations that it lacks. -/
def fileAt (f₀ : DbFile) (j : ℕ) : DbFile := applyAll ((missing fts f₀).take j) (withTable f₀)

theorem versions_nodup (fts : FullText) : ((MIGRATIONS fts).map Migration.version).Nodup := by
  have h : (MIGRATIONS fts).map Migration.version = [1, 2, 3, 4] := rfl
  rw [h]
  decide

/-- Migrations that a file lacks, applied in order. -/
theorem applyAll_applied (hms : ms ⊆ MIGRATIONS fts)
    (hnodup : (ms.map Migration.version).Nodup) (hnew : ∀ m ∈ ms, m.version ∉ f.stored.applied) :
    (applyAll ms f).stored.applied = f.stored.applied ++ ms.map Migration.version ∧
      Preserved f.stored (applyAll ms f).stored := by
  induction ms generalizing f with
  | nil => exact ⟨(append_nil _).symm, .refl _⟩
  | cons m ms ih =>
    rw [map_cons, nodup_cons] at hnodup
    obtain ⟨-, happlied, hpres⟩ := applyMigration_eq (hms mem_cons_self) (hnew m mem_cons_self)
    have hrest := ih (f := applyMigration m f) (fun x hx => hms (mem_cons_of_mem m hx)) hnodup.2 <| by
      intro x hx
      rw [happlied, mem_append, mem_singleton]
      rintro (h | h)
      · exact hnew x (mem_cons_of_mem m hx) h
      · exact hnodup.1 (h ▸ mem_map_of_mem hx)
    refine ⟨hrest.1.trans ?_, hpres.trans hrest.2⟩
    rw [happlied, append_assoc, map_cons, singleton_append]

theorem applyAll_settled (hms : ms ⊆ MIGRATIONS fts) (hst : Harmless st)
    (h : Settled st f ∨ ∃ m ∈ ms, st ∈ m.sql) : Settled st (applyAll ms f) := by
  induction ms generalizing f with
  | nil => exact h.resolve_right fun ⟨_, hm, _⟩ => absurd hm not_mem_nil
  | cons m ms ih =>
    have hm := hms mem_cons_self
    refine ih (fun x hx => hms (mem_cons_of_mem m hx)) ?_
    rcases h with h | ⟨x, hx, hin⟩
    · exact .inl (applyMigration_settled hm hst (.inl h))
    · rcases mem_cons.mp hx with rfl | hx
      · exact .inl (applyMigration_settled hm hst (.inr hin))
      · exact .inr ⟨x, hx, hin⟩

section

variable {j : ℕ}

theorem missing_subset (f : DbFile) : missing fts f ⊆ MIGRATIONS fts := filter_subset_self _

theorem missing_nodup (f : DbFile) : ((missing fts f).map Migration.version).Nodup :=
  (versions_nodup fts).sublist (filter_sublist.map _)

theorem withTable_stored (f : DbFile) : (withTable f).stored = f.stored := stored_effect_create _

theorem fileAt_applied (f₀ : DbFile) (j : ℕ) :
    (fileAt fts f₀ j).stored.applied = f₀.stored.applied ++ ((missing fts f₀).take j).map Migration.version ∧
      Preserved f₀.stored (fileAt fts f₀ j).stored := by
  have htake : (missing fts f₀).take j ⊆ missing fts f₀ := take_subset _ _
  have hnodup : (((missing fts f₀).take j).map Migration.version).Nodup :=
    (missing_nodup f₀).sublist ((take_sublist _ _).map _)
  have hnew : ∀ m ∈ (missing fts f₀).take j, m.version ∉ (withTable f₀).stored.applied := by
    intro m hm
    rw [withTable_stored]
    exact of_decide_eq_true (mem_filter.mp (htake hm)).2
  have h := applyAll_applied (List.Subset.trans htake (missing_subset f₀)) hnodup hnew
  rw [withTable_stored] at h
  exact h

/-- What a process finds missing are the migrations behind those that were applied. -/
theorem missing_fileAt (f₀ : DbFile) (j : ℕ) : missing fts (fileAt fts f₀ j) = (missing fts f₀).drop j := by
  rw [← Rows.filter_notMem_take (missing_nodup f₀) j, missing, missing, filter_filter]
  refine filter_congr fun m _ => ?_
  rw [(fileAt_applied f₀ j).1, ← Bool.decide_and, decide_eq_decide, mem_append, not_or, and_comm]
  rfl

theorem fileAt_succ {f₀ : DbFile} {todo : List Migration} (h : (missing fts f₀).drop j = m :: todo) :
    fileAt fts f₀ (j + 1) = applyMigration m (fileAt fts f₀ j) ∧ (missing fts f₀).drop (j + 1) = todo ∧
      m ∈ MIGRATIONS fts ∧ m.version ∉ (fileAt fts f₀ j).stored.applied := by
  have hget : (missing fts f₀)[j]? = some m := by
    have := congrArg List.head? h
    rwa [head?_drop, head?_cons] at this
  have htake : (missing fts f₀).take (j + 1) = (missing fts f₀).take j ++ [m] := by
    rw [take_add_one, hget]
    rfl
  have hmem : m ∈ missing fts (fileAt fts f₀ j) := by
    rw [missing_fileAt, h]
    exact mem_cons_self
  refine ⟨?_, ?_, missing_subset _ hmem, of_decide_eq_true (mem_filter.mp hmem).2⟩
  · rw [fileAt, applyAll, htake, foldl_append]
    rfl
  · have hdrop := congrArg (List.drop 1) h
    rw [drop_drop] at hdrop
    exact hdrop

end

/-! ## The invariant -/

/-- The process has read the applied migrations, and has some left to apply. -/
def Phase.Migrating : Phase → Prop
  | .running (_ :: _) => True
  | .inside .. => True
  | _ => False

/-- What a connection has seen or written behind the first statements of a transaction. -/
def ConnAt (file : Sessions.File DbFile) (p : ℕ) (pre : List SchemaStatement) : Conn DbFile → Prop
  | .idle => pre = []
  | .reading s n => s = file.content ∧ n = file.stamp ∧ effects pre file.content = file.content
  | .writing c => c = effects pre file.content ∧ file.writer = some p

variable (fts) in
/-- Where a process may be while the first `j` of the missing migrations have been applied. -/
def PhaseAt (f₀ : DbFile) (file : Sessions.File DbFile) (p j : ℕ) : Phase → Prop
  | .start => True
  | .ready => True
  | .running todo => todo = (missing fts f₀).drop j
  | .inside m left conn todo => (missing fts f₀).drop j = m :: todo ∧
      ∃ pre, m.statements = pre ++ left ∧ ConnAt file p pre conn
  | .opened => (missing fts f₀).drop j = []
  | .failed => False

variable (fts) in
/-- The invariant while the first `j` of the missing migrations have been applied. -/
structure Inv (f₀ : DbFile) (w : World) (j : ℕ) : Prop where
  content : w.file.content = fileAt fts f₀ j
  phase : ∀ p, PhaseAt fts f₀ w.file p j (w.procs p)
  alone : ∀ p q, (w.procs p).Migrating → (w.procs q).Migrating → p = q
  writer : ∀ q, w.file.writer = some q → ∃ m left c todo, w.procs q = .inside m left (.writing c) todo

section

variable {w w' : World} {p q j : ℕ} {file : Sessions.File DbFile} {φ : Phase}

/-- The phase of a process that does not migrate does not depend on the lock. -/
theorem PhaseAt.of_not_migrating (hφ : ¬φ.Migrating) (h : PhaseAt fts f₀ w.file q j φ) : PhaseAt fts f₀ file q j φ := by
  cases φ with
  | running todo => exact h
  | inside m left conn todo => exact absurd trivial hφ
  | start | ready => trivial
  | opened => exact h
  | failed => exact h

/-- The step of a process, for the parts of the invariant. -/
theorem inv_set {j' : ℕ} (hs : Inv fts f₀ w j) (hcontent : file.content = fileAt fts f₀ j')
    (hphase : PhaseAt fts f₀ file p j' φ) (hothers : ∀ q, q ≠ p → PhaseAt fts f₀ file q j' (w.procs q))
    (halone : φ.Migrating → ∀ q, q ≠ p → ¬(w.procs q).Migrating) (hwriter : ∀ q, file.writer = some q →
      q = p ∧ (∃ m left c todo, φ = .inside m left (.writing c) todo) ∨ q ≠ p ∧ w.file.writer = some q) :
    Inv fts f₀ (w.set p file φ) j' := by
  have hself : (w.set p file φ).procs p = φ := update_self _ _ _
  have hne {q : ℕ} (h : q ≠ p) : (w.set p file φ).procs q = w.procs q := update_of_ne h _ _
  refine ⟨hcontent, fun q => ?_, fun a b ha hb => ?_, fun q hq => ?_⟩
  · by_cases hq : q = p
    · subst hq
      exact hself.symm ▸ hphase
    · exact (hne hq).symm ▸ hothers q hq
  · by_cases hap : a = p
    · by_cases hbp : b = p
      · exact hap.trans hbp.symm
      · rw [hne hbp] at hb
        rw [hap, hself] at ha
        exact absurd hb (halone ha b hbp)
    · by_cases hbp : b = p
      · rw [hne hap] at ha
        rw [hbp, hself] at hb
        exact absurd ha (halone hb a hap)
      · exact hs.alone a b (hne hap ▸ ha) (hne hbp ▸ hb)
  · rcases hwriter q hq with ⟨rfl, m, left, c, todo, rfl⟩ | ⟨hqp, hold⟩
    · exact ⟨m, left, c, todo, hself⟩
    · obtain ⟨m, left, c, todo, heq⟩ := hs.writer q hold
      exact ⟨m, left, c, todo, (hne hqp).trans heq⟩

/-- While a process migrates, no other one does, and no other one writes. -/
theorem Inv.others (hs : Inv fts f₀ w j) (hp : (w.procs p).Migrating) :
    (∀ q, q ≠ p → ¬(w.procs q).Migrating) ∧ ∀ q, w.file.writer = some q → q = p := by
  refine ⟨fun q hq hmig => hq (hs.alone q p hmig hp), fun q hq => ?_⟩
  obtain ⟨m, left, c, todo, heq⟩ := hs.writer q hq
  have hmig : (w.procs q).Migrating := heq ▸ trivial
  exact hs.alone q p hmig hp

/-- The next statement of a transaction goes through on the file that the statements before it have made. -/
theorem apply_next {pre left : List SchemaStatement} (hm : m ∈ MIGRATIONS fts) (hnew : m.version ∉ f.stored.applied)
    (h : m.statements = pre ++ st :: left) : st.apply (effects pre f) = .ok (effects (pre ++ [st]) f) := by
  rcases eq_nil_or_concat left with rfl | ⟨left, x, rfl⟩
  · -- the record of the version
    obtain ⟨rfl, hst⟩ := append_inj' h.symm rfl
    obtain rfl : st = .record m.version := by simpa using hst
    exact (applyMigration_eq hm hnew).1
  · have hsql : m.sql = pre ++ st :: left := by
      have hlong : m.sql ++ [.record m.version] = (pre ++ st :: left) ++ [x] := by
        rw [← Migration.statements, h, concat_eq_append, append_assoc, cons_append]
      exact (append_inj' hlong rfl).1
    have hmem : st ∈ m.sql := hsql ▸ mem_append_right _ mem_cons_self
    rw [effects_concat]
    exact apply_of_harmless (harmless_sql hm st hmem) _

/-- A statement of a transaction goes through if no other process holds the lock. -/
theorem exec_done {pre : List SchemaStatement} {conn : Conn DbFile} (hconn : ConnAt file p pre conn)
    (hwriter : ∀ q, file.writer = some q → q = p ∧ ∃ c, conn = .writing c)
    (happly : st.apply (effects pre file.content) = .ok (effects (pre ++ [st]) file.content)) :
    ∃ file' conn', conn.exec schemaStatements p file st = .done file' conn' ∧ file'.content = file.content ∧
      ConnAt file' p (pre ++ [st]) conn' ∧ ∀ q, file'.writer = some q → q = p ∧ ∃ c, conn' = .writing c := by
  have hfree (hidle : ∀ c, conn ≠ .writing c) : file.writer = none := by
    cases hw : file.writer with
    | none => rfl
    | some q =>
      obtain ⟨-, c, hc⟩ := hwriter q hw
      exact absurd hc (hidle c)
  have hlock (hwriter : file.writer = none) (c : DbFile) (hc : c = effects pre file.content) :
      takeLock schemaStatements p file st c =
        .done { file with writer := some p } (.writing (effects (pre ++ [st]) file.content)) := by
    rw [takeLock, hc]
    simp only [schemaStatements, happly]
  have hlocked : ∀ q, ({ file with writer := some p } : Sessions.File DbFile).writer = some q →
      q = p ∧ ∃ c, Conn.writing (effects (pre ++ [st]) file.content) = .writing c :=
    fun q hq => ⟨(Option.some.inj hq).symm, _, rfl⟩
  cases conn with
  | idle =>
    obtain rfl : pre = [] := hconn
    have hnone := hfree nofun
    rw [Conn.exec]
    by_cases hwrites : st.writes file.content = true
    · refine ⟨{ file with writer := some p }, .writing (effects ([] ++ [st]) file.content), ?_, rfl, ⟨rfl, rfl⟩,
        hlocked⟩
      simp only [schemaStatements, hwrites, if_true, hnone]
      exact hlock hnone _ rfl
    · refine ⟨file, .reading file.content file.stamp, ?_, rfl, ⟨rfl, rfl, ?_⟩, fun q hq => ?_⟩
      · simp only [schemaStatements, hwrites, if_false, Bool.false_eq_true]
      · exact effect_of_not_writes (Bool.eq_false_iff.mpr hwrites)
      · exact absurd (hnone.symm.trans hq) nofun
  | reading s n =>
    obtain ⟨rfl, rfl, hsame⟩ := hconn
    have hnone := hfree nofun
    rw [Conn.exec]
    by_cases hwrites : st.writes file.content = true
    · refine ⟨{ file with writer := some p }, .writing (effects (pre ++ [st]) file.content), ?_, rfl, ⟨rfl, rfl⟩,
        hlocked⟩
      simp only [schemaStatements, hwrites, if_true, hnone, Option.isSome_none, ne_eq, not_true_eq_false,
        decide_false, Bool.or_self, Bool.false_eq_true, if_false]
      exact hlock hnone _ hsame.symm
    · refine ⟨file, .reading file.content file.stamp, ?_, rfl, ⟨rfl, rfl, ?_⟩, fun q hq => ?_⟩
      · simp only [schemaStatements, hwrites, if_false, Bool.false_eq_true]
      · rw [effects_concat, hsame]
        exact effect_of_not_writes (Bool.eq_false_iff.mpr hwrites)
      · exact absurd (hnone.symm.trans hq) nofun
  | writing c =>
    obtain ⟨rfl, hme⟩ := hconn
    refine ⟨file, .writing (effects (pre ++ [st]) file.content), ?_, rfl, ⟨rfl, hme⟩, fun q hq => ?_⟩
    · rw [Conn.exec]
      simp only [schemaStatements, happly]
    · exact ⟨(Option.some.inj (hme.symm.trans hq)).symm, _, rfl⟩

/-- A transaction whose statements have all run has written. -/
theorem conn_of_all {conn : Conn DbFile} (hm : m ∈ MIGRATIONS fts) (hnew : m.version ∉ file.content.stored.applied)
    (hconn : ConnAt file p m.statements conn) :
    conn = .writing (applyMigration m file.content) ∧ file.writer = some p := by
  have happlied := (applyMigration_eq hm hnew).2.1
  cases conn with
  | idle => exact absurd hconn (by simp [ConnAt, Migration.statements])
  | reading s n =>
    obtain ⟨-, -, hsame⟩ := hconn
    rw [applyMigration, hsame] at happlied
    exact absurd (congrArg List.length happlied) (by simp)
  | writing c => exact ⟨congrArg Conn.writing hconn.1, hconn.2⟩

variable (fts) in
/-- A file of some version: the migrations that it lists have had their effect on the schema. -/
def Versioned (f₀ : DbFile) : Prop :=
  ∀ m ∈ MIGRATIONS fts, m.version ∈ f₀.stored.applied → ∀ st ∈ m.sql, Settled st f₀

theorem harmless_table : Harmless (.create "schema_migrations") := by
  have h : "schema_migrations" ∉ obsolete := by decide
  exact h

theorem table_fileAt (f₀ : DbFile) (j : ℕ) : "schema_migrations" ∈ (fileAt fts f₀ j).objects := by
  have h : Settled (.create "schema_migrations") (fileAt fts f₀ j) :=
    applyAll_settled (List.Subset.trans (take_subset _ _) (missing_subset f₀)) harmless_table
      (.inl (settled_effect_self harmless_table f₀))
  exact h

/-- With all missing migrations applied, every statement of every migration has had its effect. -/
theorem settled_all (hv : Versioned fts f₀) (hj : (missing fts f₀).drop j = []) (hm : m ∈ MIGRATIONS fts)
    (hst : st ∈ m.sql) : Settled st (fileAt fts f₀ j) := by
  have hharmless := harmless_sql hm st hst
  refine applyAll_settled (List.Subset.trans (take_subset _ _) (missing_subset f₀)) hharmless ?_
  by_cases happlied : m.version ∈ f₀.stored.applied
  · exact .inl ((hv m hm happlied st hst).keep hharmless harmless_table)
  · refine .inr ⟨m, ?_, hst⟩
    rw [take_of_length_le (drop_eq_nil_iff.mp hj)]
    exact mem_filter.mpr ⟨hm, decide_eq_true happlied⟩

theorem humanNodes_all (hv : Versioned fts f₀) (hj : (missing fts f₀).drop j = []) :
    "human_nodes" ∈ (fileAt fts f₀ j).objects := by
  have hm : ⟨1, "initial_schema", SCHEMA_V1⟩ ∈ MIGRATIONS fts := .head _
  have h : Settled (.create "human_nodes") (fileAt fts f₀ j) := settled_all hv hj hm (.head _)
  exact h

variable (fts) in
/-- The processes keep apart: none reads the list of applied migrations with one missing while another one, which has
read it with one missing, is still applying migrations. -/
def KeepsApart (w : World) : OpenEvent → Prop
  | .next p => w.procs p = .ready → missing fts w.file.content ≠ [] → ∀ q, q ≠ p → ¬(w.procs q).Migrating
  | .giveUp _ => True

/-- **Every process that has not opened its store can go on**, and where the processes keep apart this keeps the
invariant. -/
theorem next_ok (hv : Versioned fts f₀) (hs : Inv fts f₀ w j) (hp : w.procs p ≠ .opened) :
    ∃ w', w.next fts p = some w' ∧ (KeepsApart fts w (.next p) → ∃ j', Inv fts f₀ w' j') := by
  have hphase := hs.phase p
  -- a process outside of its transactions does not hold the lock
  have hkept (hout : ∀ m left c todo, w.procs p ≠ .inside m left (.writing c) todo) (φ : Phase) (q : ℕ)
      (hq : w.file.writer = some q) :
      q = p ∧ (∃ m left c todo, φ = .inside m left (.writing c) todo) ∨ q ≠ p ∧ w.file.writer = some q := by
    refine .inr ⟨?_, hq⟩
    rintro rfl
    obtain ⟨m, left, c, todo, heq⟩ := hs.writer q hq
    exact hout m left c todo heq
  have hsame : ∀ q, q ≠ p → PhaseAt fts f₀ w.file q j (w.procs q) := fun q _ => hs.phase q
  cases hφ : w.procs p with
  | start =>
    have htable : "schema_migrations" ∈ w.file.content.objects := hs.content ▸ table_fileAt f₀ j
    refine ⟨w.set p w.file .ready, by simp only [World.next, hφ, htable, if_true], fun _ => ⟨j, ?_⟩⟩
    exact inv_set hs hs.content trivial hsame False.elim (hkept (by simp [hφ]) _)
  | ready =>
    refine ⟨w.set p w.file (.running (missing fts w.file.content)), by simp only [World.next, hφ],
      fun hapart => ⟨j, ?_⟩⟩
    have hmissing : missing fts w.file.content = (missing fts f₀).drop j := by rw [hs.content, missing_fileAt]
    refine inv_set hs hs.content hmissing hsame (fun hmig => hapart hφ ?_) (hkept (by simp [hφ]) _)
    intro hnil
    rw [hnil] at hmig
    exact hmig
  | running todo =>
    rw [hφ] at hphase
    cases todo with
    | nil =>
      have hnodes : "human_nodes" ∈ w.file.content.objects := hs.content ▸ humanNodes_all hv hphase.symm
      refine ⟨w.set p w.file .opened, by simp only [World.next, hφ, hnodes, if_true], fun _ => ⟨j, ?_⟩⟩
      exact inv_set hs hs.content hphase.symm hsame False.elim (hkept (by simp [hφ]) _)
    | cons m todo =>
      have hmig : (w.procs p).Migrating := hφ ▸ trivial
      refine ⟨w.set p w.file (.inside m m.statements .idle todo), by simp only [World.next, hφ], fun _ => ⟨j, ?_⟩⟩
      refine inv_set hs hs.content ⟨hphase.symm, [], rfl, rfl⟩ hsame (fun _ => (hs.others hmig).1) ?_
      exact hkept (by simp [hφ]) _
  | inside m left conn todo =>
    rw [hφ] at hphase
    obtain ⟨hdrop, pre, hstatements, hconn⟩ := hphase
    have hmig : (w.procs p).Migrating := hφ ▸ trivial
    obtain ⟨halone, hwriter⟩ := hs.others hmig
    obtain ⟨hsucc, hdrop', hm, hnew⟩ := fileAt_succ hdrop
    rw [← hs.content] at hsucc hnew
    cases left with
    | nil =>
      -- the commit
      rw [append_nil] at hstatements
      obtain ⟨rfl, -⟩ := conn_of_all hm hnew (hstatements ▸ hconn)
      refine ⟨_, by simp only [World.next, hφ]; rfl, fun _ => ⟨j + 1, ?_⟩⟩
      refine inv_set hs hsucc.symm hdrop'.symm ?_ (fun _ => halone) fun q hq => absurd hq nofun
      intro q hq
      have hqphase := hs.phase q
      have hqmig := halone q hq
      cases hqφ : w.procs q with
      | start | ready => trivial
      | running todo' =>
        rw [hqφ] at hqphase hqmig
        cases todo' with
        | nil => exact absurd (hqphase.trans hdrop) nofun
        | cons m' todo' => exact absurd trivial hqmig
      | inside m' left' conn' todo' =>
        rw [hqφ] at hqmig
        exact absurd trivial hqmig
      | opened =>
        rw [hqφ] at hqphase
        exact absurd (Eq.trans (Eq.symm hqphase) hdrop) nofun
      | failed =>
        rw [hqφ] at hqphase
        exact hqphase
    | cons st left =>
      have hfree : ∀ q, w.file.writer = some q → q = p ∧ ∃ c, conn = .writing c := by
        intro q hq
        obtain ⟨m', left', c, todo', heq⟩ := hs.writer q hq
        obtain rfl := hwriter q hq
        have hinside := hφ.symm.trans heq
        simp only [Phase.inside.injEq] at hinside
        exact ⟨rfl, c, hinside.2.2.1⟩
      obtain ⟨file', conn', hexec, hcontent, hconn', hwriter'⟩ :=
        exec_done hconn hfree (apply_next hm hnew hstatements)
      refine ⟨w.set p file' (.inside m left conn' todo), by simp only [World.next, hφ, hexec], fun _ => ⟨j, ?_⟩⟩
      refine inv_set hs (hcontent.trans hs.content) ⟨hdrop, pre ++ [st], ?_, hconn'⟩ ?_ (fun _ => halone) ?_
      · rw [hstatements, append_assoc, singleton_append]
      · exact fun q hq => (hs.phase q).of_not_migrating (halone q hq)
      · intro q hq
        obtain ⟨rfl, c, rfl⟩ := hwriter' q hq
        exact .inl ⟨rfl, m, left, c, todo, rfl⟩
  | opened => exact absurd hφ hp
  | failed =>
    rw [hφ] at hphase
    exact hphase.elim

end

/-! ## Rows -/

/-- What statements do to the rows. -/
def rowsOf (sts : List SchemaStatement) (d : StoredDb) : StoredDb :=
  sts.foldl (fun d st => match st with | .rows g => g d | _ => d) d

theorem stored_effects (h : ∀ st ∈ sts, Harmless st) (f : DbFile) : (effects sts f).stored = rowsOf sts f.stored := by
  induction sts generalizing f with
  | nil => rfl
  | cons st sts ih =>
    have hrest := ih (fun x hx => h x (mem_cons_of_mem st hx)) (effect st f)
    refine hrest.trans ?_
    cases st with
    | create n => rw [stored_effect_create]; rfl
    | dropIndex n => rfl
    | rows g => rfl
    | record v => exact (h _ mem_cons_self).elim

theorem migrations_eq (fts : FullText) : migrations fts = (MIGRATIONS fts).map fun m => (m.version, rowsOf m.sql) := rfl

/-- One migration of a list, on the rows: it is left out if its version is listed. -/
def applyRows (d : StoredDb) (m : ℕ × (StoredDb → StoredDb)) : StoredDb :=
  if m.1 ∈ d.applied then d else { m.2 d with applied := d.applied ++ [m.1] }

theorem stored_applyMigration (hm : m ∈ MIGRATIONS fts) (hnew : m.version ∉ f.stored.applied) :
    (applyMigration m f).stored = applyRows f.stored (m.version, rowsOf m.sql) := by
  have hsql := harmless_sql hm
  have happlied := (effects_stored hsql f).1
  have heq : applyMigration m f = effect (.record m.version) (effects m.sql f) := effects_concat _ _ _
  obtain ⟨-, hstored, -⟩ := apply_record (f := effects m.sql f) (happlied ▸ hnew)
  rw [heq, hstored, happlied, stored_effects hsql, applyRows, if_neg hnew]

/-- It makes no difference whether the list of applied migrations is read once or before each of them. -/
theorem stored_applyAll (hms : ms ⊆ MIGRATIONS fts) (hnodup : (ms.map Migration.version).Nodup) :
    (applyAll (ms.filter fun m => m.version ∉ f.stored.applied) f).stored =
      (ms.map fun m => (m.version, rowsOf m.sql)).foldl applyRows f.stored := by
  induction ms generalizing f with
  | nil => rfl
  | cons m ms ih =>
    rw [map_cons, nodup_cons] at hnodup
    have hrest {f : DbFile} := ih (f := f) (fun x hx => hms (mem_cons_of_mem m hx)) hnodup.2
    rw [map_cons, foldl_cons]
    by_cases hm : m.version ∈ f.stored.applied
    · have hskip : applyRows f.stored (m.version, rowsOf m.sql) = f.stored := if_pos hm
      rw [filter_cons_of_neg (by simpa using hm), hskip]
      exact hrest
    · have hmem : m ∈ MIGRATIONS fts := hms mem_cons_self
      have happlied := (applyMigration_eq hmem hm).2.1
      have hfilter : (ms.filter fun x => x.version ∉ f.stored.applied) =
          ms.filter fun x => x.version ∉ (applyMigration m f).stored.applied := by
        refine filter_congr fun x hx => ?_
        have hne : x.version ≠ m.version := fun h => hnodup.1 (h ▸ mem_map_of_mem hx)
        rw [happlied, decide_eq_decide, mem_append, mem_singleton, not_or]
        exact ⟨fun h => ⟨h, hne⟩, And.left⟩
      rw [filter_cons_of_pos (by simpa using hm), ← stored_applyMigration hmem hm, hfilter]
      exact hrest

/-- With all missing migrations applied, the rows are those of `runMigrations`. -/
theorem stored_all {j : ℕ} (hj : (missing fts f₀).drop j = []) :
    (fileAt fts f₀ j).stored = runMigrations fts f₀.stored := by
  have hall : (missing fts f₀).take j = missing fts f₀ := take_of_length_le (drop_eq_nil_iff.mp hj)
  have hstored : (withTable f₀).stored = f₀.stored := withTable_stored f₀
  have h := stored_applyAll (f := withTable f₀) (List.Subset.refl (MIGRATIONS fts)) (versions_nodup fts)
  rw [hstored] at h
  rw [fileAt, hall, missing, h, runMigrations, migrations_eq]
  rfl

/-! ## Runs -/

section

variable {w w' : World} {p q : ℕ} {e : OpenEvent} {es : List OpenEvent}

/-- The statements that apply migrations, with the begin and the commit of each, and the end of the constructor. -/
def cost : List Migration → ℕ
  | [] => 1
  | m :: todo => m.statements.length + 2 + cost todo

variable (fts) in
/-- The steps that a process has left at most. -/
def Phase.left : Phase → ℕ
  | .start => cost (MIGRATIONS fts) + 2
  | .ready => cost (MIGRATIONS fts) + 1
  | .running todo => cost todo
  | .inside _ left _ todo => left.length + 1 + cost todo
  | .opened => 0
  | .failed => 0

theorem cost_sublist {ms ms' : List Migration} (h : ms.Sublist ms') : cost ms ≤ cost ms' := by
  induction h with
  | slnil => exact le_rfl
  | cons m _ ih => exact ih.trans (Nat.le_add_left _ _)
  | cons_cons m _ ih => exact Nat.add_le_add_left ih _

theorem set_procs (file : Sessions.File DbFile) (φ : Phase) :
    (w.set p file φ).procs p = φ ∧ ∀ q, q ≠ p → (w.set p file φ).procs q = w.procs q :=
  ⟨update_self _ _ _, fun _ h => update_of_ne h _ _⟩

/-- Each step brings its process forward, and no other one anywhere. -/
theorem next_left (h : w.next fts p = some w') :
    (w'.procs p).left fts < (w.procs p).left fts ∧ ∀ q, q ≠ p → w'.procs q = w.procs q := by
  have hset {file : Sessions.File DbFile} {φ : Phase} (hlt : φ.left fts < (w.procs p).left fts)
      (heq : some (w.set p file φ) = some w') :
      (w'.procs p).left fts < (w.procs p).left fts ∧ ∀ q, q ≠ p → w'.procs q = w.procs q := by
    obtain rfl := Option.some.inj heq
    exact ⟨(set_procs file φ).1.symm ▸ hlt, (set_procs file φ).2⟩
  cases hφ : w.procs p with
  | start =>
    have hlt : Phase.ready.left fts < (w.procs p).left fts := hφ ▸ Nat.lt_succ_self _
    rw [hφ] at hset hlt
    simp only [World.next, hφ] at h
    split at h
    · exact hset hlt h
    · cases hw : w.file.writer with
      | none =>
        rw [hw] at h
        exact hset hlt h
      | some q =>
        rw [hw] at h
        exact absurd h nofun
  | ready =>
    rw [hφ] at hset
    simp only [World.next, hφ] at h
    have hle : cost (missing fts w.file.content) ≤ cost (MIGRATIONS fts) := cost_sublist filter_sublist
    refine hset ?_ h
    exact Nat.lt_succ_of_le hle
  | running todo =>
    rw [hφ] at hset
    cases todo with
    | nil =>
      simp only [World.next, hφ] at h
      refine hset ?_ h
      split
      · exact Nat.one_pos
      · exact Nat.one_pos
    | cons m todo =>
      simp only [World.next, hφ] at h
      refine hset ?_ h
      simp only [Phase.left, cost]
      omega
  | inside m left conn todo =>
    rw [hφ] at hset
    cases left with
    | nil =>
      simp only [World.next, hφ] at h
      refine hset ?_ h
      simp only [Phase.left, length_nil]
      omega
    | cons st left =>
      simp only [World.next, hφ] at h
      cases hexec : conn.exec schemaStatements p w.file st with
      | blocked =>
        rw [hexec] at h
        exact absurd h nofun
      | failed =>
        rw [hexec] at h
        refine hset ?_ h
        simp only [Phase.left]
        omega
      | done file conn' =>
        rw [hexec] at h
        refine hset ?_ h
        simp only [Phase.left, length_cons]
        omega
  | opened => exact absurd h (by simp [World.next, hφ])
  | failed => exact absurd h (by simp [World.next, hφ])

/-- No process has begun, or the invariant holds. -/
def Underway (fts : FullText) (f₀ : DbFile) (w : World) : Prop := w = World.initial f₀ ∨ ∃ j, Inv fts f₀ w j

/-- The first statement of all creates the table of the applied migrations, if it is not there. -/
theorem next_initial (f₀ : DbFile) (p : ℕ) : ∃ w', (World.initial f₀).next fts p = some w' ∧ Inv fts f₀ w' 0 := by
  have hinv {file : Sessions.File DbFile} (hcontent : file.content = withTable f₀) (hwriter : file.writer = none) :
      Inv fts f₀ ((World.initial f₀).set p file .ready) 0 := by
    have hphase : ∀ q, ((World.initial f₀).set p file .ready).procs q = .start ∨
        ((World.initial f₀).set p file .ready).procs q = .ready := by
      intro q
      by_cases hq : q = p
      · exact .inr (hq ▸ (set_procs file .ready).1)
      · exact .inl ((set_procs file .ready).2 q hq)
    refine ⟨hcontent, fun q => ?_, fun q r hq _ => ?_, fun q hq => absurd (hwriter.symm.trans hq) nofun⟩
    · rcases hphase q with h | h
      · exact h.symm ▸ trivial
      · exact h.symm ▸ trivial
    · rcases hphase q with h | h
      iterate 2
        · exact ((congrArg Phase.Migrating h).mp hq).elim
  by_cases htable : "schema_migrations" ∈ f₀.objects
  · refine ⟨(World.initial f₀).set p ⟨f₀, 0, none⟩ .ready, by simp [World.next, World.initial, htable], hinv ?_ rfl⟩
    exact (effect_of_not_writes (by simpa [SchemaStatement.writes] using htable)).symm
  · refine ⟨(World.initial f₀).set p ⟨withTable f₀, 1, none⟩ .ready, ?_, hinv rfl rfl⟩
    simp [World.next, World.initial, htable, withTable, effect, SchemaStatement.apply]

theorem Underway.next (hv : Versioned fts f₀) (hs : Underway fts f₀ w) (hp : w.procs p ≠ .opened) :
    ∃ w', w.next fts p = some w' ∧ (KeepsApart fts w (.next p) → Underway fts f₀ w') := by
  rcases hs with rfl | ⟨j, hs⟩
  · obtain ⟨w', hnext, hinv⟩ := @next_initial fts f₀ p
    exact ⟨w', hnext, fun _ => .inr ⟨0, hinv⟩⟩
  · obtain ⟨w', hnext, hinv⟩ := next_ok hv hs hp
    exact ⟨w', hnext, fun h => .inr (hinv h)⟩

/-- A step of processes that keep apart; none of them ever waits for the lock until it gives up. -/
theorem Underway.step (hv : Versioned fts f₀) (hs : Underway fts f₀ w)
    (h : Guarded (KeepsApart fts) (openStep fts) w e w') :
    Underway fts f₀ w' ∧ ∃ p, e = .next p ∧ w.next fts p = some w' := by
  obtain ⟨hapart, hstep⟩ := h
  cases e with
  | next p =>
    have hnext : w.next fts p = some w' := hstep
    have hp : w.procs p ≠ .opened := by
      intro hopened
      simp only [World.next, hopened] at hnext
      exact nomatch hnext
    obtain ⟨w'', hnext', hkeep⟩ := hs.next hv hp
    obtain rfl := Option.some.inj (hnext'.symm.trans hnext)
    exact ⟨hkeep hapart, p, rfl, hnext⟩
  | giveUp p =>
    have hgive : w.giveUp fts p = some w' := hstep
    by_cases hp : w.procs p = .opened
    · simp only [World.giveUp, hp] at hgive
      exact nomatch hgive
    · obtain ⟨w'', hnext, -⟩ := hs.next hv hp
      have hnone : w.giveUp fts p = none := by
        rw [World.giveUp, hnext]
        cases w.procs p with
        | start | ready | running todo | inside m left conn todo | opened | failed => rfl
      exact nomatch hnone.symm.trans hgive

/-- A run of processes that keep apart: each process has so many steps fewer left. -/
theorem Underway.run {v : World} (hv : Versioned fts f₀) (hs : Underway fts f₀ v)
    (h : Runs (Guarded (KeepsApart fts) (openStep fts)) v es w) :
    Underway fts f₀ w ∧ ∀ p, es.count (.next p) + (w.procs p).left fts ≤ (v.procs p).left fts := by
  induction h with
  | nil => exact ⟨hs, fun p => by simp⟩
  | cons he _ ih =>
    obtain ⟨hs', p, rfl, hnext⟩ := hs.step hv he
    obtain ⟨hw, hcount⟩ := ih hs'
    refine ⟨hw, fun q => ?_⟩
    obtain ⟨hlt, hne⟩ := next_left hnext
    have hq := hcount q
    by_cases hqp : q = p
    · subst hqp
      rw [count_cons_self]
      omega
    · rw [count_cons_of_ne (fun heq => hqp (OpenEvent.next.inj heq).symm)]
      exact hne q hqp ▸ hq

/-- What holds while processes open a database: no open fails or waits, the missing migrations have been applied once
each and in order, and a process that has opened its store sees the newest schema with the rows of before. -/
structure MigrationLaw (fts : FullText) (f₀ : DbFile) (w : World) : Prop where
  succeeds : ∀ p, w.procs p ≠ .failed ∧ (w.procs p ≠ .opened → ∃ w', w.next fts p = some w')
  inOrder : w.file.content = f₀ ∨ ∃ j, w.file.content = applyAll ((missing fts f₀).take j) (withTable f₀) ∧
    w.file.content.stored.applied = f₀.stored.applied ++ ((missing fts f₀).take j).map Migration.version
  preserved : Preserved f₀.stored w.file.content.stored
  newest : ∀ p, w.procs p = .opened → w.file.content.stored = runMigrations fts f₀.stored ∧
    ∀ m ∈ MIGRATIONS fts, m.version ∈ w.file.content.stored.applied ∧ ∀ st ∈ m.sql, Settled st w.file.content

theorem Underway.law (hv : Versioned fts f₀) (hs : Underway fts f₀ w) : MigrationLaw fts f₀ w := by
  have hprogress (p : ℕ) (hp : w.procs p ≠ .opened) : ∃ w', w.next fts p = some w' := by
    obtain ⟨w', hnext, -⟩ := hs.next hv hp
    exact ⟨w', hnext⟩
  rcases hs with rfl | ⟨j, hs⟩
  · exact ⟨fun p => ⟨nofun, hprogress p⟩, .inl rfl, .refl _, fun p hp => absurd hp nofun⟩
  · obtain ⟨happlied, hpreserved⟩ := @fileAt_applied fts f₀ j
    rw [← hs.content] at happlied hpreserved
    refine ⟨fun p => ⟨fun hfailed => ?_, hprogress p⟩, .inr ⟨j, hs.content, happlied⟩, hpreserved, fun p hp => ?_⟩
    · exact (congrArg (PhaseAt fts f₀ w.file p j) hfailed).mp (hs.phase p)
    · have hall : (missing fts f₀).drop j = [] := (congrArg (PhaseAt fts f₀ w.file p j) hp).mp (hs.phase p)
      refine ⟨hs.content ▸ stored_all hall, fun m hm => ⟨?_, fun st hst => hs.content ▸ settled_all hv hall hm hst⟩⟩
      rw [happlied, take_of_length_le (drop_eq_nil_iff.mp hall), mem_append]
      by_cases hold : m.version ∈ f₀.stored.applied
      · exact .inl hold
      · exact .inr (mem_map_of_mem (mem_filter.mpr ⟨hm, decide_eq_true hold⟩))

/-- **Processes that keep apart all open their stores**, on a file of any version, each after a bounded number of
its statements, with each missing migration applied once. -/
theorem migrations_apart (hv : Versioned fts f₀)
    (h : Runs (Guarded (KeepsApart fts) (openStep fts)) (World.initial f₀) es w) :
    MigrationLaw fts f₀ w ∧ ∀ p, es.count (.next p) + (w.procs p).left fts ≤ cost (MIGRATIONS fts) + 2 := by
  obtain ⟨hs, hcount⟩ := Underway.run hv (.inl rfl) h
  exact ⟨hs.law hv, hcount⟩

/-- A new file. -/
def newFile : DbFile := ⟨[], ⟨.empty, [], none⟩⟩

theorem versioned_newFile (fts : FullText) : Versioned fts newFile := fun _ _ h => absurd h not_mem_nil

/-- A process keeps apart from others that have not begun. -/
theorem alone_apart {v : World} (hstart : ∀ q, q ≠ p → v.procs q = .start) (hes : ∀ e ∈ es, e = .next p)
    (h : Runs (openStep fts) v es w) : Runs (Guarded (KeepsApart fts) (openStep fts)) v es w := by
  induction h with
  | nil => exact .nil _
  | @cons s s' _ e es he _ ih =>
    obtain rfl := hes e mem_cons_self
    have hne := (next_left he).2
    refine .cons ⟨fun _ _ q hq hmig => ?_, he⟩ ?_
    · exact (congrArg Phase.Migrating (hstart q hq)).mp hmig
    · exact ih (fun q hq => (hne q hq).trans (hstart q hq)) fun e he => hes e (mem_cons_of_mem _ he)

/-- The process is in the phase in which it has opened its store, or in that in which the open has failed. -/
def World.ended (w : World) (p : ℕ) : Option Bool :=
  match w.procs p with
  | .opened => some true
  | .failed => some false
  | _ => none

theorem World.ended_eq {r : Bool} (h : w.ended p = some r) : w.procs p = if r then .opened else .failed := by
  rw [World.ended] at h
  split at h
  iterate 2
    · obtain rfl := Option.some.inj h
      assumption
  · exact nomatch h

theorem exists_run {r : Bool}
    (h : ((es.foldlM (World.after fts) (World.initial f₀)).bind fun w => w.ended p) = some r) :
    ∃ w, Runs (openStep fts) (World.initial f₀) es w ∧ w.procs p = if r then .opened else .failed := by
  obtain ⟨w, hrun, hended⟩ := Option.bind_eq_some_iff.mp h
  exact ⟨w, .of_foldlM hrun, World.ended_eq hended⟩

/-- A process that creates a database alone. -/
theorem migrations_apart_new : ∃ w, w.procs 0 = .opened ∧ MigrationLaw asciiFts newFile w := by
  obtain ⟨w, hrun, hopened⟩ :=
    @exists_run asciiFts newFile 0 (List.replicate 46 (.next 0)) true (by decide +kernel)
  have hapart := alone_apart (p := 0) (fun _ _ => rfl) (fun e he => eq_of_mem_replicate he) hrun
  exact ⟨w, hopened, (migrations_apart (versioned_newFile _) hapart).1⟩

/-- Two processes on a new file: both create the table and read that nothing was applied, the first one opens its
store, and the other one applies the migrations again. -/
def togetherRun : List OpenEvent :=
  [.next 0, .next 1, .next 0, .next 1] ++ List.replicate 44 (.next 0) ++ List.replicate 19 (.next 1)

/-- The second process fails when it records the first version. -/
theorem migrations_together : ¬∀ f₀ es w, Versioned asciiFts f₀ → Runs (openStep asciiFts) (World.initial f₀) es w →
    MigrationLaw asciiFts f₀ w := by
  intro hall
  have heval : ((togetherRun.foldlM (World.after asciiFts) (World.initial newFile)).bind fun w => w.ended 1) =
      some false := by
    decide +kernel
  obtain ⟨w, hrun, hfailed⟩ := exists_run heval
  exact ((hall newFile togetherRun w (versioned_newFile _) hrun).succeeds 1).1 hfailed

end

end Ariad.Human
