import Mathlib.Algebra.Order.Ring.Nat
import Ariad.Concurrency.RelyGuarantee
import Ariad.Human.StoreLaws

/-!
# Several processes create edges

`createEdge` as the statements it makes: it reads the ends of the edge, **searches** for an identical
edge, and then **inserts** in a transaction of its own. Any number of calls run against one database,
their statements in any order; a transaction is one statement here, since it has the write lock from
its first write on.

* `createEdgeStatements_alone` — one call alone does what `createEdge` does.
* `Undisturbed` — no insert comes after another call's insert of the same edge that its own search was
  too early to see. In a run like that no edge is there twice.
-/

namespace Ariad.Human

open List Discipline

/-- The statements of `createEdge`. -/
inductive EdgeOp where
  | getNode (id : ℕ)
  | findEdge (k : EdgeKey)
  /-- The transaction. -/
  | insertEdge (input : CreateHumanEdgeInput) (target : EdgeTarget)
  | getEdge (id : ℕ)

/-- What a statement returns; the transaction, the id of the new row. -/
abbrev EdgeOp.Val : EdgeOp → Type
  | .getNode _ => Option HumanNode
  | .findEdge _ => Option HumanEdge
  | .insertEdge _ _ => ℕ
  | .getEdge _ => Option HumanEdge

/-- What a process does not control: whether a statement fails, and the time. -/
structure EdgeChoice where
  fault : Option StoreError := none
  now : ℕ := 0

def Db.getEdgeById (id : ℕ) (db : Db) : Option HumanEdge := Rows.get HumanEdge.id id db.edges

/-- The foreign keys of an edge. -/
def Db.hasEnds (source : ℕ) (target : EdgeTarget) (db : Db) : Bool :=
  (db.getNodeById source).isSome &&
    match target with
    | .code _ => true
    | .human id => (db.getNodeById id).isSome

/-- The statement on the database. -/
def EdgeOp.run (now : ℕ) : (o : EdgeOp) → Db → Except StoreError o.Val × Db
  | .getNode id, db => (.ok (db.getNodeById id), db)
  | .findEdge k, db => (.ok (db.findEdge k), db)
  | .insertEdge input target, db =>
    if !db.hasEnds input.source target then (.error .constraint, db)
    else match db.insertEdge input target now with
      | .ok (row, db') => (.ok row.id, db')
      | .error e => (.error e, db)
  | .getEdge id, db => (.ok (db.getEdgeById id), db)

/-- Statements on the database; a process that dies leaves nothing behind. -/
def edgeMachine : Machine EdgeOp EdgeOp.Val StoreError Db EdgeChoice where
  exec _ o ch db :=
    match ch.fault with
    | some e => (.error e, db)
    | none => o.run ch.now db
  kill _ db := db

abbrev EdgeM := Proc EdgeOp EdgeOp.Val StoreError StoreError Unit

/-- Perform one statement; its error is thrown. -/
def statement (o : EdgeOp) : EdgeM o.Val := Proc.perform (fun e => e) o

def checkNodeStatement (missing : ℕ → StoreError) (project : Text) (id : ℕ) : EdgeM Unit := do
  let found : Option HumanNode ← statement (.getNode id)
  match found with
  | none => throw (missing id)
  | some n => if n.project = project then pure () else throw (.crossProject n.project project)

def checkTargetStatement (project : Text) : EdgeTarget → EdgeM Unit
  | .human id => checkNodeStatement .targetNotFound project id
  | .code _ => pure ()

/-- `createEdge` of a process. -/
def createEdgeStatements (input : CreateHumanEdgeInput) : EdgeM (Option HumanEdge) :=
  match input.target with
  | .error e => throw e
  | .ok target => do
    checkNodeStatement .sourceNotFound input.project input.source
    checkTargetStatement input.project target
    let existing : Option HumanEdge ← statement (.findEdge (input.key target))
    match existing with
    | some e => pure (some e)
    | none => do
      let id : ℕ ← statement (.insertEdge input target)
      statement (.getEdge id)

/-- The program of a call. -/
def edgeBody (input : CreateHumanEdgeInput) :
    Prog EdgeOp EdgeOp.Val StoreError (Except StoreError (Option HumanEdge) × Unit) :=
  createEdgeStatements input ()

abbrev EdgePool :=
  Pool EdgeOp EdgeOp.Val StoreError Db CreateHumanEdgeInput
    (Except StoreError (Option HumanEdge) × Unit)

abbrev EdgeState := State EdgeOp EdgeOp.Val StoreError Db

abbrev EdgeEvent := Event EdgeOp EdgeOp.Val StoreError Db

/-! ## Searches and inserts -/

/-- The key of the edge that the event inserted. -/
def Inserted : EdgeEvent → Option EdgeKey
  | ⟨_, .op (.insertEdge input target) (.ok _), _, _⟩ => some (input.key target)
  | _ => none

def IsSearch : EdgeEvent → Bool
  | ⟨_, .op (.findEdge _) _, _, _⟩ => true
  | _ => false

/-- The events since the party's last search. -/
def sinceSearch (t : Tid) (trace : List EdgeEvent) : List EdgeEvent :=
  trace.takeWhile fun e => !(e.tid == t && IsSearch e)

/-- **No insert is made behind the back of another**: since the search of the party that inserts an
edge, nobody has inserted the same edge. -/
def Undisturbed : List EdgeEvent → Prop
  | [] => True
  | e :: past =>
    (∀ k, Inserted e = some k → ∀ f ∈ sinceSearch e.tid past, Inserted f ≠ some k) ∧ Undisturbed past

instance decidableUndisturbed : (trace : List EdgeEvent) → Decidable (Undisturbed trace)
  | [] => isTrue trivial
  | e :: past =>
    match h : Inserted e with
    | none =>
      @decidable_of_iff _ (Undisturbed past) (by simp [Undisturbed, h]) (decidableUndisturbed past)
    | some k =>
      @decidable_of_iff _ ((∀ f ∈ sinceSearch e.tid past, Inserted f ≠ some k) ∧ Undisturbed past)
        (by simp [Undisturbed, h])
        (@instDecidableAnd _ _ _ (decidableUndisturbed past))

/-- **No edge is there twice.** -/
def Db.EdgesUnique (db : Db) : Prop := (db.edges.map HumanEdge.key).Nodup

instance (db : Db) : Decidable db.EdgesUnique :=
  inferInstanceAs (Decidable (db.edges.map HumanEdge.key).Nodup)

/-- Edge ids are given out once. -/
structure Db.EdgeIds (db : Db) : Prop where
  nodup : (db.edges.map HumanEdge.id).Nodup
  fresh : ∀ e ∈ db.edges, e.id < db.nextEdge

variable {input : CreateHumanEdgeInput} {target : EdgeTarget}

/-- The transaction adds its row to the edges, or fails and changes nothing. -/
theorem insertEdge_run {now : ℕ} {db db' : Db}
    {r : Except StoreError ℕ} (h : (EdgeOp.insertEdge input target).run now db = (r, db')) :
    ((∃ e, r = .error e) ∧ db' = db) ∨
      (r = .ok db.nextEdge ∧ target ≠ .code .nan ∧
        db'.edges = db.edges ++ [input.row target db.nextEdge now] ∧
        db'.nextEdge = db.nextEdge + 1) := by
  rw [EdgeOp.run] at h
  split at h
  · cases h
    exact .inl ⟨⟨_, rfl⟩, rfl⟩
  · split at h
    · rename_i row db'' hi
      cases h
      rw [Db.insertEdge] at hi
      split at hi
      · cases hi
      · rename_i hnan
        simp only [Except.ok.injEq, Prod.mk.injEq] at hi
        obtain ⟨rfl, rfl⟩ := hi
        refine .inr ⟨rfl, fun h => hnan (.inl h), ?_⟩
        cases target <;> simp
    · cases h
      exact .inl ⟨⟨_, rfl⟩, rfl⟩

/-! ## The contract between the processes -/

/-- What holds between any two statements. -/
structure EdgeInv (s : EdgeState) : Prop where
  ids : s.world.EdgeIds
  grown : ∀ e ∈ s.trace, e.before.edges ⊆ s.world.edges
  unique : Undisturbed s.trace → s.world.EdgesUnique

/-- What the others do: they add edges, each of them by an insert. -/
def EdgeRely (t : Tid) (s s' : EdgeState) : Prop :=
  ∃ ext, s'.trace = ext ++ s.trace ∧ (∀ e ∈ ext, e.tid ≠ t) ∧ s.world.edges ⊆ s'.world.edges ∧
    ∀ e ∈ s'.world.edges, e ∈ s.world.edges ∨ ∃ f ∈ ext, Inserted f = some e.key

def edgeDiscipline : Discipline EdgeOp EdgeOp.Val StoreError Db CreateHumanEdgeInput where
  Inv := EdgeInv
  Rely := EdgeRely
  Guar _ _ _ _ _ _ := True
  rely_refl _ _ := ⟨[], rfl, by simp, fun _ h => h, fun _ h => .inl h⟩
  rely_trans := by
    rintro t s₁ s₂ s₃ ⟨x, hx, hxt, hxs, hxn⟩ ⟨y, hy, hyt, hys, hyn⟩
    refine ⟨y ++ x, by rw [hy, hx, List.append_assoc], fun e he => ?_, List.Subset.trans hxs hys, fun e he => ?_⟩
    · exact (List.mem_append.mp he).elim (hyt e) (hxt e)
    · rcases hyn e he with he | ⟨f, hf, hk⟩
      · rcases hxn e he with he | ⟨f, hf, hk⟩
        · exact .inl he
        · exact .inr ⟨f, by simp [hf], hk⟩
      · exact .inr ⟨f, by simp [hf], hk⟩

/-- The party has searched for the edge: one that is there now was inserted since. -/
def Searched (t : Tid) (k : EdgeKey) (s : EdgeState) : Prop :=
  ∀ e ∈ s.world.edges, e.key = k → ∃ f ∈ sinceSearch t s.trace, Inserted f = some k

/-- An edge with the key is there. -/
def HasEdge (row : HumanEdge) (k : EdgeKey) (s : EdgeState) : Prop := row ∈ s.world.edges ∧ row.key = k

section

variable {t : Tid} {call : CreateHumanEdgeInput} {s s' : EdgeState} {k : EdgeKey} {row : HumanEdge}

theorem sinceSearch_append {ext trace : List EdgeEvent} (h : ∀ e ∈ ext, e.tid ≠ t) :
    sinceSearch t (ext ++ trace) = ext ++ sinceSearch t trace := by
  rw [sinceSearch, takeWhile_append_of_pos]
  · rfl
  · intro e he
    simp [h e he]

theorem searched_stable : edgeDiscipline.Stable t (Searched t k) := by
  rintro s s' hs ⟨ext, hext, htid, -, hnew⟩ - e he hk
  rw [hext, sinceSearch_append htid]
  rcases hnew e he with he | ⟨f, hf, hfk⟩
  · obtain ⟨f, hf, hfk⟩ := hs e he hk
    exact ⟨f, by simp [hf], hfk⟩
  · exact ⟨f, by simp [hf], hfk.trans (by rw [hk])⟩

theorem hasEdge_stable : edgeDiscipline.Stable t (HasEdge row k) := by
  rintro s s' ⟨hmem, hk⟩ ⟨ext, -, -, hsub, -⟩ -
  exact ⟨hsub hmem, hk⟩

/-- **A statement that writes nothing** is safe. -/
theorem safe_of_same {o : EdgeOp} {r : Except StoreError o.Val} (hinv : EdgeInv s) :
    edgeDiscipline.Safe t call o r s (s.push t (.op o r) s.world) where
  inv :=
    { ids := hinv.ids
      grown := by
        intro e he
        rcases mem_cons.mp he with rfl | he
        · exact fun _ h => h
        · exact hinv.grown e he
      unique := fun hu => hinv.unique hu.2 }
  guar := trivial
  rely := fun t' ht' => ⟨[⟨t, .op o r, s.world, s.world⟩], rfl, by simpa using ht'.symm,
    fun _ h => h, fun _ h => .inl h⟩

/-- **The insert** is safe after a search: where it is not disturbed, the edge was not there. -/
theorem safe_of_insert {now : ℕ} {db' : Db}
    (hinv : EdgeInv s) (hs : Searched t (input.key target) s)
    (hedges : db'.edges = s.world.edges ++ [input.row target s.world.nextEdge now])
    (hnext : db'.nextEdge = s.world.nextEdge + 1) :
    edgeDiscipline.Safe t call (.insertEdge input target) (.ok s.world.nextEdge) s
      (s.push t (.op (.insertEdge input target) (.ok s.world.nextEdge)) db') where
  inv :=
    { ids := by
        refine ⟨?_, fun e he => ?_⟩
        · simp only [State.push_world, hedges, map_append, map_singleton]
          rw [List.nodup_append]
          refine ⟨hinv.ids.nodup, by simp, fun i hi j hj => ?_⟩
          obtain ⟨e, he, rfl⟩ := mem_map.mp hi
          rw [mem_singleton.mp hj]
          exact Nat.ne_of_lt (hinv.ids.fresh e he)
        · simp only [State.push_world, hedges, hnext] at he ⊢
          rcases mem_append.mp he with he | he
          · exact Nat.lt_succ_of_lt (hinv.ids.fresh e he)
          · rw [mem_singleton.mp he]
            exact Nat.lt_succ_self _
      grown := by
        have hsub : s.world.edges ⊆ db'.edges := by
          rw [hedges]
          exact subset_append_left _ _
        intro e he
        rcases mem_cons.mp he with rfl | he
        · exact hsub
        · exact List.Subset.trans (hinv.grown e he) hsub
      unique := by
        rintro ⟨hnow, hpast⟩
        simp only [State.push_world, Db.EdgesUnique, hedges, map_append, map_singleton]
        rw [List.nodup_append]
        refine ⟨hinv.unique hpast, by simp, fun i hi j hj => ?_⟩
        obtain ⟨e, he, rfl⟩ := mem_map.mp hi
        rw [mem_singleton.mp hj]
        -- an equal edge would have been inserted since the search
        intro heq
        obtain ⟨f, hf, hfk⟩ := hs e he heq
        exact hnow _ rfl f hf hfk }
  guar := trivial
  rely := by
    intro t' ht'
    refine ⟨[⟨t, .op (.insertEdge input target) (.ok s.world.nextEdge), s.world, db'⟩], rfl,
      by simpa using ht'.symm, ?_, fun e he => ?_⟩
    · simp only [State.push_world, hedges]
      exact subset_append_left _ _
    · simp only [State.push_world, hedges] at he
      rcases mem_append.mp he with he | he
      · exact .inl he
      · refine .inr ⟨_, mem_singleton.mpr rfl, ?_⟩
        rw [mem_singleton.mp he]
        rfl

/-- A call that returned has an edge of its key. -/
def Created (input : CreateHumanEdgeInput) (s : EdgeState) (r : Option HumanEdge) : Prop :=
  ∃ row target, r = some row ∧ input.target = .ok target ∧ HasEdge row (input.key target).sought s

/-- What a statement does that only reads. -/
theorem exec_read {o : EdgeOp} {ch : EdgeChoice} {db db' : Db} {r : Except StoreError o.Val}
    (hread : ∀ now db, (o.run now db).2 = db) (h : edgeMachine.exec t o ch db = (r, db')) :
    db' = db ∧ ((∃ e, r = .error e) ∨ r = (o.run ch.now db).1) := by
  simp only [edgeMachine] at h
  split at h
  · cases h
    exact ⟨rfl, .inl ⟨_, rfl⟩⟩
  · obtain ⟨rfl, rfl⟩ := Prod.mk.inj h
    exact ⟨hread _ _, .inr rfl⟩

theorem checkNodeStatement_triple {missing : ℕ → StoreError} {project : Text} {id : ℕ} :
    edgeDiscipline.Triple edgeMachine t call (fun _ _ => True)
      (checkNodeStatement missing project id) (fun _ _ _ => True) (fun _ _ _ => True) := by
  refine Triple.bind (Q := fun _ _ _ => True) ?_ ?_
  · refine Triple.perform (fun _ => Stable.const _) fun l s hinv _ ch r w' he => ?_
    obtain ⟨rfl, -⟩ := exec_read (fun _ _ => rfl) he
    exact ⟨safe_of_same hinv, by cases r <;> trivial⟩
  · rintro (_ | n)
    · exact Triple.throw fun _ _ _ _ => trivial
    · intro l s hinv hp
      by_cases hproj : n.project = project
      · simp only [hproj, if_true]
        exact trivial
      · simp only [hproj, if_false]
        exact trivial

/-- The search: an edge of the key, or none since the search. -/
theorem findEdge_triple {k : EdgeKey} :
    edgeDiscipline.Triple edgeMachine t call (fun _ _ => True) (statement (.findEdge k))
      (fun (found : Option HumanEdge) _ s => match found with
        | some e => HasEdge e k.sought s
        | none => Searched t k.sought s)
      (fun _ _ _ => True) := by
  refine Triple.perform (fun _ => Stable.const _) fun l s hinv _ ch r w' he => ?_
  obtain ⟨rfl, ⟨e, rfl⟩ | rfl⟩ := exec_read (fun _ _ => rfl) he
  · exact ⟨safe_of_same hinv, trivial⟩
  · refine ⟨safe_of_same hinv, ?_⟩
    simp only [EdgeOp.run]
    split
    · rename_i e hf
      exact ⟨Rows.mem_of_get hf, Rows.key_of_get hf⟩
    · rename_i hf
      intro e he hk
      exact absurd hk (Rows.get_eq_none_iff.mp hf e he)

/-- The transaction, after a search that found nothing. -/
theorem insertEdge_triple :
    edgeDiscipline.Triple edgeMachine t call
      (fun _ s => Searched t (input.key target).sought s) (statement (.insertEdge input target))
      (fun (id : ℕ) _ s => ∃ row, row.id = id ∧ HasEdge row (input.key target).sought s)
      (fun _ _ _ => True) := by
  refine Triple.perform (fun _ => searched_stable) fun l s hinv hs ch r w' he => ?_
  simp only [edgeMachine] at he
  split at he
  · cases he
    exact ⟨safe_of_same hinv, trivial⟩
  · rcases insertEdge_run he with ⟨⟨e, rfl⟩, rfl⟩ | ⟨rfl, hnan, hedges, hnext⟩
    · exact ⟨safe_of_same hinv, trivial⟩
    · have hkey : (input.key target).sought = input.key target := by
        exact if_neg hnan
      rw [hkey] at hs ⊢
      refine ⟨safe_of_insert hinv hs hedges hnext, ?_⟩
      refine ⟨input.row target s.world.nextEdge ch.now, rfl, ?_, rfl⟩
      simp [hedges]

/-- The row that was inserted is read back. -/
theorem getEdge_triple {k : EdgeKey} {id : ℕ} :
    edgeDiscipline.Triple edgeMachine t call (fun _ s => ∃ row, row.id = id ∧ HasEdge row k s)
      (statement (.getEdge id))
      (fun (found : Option HumanEdge) _ s => ∃ row, found = some row ∧ HasEdge row k s)
      (fun _ _ _ => True) := by
  refine Triple.exists fun row => Triple.assume fun hid => ?_
  refine Triple.perform (fun _ => hasEdge_stable) fun l s hinv hs ch r w' he => ?_
  obtain ⟨rfl, ⟨e, rfl⟩ | rfl⟩ := exec_read (fun _ _ => rfl) he
  · exact ⟨safe_of_same hinv, trivial⟩
  · refine ⟨safe_of_same hinv, row, ?_, hs⟩
    exact (Rows.get_eq_some_iff hinv.ids.nodup).mpr ⟨hs.1, hid⟩

/-- **What a call does in company**: it adds no edge behind the back of another that was undisturbed,
and the edge that it returns has its key. -/
theorem createEdgeStatements_triple (t : Tid) (call input : CreateHumanEdgeInput) :
    edgeDiscipline.Triple edgeMachine t call (fun _ _ => True) (createEdgeStatements input)
      (fun r _ s => Created input s r) (fun _ _ _ => True) := by
  unfold createEdgeStatements
  split
  · exact Triple.throw fun _ _ _ _ => trivial
  · rename_i target htarget
    refine Triple.bind checkNodeStatement_triple fun _ => ?_
    refine Triple.bind (Q := fun _ _ _ => True) ?_ fun _ => ?_
    · cases target with
      | code x => exact Triple.pure fun _ _ _ _ => trivial
      | human id => exact checkNodeStatement_triple
    refine Triple.bind findEdge_triple ?_
    rintro (_ | e)
    · refine Triple.bind insertEdge_triple fun id => ?_
      refine getEdge_triple.post fun found l s _ h => ?_
      obtain ⟨row, rfl, hrow⟩ := h
      exact ⟨row, target, rfl, htarget, hrow⟩
    · exact Triple.pure fun l s _ h => ⟨e, target, rfl, htarget, h⟩

end

/-! ## Runs -/

/-- What a call that has returned can rely on. -/
def EdgePost (_ : Tid) (input : CreateHumanEdgeInput)
    (r : Except StoreError (Option HumanEdge) × Unit) (s : EdgeState) : Prop :=
  match r.1 with
  | .ok found => Created input s found
  | .error _ => True

theorem edge_sound {db : Db} (hids : db.EdgeIds) (hu : db.EdgesUnique) :
    edgeDiscipline.Sound edgeMachine edgeBody db EdgePost where
  start := ⟨hids, by simp, fun _ => hu⟩
  body t call s hinv _ := by
    refine (createEdgeStatements_triple t call call () s hinv trivial).mono hinv ?_
    rintro ⟨e | a, l⟩ s' - h
    · exact trivial
    · exact h
  post_stable := by
    rintro t call ⟨e | found, l⟩
    · exact Stable.const _
    · rintro s s' ⟨row, target, rfl, htarget, h⟩ hrely hinv
      exact ⟨row, target, rfl, htarget, hasEdge_stable h hrely hinv⟩
  kill t s hinv := by
    refine ⟨⟨hinv.ids, fun e he => ?_, fun h => hinv.unique h.2⟩, fun t' ht' => ?_⟩
    · rcases mem_cons.mp he with rfl | he
      · exact fun _ h => h
      · exact hinv.grown e he
    · exact ⟨[⟨t, .killed, s.world, s.world⟩], rfl, by simpa using ht'.symm, fun _ h => h,
        fun _ h => .inl h⟩

/-- **No duplicate edges where no insert is disturbed**: no edge is there twice, and a call that
returned has the one edge of its key, the same that was there at any earlier time. -/
theorem createEdge_no_duplicate (db : Db) (hids : db.EdgeIds) (hu : db.EdgesUnique) (c : EdgePool)
    (hc : Reachable edgeMachine edgeBody db c) (hund : Undisturbed c.state.trace) :
    c.state.world.EdgesUnique ∧
      ∀ t input found, c.Returned t input (.ok found, ()) →
        ∃ row target, found = some row ∧ input.target = .ok target ∧ row ∈ c.state.world.edges ∧
          row.key = (input.key target).sought ∧
          ∀ e ∈ c.state.trace, ∀ old ∈ e.before.edges, old.key = row.key → row = old := by
  have hok := Discipline.reachable_ok (edge_sound hids hu) hc
  have hunique : c.state.world.EdgesUnique := hok.inv.unique hund
  refine ⟨hunique, fun t input found hret => ?_⟩
  obtain ⟨row, target, rfl, htarget, hmem, hkey⟩ :=
    Discipline.returned_post (edge_sound hids hu) hc hret
  refine ⟨row, target, rfl, htarget, hmem, hkey, fun e he old hold heq => ?_⟩
  exact inj_on_of_nodup_map hunique hmem (hok.inv.grown e he hold) heq.symm

/-! ## One call alone -/

/-- The outcome of a call that was alone. -/
def SameOutcome (out : Except StoreError (HumanEdge × Db)) (db : Db)
    (r : Except StoreError (Option HumanEdge) × Unit) (db' : Db) : Prop :=
  match out with
  | .ok (row, after) => r.1 = .ok (some row) ∧ db' = after
  | .error e => r.1 = .error e ∧ db' = db

section

variable {t : Tid} {now : ℕ} {db : Db} {α : Type}
  {Q : Except StoreError α × Unit → Db → Prop}

theorem exec_alone (o : EdgeOp) : edgeMachine.exec t o ⟨none, now⟩ db = o.run now db := rfl

/-- The check of a node, alone, is `checkNode`. -/
theorem checkNodeStatement_alone {missing : ℕ → StoreError} {project : Text} {id : ℕ}
    {f : EdgeM α} (herror : ∀ e, db.checkNode missing project id = .error e → Q (.error e, ()) db)
    (hok : db.checkNode missing project id = .ok () →
      (f ()).Alone edgeMachine (· = ⟨none, now⟩) t Q db) :
    ((checkNodeStatement missing project id >>= fun _ => f) ()).Alone edgeMachine
      (· = ⟨none, now⟩) t Q db := by
  rintro _ rfl
  rw [exec_alone, EdgeOp.run]
  rw [Db.checkNode] at herror hok
  cases hn : db.getNodeById id with
  | none =>
    rw [hn] at herror
    exact herror _ rfl
  | some n =>
    rw [hn] at herror hok
    by_cases hp : n.project = project
    · simp only [Prog.bind_pure, hp, if_true] at hok ⊢
      exact hok trivial
    · simp only [Prog.bind_pure, hp, if_false] at herror ⊢
      exact herror _ rfl

/-- The search, the transaction and the last read, alone. -/
theorem insertStatements_alone (input : CreateHumanEdgeInput) (target : EdgeTarget)
    (hids : db.EdgeIds) (hends : db.hasEnds input.source target) :
    ((do
      let existing : Option HumanEdge ← statement (.findEdge (input.key target))
      match existing with
      | some e => pure (some e)
      | none => do
        let id : ℕ ← statement (.insertEdge input target)
        statement (.getEdge id) : EdgeM (Option HumanEdge)) ()).Alone edgeMachine (· = ⟨none, now⟩) t
      (SameOutcome
        (match db.findEdge (input.key target) with
          | some e => .ok (e, db)
          | none => db.insertEdge input target now) db) db := by
  rintro _ rfl
  rw [exec_alone, EdgeOp.run]
  cases hf : db.findEdge (input.key target) with
  | some e => exact ⟨rfl, rfl⟩
  | none =>
    rintro _ rfl
    rw [exec_alone, EdgeOp.run, if_neg (by simp [hends])]
    cases hi : db.insertEdge input target now with
    | error e => exact ⟨rfl, rfl⟩
    | ok out =>
      obtain ⟨row, db'⟩ := out
      rintro _ rfl
      refine ⟨?_, rfl⟩
      -- the new row has the one id that no other row has
      rw [Db.insertEdge] at hi
      split at hi
      · cases hi
      · simp only [Except.ok.injEq, Prod.mk.injEq] at hi
        obtain ⟨rfl, rfl⟩ := hi
        have hnone : Rows.get HumanEdge.id db.nextEdge db.edges = none :=
          Rows.get_eq_none_iff.mpr fun e he => Nat.ne_of_lt (hids.fresh e he)
        have hget : Rows.get HumanEdge.id db.nextEdge
            (db.edges ++ [input.row target db.nextEdge now]) =
              some (input.row target db.nextEdge now) := by
          rw [Rows.get_append_of_none hnone]
          simp [Rows.get, CreateHumanEdgeInput.row]
        show Except.ok (Db.getEdgeById _ _) = _
        cases target <;> simpa [Db.getEdgeById, CreateHumanEdgeInput.row] using hget

end

/-- **One call alone** does what `createEdge` does. -/
theorem createEdgeStatements_alone (t : Tid) (input : CreateHumanEdgeInput) (now : ℕ) (db : Db)
    (hids : db.EdgeIds) :
    (edgeBody input).Alone edgeMachine (· = ⟨none, now⟩) t
      (SameOutcome (createEdge input now db) db) db := by
  unfold edgeBody createEdgeStatements createEdge
  cases ht : input.target with
  | error e => exact ⟨rfl, rfl⟩
  | ok target =>
    simp only [bind, Except.bind]
    refine checkNodeStatement_alone (fun e he => ?_) fun hs => ?_
    · simp only [he]
      exact ⟨rfl, rfl⟩
    obtain ⟨n, hn, -⟩ := checkNode_ok hs
    simp only [hs]
    cases target with
    | code x => exact insertStatements_alone input _ hids (by simp [Db.hasEnds, hn])
    | human id =>
      refine checkNodeStatement_alone (fun e he => ?_) fun hid => ?_
      · simp only [he]
        exact ⟨rfl, rfl⟩
      obtain ⟨m, hm, -⟩ := checkNode_ok hid
      simp only [hid]
      exact insertStatements_alone input _ hids (by simp [Db.hasEnds, hn, hm])

/-! ## Two calls at once -/

/-- A database with one note. -/
def oneNote : Db :=
  { Db.empty with
    nodes := [CreateHumanNodeInput.row { project := "p".toList, label := .ADR, title := "A".toList } 1
      "a".toList "ADR/a.md".toList 0]
    nextNode := 2 }

/-- The note touches the code node 42. -/
def touches : CreateHumanEdgeInput where
  project := "p".toList
  source := 1
  targetKind := .code
  targetCbmNodeId := some (.finite 42)
  type := .TOUCHES

/-- The call, alone. -/
theorem touches_alone : (edgeBody touches).Alone edgeMachine (· = ⟨none, 0⟩) 0
    (SameOutcome (createEdge touches 0 oneNote) oneNote) oneNote :=
  createEdgeStatements_alone 0 touches 0 oneNote ⟨by decide, by decide⟩

/-- One call after the other, or both searches before both inserts. -/
def twoCalls (interleaved : Bool) : List (Sched CreateHumanEdgeInput EdgeChoice) :=
  let step (t : Tid) := Sched.op t ⟨none, 0⟩
  [.spawn 0 touches, .spawn 1 touches] ++
    if interleaved then [step 0, step 0, step 1, step 1, step 0, step 1]
    else [step 0, step 0, step 0, step 0, step 1, step 1]

/-- The pool after the two calls. -/
def afterTwoCalls (interleaved : Bool) : EdgePool :=
  (Pool.start oneNote).run edgeMachine edgeBody (twoCalls interleaved)

/-- Both calls searched before either inserted: the edge is there twice. -/
theorem createEdge_duplicates :
    oneNote.EdgesUnique ∧ ∃ c : EdgePool, Reachable edgeMachine edgeBody oneNote c ∧
      ¬c.state.world.EdgesUnique :=
  ⟨by decide, afterTwoCalls true, Pool.run_steps edgeMachine edgeBody _ _, by decide⟩

/-- One call after the other makes one edge. -/
theorem createEdge_no_duplicate_in_turn :
    (afterTwoCalls false).state.world.EdgesUnique ∧
      (afterTwoCalls false).state.world.edges.length = 1 :=
  ⟨(createEdge_no_duplicate oneNote ⟨by decide, by decide⟩ (by decide) (afterTwoCalls false)
      (Pool.run_steps edgeMachine edgeBody _ _) (by decide)).1, by decide⟩

end Ariad.Human
