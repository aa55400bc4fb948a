import Ariad.Bridge.DirectCallers

/-!
# When the callers are complete

The targets are filtered by `isTestSourcePath` and the call sites by the patterns of the statement, and the callers are
shown in the file of their node.

* `callersOf_perm` — the callers are the owners and files of the rows, each with the number of its rows.
* `Accountable` — nothing is left out: the condition for an answer that says it is complete.
* `JudgedAlike` — both filters take the same call sites, and these are in the files of their owners.
* `listDirectCallers_complete_iff` — a complete answer is right if and only if the call sites are judged alike and no
  name of a caller is inherited by every object.
-/

namespace Ariad.Bridge

open Keyset PlainObject List OrderedMap Rows

variable {db : CallerDb} {project symbol : Text}

/-! ## Owners -/

/-- The owner of a call site, and its file. -/
def siteKey (r : CallSiteRow) : Text × Text :=
  (callerOwnerQualifiedName r.sourceQn, normalizePathForSearch r.filePath)

/-- The first node with a qualified name. -/
def ownerNode (db : CallerDb) (project owner : Text) : Option CodeNode :=
  (orderBy CodeNode.id ((db.graph.projectNodes project).filter fun n => n.qualifiedName = owner)).head?

def callerName (db : CallerDb) (project owner : Text) : Text :=
  ((ownerNode db project owner).map CodeNode.name).getD ((splitColons owner).getLastD owner)

/-- The file in which a caller is shown. -/
def shownPath (db : CallerDb) (project : Text) (key : Text × Text) : Text :=
  normalizePathForSearch (((ownerNode db project key.1).map CodeNode.filePath).getD key.2)

variable {k : Text × Text}

theorem get_foldl_unset (ns : List CodeNode) (m : OrderedMap Text CodeNode) (owner : Text) :
    (ns.foldl (fun m n => if m.has n.qualifiedName then m else m.set n.qualifiedName n) m).get owner =
      (m.get owner).or (ns.find? fun n => n.qualifiedName = owner) := by
  induction ns generalizing m with
  | nil => simp
  | cons n ns ih =>
    rw [foldl_cons, ih]
    split
    · rename_i hhas
      obtain ⟨v, hv⟩ := has_iff.mp hhas
      by_cases hn : n.qualifiedName = owner
      · rw [← hn, hv, Option.some_or, Option.some_or]
      · rw [find?_cons_of_neg (by simpa using hn)]
    · rename_i hhas
      rw [Bool.not_eq_true, has_eq_false_iff] at hhas
      by_cases hn : n.qualifiedName = owner
      · rw [find?_cons_of_pos (by simpa using hn), ← hn, hhas, get_set_self]
        rfl
      · rw [find?_cons_of_neg (by simpa using hn), OrderedMap.get_set_of_ne (Ne.symm hn)]

theorem get_ownerNodes {names : List Text} {owner : Text} (h : owner ∈ names) :
    (ownerNodes db project names).get owner = ownerNode db project owner := by
  have hids := db.graph.nodup_projectNodes project
  have hsub : (((db.graph.projectNodes project).filter fun n => n.qualifiedName ∈ names).map CodeNode.id).Nodup :=
    hids.sublist (filter_sublist.map _)
  rw [ownerNodes, get_foldl_unset, get_empty, Option.none_or, ← head?_filter, ← orderBy_filter hsub,
    filter_filter, ownerNode]
  congr 2
  refine filter_congr fun n _ => ?_
  by_cases hn : n.qualifiedName = owner
  · simp [hn, h]
  · simp [hn]

/-- The nearest named owner: only callbacks without a name stand after it. -/
def NearestOwner (qualifiedName owner : Text) : Prop :=
  ∃ named callbacks, splitColons qualifiedName = named ++ callbacks ∧ (∀ part ∈ callbacks, isAnonymous part = true) ∧
    (named.length = 1 ∨ ∃ last ∈ named.getLast?, isAnonymous last = false) ∧ owner = "::".toList.intercalate named

theorem splitColons_ne_nil (t : Text) : splitColons t ≠ [] := by
  fun_cases splitColons t <;> simp_all

theorem popAnonymous_append {callbacks named : List Text} (hall : ∀ part ∈ callbacks, isAnonymous part = true)
    (hnamed : named.length = 1 ∨ ∃ last ∈ named.head?, isAnonymous last = false) :
    popAnonymous (callbacks ++ named) = named := by
  induction callbacks with
  | nil =>
    rcases named with _ | ⟨last, _ | ⟨previous, parts⟩⟩
    · rfl
    · rfl
    · obtain ⟨last', hlast, hanonymous⟩ := hnamed.resolve_left (by simp)
      obtain rfl := Option.some.inj hlast
      rw [nil_append, popAnonymous, hanonymous, if_neg Bool.false_ne_true]
  | cons part callbacks ih =>
    have htail := ih fun part hpart => hall part (mem_cons_of_mem _ hpart)
    cases hparts : callbacks ++ named with
    | nil =>
      rw [append_eq_nil_iff] at hparts
      rw [hparts.2] at hnamed
      simp at hnamed
    | cons previous parts =>
      rw [cons_append, hparts, popAnonymous, if_pos (hall part mem_cons_self), ← hparts, htail]

theorem exists_popAnonymous {parts : List Text} (h : parts ≠ []) :
    ∃ callbacks, parts = callbacks ++ popAnonymous parts ∧ (∀ part ∈ callbacks, isAnonymous part = true) ∧
      ((popAnonymous parts).length = 1 ∨ ∃ last ∈ (popAnonymous parts).head?, isAnonymous last = false) := by
  fun_induction popAnonymous parts with
  | case1 last previous parts hlast ih =>
    obtain ⟨callbacks, hsplit, hall, hnamed⟩ := ih (cons_ne_nil _ _)
    refine ⟨last :: callbacks, by rw [cons_append, ← hsplit], fun part hpart => ?_, hnamed⟩
    rcases mem_cons.mp hpart with rfl | hpart
    · exact hlast
    · exact hall part hpart
  | case2 last previous parts hlast =>
    exact ⟨[], rfl, nofun, .inr ⟨last, rfl, Bool.eq_false_iff.mpr hlast⟩⟩
  | case3 parts hshort =>
    refine ⟨[], rfl, nofun, .inl ?_⟩
    rcases parts with _ | ⟨last, _ | ⟨previous, parts⟩⟩
    · exact absurd rfl h
    · rfl
    · exact absurd rfl (hshort last previous parts)

theorem nearestOwner_iff {qualifiedName owner : Text} :
    NearestOwner qualifiedName owner ↔ callerOwnerQualifiedName qualifiedName = owner := by
  constructor
  · rintro ⟨named, callbacks, hsplit, hall, hnamed, rfl⟩
    rw [callerOwnerQualifiedName, hsplit, reverse_append, popAnonymous_append, reverse_reverse]
    · exact fun part hpart => hall part (mem_reverse.mp hpart)
    · rwa [length_reverse, head?_reverse]
  · rintro rfl
    obtain ⟨callbacks, hsplit, hall, hnamed⟩ :=
      exists_popAnonymous (mt reverse_eq_nil_iff.mp (splitColons_ne_nil qualifiedName))
    refine ⟨(popAnonymous (splitColons qualifiedName).reverse).reverse, callbacks.reverse, ?_,
      fun part hpart => hall part (mem_reverse.mp hpart), ?_, rfl⟩
    · rw [← reverse_append, ← hsplit, reverse_reverse]
    · rwa [length_reverse, getLast?_reverse]

instance (qualifiedName owner : Text) : Decidable (NearestOwner qualifiedName owner) :=
  decidable_of_iff _ nearestOwner_iff.symm

/-! ## Grouped rows -/

/-- What the rows of one owner and file become. -/
theorem foldl_addRow {rows : List DirectCallerRow} (hrows : ∀ row ∈ rows, groupKey row = k)
    (existing : GroupedCaller) (hexisting : existing.qualifiedName = k.1 ∧ existing.filePath = k.2) :
    ∃ v, rows.foldl (fun v row => some (addRow row v)) (some existing) = some v ∧ v.qualifiedName = k.1 ∧
      v.filePath = k.2 ∧ v.callSites = existing.callSites + (rows.map DirectCallerRow.callSites).sum := by
  induction rows generalizing existing with
  | nil => exact ⟨existing, rfl, hexisting.1, hexisting.2, rfl⟩
  | cons row rows ih =>
    obtain ⟨v, hv, hname, hpath, hcount⟩ := ih (fun row hr => hrows row (mem_cons_of_mem _ hr))
      (addRow row (some existing)) hexisting
    refine ⟨v, hv, hname, hpath, ?_⟩
    rw [hcount, map_cons, sum_cons]
    exact Nat.add_assoc ..

theorem get_foldl_groupRow {rows : List DirectCallerRow} :
    ((rows.foldl groupRow .empty).get k = none ↔ (rows.filter fun row => groupKey row = k) = []) ∧
      ∀ v, (rows.foldl groupRow .empty).get k = some v → v.qualifiedName = k.1 ∧ v.filePath = k.2 ∧
        v.callSites = ((rows.filter fun row => groupKey row = k).map DirectCallerRow.callSites).sum := by
  have hget : (rows.foldl groupRow .empty).get k = (rows.filter fun row => groupKey row = k).foldl
      (fun v row => some (addRow row v)) ((OrderedMap.empty : OrderedMap (Text × Text) GroupedCaller).get k) :=
    get_foldl_set groupKey addRow rows
  have hkeys : ∀ row ∈ rows.filter fun row => groupKey row = k, groupKey row = k :=
    fun row hr => of_decide_eq_true (mem_filter.mp hr).2
  rw [hget, get_empty]
  generalize (rows.filter fun row => groupKey row = k) = group at *
  cases group with
  | nil => exact ⟨iff_of_true rfl rfl, nofun⟩
  | cons row rest =>
    have hrow := hkeys row mem_cons_self
    obtain ⟨v, hv, hname, hpath, hcount⟩ := foldl_addRow (fun row hr => hkeys row (mem_cons_of_mem _ hr))
      (addRow row none) ⟨congrArg Prod.fst hrow, congrArg Prod.snd hrow⟩
    rw [foldl_cons, hv]
    refine ⟨iff_of_false (by simp) (by simp), fun w hw => ?_⟩
    obtain rfl := Option.some.inj hw
    exact ⟨hname, hpath, hcount⟩

variable {sites : List CallSiteRow}

/-- All rows of the query, in the order of the statement. -/
def allRows (sites : List CallSiteRow) : List DirectCallerRow :=
  orderBy (fun r => toLex (r.sourceQn, r.filePath))
    ((Rows.groups (fun r : CallSiteRow => (r.sourceQn, r.filePath)) sites).map fun group =>
      ⟨group.1.1, group.1.2, group.2.length, (Rows.least (group.2.map CallSiteRow.line)).getD 0⟩)

theorem callerRows_eq (limit : ℕ) : callerRows sites limit = (allRows sites).take limit := rfl

theorem length_allRows : (allRows sites).length = (sites.map fun r => (r.sourceQn, r.filePath)).dedup.length := by
  rw [allRows, length_orderBy, length_map, ← keys_groups, length_map]

/-- The rows with a condition on owner and file, added up, are the call sites with it. -/
theorem sum_allRows (k : Text × Text) :
    (((allRows sites).filter fun row => groupKey row = k).map DirectCallerRow.callSites).sum =
      sites.countP fun r => siteKey r = k := by
  have hperm := ((orderBy_perm (fun r : DirectCallerRow => toLex (r.sourceQn, r.filePath))
    ((Rows.groups (fun r : CallSiteRow => (r.sourceQn, r.filePath)) sites).map fun group =>
      ⟨group.1.1, group.1.2, group.2.length, (Rows.least (group.2.map CallSiteRow.line)).getD 0⟩)).filter
        fun row => groupKey row = k).map DirectCallerRow.callSites
  rw [allRows, hperm.sum_eq, filter_map, map_map]
  exact sum_counts (fun r : CallSiteRow => (r.sourceQn, r.filePath)) sites fun names =>
    (callerOwnerQualifiedName names.1, normalizePathForSearch names.2) = k

theorem exists_allRows (k : Text × Text) : (∃ row ∈ allRows sites, groupKey row = k) ↔ ∃ r ∈ sites, siteKey r = k := by
  simp only [allRows, mem_orderBy, mem_map]
  constructor
  · rintro ⟨row, ⟨group, hgroup, rfl⟩, hk⟩
    obtain ⟨⟨r, hr, hkey⟩, -⟩ := mem_groups.mp hgroup
    refine ⟨r, hr, ?_⟩
    rw [← hk, groupKey, siteKey, ← hkey]
  · rintro ⟨r, hr, hk⟩
    let group := ((r.sourceQn, r.filePath),
      sites.filter fun r' : CallSiteRow => (r'.sourceQn, r'.filePath) = (r.sourceQn, r.filePath))
    exact ⟨_, ⟨group, mem_groups.mpr ⟨⟨r, hr, rfl⟩, rfl⟩, rfl⟩, hk⟩

/-! ## Callers -/

/-- The owners and files of the call sites, in some order. -/
def siteKeys (sites : List CallSiteRow) : List (Text × Text) := ((allRows sites).foldl groupRow .empty).keys

theorem nodup_siteKeys (sites : List CallSiteRow) : (siteKeys sites).Nodup := ((allRows sites).foldl groupRow .empty).nodup

theorem mem_siteKeys : k ∈ siteKeys sites ↔ ∃ r ∈ sites, siteKey r = k := by
  rw [siteKeys, ← exists_allRows, ← not_iff_not, ← OrderedMap.get_eq_none_iff, get_foldl_groupRow.1,
    filter_eq_nil_iff]
  simp

/-- What is said of the callers, the line of the definition apart. -/
def callerFacts (c : DirectCallerSummary) : Text × Text × Text × ℕ := (c.name, c.qualifiedName, c.path, c.callSites)

/-- There is one caller for every owner and file. -/
theorem callersOf_perm (db : CallerDb) (project : Text) (sites : List CallSiteRow) :
    ((callersOf db project (allRows sites)).map callerFacts).Perm ((siteKeys sites).map fun k =>
      (callerName db project k.1, k.1, shownPath db project k, sites.countP fun r => siteKey r = k)) := by
  rw [callersOf]
  refine ((sortBy_perm _ _).map callerFacts).trans (Perm.of_eq ?_)
  rw [siteKeys, OrderedMap.keys, map_map, map_map, map_map, map_map]
  refine map_congr_left fun e he => ?_
  obtain ⟨hname, hpath, hcount⟩ := get_foldl_groupRow.2 e.2 (OrderedMap.get_eq_some_iff.mpr he)
  have howner : e.2.qualifiedName ∈ (((allRows sites).foldl groupRow .empty).entries.map
      (GroupedCaller.qualifiedName ∘ Prod.snd)).dedup := mem_dedup.mpr (mem_map.mpr ⟨e, he, rfl⟩)
  simp only [Function.comp, callerFacts, toCaller]
  rw [get_ownerNodes howner, hname, hpath, hcount, sum_allRows]
  rfl

/-- The callers with a condition on what is said of them. -/
theorem sum_callers (db : CallerDb) (project : Text) (sites : List CallSiteRow) (p : Text × Text × Text × ℕ → Bool) :
    (((callersOf db project (allRows sites)).filter fun c => p (callerFacts c)).map DirectCallerSummary.callSites).sum =
      (((siteKeys sites).filter fun k => p (callerName db project k.1, k.1, shownPath db project k,
        sites.countP fun r => siteKey r = k)).map fun k => sites.countP fun r => siteKey r = k).sum := by
  have hperm := ((callersOf_perm db project sites).filter p).map fun f => f.2.2.2
  rw [filter_map, filter_map, map_map, map_map] at hperm
  exact hperm.sum_eq

theorem sum_owner_path (db : CallerDb) (project : Text) (sites : List CallSiteRow) (owner path : Text) :
    (((callersOf db project (allRows sites)).filter fun c => c.qualifiedName = owner && c.path = path).map
      DirectCallerSummary.callSites).sum =
        sites.countP fun r => (siteKey r).1 = owner && shownPath db project (siteKey r) = path := by
  have hsum := sum_callers db project sites
    fun f => decide (f.2.1 = owner) && decide (f.2.2.1 = path)
  refine hsum.trans (sum_countP ((nodup_siteKeys sites).filter _) fun r hr => ?_)
  have hkey : siteKey r ∈ siteKeys sites := mem_siteKeys.mpr ⟨r, hr, rfl⟩
  rw [mem_filter, and_iff_right hkey]

theorem sum_all_callers (db : CallerDb) (project : Text) (sites : List CallSiteRow) :
    ((callersOf db project (allRows sites)).map DirectCallerSummary.callSites).sum = sites.length := by
  have hsum := sum_callers db project sites fun _ => true
  have hall : ((siteKeys sites).map fun k => sites.countP fun r => siteKey r = k).sum = sites.countP fun _ => true :=
    sum_countP (nodup_siteKeys sites) fun r hr => iff_of_true rfl (mem_siteKeys.mpr ⟨r, hr, rfl⟩)
  rw [filter_true, filter_true, hall, countP_true] at hsum
  exact hsum

theorem names_callers_perm (db : CallerDb) (project : Text) (sites : List CallSiteRow) :
    ((callersOf db project (allRows sites)).map DirectCallerSummary.name).Perm
      ((siteKeys sites).map fun k => callerName db project k.1) := by
  have hperm := (callersOf_perm db project sites).map Prod.fst
  rw [map_map, map_map] at hperm
  exact hperm

/-- No name stands for two owners or files. -/
def NamesDiffer (db : CallerDb) (project : Text) (sites : List CallSiteRow) : Prop :=
  ∀ r ∈ sites, ∀ r' ∈ sites, callerName db project (siteKey r).1 = callerName db project (siteKey r').1 →
    siteKey r = siteKey r'

theorem names_tally_iff (db : CallerDb) (project : Text) (sites : List CallSiteRow) :
    ((OrderedMap.tally DirectCallerSummary.name (callersOf db project (allRows sites))).entries.any fun e =>
      decide (1 < e.2)) = false ↔ NamesDiffer db project sites := by
  have hnodup : ((callersOf db project (allRows sites)).map DirectCallerSummary.name).Nodup ↔
      NamesDiffer db project sites := by
    rw [(names_callers_perm db project sites).nodup_iff, nodup_map_iff_inj_on (nodup_siteKeys sites)]
    simp only [mem_siteKeys]
    constructor
    · exact fun h r hr r' hr' heq => h _ ⟨r, hr, rfl⟩ _ ⟨r', hr', rfl⟩ heq
    · rintro h _ ⟨r, hr, rfl⟩ _ ⟨r', hr', rfl⟩ heq
      exact h r hr r' hr' heq
  rw [← hnodup, nodup_iff_count_le_one, any_eq_false]
  have hcount (name : Text) : ((callersOf db project (allRows sites)).map DirectCallerSummary.name).count name =
      (callersOf db project (allRows sites)).countP fun c => c.name = name := by
    rw [List.count, countP_map]
    exact countP_congr fun c _ => by simp
  constructor
  · intro h name
    by_cases hname : ∃ c ∈ callersOf db project (allRows sites), c.name = name
    · have hentry := h _ (OrderedMap.get_eq_some_iff.mp ((get_tally _ _).mpr ⟨hname, rfl⟩))
      rw [hcount]
      simpa using hentry
    · rw [hcount, countP_eq_zero.mpr fun c hc hn => hname ⟨c, hc, of_decide_eq_true hn⟩]
      exact Nat.zero_le 1
  · intro h e he
    obtain ⟨-, hn⟩ := (get_tally _ _).mp (OrderedMap.get_eq_some_iff.mpr he)
    have hle := h e.1
    rw [hcount, ← hn] at hle
    simpa using hle

/-! ## Completeness -/

/-- The call sites that are counted, and the ones that should be. -/
def countedSites (db : CallerDb) (project symbol : Text) : List CallSiteRow :=
  selectedSites project symbol false (db.callSites.getD [])

def dueSites (db : CallerDb) (project symbol : Text) : List CallSiteRow :=
  (sitesOf project symbol (db.callSites.getD [])).filter fun r => !isTestSourcePath r.filePath

/-- Nothing is left out: one target, call sites that are up to date, and callers that fit and have names of their own. -/
structure Accountable (db : CallerDb) (project symbol : Text) (limit : Option ℤ) : Prop where
  named : (nodesNamed db project symbol).length ≤ 1000
  target : ((nodesNamed db project symbol).filter fun n => !isTestSourcePath n.filePath).length = 1
  status : ∃ projects status, db.projects = some projects ∧
    Rows.get ProjectCallSiteStatusRow.name project projects = some status ∧
      status.callSitesInitialized = some 1 ∧ status.crossFileCallsStale = some 0
  callSites : db.callSites.isSome = true
  few : ((countedSites db project symbol).map fun r => (r.sourceQn, r.filePath)).dedup.length ≤ safeLimit limit
  names : NamesDiffer db project (countedSites db project symbol)

theorem targetReasons_eq_nil : targetReasons db project symbol false = [] ↔
    (nodesNamed db project symbol).length ≤ 1000 ∧
      ((nodesNamed db project symbol).filter fun n => !isTestSourcePath n.filePath).length = 1 := by
  have hlength : 1000 < (findNodesByName db project symbol 1001).length ↔ 1000 < (nodesNamed db project symbol).length := by
    rw [findNodesByName, length_take]
    omega
  simp only [targetReasons, hlength]
  by_cases hmany : 1000 < (nodesNamed db project symbol).length
  · simp [hmany]
  · have htargets : targetNodes db project symbol false =
        (nodesNamed db project symbol).filter fun n => !isTestSourcePath n.filePath := by
      rw [targetNodes, findNodesByName, take_of_length_le (l := nodesNamed db project symbol) (by omega),
        take_of_length_le (by omega)]
      rfl
    rw [htargets]
    generalize ((nodesNamed db project symbol).filter fun n => !isTestSourcePath n.filePath).length = n
    by_cases hzero : n = 0
    · simp [hzero]
    · by_cases htwo : 1 < n
      · simp [hzero, htwo]
        omega
      · simp [hmany, hzero, htwo, show ¬20 < n by omega]
        omega

theorem statusReasons_eq_nil : statusReasons db project = [] ↔ ∃ projects status, db.projects = some projects ∧
    Rows.get ProjectCallSiteStatusRow.name project projects = some status ∧
      status.callSitesInitialized = some 1 ∧ status.crossFileCallsStale = some 0 := by
  rw [statusReasons]
  cases hp : db.projects with
  | none => simp
  | some projects =>
    dsimp only
    cases hs : Rows.get ProjectCallSiteStatusRow.name project projects with
    | none => simp [hs]
    | some status =>
      have hiff : (∃ projects' status', some projects = some projects' ∧
          Rows.get ProjectCallSiteStatusRow.name project projects' = some status' ∧
            status'.callSitesInitialized = some 1 ∧ status'.crossFileCallsStale = some 0) ↔
          status.callSitesInitialized = some 1 ∧ status.crossFileCallsStale = some 0 := by
        constructor
        · rintro ⟨_, _, hsome, hget, h⟩
          obtain rfl := Option.some.inj hsome
          rw [hs] at hget
          exact Option.some.inj hget ▸ h
        · exact fun h => ⟨projects, status, rfl, hs, h⟩
      rw [hiff, append_eq_nil_iff]
      refine and_congr ?_ ?_
      · split
        · rename_i h
          exact iff_of_true rfl h
        · rename_i h
          exact iff_of_false (cons_ne_nil _ _) h
      · split
        · rename_i h
          rw [h]
          simp
        · split
          · rename_i h
            exact iff_of_true rfl h
          · rename_i h
            exact iff_of_false (cons_ne_nil _ _) h

theorem sortedReasons_eq_nil {reasons : List IncompleteReason} : sortedReasons reasons = [] ↔ reasons = [] := by
  rw [sortedReasons, ← length_eq_zero_iff, length_sortBy, length_eq_zero_iff, dedup_eq_nil]

/-- The answer says it is complete if and only if nothing is left out, and then it has all callers. -/
theorem complete_iff (db : CallerDb) (project symbol : Text) (limit : Option ℤ) :
    ((listDirectCallers db project symbol false limit).complete = true ↔ Accountable db project symbol limit) ∧
      (Accountable db project symbol limit → (listDirectCallers db project symbol false limit).callers =
            callersOf db project (allRows (countedSites db project symbol)) ∧
          (listDirectCallers db project symbol false limit).totalCallSites = (countedSites db project symbol).length ∧
          (listDirectCallers db project symbol false limit).callersByName =
            PlainObject.countRows DirectCallerSummary.name DirectCallerSummary.callSites
              (listDirectCallers db project symbol false limit).callers) := by
  rw [listDirectCallers]
  cases hsites : db.callSites with
  | none =>
    have hno : ¬Accountable db project symbol limit := fun h => by
      have := h.callSites
      rw [hsites] at this
      cases this
    exact ⟨iff_of_false Bool.false_ne_true hno, fun h => absurd h hno⟩
  | some callSites =>
    have hcounted : countedSites db project symbol = selectedSites project symbol false callSites := by
      rw [countedSites, hsites]
      rfl
    dsimp only
    rw [← hcounted]
    have hlength : (callerRows (countedSites db project symbol) (safeLimit limit + 1)).length =
        min (safeLimit limit + 1)
          ((countedSites db project symbol).map fun r => (r.sourceQn, r.filePath)).dedup.length := by
      rw [callerRows_eq, length_take, length_allRows]
    by_cases hfew : ((countedSites db project symbol).map fun r => (r.sourceQn, r.filePath)).dedup.length ≤ safeLimit limit
    · have hrows : callerRows (countedSites db project symbol) (safeLimit limit + 1) =
          allRows (countedSites db project symbol) := by
        rw [callerRows_eq, take_of_length_le]
        rw [length_allRows]
        omega
      have hno : decide (safeLimit limit < (callerRows (countedSites db project symbol) (safeLimit limit + 1)).length) =
          false := decide_eq_false (by omega)
      rw [hno, hrows]
      refine ⟨?_, fun _ => ⟨rfl, rfl, rfl⟩⟩
      simp only [Bool.false_eq_true, if_false, append_nil, List.isEmpty_iff, sortedReasons_eq_nil,
        append_eq_nil_iff, targetReasons_eq_nil, statusReasons_eq_nil]
      have hnames := names_tally_iff db project (countedSites db project symbol)
      constructor
      · rintro ⟨⟨htarget, hstatus⟩, hambiguous⟩
        refine ⟨htarget.1, htarget.2, hstatus, by rw [hsites]; rfl, hfew, hnames.mp ?_⟩
        rw [← Bool.not_eq_true]
        intro htrue
        rw [if_pos htrue] at hambiguous
        cases hambiguous
      · intro h
        refine ⟨⟨⟨h.named, h.target⟩, h.status⟩, if_neg ?_⟩
        rw [hnames.mpr h.names]
        exact Bool.false_ne_true
    · have hyes : decide (safeLimit limit < (callerRows (countedSites db project symbol) (safeLimit limit + 1)).length) =
          true := decide_eq_true (by omega)
      rw [hyes]
      refine ⟨iff_of_false (fun h => ?_) fun h => hfew h.few, fun h => absurd h.few hfew⟩
      rw [List.isEmpty_iff, sortedReasons_eq_nil] at h
      simp at h

/-! ## Which call sites are counted -/

/-- The call sites of an owner, in all files. -/
def ownedSites (db : CallerDb) (project symbol owner : Text) : List CallSiteRow :=
  (sitesOf project symbol (db.callSites.getD [])).filter fun s => (siteKey s).1 = owner

/-- A call site that is in no test is counted, in the file in which its owner is shown. -/
def JudgedAlike (db : CallerDb) (project symbol : Text) : Prop :=
  ∀ s ∈ sitesOf project symbol (db.callSites.getD []), isTestSourcePath s.filePath = false →
    sqlTestPath s.filePath = false ∧ shownPath db project (siteKey s) = (siteKey s).2

theorem mem_ownedSites {owner : Text} {s : CallSiteRow} : s ∈ ownedSites db project symbol owner ↔
    s ∈ sitesOf project symbol (db.callSites.getD []) ∧ (siteKey s).1 = owner := by
  rw [ownedSites, mem_filter, decide_eq_true_eq]

theorem countP_countedSites (owner : Text) (p : CallSiteRow → Bool) :
    ((countedSites db project symbol).countP fun s => (siteKey s).1 = owner && p s) =
      (ownedSites db project symbol owner).countP fun s => !sqlTestPath s.filePath && p s := by
  rw [countedSites, selectedSites, ownedSites, countP_filter, countP_filter]
  refine countP_congr fun s _ => ?_
  simp only [Bool.false_or, Bool.and_eq_true, decide_eq_true_eq]
  tauto

theorem countP_dueSites (owner : Text) (p : CallSiteRow → Bool) :
    ((dueSites db project symbol).countP fun s => (siteKey s).1 = owner && p s) =
      (ownedSites db project symbol owner).countP fun s => !isTestSourcePath s.filePath && p s := by
  rw [dueSites, ownedSites, countP_filter, countP_filter]
  refine countP_congr fun s _ => ?_
  simp only [Bool.and_eq_true, decide_eq_true_eq]
  tauto

/-- If every name stands for one owner and file, the numbers of an owner are right if the statement and the predicate
judge alike. -/
theorem counts_owner_iff (hnames : NamesDiffer db project (countedSites db project symbol)) (owner : Text) :
    (∀ path, ((countedSites db project symbol).countP fun s =>
        (siteKey s).1 = owner && shownPath db project (siteKey s) = path) =
      (dueSites db project symbol).countP fun s => (siteKey s).1 = owner && (siteKey s).2 = path) ↔
      ∀ s ∈ ownedSites db project symbol owner, isTestSourcePath s.filePath = false →
        sqlTestPath s.filePath = false ∧ shownPath db project (siteKey s) = (siteKey s).2 := by
  have hmem {s : CallSiteRow} (hs : s ∈ ownedSites db project symbol owner) (hc : (!sqlTestPath s.filePath) = true) :
      s ∈ countedSites db project symbol := mem_filter.mpr ⟨(mem_ownedSites.mp hs).1, hc⟩
  -- What is counted for the owner is in one file.
  have hkey : ∀ s ∈ ownedSites db project symbol owner, ∀ s' ∈ ownedSites db project symbol owner,
      (!sqlTestPath s.filePath) = true → (!sqlTestPath s'.filePath) = true → siteKey s = siteKey s' :=
    fun s hs s' hs' hc hc' => hnames s (hmem hs hc) s' (hmem hs' hc')
      (by rw [(mem_ownedSites.mp hs).2, (mem_ownedSites.mp hs').2])
  obtain ⟨reported, hreported⟩ : ∃ reported, ∀ s ∈ ownedSites db project symbol owner, (!sqlTestPath s.filePath) = true →
      shownPath db project (siteKey s) = reported := by
    by_cases hsome : ∃ s ∈ ownedSites db project symbol owner, (!sqlTestPath s.filePath) = true
    · obtain ⟨s₀, hs₀, hc₀⟩ := hsome
      exact ⟨_, fun s hs hc => congrArg _ (hkey s hs s₀ hs₀ hc hc₀)⟩
    · exact ⟨[], fun s hs hc => absurd ⟨s, hs, hc⟩ hsome⟩
  have hshown (path : Text) : ((ownedSites db project symbol owner).countP fun s =>
      !sqlTestPath s.filePath && shownPath db project (siteKey s) = path) =
        if reported = path then (ownedSites db project symbol owner).countP fun s => !sqlTestPath s.filePath else 0 := by
    split
    · rename_i hpath
      refine countP_congr fun s hs => ?_
      rw [Bool.and_eq_true, decide_eq_true_eq]
      exact and_iff_left_of_imp fun hc => (hreported s hs hc).trans hpath
    · rename_i hpath
      refine countP_eq_zero.mpr fun s hs hboth => ?_
      rw [Bool.and_eq_true, decide_eq_true_eq] at hboth
      exact hpath ((hreported s hs hboth.1).symm.trans hboth.2)
  simp only [countP_countedSites, countP_dueSites, hshown]
  have hdue (s : CallSiteRow) (hc : (!sqlTestPath s.filePath) = true) : (!isTestSourcePath s.filePath) = true := by
    rw [Bool.not_eq_true', Bool.eq_false_iff] at hc ⊢
    exact mt sqlTestPath_of_isTestSourcePath hc
  rw [reported_iff fun s _ => hdue s]
  refine forall₂_congr fun s hs => ?_
  rw [Bool.not_eq_true', Bool.not_eq_true']
  refine forall_congr' fun _ => and_congr_right fun hc => ?_
  rw [hreported s hs (by rw [hc]; rfl), eq_comm]

/-! ## The answer -/

/-- What a complete answer promises. -/
structure CallersAccurate (db : CallerDb) (project symbol : Text) (r : DirectCallerAggregation) : Prop where
  target : ∃! n, n ∈ nodesNamed db project symbol ∧ isTestSourcePath n.filePath = false
  total : (r.callers.map DirectCallerSummary.callSites).sum = r.totalCallSites
  perOwner : ∀ owner path, ((r.callers.filter fun c => c.qualifiedName = owner && c.path = path).map
      DirectCallerSummary.callSites).sum =
    (dueSites db project symbol).countP fun s =>
      NearestOwner s.sourceQn owner && normalizePathForSearch s.filePath = path
  byName : Histogram DirectCallerSummary.name DirectCallerSummary.callSites r.callers r.callersByName

/-- No caller has the name of an inherited property. -/
def NamesPlain (db : CallerDb) (project symbol : Text) : Prop :=
  ∀ s ∈ countedSites db project symbol, callerName db project (callerOwnerQualifiedName s.sourceQn) ∉ prototypeNames

theorem Accountable.target_unique {limit : Option ℤ} (h : Accountable db project symbol limit) :
    ∃! n, n ∈ nodesNamed db project symbol ∧ isTestSourcePath n.filePath = false := by
  obtain ⟨n, hn⟩ := length_eq_one_iff.mp h.target
  have hmem (n' : CodeNode) : (n' ∈ nodesNamed db project symbol ∧ isTestSourcePath n'.filePath = false) ↔ n' = n := by
    rw [← mem_singleton (b := n), ← hn, mem_filter, Bool.not_eq_true']
  exact ⟨n, (hmem n).mpr rfl, fun n' h' => (hmem n').mp h'⟩

/-- **Direct callers.** An answer that says it is complete is right if and only if tests are told apart alike, and no
caller has the name of a property that every object inherits. -/
theorem listDirectCallers_complete_iff (db : CallerDb) (project symbol : Text) (limit : Option ℤ) :
    ((listDirectCallers db project symbol false limit).complete = true →
        CallersAccurate db project symbol (listDirectCallers db project symbol false limit)) ↔
      (Accountable db project symbol limit → JudgedAlike db project symbol ∧ NamesPlain db project symbol) := by
  obtain ⟨hcomplete, hanswer⟩ := complete_iff db project symbol limit
  rw [hcomplete]
  refine imp_congr_right fun h => ?_
  obtain ⟨hcallers, htotal, hbyName⟩ := hanswer h
  have howner (owner : Text) : (∀ path, (((listDirectCallers db project symbol false limit).callers.filter fun c =>
        c.qualifiedName = owner && c.path = path).map DirectCallerSummary.callSites).sum =
      (dueSites db project symbol).countP fun s =>
        NearestOwner s.sourceQn owner && normalizePathForSearch s.filePath = path) ↔
      ∀ s ∈ ownedSites db project symbol owner, isTestSourcePath s.filePath = false →
        sqlTestPath s.filePath = false ∧ shownPath db project (siteKey s) = (siteKey s).2 := by
    have hnearest (path : Text) : ((dueSites db project symbol).countP fun s =>
          NearestOwner s.sourceQn owner && normalizePathForSearch s.filePath = path) =
        (dueSites db project symbol).countP fun s => (siteKey s).1 = owner && (siteKey s).2 = path :=
      countP_congr fun s _ => by
        simp only [Bool.and_eq_true, decide_eq_true_eq, nearestOwner_iff]
        exact Iff.rfl
    rw [← counts_owner_iff h.names]
    simp only [hcallers, sum_owner_path, hnearest]
  have hplain : Histogram DirectCallerSummary.name DirectCallerSummary.callSites
      (listDirectCallers db project symbol false limit).callers
      (listDirectCallers db project symbol false limit).callersByName ↔ NamesPlain db project symbol := by
    rw [hbyName, histogram_iff, hcallers]
    have hnames (name : Text) : (∃ c ∈ callersOf db project (allRows (countedSites db project symbol)), c.name = name) ↔
        ∃ s ∈ countedSites db project symbol, callerName db project (callerOwnerQualifiedName s.sourceQn) = name := by
      rw [← mem_map, (names_callers_perm db project _).mem_iff, mem_map]
      simp only [mem_siteKeys]
      constructor
      · rintro ⟨_, ⟨s, hs, rfl⟩, rfl⟩
        exact ⟨s, hs, rfl⟩
      · rintro ⟨s, hs, rfl⟩
        exact ⟨_, ⟨s, hs, rfl⟩, rfl⟩
    constructor
    · intro hall s hs hinherited
      obtain ⟨c, hc, hname⟩ := (hnames _).mpr ⟨s, hs, rfl⟩
      exact hall c hc (hname ▸ hinherited)
    · intro hall c hc hinherited
      obtain ⟨s, hs, hname⟩ := (hnames _).mp ⟨c, hc, rfl⟩
      exact hall s hs (hname ▸ hinherited)
  constructor
  · exact fun hright => ⟨fun s hs => (howner _).mp (hright.perOwner _) s (mem_ownedSites.mpr ⟨hs, rfl⟩),
      hplain.mp hright.byName⟩
  · rintro ⟨halike, hnames⟩
    refine ⟨h.target_unique, ?_, fun owner => (howner owner).mpr fun s hs => halike s (mem_ownedSites.mp hs).1,
      hplain.mpr hnames⟩
    rw [hcallers, sum_all_callers, htotal]

/-- A function that is called in a directory with a word between dots. -/
def calledFromDottedDirectory : CallerDb where
  graph := {
    nodes := [⟨1, "p".toList, "Function".toList, "f".toList, "f".toList, "f.ts".toList⟩]
    edges := []
    nodup_nodes := by decide
    nodup_edges := List.nodup_nil }
  startLine := fun _ => none
  projects := some [⟨"p".toList, some 0, some 1⟩]
  callSites := some [⟨"p".toList, "src/a.test.d/g.ts".toList, "g".toList, "f".toList, 1⟩]

/-- The statement takes the directory for the suffix of a test file. -/
theorem listDirectCallers_dotted_directory : ¬∀ (db : CallerDb) (project symbol : Text) (limit : Option ℤ),
      (listDirectCallers db project symbol false limit).complete = true →
        CallersAccurate db project symbol (listDirectCallers db project symbol false limit) := by
  intro h
  have hcomplete : (listDirectCallers calledFromDottedDirectory "p".toList "f".toList false none).complete = true := by
    decide +kernel
  have howner := (h _ _ _ _ hcomplete).perOwner "g".toList "src/a.test.d/g.ts".toList
  exact absurd howner (by decide +kernel)

end Ariad.Bridge
