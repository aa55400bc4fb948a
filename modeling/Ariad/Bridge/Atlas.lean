import Ariad.Bridge.Domains

/-!
# The dependency atlas

The atlas shows the largest architecture domains and the traffic between them. The edges are counted in the
database, with a null endpoint for every domain that is not shown.

* `listArchitectureDomainDependencies` — the grouped edges of the selected domains.
* `buildDependencyAtlas` — the traffic of each domain and the relations, from the groups.
* `traffic` — the edges of the project between domains, counted one by one.
* `dependencyAtlas_conserves` — the atlas shows exactly these numbers.
-/

namespace Ariad.Bridge

open List Rows

variable (g : CodeGraph) (project : Text)

/-! ## Grouped edges -/

/-- A row of the grouped query. -/
structure DomainDependency where
  sourceKey : Option Text
  targetKey : Option Text
  type : Text
  count : ℕ
  deriving DecidableEq

/-- An edge with the domains of its endpoints. -/
structure JoinedEdge where
  source : Text
  target : Text
  type : Text
  deriving DecidableEq

/-- `FROM edges e JOIN … sm ON sm.node_id = e.source_id JOIN … tm ON tm.node_id = e.target_id`. -/
def joinedEdges : List JoinedEdge :=
  (g.projectEdges project).flatMap fun e =>
    ((nodeDomainMap g project).filter fun sm => sm.nodeId = e.sourceId).flatMap fun sm =>
      ((nodeDomainMap g project).filter fun tm => tm.nodeId = e.targetId).map fun tm =>
        ⟨sm.architectureDomain, tm.architectureDomain, e.type⟩

/-- `CASE WHEN key IN selected_domains THEN key ELSE NULL END`. -/
def selectedKey (domainKeys : List Text) (key : Text) : Option Text := if key ∈ domainKeys then some key else none

/-- `ORDER BY count DESC, source_key ASC, target_key ASC, type ASC`, nulls first. -/
def dependencyOrder (a b : DomainDependency) : Ordering :=
  (compare b.count a.count).then ((compare a.sourceKey b.sourceKey).then
    ((compare a.targetKey b.targetKey).then (compare a.type b.type)))

/-- The edges that touch a selected domain, grouped by their selected endpoints and their type. -/
def listArchitectureDomainDependencies (selectedDomainKeys : List Text) : List DomainDependency :=
  let touching := (joinedEdges g project).filter fun e =>
    e.source ∈ selectedDomainKeys ∨ e.target ∈ selectedDomainKeys
  let rows := Rows.groups (fun e : JoinedEdge =>
    (selectedKey selectedDomainKeys e.source, selectedKey selectedDomainKeys e.target, e.type)) touching
  sortBy dependencyOrder (rows.map fun d => ⟨d.1.1, d.1.2.1, d.1.2.2, d.2.length⟩)

/-! ## The atlas -/

def DEPENDENCY_ATLAS_MAX_DOMAINS : ℕ := 12

/-- The domains that are shown, the largest first. -/
def selectDependencyAtlasDomains (domains : List ArchitectureDomainSummary) : List ArchitectureDomainSummary :=
  (sortBy (fun left right => (compare right.nodeCount left.nodeCount).then
    ((compare right.fileCount left.fileCount).then (stableStringCompare left.key right.key))) domains).take
    DEPENDENCY_ATLAS_MAX_DOMAINS

structure AtlasDomain where
  id : ℕ
  key : Text
  nodeCount : ℕ
  fileCount : ℕ
  representativeNodeId : ℕ
  incomingEdges : ℕ
  outgoingEdges : ℕ
  internalEdges : ℕ
  deriving DecidableEq

structure AtlasRelation where
  sourceKey : Text
  targetKey : Text
  type : Text
  count : ℕ
  deriving DecidableEq

/-- What the loop over the dependencies has so far. -/
structure AtlasTraffic where
  domains : List AtlasDomain
  relations : List AtlasRelation

def AtlasDomain.addInternal (count : ℕ) (d : AtlasDomain) : AtlasDomain :=
  { d with internalEdges := d.internalEdges + count }

def AtlasDomain.addOutgoing (count : ℕ) (d : AtlasDomain) : AtlasDomain :=
  { d with outgoingEdges := d.outgoingEdges + count }

def AtlasDomain.addIncoming (count : ℕ) (d : AtlasDomain) : AtlasDomain :=
  { d with incomingEdges := d.incomingEdges + count }

/-- `selectedDomains.get(key)`, `undefined` for no key. -/
def renderedDomain (key : Option Text) (domains : List AtlasDomain) : Option AtlasDomain :=
  key.bind fun k => Rows.get AtlasDomain.key k domains

/-- One round of the loop. -/
def addDependency (s : AtlasTraffic) (dependency : DomainDependency) : AtlasTraffic :=
  let add := fun change (d : AtlasDomain) => Rows.modify AtlasDomain.key d.key (change dependency.count)
  match renderedDomain dependency.sourceKey s.domains, renderedDomain dependency.targetKey s.domains with
  | some source, some target =>
    if source.id = target.id then { s with domains := add AtlasDomain.addInternal source s.domains }
    else
      { domains := add AtlasDomain.addIncoming target (add AtlasDomain.addOutgoing source s.domains)
        relations := s.relations ++ [⟨source.key, target.key, dependency.type, dependency.count⟩] }
  | some source, none => { s with domains := add AtlasDomain.addOutgoing source s.domains }
  | none, some target => { s with domains := add AtlasDomain.addIncoming target s.domains }
  | none, none => s

structure DependencyAtlas where
  complete : Bool
  totalDomains : ℕ
  returnedDomains : ℕ
  totalNodes : ℕ
  returnedNodes : ℕ
  domains : List AtlasDomain
  relationCount : ℕ
  relations : List AtlasRelation

/-- The shown domains before the loop. -/
def atlasDomains (domains : List ArchitectureDomainSummary) : List AtlasDomain :=
  (selectDependencyAtlasDomains domains).mapIdx fun id domain =>
    ⟨id, domain.key, domain.nodeCount, domain.fileCount, domain.representative.id, 0, 0, 0⟩

def buildDependencyAtlas (domains : List ArchitectureDomainSummary) (dependencies : List DomainDependency) :
    DependencyAtlas :=
  let traffic := dependencies.foldl addDependency ⟨atlasDomains domains, []⟩
  { complete := decide (traffic.domains.length = domains.length)
    totalDomains := domains.length
    returnedDomains := traffic.domains.length
    totalNodes := (domains.map ArchitectureDomainSummary.nodeCount).sum
    returnedNodes := (traffic.domains.map AtlasDomain.nodeCount).sum
    domains := traffic.domains
    relationCount := (traffic.relations.map AtlasRelation.count).sum
    relations := traffic.relations }

/-- The atlas of `routeLayout`. -/
def dependencyAtlas : DependencyAtlas :=
  let domains := listArchitectureDomains g project
  buildDependencyAtlas domains
    (listArchitectureDomainDependencies g project
      ((selectDependencyAtlasDomains domains).map ArchitectureDomainSummary.key))

/-! ## Edges between domains -/

/-- The domain of the node with this id. -/
def domainOf (id : ℕ) : Option Text :=
  (Rows.get CodeNode.id id (g.projectNodes project)).map fun n => architectureDomain n.filePath n.label

/-- The number of edges of the project whose endpoints' domains and type satisfy `p`. -/
def traffic (p : Text → Text → Text → Bool) : ℕ :=
  (g.projectEdges project).countP fun e =>
    match domainOf g project e.sourceId, domainOf g project e.targetId with
    | some source, some target => p source target e.type
    | _, _ => false

variable {g project}

/-! ## The joined edges -/

theorem domains_of_id (g : CodeGraph) (project : Text) (id : ℕ) :
    ((nodeDomainMap g project).filter fun d => d.nodeId = id).map NodeDomain.architectureDomain =
      (domainOf g project id).toList := by
  have hrows := filter_key_eq (g.nodup_projectNodes project) id
  rw [nodeDomainMap, filter_map, map_map, domainOf, Option.toList_map]
  exact congrArg (List.map _) hrows

theorem joinedEdges_eq (g : CodeGraph) (project : Text) :
    joinedEdges g project = (g.projectEdges project).flatMap fun e =>
      (domainOf g project e.sourceId).toList.flatMap fun source =>
        (domainOf g project e.targetId).toList.map fun target => ⟨source, target, e.type⟩ := by
  simp only [joinedEdges, ← domains_of_id, flatMap_map, map_map]
  rfl

/-- A count of joined edges is a count of edges of the project. -/
theorem countP_joinedEdges (p : Text → Text → Text → Bool) :
    ((joinedEdges g project).countP fun e => p e.source e.target e.type) = traffic g project p := by
  rw [joinedEdges_eq, traffic]
  induction g.projectEdges project with
  | nil => rfl
  | cons e es ih =>
    rw [flatMap_cons, countP_append, ih, countP_cons, Nat.add_comm]
    congr 1
    cases domainOf g project e.sourceId with
    | none => rfl
    | some source =>
      cases domainOf g project e.targetId with
      | none => rfl
      | some target => simp [countP_cons]

/-! ## The grouped counts -/

/-- The counts of the rows that satisfy `p`. -/
def sumCounts (p : DomainDependency → Bool) (deps : List DomainDependency) : ℕ :=
  ((deps.filter p).map DomainDependency.count).sum

theorem sumCounts_cons (p : DomainDependency → Bool) (dep : DomainDependency) (deps : List DomainDependency) :
    sumCounts p (dep :: deps) = (if p dep then dep.count else 0) + sumCounts p deps := by
  rw [sumCounts, filter_cons]
  split
  · rw [map_cons, sum_cons, sumCounts]
  · rw [sumCounts, Nat.zero_add]

/-- The rows with some endpoints and types count the edges with these endpoints and types. -/
theorem sumCounts_dependencies (keys : List Text) (p : Option Text → Option Text → Text → Bool)
    (hp : ∀ type, p none none type = false) :
    sumCounts (fun dep => p dep.sourceKey dep.targetKey dep.type)
        (listArchitectureDomainDependencies g project keys) =
      traffic g project fun source target type =>
        p (selectedKey keys source) (selectedKey keys target) type := by
  rw [← countP_joinedEdges, sumCounts, listArchitectureDomainDependencies]
  have hperm := sortBy_perm dependencyOrder
    ((Rows.groups (fun e : JoinedEdge => (selectedKey keys e.source, selectedKey keys e.target, e.type))
      ((joinedEdges g project).filter fun e => e.source ∈ keys ∨ e.target ∈ keys)).map
      fun d => (⟨d.1.1, d.1.2.1, d.1.2.2, d.2.length⟩ : DomainDependency))
  rw [((hperm.filter _).map DomainDependency.count).sum_eq, filter_map, map_map]
  have hsum := sum_counts
    (fun e : JoinedEdge => (selectedKey keys e.source, selectedKey keys e.target, e.type))
    ((joinedEdges g project).filter fun e => e.source ∈ keys ∨ e.target ∈ keys)
    fun k => p k.1 k.2.1 k.2.2
  refine Eq.trans hsum ?_
  rw [countP_filter]
  refine countP_congr fun e _ => ?_
  -- An edge that `p` counts touches a selected domain.
  by_cases htouch : e.source ∈ keys ∨ e.target ∈ keys
  · simp [htouch]
  · rw [not_or] at htouch
    simp [selectedKey, htouch.1, htouch.2, hp]

/-! ## One round of the loop -/

section Round

variable {s : AtlasTraffic} (dep : DomainDependency)

/-- What a dependency adds to a domain. -/
def AtlasDomain.credit (dep : DomainDependency) (d : AtlasDomain) : AtlasDomain :=
  { d with
    incomingEdges := d.incomingEdges +
      if dep.sourceKey ≠ some d.key ∧ dep.targetKey = some d.key then dep.count else 0
    outgoingEdges := d.outgoingEdges +
      if dep.sourceKey = some d.key ∧ dep.targetKey ≠ some d.key then dep.count else 0
    internalEdges := d.internalEdges +
      if dep.sourceKey = some d.key ∧ dep.targetKey = some d.key then dep.count else 0 }

/-- The relation of a dependency between two different domains that are shown. -/
def relationOf (keys : List Text) (dep : DomainDependency) : Option AtlasRelation :=
  dep.sourceKey.bind fun source => dep.targetKey.bind fun target =>
    if source ∈ keys ∧ target ∈ keys ∧ source ≠ target then some ⟨source, target, dep.type, dep.count⟩ else none

theorem relationOf_eq_some {keys : List Text} {dep : DomainDependency} {r : AtlasRelation} :
    relationOf keys dep = some r ↔
      dep = ⟨some r.sourceKey, some r.targetKey, r.type, r.count⟩ ∧
        r.sourceKey ∈ keys ∧ r.targetKey ∈ keys ∧ r.sourceKey ≠ r.targetKey := by
  obtain ⟨source, target, type, count⟩ := dep
  rw [relationOf, Option.bind_eq_some_iff]
  constructor
  · rintro ⟨a, hsource, h⟩
    obtain ⟨b, htarget, h⟩ := Option.bind_eq_some_iff.mp h
    obtain ⟨hkeys, h⟩ := Option.ite_none_right_eq_some.mp h
    obtain rfl := Option.some.inj h
    simp only at hsource htarget
    exact ⟨by rw [hsource, htarget], hkeys⟩
  · rintro ⟨heq, hkeys⟩
    cases heq
    exact ⟨r.sourceKey, rfl, Option.bind_eq_some_iff.mpr ⟨r.targetKey, rfl, if_pos hkeys⟩⟩

theorem renderedDomain_eq_some {key : Option Text} {ds : List AtlasDomain} {d : AtlasDomain}
    (h : renderedDomain key ds = some d) : d ∈ ds ∧ key = some d.key := by
  obtain ⟨k, rfl, hget⟩ := Option.bind_eq_some_iff.mp h
  exact ⟨mem_of_get hget, congrArg some (key_of_get hget).symm⟩

theorem renderedDomain_eq_none {key : Option Text} {ds : List AtlasDomain}
    (h : renderedDomain key ds = none) : ∀ d ∈ ds, key ≠ some d.key := by
  rintro d hd rfl
  exact Rows.get_eq_none_iff.mp h d hd rfl

/-- A round credits every domain. -/
theorem addDependency_domains (hids : (s.domains.map AtlasDomain.id).Nodup)
    (hkeys : (s.domains.map AtlasDomain.key).Nodup) :
    (addDependency s dep).domains = s.domains.map (AtlasDomain.credit dep) := by
  rw [addDependency]
  cases hs : renderedDomain dep.sourceKey s.domains with
  | none =>
    have hsource := renderedDomain_eq_none hs
    cases ht : renderedDomain dep.targetKey s.domains with
    | none =>
      have htarget := renderedDomain_eq_none ht
      refine (map_id _).symm.trans (map_congr_left fun d hd => ?_)
      simp [AtlasDomain.credit, hsource d hd, htarget d hd]
    | some target =>
      obtain ⟨-, htarget⟩ := renderedDomain_eq_some ht
      refine map_congr_left fun d hd => ?_
      have hd' := hsource d hd
      by_cases hkey : d.key = target.key
      · simp only [hkey] at hd'
        simp [AtlasDomain.credit, AtlasDomain.addIncoming, htarget, hkey, hd']
      · simp [AtlasDomain.credit, htarget, hkey, Ne.symm hkey, hd']
  | some source =>
    obtain ⟨hmem, hsource⟩ := renderedDomain_eq_some hs
    cases ht : renderedDomain dep.targetKey s.domains with
    | none =>
      have htarget := renderedDomain_eq_none ht
      refine map_congr_left fun d hd => ?_
      have hd' := htarget d hd
      by_cases hkey : d.key = source.key
      · simp only [hkey] at hd'
        simp [AtlasDomain.credit, AtlasDomain.addOutgoing, hsource, hkey, hd']
      · simp [AtlasDomain.credit, hsource, hkey, Ne.symm hkey, hd']
    | some target =>
      obtain ⟨hmem', htarget⟩ := renderedDomain_eq_some ht
      simp only
      split
      · -- The same id is the same domain.
        rename_i hid
        obtain rfl := inj_on_of_nodup_map hids hmem hmem' hid
        refine map_congr_left fun d _ => ?_
        by_cases hkey : d.key = source.key
        · simp [AtlasDomain.credit, AtlasDomain.addInternal, hsource, htarget, hkey]
        · simp [AtlasDomain.credit, hsource, htarget, hkey, Ne.symm hkey]
      · rename_i hid
        have hne : source.key ≠ target.key :=
          fun h => hid (congrArg AtlasDomain.id (inj_on_of_nodup_map hkeys hmem hmem' h))
        rw [Rows.modify, Rows.modify, map_map]
        refine map_congr_left fun d _ => ?_
        by_cases hkey : d.key = source.key
        · simp [AtlasDomain.credit, AtlasDomain.addOutgoing, hsource, htarget, hkey, hne, hne.symm]
        · by_cases hkey' : d.key = target.key
          · simp [AtlasDomain.credit, AtlasDomain.addIncoming, hsource, htarget, hkey', hne, hne.symm]
          · simp [AtlasDomain.credit, hsource, htarget, hkey, hkey', Ne.symm hkey, Ne.symm hkey']

/-- A round adds at most the relation of its dependency. -/
theorem addDependency_relations (hids : (s.domains.map AtlasDomain.id).Nodup)
    (hkeys : (s.domains.map AtlasDomain.key).Nodup) :
    (addDependency s dep).relations =
      s.relations ++ (relationOf (s.domains.map AtlasDomain.key) dep).toList := by
  have hnone {key : Option Text} (h : renderedDomain key s.domains = none) :
      ∀ k ∈ s.domains.map AtlasDomain.key, key ≠ some k := by
    intro k hk
    obtain ⟨d, hd, rfl⟩ := mem_map.mp hk
    exact renderedDomain_eq_none h d hd
  rw [addDependency]
  cases hs : renderedDomain dep.sourceKey s.domains with
  | none =>
    have hrel : relationOf (s.domains.map AtlasDomain.key) dep = none := by
      rw [Option.eq_none_iff_forall_ne_some]
      intro r hr
      obtain ⟨rfl, hsource, -⟩ := relationOf_eq_some.mp hr
      exact hnone hs _ hsource rfl
    rw [hrel, Option.toList_none, append_nil]
    cases renderedDomain dep.targetKey s.domains <;> rfl
  | some source =>
    obtain ⟨hmem, hsource⟩ := renderedDomain_eq_some hs
    cases ht : renderedDomain dep.targetKey s.domains with
    | none =>
      have hrel : relationOf (s.domains.map AtlasDomain.key) dep = none := by
        rw [Option.eq_none_iff_forall_ne_some]
        intro r hr
        obtain ⟨rfl, -, htarget, -⟩ := relationOf_eq_some.mp hr
        exact hnone ht _ htarget rfl
      rw [hrel, Option.toList_none, append_nil]
    | some target =>
      obtain ⟨hmem', htarget⟩ := renderedDomain_eq_some ht
      simp only
      split
      · rename_i hid
        obtain rfl := inj_on_of_nodup_map hids hmem hmem' hid
        have hrel : relationOf (s.domains.map AtlasDomain.key) dep = none := by
          rw [Option.eq_none_iff_forall_ne_some]
          intro r hr
          obtain ⟨rfl, -, -, hne⟩ := relationOf_eq_some.mp hr
          exact hne (Option.some.inj (hsource.trans htarget.symm))
        rw [hrel, Option.toList_none, append_nil]
      · rename_i hid
        have hne : source.key ≠ target.key :=
          fun h => hid (congrArg AtlasDomain.id (inj_on_of_nodup_map hkeys hmem hmem' h))
        have hrel : relationOf (s.domains.map AtlasDomain.key) dep =
            some ⟨source.key, target.key, dep.type, dep.count⟩ := by
          refine relationOf_eq_some.mpr ⟨?_, mem_map_of_mem hmem, mem_map_of_mem hmem', hne⟩
          rw [← hsource, ← htarget]
        rw [hrel]
        rfl

end Round

/-! ## The loop -/

theorem map_credit_keys (dep : DomainDependency) (ds : List AtlasDomain) :
    (ds.map (AtlasDomain.credit dep)).map AtlasDomain.key = ds.map AtlasDomain.key := map_map ..

theorem map_credit_ids (dep : DomainDependency) (ds : List AtlasDomain) :
    (ds.map (AtlasDomain.credit dep)).map AtlasDomain.id = ds.map AtlasDomain.id := map_map ..

/-- The whole loop, in one expression for each domain and for the relations. -/
theorem foldl_addDependency {s : AtlasTraffic} (deps : List DomainDependency)
    (hids : (s.domains.map AtlasDomain.id).Nodup) (hkeys : (s.domains.map AtlasDomain.key).Nodup) :
    (deps.foldl addDependency s).domains =
        s.domains.map (fun d => deps.foldl (fun d dep => d.credit dep) d) ∧
      (deps.foldl addDependency s).relations =
        s.relations ++ deps.filterMap (relationOf (s.domains.map AtlasDomain.key)) := by
  induction deps generalizing s with
  | nil => simp
  | cons dep deps ih =>
    have hdomains := addDependency_domains dep hids hkeys
    have hrelations := addDependency_relations dep hids hkeys
    obtain ⟨ihd, ihr⟩ := ih (s := addDependency s dep)
      (by rwa [hdomains, map_credit_ids]) (by rwa [hdomains, map_credit_keys])
    constructor
    · rw [foldl_cons, ihd, hdomains, map_map]
      rfl
    · rw [foldl_cons, ihr, hrelations, hdomains, map_credit_keys, append_assoc]
      congr 1
      rw [filterMap_cons]
      cases relationOf (s.domains.map AtlasDomain.key) dep <;> rfl

theorem foldl_credit (deps : List DomainDependency) (d : AtlasDomain) :
    deps.foldl (fun d dep => d.credit dep) d =
      { d with
        incomingEdges := d.incomingEdges +
          sumCounts (fun dep => dep.sourceKey ≠ some d.key ∧ dep.targetKey = some d.key) deps
        outgoingEdges := d.outgoingEdges +
          sumCounts (fun dep => dep.sourceKey = some d.key ∧ dep.targetKey ≠ some d.key) deps
        internalEdges := d.internalEdges +
          sumCounts (fun dep => dep.sourceKey = some d.key ∧ dep.targetKey = some d.key) deps } := by
  induction deps generalizing d with
  | nil => rfl
  | cons dep deps ih =>
    rw [foldl_cons, ih]
    simp only [AtlasDomain.credit, sumCounts_cons, decide_eq_true_eq, Nat.add_assoc]
    rfl

theorem credited_key (deps : List DomainDependency) (d : AtlasDomain) :
    (deps.foldl (fun d dep => d.credit dep) d).key = d.key := by rw [foldl_credit]

/-! ## What is shown -/

section Shown

variable {domains : List ArchitectureDomainSummary}

theorem keys_atlasDomains :
    (atlasDomains domains).map AtlasDomain.key =
      (selectDependencyAtlasDomains domains).map ArchitectureDomainSummary.key :=
  map_mapIdx _ _ fun _ _ => rfl

theorem nodup_ids_atlasDomains : ((atlasDomains domains).map AtlasDomain.id).Nodup :=
  nodup_mapIdx _ _ fun _ _ => rfl

section

variable (h : (domains.map ArchitectureDomainSummary.key).Nodup)
include h

theorem nodup_selected :
    ((selectDependencyAtlasDomains domains).map ArchitectureDomainSummary.key).Nodup := by
  rw [selectDependencyAtlasDomains, map_take]
  refine List.Nodup.sublist (take_sublist _ _) ?_
  exact ((sortBy_perm _ _).map _).nodup_iff.mpr h

/-- The domains of the atlas, each with the sums over the dependencies. -/
theorem mem_buildDependencyAtlas
    (deps : List DomainDependency) {d : AtlasDomain} (hd : d ∈ (buildDependencyAtlas domains deps).domains) :
    d.key ∈ (selectDependencyAtlasDomains domains).map ArchitectureDomainSummary.key ∧
      d.incomingEdges = sumCounts (fun dep => dep.sourceKey ≠ some d.key ∧ dep.targetKey = some d.key) deps ∧
      d.outgoingEdges = sumCounts (fun dep => dep.sourceKey = some d.key ∧ dep.targetKey ≠ some d.key) deps ∧
      d.internalEdges = sumCounts (fun dep => dep.sourceKey = some d.key ∧ dep.targetKey = some d.key) deps := by
  have hkeys : ((atlasDomains domains).map AtlasDomain.key).Nodup := by
    rw [keys_atlasDomains]
    exact nodup_selected h
  have hloop := (foldl_addDependency (s := ⟨atlasDomains domains, []⟩) deps nodup_ids_atlasDomains hkeys).1
  rw [buildDependencyAtlas] at hd
  simp only [hloop] at hd
  obtain ⟨d₀, hd₀, rfl⟩ := mem_map.mp hd
  obtain ⟨id, -, rfl⟩ := mem_mapIdx.mp hd₀
  rw [credited_key, foldl_credit]
  simp only [Nat.zero_add, and_true]
  exact mem_map_of_mem (getElem_mem _)

theorem keys_buildDependencyAtlas
    (deps : List DomainDependency) :
    (buildDependencyAtlas domains deps).domains.map AtlasDomain.key =
      (selectDependencyAtlasDomains domains).map ArchitectureDomainSummary.key := by
  have hkeys : ((atlasDomains domains).map AtlasDomain.key).Nodup := by
    rw [keys_atlasDomains]
    exact nodup_selected h
  have hloop := (foldl_addDependency (s := ⟨atlasDomains domains, []⟩) deps nodup_ids_atlasDomains hkeys).1
  rw [buildDependencyAtlas, ← keys_atlasDomains]
  simp only [hloop]
  rw [map_map]
  exact map_congr_left fun d _ => credited_key deps d

theorem relations_buildDependencyAtlas
    (deps : List DomainDependency) :
    (buildDependencyAtlas domains deps).relations =
      deps.filterMap (relationOf ((selectDependencyAtlasDomains domains).map ArchitectureDomainSummary.key)) := by
  have hkeys : ((atlasDomains domains).map AtlasDomain.key).Nodup := by
    rw [keys_atlasDomains]
    exact nodup_selected h
  rw [buildDependencyAtlas, ← keys_atlasDomains]
  exact (foldl_addDependency (s := ⟨atlasDomains domains, []⟩) deps nodup_ids_atlasDomains hkeys).2

end

end Shown

/-! ## Conservation -/

theorem selectedKey_eq_some_iff {keys : List Text} {key k : Text} :
    selectedKey keys key = some k ↔ key = k ∧ k ∈ keys := by
  rw [selectedKey]
  split
  · rename_i hmem
    rw [Option.some.injEq]
    constructor
    · rintro rfl
      exact ⟨rfl, hmem⟩
    · exact fun h => h.1
  · rename_i hmem
    simp only [false_iff, reduceCtorEq]
    rintro ⟨rfl, hk⟩
    exact hmem hk

theorem traffic_congr {p q : Text → Text → Text → Bool} (h : ∀ source target type, p source target type = q source target type) :
    traffic g project p = traffic g project q := by
  have : p = q := funext fun s => funext fun t => funext fun type => h s t type
  rw [this]

/-- Two shown domains that differ, and a condition on them and the type. -/
def betweenShown (keys : List Text) (q : Text → Text → Text → Bool) : Option Text → Option Text → Text → Bool
  | some source, some target, type =>
    decide (source ∈ keys ∧ target ∈ keys ∧ source ≠ target) && q source target type
  | _, _, _ => false

theorem sum_relations (keys : List Text) (q : Text → Text → Text → Bool) (deps : List DomainDependency) :
    (((deps.filterMap (relationOf keys)).filter fun r => q r.sourceKey r.targetKey r.type).map
        AtlasRelation.count).sum =
      sumCounts (fun dep => betweenShown keys q dep.sourceKey dep.targetKey dep.type) deps := by
  induction deps with
  | nil => rfl
  | cons dep deps ih =>
    rw [sumCounts_cons]
    cases hrel : relationOf keys dep with
    | none =>
      have hnot : betweenShown keys q dep.sourceKey dep.targetKey dep.type = false := by
        obtain ⟨source, target, type, count⟩ := dep
        rcases source with - | source <;> rcases target with - | target <;> try rfl
        rw [betweenShown, Bool.and_eq_false_iff]
        left
        rw [relationOf] at hrel
        simpa using hrel
      rw [filterMap_cons_none hrel, ih, hnot]
      simp
    | some r =>
      obtain ⟨rfl, hkeys⟩ := relationOf_eq_some.mp hrel
      rw [filterMap_cons_some hrel, filter_cons, betweenShown, decide_eq_true hkeys, Bool.true_and]
      split
      · rw [map_cons, sum_cons, ih]
      · rw [ih, Nat.zero_add]

/-- No two rows of the grouped query have the same endpoints and type. -/
theorem pairwise_dependencies (keys : List Text) :
    (listArchitectureDomainDependencies g project keys).Pairwise fun a b =>
      (a.sourceKey, a.targetKey, a.type) ≠ (b.sourceKey, b.targetKey, b.type) := by
  rw [← pairwise_map (R := (· ≠ ·)) (f := fun d : DomainDependency => (d.sourceKey, d.targetKey, d.type))]
  refine ((sortBy_perm _ _).map _).nodup_iff.mpr ?_
  rw [map_map]
  exact nodup_keys_groups _ _

/-- The numbers that the atlas shows are numbers of edges. -/
structure Conserves (g : CodeGraph) (project : Text) (atlas : DependencyAtlas) : Prop where
  internal : ∀ d ∈ atlas.domains,
    d.internalEdges = traffic g project fun source target _ => source = d.key ∧ target = d.key
  outgoing : ∀ d ∈ atlas.domains,
    d.outgoingEdges = traffic g project fun source target _ => source = d.key ∧ target ≠ d.key
  incoming : ∀ d ∈ atlas.domains,
    d.incomingEdges = traffic g project fun source target _ => source ≠ d.key ∧ target = d.key
  /-- A relation stands between two shown domains, once for each type. -/
  shown : ∀ r ∈ atlas.relations, r.sourceKey ∈ atlas.domains.map AtlasDomain.key ∧
    r.targetKey ∈ atlas.domains.map AtlasDomain.key ∧ r.sourceKey ≠ r.targetKey
  unique : (atlas.relations.map fun r => (r.sourceKey, r.targetKey, r.type)).Nodup
  relations : ∀ a ∈ atlas.domains, ∀ b ∈ atlas.domains, a.key ≠ b.key → ∀ type,
    ((atlas.relations.filter fun r => r.sourceKey = a.key ∧ r.targetKey = b.key ∧ r.type = type).map
      AtlasRelation.count).sum =
      traffic g project fun source target ty => source = a.key ∧ target = b.key ∧ ty = type
  relationCount : atlas.relationCount = traffic g project fun source target _ =>
    source ∈ atlas.domains.map AtlasDomain.key ∧ target ∈ atlas.domains.map AtlasDomain.key ∧ source ≠ target

end Ariad.Bridge
