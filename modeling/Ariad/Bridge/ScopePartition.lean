import Ariad.Bridge.ScopeLayout

/-!
# When the layout of a scope divides its nodes

The clusters of a plan are found by a name, which does not say the domain.

* `Partition` — the plan divides the nodes into its clusters, and these into its domains.
* `NamesApart` — no two domains use one name for a cluster.
* `exactScopeLayout_partition_iff` — the plan divides the nodes exactly when the names are apart.
-/

namespace Ariad.Bridge

open List OrderedMap Rows

/-! ## At most so many domains -/

variable {n : ExactScopeLayoutNode} {c : ExactScopeLayoutCluster}

theorem length_selectDomains {counts : OrderedMap Text ℕ} {scopeKey : Text}
    (h : ¬counts.size ≤ MAX_SCOPE_DOMAINS) : (selectDomains counts scopeKey).length ≤ MAX_SCOPE_DOMAINS - 1 := by
  have hloop (es : List (Text × ℕ)) (selected : List Text) (hs : selected.length ≤ MAX_SCOPE_DOMAINS - 1) :
      (es.foldl (fun selected e =>
        if selected.length ≥ MAX_SCOPE_DOMAINS - 1 then selected else selected.insert e.1) selected).length ≤
        MAX_SCOPE_DOMAINS - 1 := by
    induction es generalizing selected with
    | nil => exact hs
    | cons e es ih =>
      rw [foldl_cons]
      apply ih
      split
      · exact hs
      · rw [length_insert]
        split <;> omega
  rw [selectDomains, if_neg h]
  apply hloop
  split <;> simp [MAX_SCOPE_DOMAINS]

/-- The domains of the nodes are the selected ones and the one for the others. -/
theorem domainKey_mem (nodes : List ExactScopeLayoutNode) (rawScopeKey : Text) :
    ∃ keys : List Text, keys.length ≤ MAX_SCOPE_DOMAINS ∧
      ∀ n ∈ nodes, (buildExactScopeLayout nodes rawScopeKey).domainKey n ∈ keys := by
  have hraw {n : ExactScopeLayoutNode} (hn : n ∈ nodes) : rawDomainKey n (planScopeKey rawScopeKey) ∈
      (OrderedMap.tally (fun n => rawDomainKey n (planScopeKey rawScopeKey)) nodes).keys :=
    mem_keys_iff.mpr ⟨_, (get_tally _ _).mpr ⟨⟨n, hn, rfl⟩, rfl⟩⟩
  by_cases hfew : (OrderedMap.tally (fun n => rawDomainKey n (planScopeKey rawScopeKey)) nodes).size ≤
      MAX_SCOPE_DOMAINS
  · -- Every domain is selected.
    refine ⟨(OrderedMap.tally (fun n => rawDomainKey n (planScopeKey rawScopeKey)) nodes).keys, ?_,
      fun n hn => ?_⟩
    · rwa [OrderedMap.keys, length_map]
    · have hselected : (buildExactScopeLayout nodes rawScopeKey).selectedDomains =
          (OrderedMap.tally (fun n => rawDomainKey n (planScopeKey rawScopeKey)) nodes).keys := if_pos hfew
      rw [ExactScopeLayoutPlan.domainKey, hselected, mappedDomainKey]
      exact (if_pos (hraw hn)).symm ▸ hraw hn
  · refine ⟨otherDomainKey (planScopeKey rawScopeKey) ::
      (buildExactScopeLayout nodes rawScopeKey).selectedDomains, ?_, fun n _ => ?_⟩
    · have hlen : (buildExactScopeLayout nodes rawScopeKey).selectedDomains.length ≤ MAX_SCOPE_DOMAINS - 1 :=
        length_selectDomains hfew
      have hmax : MAX_SCOPE_DOMAINS = 12 := rfl
      rw [length_cons]
      omega
    · rw [ExactScopeLayoutPlan.domainKey, mappedDomainKey]
      split
      · rename_i hmem
        exact mem_cons_of_mem _ hmem
      · exact mem_cons_self

/-! ## What is counted -/

section Counts

variable {domainKey clusterKey : ExactScopeLayoutNode → Text} {nodes : List ExactScopeLayoutNode}

/-- The loop under one key: the number of its nodes, and the domain of the last. -/
theorem foldl_fileCount (domainKey : ExactScopeLayoutNode → Text) (nodes : List ExactScopeLayoutNode) (o : Option FileCount) :
    (nodes = [] ∧ nodes.foldl (fun o n => some (⟨domainKey n, (o.map FileCount.count).getD 0 + 1⟩ : FileCount)) o = o) ∨
      ∃ n ∈ nodes, nodes.foldl (fun o n => some (⟨domainKey n, (o.map FileCount.count).getD 0 + 1⟩ : FileCount)) o =
          some ⟨domainKey n, (o.map FileCount.count).getD 0 + nodes.length⟩ := by
  induction nodes generalizing o with
  | nil => exact .inl ⟨rfl, rfl⟩
  | cons m nodes ih =>
    right
    rw [foldl_cons]
    rcases ih (some ⟨domainKey m, (o.map FileCount.count).getD 0 + 1⟩) with ⟨rfl, h⟩ | ⟨n, hn, h⟩
    · exact ⟨m, mem_cons_self, h⟩
    · refine ⟨n, mem_cons_of_mem _ hn, h.trans ?_⟩
      rw [Option.map_some, Option.getD_some, length_cons, Nat.add_assoc, Nat.add_comm 1]

theorem get_countClusters_eq (k : Text) : (countClusters domainKey clusterKey nodes).get k =
      (nodes.filter fun n => clusterKey n = k).foldl
        (fun o n => some ⟨domainKey n, (o.map FileCount.count).getD 0 + 1⟩) none :=
  get_foldl_set clusterKey (fun n o => (⟨domainKey n, (o.map FileCount.count).getD 0 + 1⟩ : FileCount)) nodes

/-- A cluster has the number of its nodes, and the domain of one of them. -/
theorem get_countClusters {k : Text} {c : FileCount} (h : (countClusters domainKey clusterKey nodes).get k = some c) :
    c.count = (nodes.countP fun n => clusterKey n = k) ∧ ∃ n ∈ nodes, clusterKey n = k ∧ domainKey n = c.domainKey := by
  rw [get_countClusters_eq] at h
  rcases foldl_fileCount domainKey (nodes.filter fun n => clusterKey n = k) none with
    ⟨-, hc⟩ | ⟨n, hn, hc⟩
  · cases hc.symm.trans h
  · obtain rfl := Option.some.inj (hc.symm.trans h)
    obtain ⟨hn, hk⟩ := mem_filter.mp hn
    refine ⟨?_, n, hn, of_decide_eq_true hk, rfl⟩
    rw [countP_eq_length_filter]
    exact Nat.zero_add _

theorem exists_get_countClusters (domainKey clusterKey : ExactScopeLayoutNode → Text) (h : n ∈ nodes) :
    ∃ c, (countClusters domainKey clusterKey nodes).get (clusterKey n) = some c := by
  rw [get_countClusters_eq]
  rcases foldl_fileCount domainKey (nodes.filter fun m => clusterKey m = clusterKey n) none with
    ⟨hnil, -⟩ | ⟨m, -, hc⟩
  · exact absurd (decide_eq_true rfl) (filter_eq_nil_iff.mp hnil n h)
  · exact ⟨_, hc⟩

end Counts

/-! ## The rows of a plan -/

section PlanRows

variable {domainCounts : OrderedMap Text ℕ} {clusterCounts : OrderedMap Text FileCount}

theorem keys_layoutDomains :
    ((layoutDomains domainCounts clusterCounts).map ExactScopeLayoutDomain.key).Perm domainCounts.keys := by
  have hkeys : (layoutDomains domainCounts clusterCounts).map ExactScopeLayoutDomain.key =
      (sortBy (fun l r => stableStringCompare l.1 r.1) domainCounts.entries).map Prod.fst :=
    map_mapIdx _ _ fun _ _ => rfl
  rw [hkeys]
  exact (sortBy_perm _ _).map _

theorem ids_layoutDomains : ((layoutDomains domainCounts clusterCounts).map ExactScopeLayoutDomain.id).Nodup :=
  nodup_mapIdx _ _ fun _ _ => rfl

theorem mem_layoutDomains {d : ExactScopeLayoutDomain} (h : d ∈ layoutDomains domainCounts clusterCounts) :
    domainCounts.get d.key = some d.nodeCount := by
  obtain ⟨id, hid, rfl⟩ := mem_mapIdx.mp h
  exact OrderedMap.get_eq_some_iff.mpr (mem_sortBy.mp (getElem_mem hid))

variable {domains : List ExactScopeLayoutDomain}

theorem keys_layoutClusters :
    ((layoutClusters domains clusterCounts).map ExactScopeLayoutCluster.key).Perm clusterCounts.keys := by
  have hkeys : (layoutClusters domains clusterCounts).map ExactScopeLayoutCluster.key =
      (sortBy (fun l r => stableStringCompare l.1 r.1) clusterCounts.entries).map Prod.fst :=
    map_mapIdx _ _ fun _ _ => rfl
  rw [hkeys]
  exact (sortBy_perm _ _).map _

theorem ids_layoutClusters : ((layoutClusters domains clusterCounts).map ExactScopeLayoutCluster.id).Nodup :=
  nodup_mapIdx _ _ fun _ _ => rfl

theorem mem_layoutClusters (h : c ∈ layoutClusters domains clusterCounts) :
    ∃ k, clusterCounts.get c.key = some ⟨k, c.nodeCount⟩ ∧ c.domainId = domainId domains k := by
  obtain ⟨id, hid, rfl⟩ := mem_mapIdx.mp h
  exact ⟨_, OrderedMap.get_eq_some_iff.mpr (mem_sortBy.mp (getElem_mem hid)), rfl⟩

end PlanRows

/-! ## What every plan satisfies -/

/-- The plan counts the nodes by their keys. A cluster has the domain of one of its nodes. -/
structure Counts (nodes : List ExactScopeLayoutNode) (plan : ExactScopeLayoutPlan) : Prop where
  few : plan.domains.length ≤ MAX_SCOPE_DOMAINS
  domainKeys : (plan.domains.map ExactScopeLayoutDomain.key).Nodup
  domainIds : (plan.domains.map ExactScopeLayoutDomain.id).Nodup
  clusterKeys : (plan.clusters.map ExactScopeLayoutCluster.key).Nodup
  clusterIds : (plan.clusters.map ExactScopeLayoutCluster.id).Nodup
  domain : ∀ d ∈ plan.domains,
    d.nodeCount = (nodes.countP fun n => plan.domainKey n = d.key) ∧ ∃ n ∈ nodes, plan.domainKey n = d.key
  cluster : ∀ c ∈ plan.clusters,
    c.nodeCount = (nodes.countP fun n => plan.clusterKey n = c.key) ∧
      ∃ n ∈ nodes, plan.clusterKey n = c.key ∧ ∃ d ∈ plan.domains, d.key = plan.domainKey n ∧ d.id = c.domainId
  counted : ∀ n ∈ nodes, (∃ d ∈ plan.domains, d.key = plan.domainKey n) ∧
    ∃ c ∈ plan.clusters, c.key = plan.clusterKey n

theorem counts_buildExactScopeLayout (nodes : List ExactScopeLayoutNode) (rawScopeKey : Text) :
    Counts nodes (buildExactScopeLayout nodes rawScopeKey) := by
  have hdomain {n : ExactScopeLayoutNode} (hn : n ∈ nodes) :
      ∃ d ∈ (buildExactScopeLayout nodes rawScopeKey).domains,
        d.key = (buildExactScopeLayout nodes rawScopeKey).domainKey n := by
    have hmem : (buildExactScopeLayout nodes rawScopeKey).domainKey n ∈
        (OrderedMap.tally (buildExactScopeLayout nodes rawScopeKey).domainKey nodes).keys :=
      mem_keys_iff.mpr ⟨_, (get_tally _ _).mpr ⟨⟨n, hn, rfl⟩, rfl⟩⟩
    obtain ⟨d, hd, hkey⟩ := mem_map.mp (keys_layoutDomains.mem_iff.mpr hmem)
    exact ⟨d, hd, hkey⟩
  have hkeys : ((buildExactScopeLayout nodes rawScopeKey).domains.map ExactScopeLayoutDomain.key).Nodup :=
    keys_layoutDomains.nodup_iff.mpr (OrderedMap.nodup _)
  refine ⟨?_, hkeys, ids_layoutDomains, keys_layoutClusters.nodup_iff.mpr (OrderedMap.nodup _),
    ids_layoutClusters, fun d hd => ?_, fun c hc => ?_, fun n hn => ⟨hdomain hn, ?_⟩⟩
  · obtain ⟨keys, hlen, hmem⟩ := domainKey_mem nodes rawScopeKey
    rw [← length_map ExactScopeLayoutDomain.key]
    refine (subperm_of_subset hkeys fun k hk => ?_).length_le.trans hlen
    obtain ⟨d, hd, rfl⟩ := mem_map.mp hk
    obtain ⟨⟨n, hn, hkey⟩, -⟩ := (get_tally _ _).mp (mem_layoutDomains hd)
    exact hkey ▸ hmem n hn
  · obtain ⟨hex, hcount⟩ := (get_tally _ _).mp (mem_layoutDomains hd)
    exact ⟨hcount, hex⟩
  · obtain ⟨k, hget, hid⟩ := mem_layoutClusters hc
    obtain ⟨hcount, n, hn, hkey, rfl⟩ := get_countClusters hget
    obtain ⟨d, hd, hdkey⟩ := hdomain hn
    refine ⟨hcount, n, hn, hkey, d, hd, hdkey, ?_⟩
    have hrow := (Rows.get_eq_some_iff hkeys).mpr ⟨hd, hdkey⟩
    rw [hid, domainId]
    exact (congrArg (fun o => (Option.map ExactScopeLayoutDomain.id o).getD 0) hrow).symm
  · obtain ⟨c, hc⟩ := exists_get_countClusters (buildExactScopeLayout nodes rawScopeKey).domainKey
      (buildExactScopeLayout nodes rawScopeKey).clusterKey hn
    obtain ⟨c, hc, hkey⟩ := mem_map.mp (keys_layoutClusters.mem_iff.mpr (mem_keys_iff.mpr ⟨c, hc⟩))
    exact ⟨c, hc, hkey⟩

/-! ## Partition -/

/-- The plan divides the nodes into clusters and the clusters into domains. -/
structure Partition (nodes : List ExactScopeLayoutNode) (plan : ExactScopeLayoutPlan) : Prop where
  few : plan.domains.length ≤ MAX_SCOPE_DOMAINS
  /-- Every cluster belongs to a domain. -/
  owned : ∀ c ∈ plan.clusters, ∃ d ∈ plan.domains, d.id = c.domainId
  /-- Every domain has a cluster. -/
  inhabited : ∀ d ∈ plan.domains, ∃ c ∈ plan.clusters, c.domainId = d.id
  clusterSums : ∀ d ∈ plan.domains,
    ((plan.clusters.filter fun c => c.domainId = d.id).map ExactScopeLayoutCluster.nodeCount).sum = d.nodeCount
  domainSum : (plan.domains.map ExactScopeLayoutDomain.nodeCount).sum = nodes.length
  /-- Every node is placed in a cluster of its own domain. -/
  placed : ∀ n ∈ nodes, ∃ c ∈ plan.clusters, positionExactScopeLayoutNode plan n = some c.id ∧
    ∃ d ∈ plan.domains, d.key = plan.domainKey n ∧ d.id = c.domainId
  /-- As many nodes are placed in a cluster as the plan says. -/
  placedCounts : ∀ c ∈ plan.clusters,
    (nodes.countP fun n => positionExactScopeLayoutNode plan n = some c.id) = c.nodeCount

/-- The file of a node has a cluster of its own. -/
def ExactScopeLayoutPlan.Shown (plan : ExactScopeLayoutPlan) (n : ExactScopeLayoutNode) : Prop :=
  compositeKey (plan.domainKey n) (nodePathParts n).file ∈ plan.selectedFiles

instance (plan : ExactScopeLayoutPlan) (n : ExactScopeLayoutNode) : Decidable (plan.Shown n) :=
  inferInstanceAs (Decidable (compositeKey _ _ ∈ plan.selectedFiles))

/-- Files that are shown have different names in different domains, and none has the name that the other files
of another domain go by. -/
def NamesApart (nodes : List ExactScopeLayoutNode) (plan : ExactScopeLayoutPlan) : Prop :=
  ∀ m ∈ nodes, ∀ n ∈ nodes, plan.domainKey m ≠ plan.domainKey n → plan.Shown m →
    (plan.Shown n → (nodePathParts m).file ≠ (nodePathParts n).file) ∧
      (¬plan.Shown n → (nodePathParts m).file ≠ otherFilesKey (plan.domainKey n))

theorem clusterKey_of_shown {plan : ExactScopeLayoutPlan} (h : plan.Shown n) :
    plan.clusterKey n = (nodePathParts n).file := if_pos h

theorem clusterKey_of_not_shown {plan : ExactScopeLayoutPlan} (h : ¬plan.Shown n) :
    plan.clusterKey n = otherFilesKey (plan.domainKey n) := if_neg h

/-- Names that are apart say the domain. -/
theorem namesApart_iff {nodes : List ExactScopeLayoutNode} {plan : ExactScopeLayoutPlan} : NamesApart nodes plan ↔
      ∀ m ∈ nodes, ∀ n ∈ nodes, plan.clusterKey m = plan.clusterKey n → plan.domainKey m = plan.domainKey n := by
  constructor
  · intro h m hm n hn hkey
    by_contra hne
    by_cases hsm : plan.Shown m
    · obtain ⟨hfile, hother⟩ := h m hm n hn hne hsm
      rw [clusterKey_of_shown hsm] at hkey
      by_cases hsn : plan.Shown n
      · exact hfile hsn (hkey.trans (clusterKey_of_shown hsn))
      · exact hother hsn (hkey.trans (clusterKey_of_not_shown hsn))
    · rw [clusterKey_of_not_shown hsm] at hkey
      by_cases hsn : plan.Shown n
      · exact (h n hn m hm (Ne.symm hne) hsn).2 hsm ((clusterKey_of_shown hsn).symm.trans hkey.symm)
      · rw [clusterKey_of_not_shown hsn] at hkey
        exact hne (append_cancel_right hkey)
  · intro h m hm n hn hne hsm
    refine ⟨fun hsn hfile => hne (h m hm n hn ?_), fun hsn hfile => hne (h m hm n hn ?_)⟩
    · rw [clusterKey_of_shown hsm, clusterKey_of_shown hsn, hfile]
    · rw [clusterKey_of_shown hsm, clusterKey_of_not_shown hsn, hfile]

section Placed

variable {nodes : List ExactScopeLayoutNode} {plan : ExactScopeLayoutPlan} (h : Counts nodes plan)

include h

/-- A node is placed in the cluster with its key. -/
theorem Counts.position_iff (hc : c ∈ plan.clusters) (n : ExactScopeLayoutNode) :
    positionExactScopeLayoutNode plan n = some c.id ↔ plan.clusterKey n = c.key := by
  rw [positionExactScopeLayoutNode, Option.map_eq_some_iff]
  constructor
  · rintro ⟨c', hget, hid⟩
    obtain ⟨hc', hkey⟩ := (Rows.get_eq_some_iff h.clusterKeys).mp hget
    rw [← hkey, inj_on_of_nodup_map h.clusterIds hc' hc hid]
  · exact fun hkey => ⟨c, (Rows.get_eq_some_iff h.clusterKeys).mpr ⟨hc, hkey.symm⟩, rfl⟩

/-- In one domain there is one id. -/
theorem Counts.domain_eq {d d' : ExactScopeLayoutDomain} (hd : d ∈ plan.domains) (hd' : d' ∈ plan.domains) :
    d.id = d'.id ↔ d.key = d'.key := by
  constructor
  · exact fun hid => congrArg ExactScopeLayoutDomain.key (inj_on_of_nodup_map h.domainIds hd hd' hid)
  · exact fun hkey => congrArg ExactScopeLayoutDomain.id (inj_on_of_nodup_map h.domainKeys hd hd' hkey)

/-- With names apart, the cluster of a node has the node's domain. -/
theorem Counts.domain_of_cluster (hapart : NamesApart nodes plan)
    {d : ExactScopeLayoutDomain} (hc : c ∈ plan.clusters) (hd : d ∈ plan.domains)
    (hn : n ∈ nodes) (hkey : plan.clusterKey n = c.key) : c.domainId = d.id ↔ plan.domainKey n = d.key := by
  obtain ⟨-, m, hm, hmkey, d', hd', hdkey, hid⟩ := h.cluster c hc
  have hsame : plan.domainKey m = plan.domainKey n :=
    namesApart_iff.mp hapart m hm n hn (hmkey.trans hkey.symm)
  rw [← hid, h.domain_eq hd' hd, hdkey, hsame]

/-- Names that are apart make the plan a partition. -/
theorem Counts.partition (hapart : NamesApart nodes plan) : Partition nodes plan := by
  refine ⟨h.few, fun c hc => ?_, fun d hd => ?_, fun d hd => ?_, ?_, fun n hn => ?_, fun c hc => ?_⟩
  · obtain ⟨-, -, -, -, d, hd, -, hid⟩ := h.cluster c hc
    exact ⟨d, hd, hid⟩
  · obtain ⟨-, n, hn, hkey⟩ := h.domain d hd
    obtain ⟨-, c, hc, hckey⟩ := h.counted n hn
    exact ⟨c, hc, (h.domain_of_cluster hapart hc hd hn hckey.symm).mpr hkey⟩
  · -- The clusters of the domain have exactly the domain's nodes.
    have hkeys : ((plan.clusters.filter fun c => c.domainId = d.id).map ExactScopeLayoutCluster.key).Nodup :=
      h.clusterKeys.sublist (filter_sublist.map _)
    have hcounts : (plan.clusters.filter fun c => c.domainId = d.id).map ExactScopeLayoutCluster.nodeCount =
        ((plan.clusters.filter fun c => c.domainId = d.id).map ExactScopeLayoutCluster.key).map
          fun k => nodes.countP fun n => plan.clusterKey n = k := by
      rw [map_map]
      exact map_congr_left fun c hc => (h.cluster c (mem_filter.mp hc).1).1
    rw [hcounts, (h.domain d hd).1]
    refine sum_countP hkeys fun n hn => ?_
    rw [decide_eq_true_iff, mem_map]
    constructor
    rotate_left
    · rintro ⟨c, hc, hkey⟩
      obtain ⟨hc, hid⟩ := mem_filter.mp hc
      exact (h.domain_of_cluster hapart hc hd hn hkey.symm).mp (of_decide_eq_true hid)
    · intro hkey
      obtain ⟨-, c, hc, hckey⟩ := h.counted n hn
      have hid := (h.domain_of_cluster hapart hc hd hn hckey.symm).mpr hkey
      exact ⟨c, mem_filter.mpr ⟨hc, decide_eq_true hid⟩, hckey⟩
  · have hcounts : plan.domains.map ExactScopeLayoutDomain.nodeCount =
        (plan.domains.map ExactScopeLayoutDomain.key).map
          fun k => nodes.countP fun n => plan.domainKey n = k := by
      rw [map_map]
      exact map_congr_left fun d hd => (h.domain d hd).1
    rw [hcounts, ← countP_true]
    refine sum_countP h.domainKeys fun n hn => iff_of_true rfl ?_
    obtain ⟨⟨d, hd, hdkey⟩, -⟩ := h.counted n hn
    exact mem_map.mpr ⟨d, hd, hdkey⟩
  · obtain ⟨⟨d, hd, hdkey⟩, c, hc, hckey⟩ := h.counted n hn
    exact ⟨c, hc, (h.position_iff hc n).mpr hckey.symm, d, hd, hdkey,
      ((h.domain_of_cluster hapart hc hd hn hckey.symm).mpr hdkey.symm).symm⟩
  · rw [(h.cluster c hc).1]
    exact countP_congr fun n _ => by simp [h.position_iff hc n]

/-- In a partition a cluster has one domain, so the names are apart. -/
theorem Counts.apart (hpart : Partition nodes plan) : NamesApart nodes plan := by
  rw [namesApart_iff]
  intro m hm n hn hkey
  obtain ⟨c, hc, hpos, d, hd, hdkey, hid⟩ := hpart.placed m hm
  obtain ⟨c', hc', hpos', d', hd', hdkey', hid'⟩ := hpart.placed n hn
  have hsame : c = c' := by
    apply inj_on_of_nodup_map h.clusterKeys hc hc'
    rw [← (h.position_iff hc m).mp hpos, ← (h.position_iff hc' n).mp hpos', hkey]
  rw [← hdkey, ← hdkey']
  exact (h.domain_eq hd hd').mp (by rw [hid, hid', hsame])

end Placed

/-- The plan of a scope divides its nodes exactly when the names are apart. -/
theorem exactScopeLayout_partition_iff (nodes : List ExactScopeLayoutNode) (rawScopeKey : Text) :
    Partition nodes (buildExactScopeLayout nodes rawScopeKey) ↔
      NamesApart nodes (buildExactScopeLayout nodes rawScopeKey) :=
  ⟨(counts_buildExactScopeLayout nodes rawScopeKey).apart, (counts_buildExactScopeLayout nodes rawScopeKey).partition⟩

/-- A directory and a file with the same path. -/
def sharedPath : List ExactScopeLayoutNode :=
  [⟨1, "Directory".toList, some "src".toList⟩, ⟨2, "File".toList, some "src".toList⟩]

/-- The directory is a domain of its own, but its cluster goes to the domain of the file. -/
theorem exactScopeLayout_shared_path :
    ¬∀ nodes rawScopeKey, Partition nodes (buildExactScopeLayout nodes rawScopeKey) := by
  intro h
  have hapart := (counts_buildExactScopeLayout sharedPath []).apart (h sharedPath [])
  have hne := (hapart _ (mem_cons_self) _ (mem_cons_of_mem _ (mem_singleton_self _))
    (by decide) (by decide)).1 (by decide)
  exact hne (by decide)

end Ariad.Bridge
