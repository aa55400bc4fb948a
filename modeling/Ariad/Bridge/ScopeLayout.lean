import Ariad.Bridge.CodeGraph

/-!
# The layout of an exact scope

The nodes of a scope are drawn in clusters, one for each of the larger files, and the clusters in domains, one
for each of the larger directories. The plan is made once from all nodes; each page of nodes is placed by it.
Where the circles are drawn is left out.

* `buildExactScopeLayout` — the domains and clusters, with their numbers of nodes.
* `positionExactScopeLayoutNode` — the cluster of a node.
-/

namespace Ariad.Bridge

def MAX_SCOPE_DOMAINS : ℕ := 12

def MAX_SELECTED_FILES : ℕ := 48

def FILES_PER_DOMAIN_RESERVE : ℕ := 2

structure ExactScopeLayoutNode where
  id : ℕ
  label : Text
  filePath : Option Text
  deriving DecidableEq

/-! ## The keys of a node -/

/-- The directory of a node, and its file. -/
structure NodePathParts where
  directory : Text
  file : Text

def nodePathParts (node : ExactScopeLayoutNode) : NodePathParts :=
  let path := normalizeGraphPath (node.filePath.getD [])
  { directory := joinSlash (directoriesOf node.label (segments path))
    file := if path ≠ [] then path else virtualKey ++ '/' :: node.label }

/-- The child directory of the scope that the node is in, or the scope. -/
def rawDomainKey (node : ExactScopeLayoutNode) (scopeKey : Text) : Text :=
  let directory := (nodePathParts node).directory
  let scopePrefix := if scopeKey = rootKey then [] else scopeKey
  let relative :=
    if scopePrefix ≠ [] ∧ (scopePrefix ++ ['/']).isPrefixOf directory = true then
      directory.drop (scopePrefix.length + 1)
    else if directory = scopePrefix then []
    else directory
  match (segments relative).head? with
  | none => scopeKey
  | some child => if scopePrefix ≠ [] then scopePrefix ++ '/' :: child else child

def sortedCounts (counts : OrderedMap Text ℕ) : List (Text × ℕ) :=
  sortBy (fun l r => (compare r.2 l.2).then (stableStringCompare l.1 r.1)) counts.entries

def otherDomainKey (scopeKey : Text) : Text :=
  if scopeKey = rootKey then "(other directories)".toList else scopeKey ++ "/(other directories)".toList

def otherFilesKey (domainKey : Text) : Text := domainKey ++ "/(other files)".toList

/-- All domains if they are few; else the scope itself and the largest. -/
def selectDomains (counts : OrderedMap Text ℕ) (scopeKey : Text) : List Text :=
  if counts.size ≤ MAX_SCOPE_DOMAINS then counts.keys
  else
    (sortedCounts counts).foldl
      (fun selected e => if selected.length ≥ MAX_SCOPE_DOMAINS - 1 then selected else selected.insert e.1)
      (if counts.has scopeKey then [scopeKey] else [])

def mappedDomainKey (rawKey : Text) (selected : List Text) (scopeKey : Text) : Text :=
  if rawKey ∈ selected then rawKey else otherDomainKey scopeKey

/-! ## The files that get a cluster -/

structure FileCount where
  domainKey : Text
  count : ℕ

/-- The domain and the file of a node in one key. -/
def compositeKey (domainKey fileKey : Text) : Text := domainKey ++ '\x00' :: fileKey

/-- The numbers of nodes of each file of each domain, with the domains given by `domainKey`. -/
def countFiles (domainKey : ExactScopeLayoutNode → Text) (nodes : List ExactScopeLayoutNode) :
    OrderedMap Text FileCount :=
  nodes.foldl
    (fun counts node =>
      let composite := compositeKey (domainKey node) (nodePathParts node).file
      counts.set composite ⟨domainKey node, ((counts.get composite).map FileCount.count).getD 0 + 1⟩) .empty

/-- The files of each domain, in the order in which they were counted. -/
def groupFiles (fileCounts : OrderedMap Text FileCount) : OrderedMap Text (List (Text × ℕ)) :=
  fileCounts.entries.foldl
    (fun byDomain e =>
      let fileKey := e.1.drop (e.2.domainKey.length + 1)
      byDomain.set e.2.domainKey ((byDomain.get e.2.domainKey).getD [] ++ [(fileKey, e.2.count)])) .empty

/-- The files of a domain, the largest first. -/
def rankedFiles (byDomain : OrderedMap Text (List (Text × ℕ))) (domainKey : Text) : List (Text × ℕ) :=
  sortBy (fun l r => (compare r.2 l.2).then (stableStringCompare l.1 r.1)) ((byDomain.get domainKey).getD [])

/-- One more file, as long as there are not too many. -/
def selectFile (selected : List Text) (composite : Text) : List Text :=
  if selected.length ≥ MAX_SELECTED_FILES then selected else selected.insert composite

/-- The largest files of every domain, and then the largest of all. -/
def selectFiles (domainCounts : OrderedMap Text ℕ) (fileCounts : OrderedMap Text FileCount) : List Text :=
  let byDomain := groupFiles fileCounts
  let reserved := (sortBy stableStringCompare domainCounts.keys).foldl
    (fun selected domainKey =>
      ((rankedFiles byDomain domainKey).take FILES_PER_DOMAIN_RESERVE).foldl
        (fun selected file => selectFile selected (compositeKey domainKey file.1)) selected) []
  let remaining := sortBy (fun l r => (compare r.2.count l.2.count).then (stableStringCompare l.1 r.1))
    (fileCounts.entries.filter fun e => e.1 ∉ reserved)
  remaining.foldl (fun selected e => selectFile selected e.1) reserved

/-! ## The plan -/

structure ExactScopeLayoutDomain where
  id : ℕ
  key : Text
  nodeCount : ℕ
  clusterCount : ℕ
  deriving DecidableEq

structure ExactScopeLayoutCluster where
  id : ℕ
  domainId : ℕ
  key : Text
  nodeCount : ℕ
  deriving DecidableEq

structure ExactScopeLayoutPlan where
  clusters : List ExactScopeLayoutCluster
  domains : List ExactScopeLayoutDomain
  scopeKey : Text
  selectedDomains : List Text
  selectedFiles : List Text

/-- `normalizeGraphPath(rawScopeKey) || '(root)'`. -/
def planScopeKey (rawScopeKey : Text) : Text :=
  let scopeKey := normalizeGraphPath rawScopeKey
  if scopeKey = [] then rootKey else scopeKey

/-- The numbers of nodes of the clusters, each with the domain of the last node that was counted. -/
def countClusters (domainKey clusterKey : ExactScopeLayoutNode → Text) (nodes : List ExactScopeLayoutNode) :
    OrderedMap Text FileCount :=
  nodes.foldl
    (fun counts node => counts.set (clusterKey node)
      ⟨domainKey node, ((counts.get (clusterKey node)).map FileCount.count).getD 0 + 1⟩) .empty

/-- The cluster of a node: its file, or the other files of its domain. -/
def clusterKeyOf (selectedFiles : List Text) (domainKey fileKey : Text) : Text :=
  if compositeKey domainKey fileKey ∈ selectedFiles then fileKey else otherFilesKey domainKey

def layoutDomains (domainCounts : OrderedMap Text ℕ) (clusterCounts : OrderedMap Text FileCount) :
    List ExactScopeLayoutDomain :=
  (sortBy (fun l r => stableStringCompare l.1 r.1) domainCounts.entries).mapIdx fun id e =>
    ⟨id, e.1, e.2, clusterCounts.entries.countP fun c => c.2.domainKey = e.1⟩

/-- `domainByKey.get(domainKey)!.id`. -/
def domainId (domains : List ExactScopeLayoutDomain) (domainKey : Text) : ℕ :=
  ((Rows.get ExactScopeLayoutDomain.key domainKey domains).map ExactScopeLayoutDomain.id).getD 0

def layoutClusters (domains : List ExactScopeLayoutDomain) (clusterCounts : OrderedMap Text FileCount) :
    List ExactScopeLayoutCluster :=
  (sortBy (fun l r => stableStringCompare l.1 r.1) clusterCounts.entries).mapIdx fun id e =>
    ⟨id, domainId domains e.2.domainKey, e.1, e.2.count⟩

def buildExactScopeLayout (nodes : List ExactScopeLayoutNode) (rawScopeKey : Text) : ExactScopeLayoutPlan :=
  let scopeKey := planScopeKey rawScopeKey
  let selectedDomains := selectDomains (OrderedMap.tally (fun n => rawDomainKey n scopeKey) nodes) scopeKey
  let domainKey := fun n => mappedDomainKey (rawDomainKey n scopeKey) selectedDomains scopeKey
  let domainCounts := OrderedMap.tally domainKey nodes
  let selectedFiles := selectFiles domainCounts (countFiles domainKey nodes)
  let clusterKey := fun n => clusterKeyOf selectedFiles (domainKey n) (nodePathParts n).file
  let clusterCounts := countClusters domainKey clusterKey nodes
  let domains := layoutDomains domainCounts clusterCounts
  { clusters := layoutClusters domains clusterCounts
    domains := domains
    scopeKey := scopeKey
    selectedDomains := selectedDomains
    selectedFiles := selectedFiles }

namespace ExactScopeLayoutPlan

variable (plan : ExactScopeLayoutPlan) (node : ExactScopeLayoutNode)

/-- The domain of a node in a plan. -/
def domainKey : Text := mappedDomainKey (rawDomainKey node plan.scopeKey) plan.selectedDomains plan.scopeKey

/-- The cluster of a node in a plan. -/
def clusterKey : Text := clusterKeyOf plan.selectedFiles (plan.domainKey node) (nodePathParts node).file

end ExactScopeLayoutPlan

/-- The id of the cluster in which a node is placed; without a cluster the call throws. -/
def positionExactScopeLayoutNode (plan : ExactScopeLayoutPlan) (node : ExactScopeLayoutNode) : Option ℕ :=
  (Rows.get ExactScopeLayoutCluster.key (plan.clusterKey node) plan.clusters).map ExactScopeLayoutCluster.id

end Ariad.Bridge
