import Ariad.Bridge.CodeGraph

/-!
# Architecture domains

The domain of a node is computed twice: by string functions of SQL, for the counts of the overview, and by
`graphDomainKey`, for the pages of a scope.

* `architectureDomain` — the expression of `ensureDerivedTables`.
* `nodeDomainMap`, `listArchitectureDomains` — the derived table and its groups.
* `domainIds` — the nodes of each domain scope.
* `OneReading` — the paths that both read alike.
* `oneDomain_iff` — the two notions are one exactly on graphs with such paths.
-/

namespace Ariad.Bridge

open List Rows

/-! ## The expression of SQL -/

/-- What is behind `:/` when these are the second and the third character. -/
def sqlDropDrive : Text → Text
  | _ :: ':' :: '/' :: rest => rest
  | path => path

/-- The `CASE` on `normalized_path`. -/
def pathDomain (normalizedPath label : Text) : Text :=
  if normalizedPath = [] then virtualKey
  else if '/' ∉ normalizedPath then
    if label ∈ directoryLabels then normalizedPath else rootKey
  else normalizedPath.takeWhile (· ≠ '/')

def architectureDomain (filePath label : Text) : Text :=
  pathDomain (trimSlashes (sqlDropDrive (slashes filePath))) label

/-! ## The derived table and its groups -/

/-- A row of `temp.node_domain_map`. -/
structure NodeDomain where
  nodeId : ℕ
  architectureDomain : Text
  label : Text
  deriving DecidableEq

/-- A row of the domain catalog. -/
structure ArchitectureDomainSummary where
  key : Text
  nodeCount : ℕ
  fileCount : ℕ
  representative : CodeNode
  deriving DecidableEq

def fileLabel : Text := "File".toList

/-- The smallest id of a file, or the smallest id. -/
def representativeId (rows : List NodeDomain) : Option ℕ :=
  (Rows.least ((rows.filter fun d => d.label = fileLabel).map NodeDomain.nodeId)).or
    (Rows.least (rows.map NodeDomain.nodeId))

variable (g : CodeGraph) (project : Text)

def nodeDomainMap : List NodeDomain :=
  (g.projectNodes project).map fun n => ⟨n.id, architectureDomain n.filePath n.label, n.label⟩

/-- One group, joined with the row of its representative. -/
def summarize (d : Text × List NodeDomain) : Option ArchitectureDomainSummary := do
  let id ← representativeId d.2
  let n ← Rows.get CodeNode.id id (g.projectNodes project)
  return { key := d.1
           nodeCount := d.2.length
           fileCount := d.2.countP fun r => r.label = fileLabel
           representative := n }

def listArchitectureDomains : List ArchitectureDomainSummary :=
  sortBy (fun a b => (compare a.key b.key).then (compare a.representative.id b.representative.id))
    ((Rows.groups NodeDomain.architectureDomain (nodeDomainMap g project)).filterMap (summarize g project))

/-! ## Domain scopes -/

/-- `ORDER BY id ASC`. -/
def byId (nodes : List CodeNode) : List CodeNode := sortBy (fun a b => compare a.id b.id) nodes

/-- The members of the domains, in one pass over the nodes. -/
def domainIds : OrderedMap Text (List ℕ) :=
  (byId (g.projectNodes project)).foldl
    (fun m row => m.set (graphDomainKey row.filePath row.label)
      ((m.get (graphDomainKey row.filePath row.label)).getD [] ++ [row.id])) .empty

/-- `total_nodes` of the domain scope of a key. -/
def domainTotalNodes (key : Text) : ℕ := (((domainIds g project).get key).getD []).length

/-! ## Segments of a path without slashes at its ends -/

theorem segments_slashes {t : Text} (h : ∀ c ∈ t, c = '/') : segments t = [] := by
  induction t with
  | nil => rfl
  | cons c t ih =>
    rw [h c mem_cons_self]
    exact (segments_append_slash [] t).trans (ih fun d hd => h d (mem_cons_of_mem _ hd))

theorem segments_append_slashes {s t : Text} (h : ∀ c ∈ t, c = '/') : segments (s ++ t) = segments s := by
  cases t with
  | nil => rw [append_nil]
  | cons c t =>
    rw [h c mem_cons_self, segments_append_slash,
      segments_slashes fun d hd => h d (mem_cons_of_mem _ hd), append_nil]

@[simp] theorem segments_trimSlashes (t : Text) : segments (trimSlashes t) = segments t := by
  have hstart : ∀ t : Text, segments (t.dropWhile (· = '/')) = segments t := by
    intro t
    induction t with
    | nil => rfl
    | cons c t ih =>
      by_cases hc : c = '/'
      · rw [dropWhile_cons_of_pos (by simpa using hc), ih, hc]
        exact (segments_append_slash [] t).symm
      · rw [dropWhile_cons_of_neg (by simpa using hc)]
  have hend : ∀ t : Text, segments (t.rdropWhile (· = '/')) = segments t := by
    intro t
    conv_rhs => rw [← rdropWhile_append_rtakeWhile (p := fun c => decide (c = '/')) (l := t)]
    refine (segments_append_slashes fun c hc => ?_).symm
    simpa using mem_rtakeWhile_imp hc
  rw [trimSlashes, hend, hstart]

theorem head_trimSlashes {t rest : Text} {c : Char} (h : trimSlashes t = c :: rest) : c ≠ '/' := by
  intro hc
  -- The head is the head of what trimming at the start leaves.
  obtain ⟨tail, htail⟩ : ∃ tail, t.dropWhile (· = '/') = c :: tail := by
    obtain ⟨u, hu⟩ := List.rdropWhile_prefix (p := fun c => decide (c = '/')) (l := t.dropWhile (· = '/'))
    rw [← trimSlashes, h] at hu
    exact ⟨_, hu.symm⟩
  have hnot := head?_dropWhile_not (fun c => decide (c = '/')) t
  rw [htail] at hnot
  simp [hc] at hnot

theorem last_trimSlashes {t s : Text} {c : Char} (h : trimSlashes t = s ++ [c]) : c ≠ '/' := by
  have hne : trimSlashes t ≠ [] := by simp [h]
  have hnot := rdropWhile_last_not _ _ hne
  intro hc
  apply hnot
  have hlast : (trimSlashes t).getLast hne = c := by simp [h]
  exact decide_eq_true (hlast.trans hc)

/-- The expression of SQL on a trimmed path, in terms of its segments. -/
theorem pathDomain_trimSlashes (t label : Text) :
    pathDomain (trimSlashes t) label =
      if segments t = [] then virtualKey else (directoriesOf label (segments t)).headD rootKey := by
  rw [← segments_trimSlashes t]
  cases hn : trimSlashes t with
  | nil => rfl
  | cons c rest =>
    have hhead := head_trimSlashes hn
    rw [if_neg (segments_cons_ne_nil hhead rest), pathDomain, if_neg (cons_ne_nil _ _)]
    by_cases hslash : '/' ∈ c :: rest
    · obtain ⟨s, rest', hs, htake, hsplit⟩ := exists_first_slash hslash
      have hne : s ≠ [] := by
        rintro rfl
        exact hhead (List.cons.inj hsplit).1
      -- Behind the slash there is a segment, since the path does not end with a slash.
      have hrest : segments rest' ≠ [] := by
        obtain rfl | ⟨u, d, rfl⟩ := rest'.eq_nil_or_concat'
        · exact absurd rfl (last_trimSlashes (hn.trans hsplit))
        · refine segments_ne_nil (c := d) (by simp) ?_
          apply last_trimSlashes (t := t) (s := s ++ '/' :: u)
          rw [hn, hsplit, append_assoc, cons_append]
      rw [if_neg (not_not.mpr hslash), htake, hsplit, segments_append_slash,
        segments_of_slash_notMem hs hne, directoriesOf, singleton_append]
      split
      · rfl
      · rw [dropLast_cons_of_ne_nil hrest]
        rfl
    · rw [if_pos hslash, segments_of_slash_notMem hslash (cons_ne_nil _ _), directoriesOf]
      split <;> rfl

theorem directoriesOf_subset {label s : Text} {parts : List Text} (h : s ∈ directoriesOf label parts) :
    s ∈ parts := by
  rw [directoriesOf] at h
  split at h
  · exact h
  · exact dropLast_subset _ h

theorem trimSlashes_eq_nil_iff {t : Text} : trimSlashes t = [] ↔ segments t = [] := by
  rw [← segments_trimSlashes t]
  cases hn : trimSlashes t with
  | nil => exact iff_of_true rfl rfl
  | cons c rest => simp [segments_cons_ne_nil (head_trimSlashes hn) rest]

theorem segments_virtualKey : segments virtualKey = [virtualKey] := by decide

theorem segments_rootKey : segments rootKey = [rootKey] := by decide

/-- `graphDomainKey` is the expression of SQL on the path that `normalizeGraphPath` makes. -/
theorem graphDomainKey_eq (filePath label : Text) :
    graphDomainKey filePath label = pathDomain (normalizeGraphPath filePath) label := by
  rw [normalizeGraphPath, pathDomain_trimSlashes, ← segments_trimSlashes, ← normalizeGraphPath,
    graphDomainKey, graphCommunityKey, architectureDomainKey]
  have hnil : normalizeGraphPath filePath = [] ↔ segments (normalizeGraphPath filePath) = [] := by
    rw [normalizeGraphPath, segments_trimSlashes]
    exact trimSlashes_eq_nil_iff
  have hparts : ∀ s ∈ segments (normalizeGraphPath filePath), s ≠ [] ∧ '/' ∉ s := fun s => mem_segments
  generalize normalizeGraphPath filePath = n at *
  by_cases hn : n = []
  · -- No path: the community names the label, the domain does not.
    have hdirs : directoriesOf label [] = [] := by simp [directoriesOf]
    have hs : segments [] = [] := rfl
    simp only [hn, hs, hdirs, if_true, ne_eq, not_true, if_false]
    rw [segments_append_slash, segments_virtualKey]
    rfl
  · rw [if_neg (mt hnil.mpr hn)]
    by_cases hdirs : directoriesOf label (segments n) = []
    · simp only [hdirs, hn, if_true, ne_eq, not_false_eq_true]
      rw [segments_rootKey]
      rfl
    · have htake : ∀ s ∈ (directoriesOf label (segments n)).take 3, s ≠ [] ∧ '/' ∉ s :=
        fun s hs => hparts s (directoriesOf_subset (mem_of_mem_take hs))
      rw [if_neg hdirs, segments_joinSlash htake]
      obtain ⟨d, ds, hd⟩ := exists_cons_of_ne_nil hdirs
      rw [hd]
      rfl

/-! ## Paths that both read alike -/

/-- The name of a drive that is the character `c`. -/
def driveName (c : Char) : Text := if c = '/' then [':'] else [c, ':']

/-- Only a letter stands before `:/` at the start of the path, or the directory behind it has the same name
again. -/
def OneReading (filePath label : Text) : Prop :=
  ∀ c rest, slashes filePath = c :: ':' :: '/' :: rest →
    c.isAlpha = true ∨ (directoriesOf label (segments rest)).head? = some (driveName c)

theorem segments_drive (c : Char) (rest : Text) :
    segments (c :: ':' :: '/' :: rest) = driveName c :: segments rest := by
  have happ : segments (c :: ':' :: '/' :: rest) = segments [c, ':'] ++ segments rest :=
    segments_append_slash [c, ':'] rest
  rw [happ, driveName]
  split
  · rename_i hc
    rw [hc]
    rfl
  · rename_i hc
    rw [segments_of_slash_notMem (by simpa using Ne.symm hc) (cons_ne_nil _ _)]
    rfl

theorem driveName_ne_rootKey (c : Char) : driveName c ≠ rootKey := by
  intro h
  have hlen : (driveName c).length ≤ 2 := by
    rw [driveName]
    split <;> simp
  rw [h] at hlen
  exact absurd hlen (by decide)

theorem driveName_ne_virtualKey (c : Char) : driveName c ≠ virtualKey := by
  intro h
  have hlen : (driveName c).length ≤ 2 := by
    rw [driveName]
    split <;> simp
  rw [h] at hlen
  exact absurd hlen (by decide)

theorem dropDrive_eq_sqlDropDrive {path : Text}
    (h : ∀ c rest, path = c :: ':' :: '/' :: rest → c.isAlpha = true) : dropDrive path = sqlDropDrive path := by
  rw [dropDrive.eq_def]
  split
  · rename_i c rest
    rw [if_pos (h c rest rfl), sqlDropDrive]
  · rename_i hno
    rw [sqlDropDrive.eq_def]
    split
    · rename_i c rest
      exact absurd rfl (hno c rest)
    · rfl

/-- What is read of a path whose drive is no letter. -/
theorem domain_of_drive {c : Char} (hc : ¬c.isAlpha = true) (label rest : Text) :
    pathDomain (trimSlashes (sqlDropDrive (c :: ':' :: '/' :: rest))) label =
        pathDomain (trimSlashes (dropDrive (c :: ':' :: '/' :: rest))) label ↔
      (directoriesOf label (segments rest)).head? = some (driveName c) := by
  rw [pathDomain_trimSlashes, pathDomain_trimSlashes, sqlDropDrive, dropDrive, if_neg hc, segments_drive,
    if_neg (cons_ne_nil _ _)]
  by_cases hrest : segments rest = []
  · have hdirs : directoriesOf label ([] : List Text) = [] := by simp [directoriesOf]
    rw [if_pos hrest, hrest, hdirs, directoriesOf]
    split
    · simpa using (driveName_ne_virtualKey c).symm
    · simpa using show virtualKey ≠ rootKey by decide
  · -- There is a directory behind the drive, so the drive is the first directory of the whole path.
    have hhead : (directoriesOf label (driveName c :: segments rest)).headD rootKey = driveName c := by
      rw [directoriesOf]
      split
      · rfl
      · rw [dropLast_cons_of_ne_nil hrest]
        rfl
    rw [if_neg hrest, hhead]
    cases directoriesOf label (segments rest) with
    | nil => simpa using (driveName_ne_rootKey c).symm
    | cons d ds => simp

/-- The expression of SQL is `graphDomainKey` exactly on the paths that both read alike. -/
theorem architectureDomain_eq_iff (filePath label : Text) :
    architectureDomain filePath label = graphDomainKey filePath label ↔ OneReading filePath label := by
  rw [graphDomainKey_eq, architectureDomain, normalizeGraphPath, OneReading]
  by_cases hletter : ∀ c rest, slashes filePath = c :: ':' :: '/' :: rest → c.isAlpha = true
  · rw [dropDrive_eq_sqlDropDrive hletter]
    exact ⟨fun _ c rest h => .inl (hletter c rest h), fun _ => rfl⟩
  · push Not at hletter
    obtain ⟨c, rest, hpath, hc⟩ := hletter
    rw [hpath, domain_of_drive hc]
    constructor
    · intro hhead c' rest' heq
      simp only [List.cons.injEq, true_and] at heq
      obtain ⟨rfl, rfl⟩ := heq
      exact .inr hhead
    · exact fun h => (h c rest rfl).resolve_left hc

/-! ## The catalog -/

variable {g project}

theorem mem_nodeDomainMap {d : NodeDomain} :
    d ∈ nodeDomainMap g project ↔
      ∃ n ∈ g.projectNodes project, ⟨n.id, architectureDomain n.filePath n.label, n.label⟩ = d := by
  rw [nodeDomainMap, mem_map]

theorem representativeId_mem {rows : List NodeDomain} (h : rows ≠ []) :
    ∃ d ∈ rows, representativeId rows = some d.nodeId := by
  rw [representativeId]
  cases hfile : Rows.least ((rows.filter fun d => d.label = fileLabel).map NodeDomain.nodeId) with
  | some id =>
    obtain ⟨d, hd, rfl⟩ := mem_map.mp (least_mem hfile)
    exact ⟨d, (mem_filter.mp hd).1, rfl⟩
  | none =>
    have hne : rows.map NodeDomain.nodeId ≠ [] := by simpa using h
    obtain ⟨id, hid⟩ := least_isSome hne
    obtain ⟨d, hd, rfl⟩ := mem_map.mp (least_mem hid)
    exact ⟨d, hd, by rw [Option.none_or, hid]⟩

/-- Every group has a representative, which is one of its nodes. -/
theorem summarize_group {d : Text × List NodeDomain}
    (h : d ∈ Rows.groups NodeDomain.architectureDomain (nodeDomainMap g project)) :
    ∃ n ∈ g.projectNodes project, architectureDomain n.filePath n.label = d.1 ∧
      summarize g project d =
        some ⟨d.1, d.2.length, d.2.countP fun r => r.label = fileLabel, n⟩ := by
  obtain ⟨r, hr, hid⟩ := representativeId_mem (ne_nil_of_mem_groups h)
  rw [(mem_groups.mp h).2, mem_filter] at hr
  obtain ⟨n, hn, rfl⟩ := mem_nodeDomainMap.mp hr.1
  refine ⟨n, hn, by simpa using hr.2, ?_⟩
  rw [summarize, hid, Option.bind_eq_bind, Option.bind_some, CodeGraph.get_projectNodes hn]
  rfl

theorem mem_listArchitectureDomains {s : ArchitectureDomainSummary} :
    s ∈ listArchitectureDomains g project ↔
      ∃ d ∈ Rows.groups NodeDomain.architectureDomain (nodeDomainMap g project), summarize g project d = some s := by
  rw [listArchitectureDomains, mem_sortBy, mem_filterMap]

/-- Keys and counts are those of the groups. -/
theorem catalog_perm (g : CodeGraph) (project : Text) :
    ((listArchitectureDomains g project).map fun s => (s.key, s.nodeCount)).Perm
      ((Rows.groups NodeDomain.architectureDomain (nodeDomainMap g project)).map
        fun d => (d.1, d.2.length)) := by
  have hall : ∀ ds ⊆ Rows.groups NodeDomain.architectureDomain (nodeDomainMap g project),
      (ds.filterMap (summarize g project)).map (fun s => (s.key, s.nodeCount)) =
        ds.map fun d => (d.1, d.2.length) := by
    intro ds
    induction ds with
    | nil => exact fun _ => rfl
    | cons d ds ih =>
      intro hsub
      obtain ⟨n, -, -, hd⟩ := summarize_group (hsub mem_cons_self)
      rw [filterMap_cons_some hd, map_cons, map_cons, ih fun d hd => hsub (mem_cons_of_mem _ hd)]
  rw [← hall _ (List.Subset.refl _), listArchitectureDomains]
  exact (sortBy_perm _ _).map _

theorem nodup_keys_catalog : ((listArchitectureDomains g project).map ArchitectureDomainSummary.key).Nodup := by
  have hperm := (catalog_perm g project).map Prod.fst
  rw [map_map, map_map] at hperm
  exact hperm.nodup_iff.mpr (nodup_keys_groups _ _)

theorem mem_catalog {s : ArchitectureDomainSummary} (h : s ∈ listArchitectureDomains g project) :
    s.representative ∈ g.projectNodes project ∧
      architectureDomain s.representative.filePath s.representative.label = s.key ∧
      s.nodeCount = (nodeDomainMap g project).countP fun d => d.architectureDomain = s.key := by
  obtain ⟨d, hd, hs⟩ := mem_listArchitectureDomains.mp h
  obtain ⟨n, hn, hkey, hsome⟩ := summarize_group hd
  obtain rfl := Option.some.inj (hs.symm.trans hsome)
  have hlen : d.2.length = (nodeDomainMap g project).countP fun r => r.architectureDomain = d.1 := by
    rw [countP_eq_length_filter, (mem_groups.mp hd).2]
  exact ⟨hn, hkey, hlen⟩

/-- Every domain with a node is in the catalog. -/
theorem exists_mem_catalog {d : NodeDomain} (h : d ∈ nodeDomainMap g project) :
    ∃ s ∈ listArchitectureDomains g project, s.key = d.architectureDomain := by
  have hgroup : (d.architectureDomain,
      (nodeDomainMap g project).filter fun r => r.architectureDomain = d.architectureDomain) ∈
      Rows.groups NodeDomain.architectureDomain (nodeDomainMap g project) :=
    mem_groups.mpr ⟨⟨d, h, rfl⟩, rfl⟩
  obtain ⟨n, -, -, hs⟩ := summarize_group hgroup
  exact ⟨_, mem_listArchitectureDomains.mpr ⟨_, hgroup, hs⟩, rfl⟩

/-- The number that the catalog gives for a key. -/
def catalogNodeCount (g : CodeGraph) (project key : Text) : ℕ :=
  ((Rows.get ArchitectureDomainSummary.key key (listArchitectureDomains g project)).map
    ArchitectureDomainSummary.nodeCount).getD 0

theorem catalogNodeCount_eq (key : Text) :
    catalogNodeCount g project key =
      (g.projectNodes project).countP fun n => architectureDomain n.filePath n.label = key := by
  have hmap : ((nodeDomainMap g project).countP fun d => d.architectureDomain = key) =
      (g.projectNodes project).countP fun n => architectureDomain n.filePath n.label = key := by
    rw [nodeDomainMap, countP_map]
    rfl
  rw [catalogNodeCount, ← hmap]
  cases hget : Rows.get ArchitectureDomainSummary.key key (listArchitectureDomains g project) with
  | some s =>
    obtain rfl := key_of_get hget
    exact (mem_catalog (mem_of_get hget)).2.2
  | none =>
    symm
    rw [Option.map_none, Option.getD_none, countP_eq_zero]
    intro d hd hkey
    obtain ⟨s, hs, hsd⟩ := exists_mem_catalog hd
    exact Rows.get_eq_none_iff.mp hget s hs (hsd.trans (by simpa using hkey))

theorem sum_catalog :
    ((listArchitectureDomains g project).map ArchitectureDomainSummary.nodeCount).sum = g.countNodes project := by
  have hperm := (catalog_perm g project).map Prod.snd
  rw [map_map, map_map] at hperm
  calc ((listArchitectureDomains g project).map ArchitectureDomainSummary.nodeCount).sum
      = ((Rows.groups NodeDomain.architectureDomain (nodeDomainMap g project)).map
          fun d => d.2.length).sum := hperm.sum_eq
    _ = (nodeDomainMap g project).length := sum_counts_all _ _
    _ = g.countNodes project := by rw [nodeDomainMap, length_map, CodeGraph.countNodes]

theorem domainTotalNodes_eq (key : Text) :
    domainTotalNodes g project key =
      (g.projectNodes project).countP fun n => graphDomainKey n.filePath n.label = key := by
  have hcollect (rows : List CodeNode) (o : Option (List ℕ)) :
      ((rows.foldl (fun o r => some (o.getD [] ++ [r.id])) o).getD []).length =
        (o.getD []).length + rows.length := by
    induction rows generalizing o with
    | nil => rfl
    | cons r rows ih =>
      rw [foldl_cons, ih]
      simp
      omega
  rw [domainTotalNodes, domainIds,
    OrderedMap.get_foldl_set (fun row : CodeNode => graphDomainKey row.filePath row.label)
      (fun row ids => ids.getD [] ++ [row.id]), hcollect, OrderedMap.get_empty]
  rw [← countP_eq_length_filter, Option.getD_none, length_nil, Nat.zero_add]
  exact (sortBy_perm _ _).countP_eq _

/-! ## One notion of domain -/

/-- The two classifications and their counts agree. -/
structure OneDomain (g : CodeGraph) (project : Text) : Prop where
  agree : ∀ n ∈ g.projectNodes project,
    architectureDomain n.filePath n.label = graphDomainKey n.filePath n.label
  counts : ∀ key, catalogNodeCount g project key = domainTotalNodes g project key
  total : ((listArchitectureDomains g project).map ArchitectureDomainSummary.nodeCount).sum =
    g.countNodes project
  representatives : ∀ s ∈ listArchitectureDomains g project,
    s.representative ∈ g.projectNodes project ∧
      graphDomainKey s.representative.filePath s.representative.label = s.key

/-- The notions are one exactly on the graphs whose paths both read alike. -/
theorem oneDomain_iff (g : CodeGraph) (project : Text) :
    OneDomain g project ↔ ∀ n ∈ g.projectNodes project, OneReading n.filePath n.label := by
  constructor
  · exact fun h n hn => (architectureDomain_eq_iff _ _).mp (h.agree n hn)
  · intro h
    have hagree : ∀ n ∈ g.projectNodes project,
        architectureDomain n.filePath n.label = graphDomainKey n.filePath n.label :=
      fun n hn => (architectureDomain_eq_iff _ _).mpr (h n hn)
    refine ⟨hagree, fun key => ?_, sum_catalog, fun s hs => ?_⟩
    · rw [catalogNodeCount_eq, domainTotalNodes_eq]
      exact countP_congr fun n hn => by rw [hagree n hn]
    · obtain ⟨hmem, hkey, -⟩ := mem_catalog hs
      exact ⟨hmem, (hagree _ hmem).symm.trans hkey⟩

/-- A file in a directory whose name is a digit and a colon. -/
def digitDriveGraph : CodeGraph where
  nodes := [⟨1, [], fileLabel, "a.ts".toList, "a".toList, "1:/src/a.ts".toList⟩]
  edges := []
  nodup_nodes := by decide
  nodup_edges := by decide

/-- SQL takes the digit for a drive, and `normalizeGraphPath` does not. -/
theorem digitDrive_two_domains : ¬∀ g project, OneDomain g project := by
  intro h
  have hone := (h digitDriveGraph []).agree _ (mem_filter.mpr ⟨mem_singleton_self _, by decide⟩)
  exact absurd hone (by decide)

end Ariad.Bridge
