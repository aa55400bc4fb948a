import Ariad.Bridge.ExactPages
import Ariad.Relational.Like

/-!
# The nodes of a directory

The reader keeps the memberships of directories in a small map for each project and revision of the graph. A
membership that is not there is read with a statement on the stored paths, and the rows are asked whether they belong
to the directory.

* `directoryWhere` — the condition of the statement: `directoryWhere_eq` says which paths it takes.
* `getDirectoryMembership` — the answer for a key, from the map or from the database.
* `DirectoryExact` — the stored paths of the nodes are spelled as the key: just then the answer is the directory.
-/

namespace Ariad.Bridge

open Keyset List OrderedMap

/-! ## The statement -/

def escapeLike (value : Text) : Text :=
  (value.flatMap fun c => if c = '\\' then ['\\', '\\'] else [c]).flatMap fun c =>
    if c = '%' ∨ c = '_' then ['\\', c] else [c]

/-- The condition on `file_path` in the statement for a directory. -/
def directoryWhere (normalizedKey filePath : Text) : Bool :=
  filePath = normalizedKey || Like.like (some '\\') (escapeLike normalizedKey ++ "/%".toList) filePath ||
    filePath = backslashes normalizedKey ||
    Like.like (some '\\') (escapeLike (backslashes normalizedKey) ++ "\\\\%".toList) filePath

def directoryRows (g : CodeGraph) (project normalizedKey : Text) : List CodeNode :=
  if normalizedKey = rootKey then orderBy CodeNode.id (g.projectNodes project)
  else orderBy CodeNode.id ((g.projectNodes project).filter fun n => directoryWhere normalizedKey n.filePath)

/-- The ids of the rows that belong to the directory. -/
def directoryIds (g : CodeGraph) (project normalizedKey : Text) : List ℕ :=
  ((directoryRows g project normalizedKey).filter fun n =>
    graphNodeBelongsToDirectory n.filePath n.label normalizedKey).map CodeNode.id

variable {g : CodeGraph}

theorem escapeLike_eq (value : Text) : escapeLike value = Like.escaped '\\' value := by
  rw [escapeLike, Like.escaped, flatMap_assoc]
  refine flatMap_congr fun c _ => ?_
  by_cases hc : c = '\\'
  · subst hc
    rfl
  · simp [hc]

/-- The key with a separator behind it, as a pattern of `LIKE`. -/
theorem escapeLike_append (value : Text) (c : Char) :
    escapeLike value ++ Like.escaped '\\' [c] = Like.escaped '\\' (value ++ [c]) := by
  rw [escapeLike_eq, Like.escaped, Like.escaped, Like.escaped, flatMap_append]

/-- Wildcards and backslashes in a key stand for themselves. -/
theorem directoryWhere_eq (normalizedKey filePath : Text) : directoryWhere normalizedKey filePath =
      (filePath = normalizedKey || likeStarts (normalizedKey ++ ['/']) filePath ||
        filePath = backslashes normalizedKey || likeStarts (backslashes normalizedKey ++ ['\\']) filePath) := by
  have hslash : escapeLike normalizedKey ++ "/%".toList = Like.escaped '\\' (normalizedKey ++ ['/']) ++ ['%'] := by
    rw [← escapeLike_append, append_assoc]
    rfl
  have hback : escapeLike (backslashes normalizedKey) ++ "\\\\%".toList =
      Like.escaped '\\' (backslashes normalizedKey ++ ['\\']) ++ ['%'] := by
    rw [← escapeLike_append, append_assoc]
    rfl
  rw [directoryWhere, hslash, hback, Like.like_escaped _ (by decide), Like.like_escaped _ (by decide)]
  rfl

theorem mem_directoryRows {project normalizedKey : Text} {n : CodeNode} : n ∈ directoryRows g project normalizedKey ↔
      n ∈ g.projectNodes project ∧ storedUnder normalizedKey n.filePath = true := by
  rw [directoryRows, storedUnder]
  split
  · rename_i hroot
    simp [hroot, mem_orderBy]
  · rename_i hroot
    rw [mem_orderBy, mem_filter, directoryWhere_eq]
    simp [hroot]

/-! ## The memberships that the reader keeps -/

structure ExactScopeIndex where
  graphRevision : Text
  directories : OrderedMap Text (List ℕ)

/-- The indexes by project and revision. -/
abbrev ExactScopeIndexes := OrderedMap (Text × Text) ExactScopeIndex

def MAX_EXACT_DIRECTORY_MEMBERSHIPS : ℕ := 24

/-- The index of a project and a revision. A new one takes the place of the indexes of other revisions and of the
project, and of the oldest ones. -/
def scopeIndex (project revision : Text) (indexes : ExactScopeIndexes) : ExactScopeIndex × ExactScopeIndexes :=
  match indexes.get (project, revision) with
  | some index => (index, indexes)
  | none =>
    let fresh := ⟨revision, .empty⟩
    let kept := indexes.filter fun k index => !(index.graphRevision ≠ revision || k.1 = project)
    (fresh, (kept.makeRoom 4).set (project, revision) fresh)

/-- The membership of a directory and the map behind it. -/
def directoryMembership (g : CodeGraph) (project key : Text) (directories : OrderedMap Text (List ℕ)) :
    List ℕ × OrderedMap Text (List ℕ) :=
  let normalizedKey := normalizeGraphPath key
  match directories.get normalizedKey with
  | some cached => (cached, (directories.delete normalizedKey).set normalizedKey cached)
  | none =>
    let membership := directoryIds g project normalizedKey
    (membership, (directories.makeRoom MAX_EXACT_DIRECTORY_MEMBERSHIPS).set normalizedKey membership)

structure ScopeCall where
  /-- What `getGraphRevision` returns. -/
  revision : Text
  project : Text
  key : Text

/-- A call for a directory, where the reader sees the graph of its revision. -/
def getDirectoryMembership (graphAt : Text → CodeGraph) (call : ScopeCall) (indexes : ExactScopeIndexes) :
    List ℕ × ExactScopeIndexes :=
  let (index, indexes) := scopeIndex call.project call.revision indexes
  let (membership, directories) :=
    directoryMembership (graphAt call.revision) call.project call.key index.directories
  (membership, indexes.set (call.project, call.revision) { index with directories })

/-- The indexes after some calls. -/
def indexesAfter (graphAt : Text → CodeGraph) (calls : List ScopeCall) : ExactScopeIndexes :=
  calls.foldl (fun indexes call => (getDirectoryMembership graphAt call indexes).2) .empty

/-- Every membership that is kept is the one that the database has. -/
def Current (graphAt : Text → CodeGraph) (indexes : ExactScopeIndexes) : Prop :=
  ∀ project revision index, indexes.get (project, revision) = some index →
    ∀ normalizedKey ids, index.directories.get normalizedKey = some ids →
      ids = directoryIds (graphAt revision) project normalizedKey

variable {graphAt : Text → CodeGraph} {indexes : ExactScopeIndexes}

theorem Current.scopeIndex (h : Current graphAt indexes) (project revision : Text) :
    Current graphAt (scopeIndex project revision indexes).2 ∧
      ∀ normalizedKey ids, (scopeIndex project revision indexes).1.directories.get normalizedKey = some ids →
        ids = directoryIds (graphAt revision) project normalizedKey := by
  rw [Bridge.scopeIndex]
  cases hget : indexes.get (project, revision) with
  | some index => exact ⟨h, h project revision index hget⟩
  | none =>
    refine ⟨fun p r index hindex => ?_, fun _ _ hids => by cases hids⟩
    dsimp only at hindex
    rw [get_set] at hindex
    split at hindex
    · obtain rfl := Option.some.inj hindex
      exact fun _ _ hids => by cases hids
    · exact h p r index (OrderedMap.get_filter (get_makeRoom hindex))

/-- The answer is what the database has, and what is kept stays so. -/
theorem directoryMembership_spec {project : Text} {directories : OrderedMap Text (List ℕ)}
    (h : ∀ k ids, directories.get k = some ids → ids = directoryIds g project k) (key : Text) :
    (directoryMembership g project key directories).1 = directoryIds g project (normalizeGraphPath key) ∧
      ∀ k ids, (directoryMembership g project key directories).2.get k = some ids → ids = directoryIds g project k := by
  rw [directoryMembership]
  cases hget : directories.get (normalizeGraphPath key) with
  | some cached =>
    refine ⟨h _ _ hget, fun k ids hids => ?_⟩
    dsimp only at hids
    rw [get_set] at hids
    split at hids
    · rename_i hk
      rw [← Option.some.inj hids, hk]
      exact h _ _ hget
    · rename_i hk
      rw [get_delete_of_ne hk] at hids
      exact h k ids hids
  | none =>
    refine ⟨rfl, fun k ids hids => ?_⟩
    dsimp only at hids
    rw [get_set] at hids
    split at hids
    · rename_i hk
      rw [← Option.some.inj hids, hk]
    · exact h k ids (get_makeRoom hids)

theorem getDirectoryMembership_spec (h : Current graphAt indexes) (call : ScopeCall) :
    (getDirectoryMembership graphAt call indexes).1 =
        directoryIds (graphAt call.revision) call.project (normalizeGraphPath call.key) ∧
      Current graphAt (getDirectoryMembership graphAt call indexes).2 := by
  obtain ⟨hcurrent, hindex⟩ := h.scopeIndex call.project call.revision
  obtain ⟨hids, hdirectories⟩ := directoryMembership_spec hindex call.key
  refine ⟨hids, fun p r index hget => ?_⟩
  rw [getDirectoryMembership] at hget
  dsimp only at hget
  rw [get_set] at hget
  split at hget
  · rename_i hk
    obtain ⟨rfl, rfl⟩ := Prod.mk.inj hk
    obtain rfl := Option.some.inj hget
    exact hdirectories
  · exact hcurrent p r index hget

theorem current_indexesAfter (graphAt : Text → CodeGraph) (calls : List ScopeCall) :
    Current graphAt (indexesAfter graphAt calls) := by
  induction calls using List.reverseRecOn with
  | nil => exact fun _ _ _ h => by cases h
  | append_singleton calls call ih =>
    rw [indexesAfter, foldl_append]
    exact (getDirectoryMembership_spec ih call).2

/-! ## Which directories are exact -/

/-- The ids of the nodes that belong to the directory. -/
def nodesOfDirectory (g : CodeGraph) (project key : Text) : List ℕ :=
  ((g.projectNodes project).filter fun n => graphNodeBelongsToDirectory n.filePath n.label key).map CodeNode.id

/-- Every node of the directory is stored under the key as the statement spells it. A key that begins with a drive
again when it is normalised is normalised once more before the rows are asked: then the nodes stored under the
drive are those of the directory. -/
def DirectoryExact (g : CodeGraph) (project key : Text) : Prop :=
  let normalizedKey := normalizeGraphPath key
  if normalizeGraphPath normalizedKey = normalizedKey then
    ∀ n ∈ g.projectNodes project, graphNodeBelongsToDirectory n.filePath n.label key = true →
      storedUnder normalizedKey n.filePath = true
  else
    ∀ n ∈ g.projectNodes project, storedUnder normalizedKey n.filePath = true ∧
      graphNodeBelongsToDirectory n.filePath n.label normalizedKey = true ↔
        graphNodeBelongsToDirectory n.filePath n.label key = true

theorem mem_directoryIds {project normalizedKey : Text} {id : ℕ} :
    id ∈ directoryIds g project normalizedKey ↔ ∃ n ∈ g.projectNodes project,
      (storedUnder normalizedKey n.filePath = true ∧
        graphNodeBelongsToDirectory n.filePath n.label normalizedKey = true) ∧ n.id = id := by
  simp only [directoryIds, mem_map, mem_filter, mem_directoryRows, and_assoc]

theorem mem_nodesOfDirectory {project key : Text} {id : ℕ} :
    id ∈ nodesOfDirectory g project key ↔ ∃ n ∈ g.projectNodes project,
      graphNodeBelongsToDirectory n.filePath n.label key = true ∧ n.id = id := by
  simp only [nodesOfDirectory, mem_map, mem_filter, and_assoc]

/-- Two conditions on nodes give the same ids just if they are the same. -/
theorem ids_eq_iff {nodes : List CodeNode} (hnodup : (nodes.map CodeNode.id).Nodup) (p q : CodeNode → Prop) :
    (∀ id, (∃ n ∈ nodes, p n ∧ n.id = id) ↔ ∃ n ∈ nodes, q n ∧ n.id = id) ↔ ∀ n ∈ nodes, p n ↔ q n := by
  have hinj := inj_on_of_nodup_map hnodup
  constructor
  · intro h n hn
    constructor
    · intro hp
      obtain ⟨m, hm, hq, hid⟩ := (h n.id).mp ⟨n, hn, hp, rfl⟩
      exact hinj hm hn hid ▸ hq
    · intro hq
      obtain ⟨m, hm, hp, hid⟩ := (h n.id).mpr ⟨n, hn, hq, rfl⟩
      exact hinj hm hn hid ▸ hp
  · exact fun h id => exists_congr fun n => and_congr_right fun hn => and_congr_left fun _ => h n hn

theorem belongs_normalizeGraphPath {key : Text}
    (h : normalizeGraphPath (normalizeGraphPath key) = normalizeGraphPath key) (filePath label : Text) :
    graphNodeBelongsToDirectory filePath label (normalizeGraphPath key) =
      graphNodeBelongsToDirectory filePath label key := by
  rw [graphNodeBelongsToDirectory, graphNodeBelongsToDirectory, h]

/-- After any calls, the answer for a directory is the set of its nodes just if the directory is exact. -/
theorem getDirectoryMembership_exact_iff (graphAt : Text → CodeGraph) (calls : List ScopeCall) (call : ScopeCall) :
    (∀ id, id ∈ (getDirectoryMembership graphAt call (indexesAfter graphAt calls)).1 ↔
        id ∈ nodesOfDirectory (graphAt call.revision) call.project call.key) ↔
      DirectoryExact (graphAt call.revision) call.project call.key := by
  rw [(getDirectoryMembership_spec (current_indexesAfter graphAt calls) call).1]
  simp only [mem_directoryIds, mem_nodesOfDirectory]
  rw [ids_eq_iff ((graphAt call.revision).nodup_projectNodes call.project), DirectoryExact]
  split
  · rename_i hkey
    -- The predicate is the same for both spellings, so only the statement can lose a node.
    refine forall₂_congr fun n _ => ?_
    rw [belongs_normalizeGraphPath hkey]
    exact ⟨fun h hbelongs => (h.mpr hbelongs).1, fun h => ⟨And.right, fun hbelongs => ⟨h hbelongs, hbelongs⟩⟩⟩
  · exact Iff.rfl

/-- A function in a file of a Windows path with its drive. -/
def driveGraph : CodeGraph where
  nodes := [⟨1, "p".toList, "Function".toList, "f".toList, "f".toList, "C:\\src\\a.ts".toList⟩]
  edges := []
  nodup_nodes := by decide
  nodup_edges := List.nodup_nil

theorem getDirectoryMembership_drive :
    ¬∀ (graphAt : Text → CodeGraph) (calls : List ScopeCall) (call : ScopeCall) (id : ℕ),
      id ∈ (getDirectoryMembership graphAt call (indexesAfter graphAt calls)).1 ↔
        id ∈ nodesOfDirectory (graphAt call.revision) call.project call.key := by
  intro h
  have hids := h (fun _ => driveGraph) [] ⟨[], "p".toList, "src".toList⟩ 1
  exact absurd hids (by decide)

end Ariad.Bridge
