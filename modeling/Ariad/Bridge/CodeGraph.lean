import Ariad.Indexer.Paths
import Ariad.Javascript.OrderedMap
import Ariad.Relational.Groups

/-!
# The code graph that a reader sees

* `CodeGraph` — the tables `nodes` and `edges`, with their primary keys.
* `normalizeGraphPath`, `graphCommunityKey`, `graphDomainKey` — where a node belongs, by its stored path and
  its label.
-/

namespace Ariad.Bridge

open List

/-! ## The tables -/

/-- A row of `nodes`. -/
structure CodeNode where
  id : ℕ
  project : Text
  label : Text
  name : Text
  qualifiedName : Text
  filePath : Text
  deriving DecidableEq

/-- A row of `edges`. -/
structure CodeEdge where
  id : ℕ
  project : Text
  sourceId : ℕ
  targetId : ℕ
  type : Text
  deriving DecidableEq

/-- The tables of a graph, the rows in any order. -/
structure CodeGraph where
  nodes : List CodeNode
  edges : List CodeEdge
  nodup_nodes : (nodes.map CodeNode.id).Nodup
  nodup_edges : (edges.map CodeEdge.id).Nodup

namespace CodeGraph

variable (g : CodeGraph) (project : Text)

/-- `SELECT … FROM nodes WHERE project = ?`. -/
def projectNodes : List CodeNode := g.nodes.filter fun n => n.project = project

/-- `SELECT … FROM edges WHERE project = ?`. -/
def projectEdges : List CodeEdge := g.edges.filter fun e => e.project = project

def countNodes : ℕ := (g.projectNodes project).length

theorem nodup_projectNodes : ((g.projectNodes project).map CodeNode.id).Nodup :=
  g.nodup_nodes.sublist (filter_sublist.map _)

variable {g project}

/-- A node of the project is found under its id. -/
theorem get_projectNodes {n : CodeNode} (h : n ∈ g.projectNodes project) :
    Rows.get CodeNode.id n.id (g.projectNodes project) = some n :=
  (Rows.get_eq_some_iff (g.nodup_projectNodes project)).mpr ⟨h, rfl⟩

end CodeGraph

/-! ## Paths -/

/-- The labels of nodes that are directories. -/
def directoryLabels : List Text := ["Directory".toList, "Folder".toList]

/-- `replace(/\\/gu, '/')`. -/
def slashes (path : Text) : Text := path.map fun c => if c = '\\' then '/' else c

/-- `replace(/^[A-Za-z]:\//u, '')`. -/
def dropDrive : Text → Text
  | c :: ':' :: '/' :: rest => if c.isAlpha then rest else c :: ':' :: '/' :: rest
  | path => path

/-- `replace(/^\/+|\/+$/gu, '')`. -/
def trimSlashes (path : Text) : Text := (path.dropWhile (· = '/')).rdropWhile (· = '/')

/-- Stored paths of all systems in one form. -/
def normalizeGraphPath (filePath : Text) : Text := trimSlashes (dropDrive (slashes filePath))

/-- `split('/').filter(Boolean)`. -/
def segments (path : Text) : List Text := (path.splitOn '/').filter (· ≠ [])

/-- `join('/')`. -/
def joinSlash (parts : List Text) : Text := ['/'].intercalate parts

def virtualKey : Text := "(virtual)".toList

def rootKey : Text := "(root)".toList

/-- A directory node stands at its path, every other node in the directory above. -/
def directoriesOf (label : Text) (parts : List Text) : List Text :=
  if label ∈ directoryLabels then parts else parts.dropLast

/-- The directory community of the architecture overview. -/
def graphCommunityKey (filePath label : Text) : Text :=
  let normalized := normalizeGraphPath filePath
  let directories := directoriesOf label (segments normalized)
  if directories = [] then
    if normalized ≠ [] then rootKey else virtualKey ++ '/' :: label
  else joinSlash (directories.take 3)

def architectureDomainKey (communityKey : Text) : Text := (segments communityKey).headD virtualKey

def graphDomainKey (filePath label : Text) : Text := architectureDomainKey (graphCommunityKey filePath label)

/-- `<` and `>` on strings compare code units. -/
def stableStringCompare (left right : Text) : Ordering := compare (left.flatMap utf16) (right.flatMap utf16)

/-! ## Segments -/

theorem slash_notMem_of_mem_splitOn {t s : Text} (h : s ∈ t.splitOn '/') : '/' ∉ s := by
  induction t generalizing s with
  | nil =>
    rw [splitOn_nil, mem_singleton] at h
    simp [h]
  | cons c t ih =>
    rw [splitOn_cons_eq_if_modifyHead] at h
    split at h
    · rcases mem_cons.mp h with rfl | h
      · simp
      · exact ih h
    · rename_i hc
      -- The character joins the first segment of the rest.
      obtain ⟨head, tail, hsplit⟩ := exists_cons_of_ne_nil (splitOn_ne_nil '/' t)
      rw [hsplit, modifyHead_cons] at h
      rcases mem_cons.mp h with rfl | h
      · have hhead : '/' ∉ head := ih (hsplit ▸ mem_cons_self)
        simp only [beq_iff_eq] at hc
        simpa [hhead] using Ne.symm hc
      · exact ih (hsplit ▸ mem_cons_of_mem _ h)

theorem mem_segments {path s : Text} (h : s ∈ segments path) : s ≠ [] ∧ '/' ∉ s := by
  obtain ⟨hs, hne⟩ := mem_filter.mp h
  exact ⟨by simpa using hne, slash_notMem_of_mem_splitOn hs⟩

/-- Segments that are joined are read back. -/
theorem segments_joinSlash {parts : List Text} (h : ∀ s ∈ parts, s ≠ [] ∧ '/' ∉ s) :
    segments (joinSlash parts) = parts := by
  by_cases hp : parts = []
  · subst hp
    rfl
  · rw [segments, joinSlash, splitOn_intercalate '/' (fun s hs => (h s hs).2) hp, filter_eq_self]
    exact fun s hs => by simpa using (h s hs).1

theorem segments_of_slash_notMem {s : Text} (hs : '/' ∉ s) (hne : s ≠ []) : segments s = [s] := by
  rw [segments, splitOn_eq_singleton hs]
  simp [hne]

theorem segments_append_slash (s t : Text) : segments (s ++ '/' :: t) = segments s ++ segments t := by
  rw [segments, splitOn_append_cons_self, filter_append, ← segments, ← segments]

/-- The text up to the first slash, and what is behind it. -/
theorem exists_first_slash {t : Text} (h : '/' ∈ t) :
    ∃ s rest, '/' ∉ s ∧ t.takeWhile (· ≠ '/') = s ∧ t = s ++ '/' :: rest := by
  obtain ⟨s, rest, rfl, hs⟩ := eq_append_cons_of_mem h
  refine ⟨s, rest, hs, ?_, rfl⟩
  rw [takeWhile_append_of_pos fun c hc => by simpa using fun hcs : c = '/' => hs (hcs ▸ hc)]
  simp

theorem segments_cons_ne_nil {c : Char} (hc : c ≠ '/') (t : Text) : segments (c :: t) ≠ [] := by
  obtain ⟨head, tail, hsplit⟩ := exists_cons_of_ne_nil (splitOn_ne_nil '/' t)
  rw [segments, splitOn_cons_eq_if_modifyHead, if_neg (by simpa using hc), hsplit, modifyHead_cons]
  simp

/-- A text with a character that is no slash has a segment. -/
theorem segments_ne_nil {t : Text} {c : Char} (h : c ∈ t) (hc : c ≠ '/') : segments t ≠ [] := by
  induction t with
  | nil => cases h
  | cons d t ih =>
    by_cases hd : d = '/'
    · have hslash : segments (d :: t) = segments t := by
        rw [hd]
        exact segments_append_slash [] t
      rw [hslash]
      exact ih ((mem_cons.mp h).resolve_left fun hcd => hc (hcd.trans hd))
    · exact segments_cons_ne_nil hd t

end Ariad.Bridge
