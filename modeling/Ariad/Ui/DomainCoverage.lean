import Ariad.Bridge.CodeGraph
import Ariad.Relational.Replacement

/-!
# The domains of the overview

The overview has a bounded number of nodes. Nodes are replaced until as many architecture domains as possible have
a node in it, without a domain or a label going lost.

* `ensureArchitectureDomainCoverage` — the replacements, with counters of the nodes of a domain and of a label.
* `Counted` — the counters are the numbers of nodes.
* `Refused` — no node can be given up for a candidate; later replacements do not change that.
* `ensureArchitectureDomainCoverage_covers` — what the list at the end has.
-/

namespace Ariad.Ui

open Bridge Replacement List OrderedMap

/-- What the layout reads of a node. A path that is null is the empty one. -/
class ClusterableNode (τ : Type) where
  nodeId : τ → ℕ
  label : τ → Text
  filePath : τ → Text

open ClusterableNode

instance : ClusterableNode CodeNode where
  nodeId := CodeNode.id
  label := CodeNode.label
  filePath := CodeNode.filePath

variable {τ : Type} [ClusterableNode τ]

def domainFor (node : τ) : Text := architectureDomainKey (graphCommunityKey (filePath node) (label node))

/-! ## The replacements -/

structure CoverageState (τ : Type) where
  nodes : List τ
  domainCounts : OrderedMap Text ℕ
  labelCounts : OrderedMap Text ℕ
  selectedIds : Finset ℕ

/-- `counts.get(key) ?? 0` -/
def countOf (counts : OrderedMap Text ℕ) (key : Text) : ℕ := (counts.get key).getD 0

/-- `counts.set(key, (counts.get(key) ?? 0) + 1)` -/
def increment (counts : OrderedMap Text ℕ) (key : Text) : OrderedMap Text ℕ := counts.set key (countOf counts key + 1)

/-- `counts.set(key, (counts.get(key) ?? 1) - 1)` -/
def decrement (counts : OrderedMap Text ℕ) (key : Text) : OrderedMap Text ℕ :=
  counts.set key ((counts.get key).getD 1 - 1)

def countNode (s : CoverageState τ) (node : τ) : CoverageState τ :=
  { s with
    domainCounts := increment s.domainCounts (domainFor node)
    labelCounts := increment s.labelCounts (label node)
    selectedIds := insert (nodeId node) s.selectedIds }

def initialCoverage (selectedNodes : List τ) : CoverageState τ :=
  selectedNodes.foldl countNode ⟨selectedNodes, .empty, .empty, ∅⟩

def addRepresentative (m : OrderedMap Text τ) (candidate : τ) : OrderedMap Text τ :=
  match m.get (domainFor candidate) with
  | none => m.set (domainFor candidate) candidate
  | some existing => if nodeId candidate < nodeId existing then m.set (domainFor candidate) candidate else m

/-- The candidate with the lowest id of each domain. -/
def representativeByDomain (coverageCandidates : List τ) : OrderedMap Text τ :=
  coverageCandidates.foldl addRepresentative .empty

/-- A node with the label of the candidate in a domain with several nodes. -/
def sameLabel (s : CoverageState τ) (candidate current : τ) : Bool :=
  label current = label candidate && 1 < countOf s.domainCounts (domainFor current)

/-- A node whose domain and whose label have several nodes. -/
def spare (s : CoverageState τ) (current : τ) : Bool :=
  1 < countOf s.domainCounts (domainFor current) && 1 < countOf s.labelCounts (label current)

def replacementIndex (s : CoverageState τ) (candidate : τ) : Option ℕ :=
  (lastIndex (sameLabel s candidate) s.nodes).or (lastIndex (spare s) s.nodes)

def appendCandidate (s : CoverageState τ) (domain : Text) (candidate : τ) : CoverageState τ where
  nodes := s.nodes ++ [candidate]
  selectedIds := insert (nodeId candidate) s.selectedIds
  domainCounts := s.domainCounts.set domain 1
  labelCounts := increment s.labelCounts (label candidate)

def replaceNode (s : CoverageState τ) (index : ℕ) (replaced : τ) (domain : Text) (candidate : τ) : CoverageState τ where
  nodes := s.nodes.set index candidate
  selectedIds := insert (nodeId candidate) (s.selectedIds.erase (nodeId replaced))
  domainCounts := (decrement s.domainCounts (domainFor replaced)).set domain 1
  labelCounts := increment (decrement s.labelCounts (label replaced)) (label candidate)

def coverDomain (maxNodes : ℕ) (s : CoverageState τ) (entry : Text × τ) : CoverageState τ :=
  let (domain, candidate) := entry
  if 0 < countOf s.domainCounts domain ∨ nodeId candidate ∈ s.selectedIds then s
  else if s.nodes.length < maxNodes then appendCandidate s domain candidate
  else
    match replacementIndex s candidate with
    | none => s
    | some index =>
      match s.nodes[index]? with
      | some replaced => replaceNode s index replaced domain candidate
      | none => s

def ensureArchitectureDomainCoverage (selectedNodes coverageCandidates : List τ) (maxNodes : ℕ) : List τ :=
  if selectedNodes = [] ∨ coverageCandidates = [] ∨ maxNodes = 0 then selectedNodes
  else
    ((sortBy (fun left right => stableStringCompare left.1 right.1)
      (representativeByDomain coverageCandidates).entries).foldl (coverDomain maxNodes)
        (initialCoverage selectedNodes)).nodes

/-! ## The counters -/

/-- The counters are the numbers of nodes, and no node is in the list twice. -/
structure Counted (s : CoverageState τ) : Prop where
  domains (domain : Text) : countOf s.domainCounts domain = classCount domainFor s.nodes domain
  labels (l : Text) : countOf s.labelCounts l = classCount label s.nodes l
  ids : s.selectedIds = (s.nodes.map nodeId).toFinset
  nodup : (s.nodes.map (nodeId (τ := τ))).Nodup

variable {nodes nodes' : List τ}

theorem countOf_set (counts : OrderedMap Text ℕ) (key k : Text) (n : ℕ) :
    countOf (counts.set key n) k = if k = key then n else countOf counts k := by
  rw [countOf, get_set]
  split
  · rfl
  · rfl

theorem countOf_increment (counts : OrderedMap Text ℕ) (key k : Text) :
    countOf (increment counts key) k = countOf counts k + if key = k then 1 else 0 := by
  rw [increment, countOf_set]
  by_cases h : k = key
  · rw [if_pos h, if_pos h.symm, h]
  · rw [if_neg h, if_neg (Ne.symm h)]
    rfl

theorem countOf_decrement (counts : OrderedMap Text ℕ) (key k : Text) :
    countOf (decrement counts key) k = countOf counts k - if key = k then 1 else 0 := by
  rw [decrement, countOf_set]
  by_cases h : k = key
  · rw [if_pos h, if_pos h.symm, h, countOf]
    cases counts.get key with
    | none => rfl
    | some n => rfl
  · rw [if_neg h, if_neg (Ne.symm h)]
    rfl

theorem foldl_countNode (rest : List τ) (s : CoverageState τ) : (rest.foldl countNode s).nodes = s.nodes ∧
    (∀ d, countOf (rest.foldl countNode s).domainCounts d = countOf s.domainCounts d + classCount domainFor rest d) ∧
    (∀ l, countOf (rest.foldl countNode s).labelCounts l = countOf s.labelCounts l + classCount label rest l) ∧
    (rest.foldl countNode s).selectedIds = s.selectedIds ∪ (rest.map nodeId).toFinset := by
  induction rest generalizing s with
  | nil => exact ⟨rfl, fun _ => rfl, fun _ => rfl, by simp⟩
  | cons node rest ih =>
    obtain ⟨hnodes, hdomains, hlabels, hids⟩ := ih (countNode s node)
    refine ⟨hnodes, fun d => ?_, fun l => ?_, ?_⟩
    · rw [foldl_cons, hdomains, countNode, countOf_increment, classCount_cons]
      omega
    · rw [foldl_cons, hlabels, countNode, countOf_increment, classCount_cons]
      omega
    · rw [foldl_cons, hids, countNode]
      ext n
      simp [or_comm, or_assoc]

theorem nodes_initialCoverage (selectedNodes : List τ) : (initialCoverage selectedNodes).nodes = selectedNodes :=
  (foldl_countNode selectedNodes _).1

theorem counted_initialCoverage {selectedNodes : List τ} (h : (selectedNodes.map (nodeId (τ := τ))).Nodup) :
    Counted (initialCoverage selectedNodes) := by
  obtain ⟨-, hdomains, hlabels, hids⟩ := foldl_countNode selectedNodes ⟨selectedNodes, .empty, .empty, ∅⟩
  constructor
  · intro d
    rw [nodes_initialCoverage, initialCoverage, hdomains]
    exact Nat.zero_add _
  · intro l
    rw [nodes_initialCoverage, initialCoverage, hlabels]
    exact Nat.zero_add _
  · rw [nodes_initialCoverage, initialCoverage, hids]
    simp
  · rw [nodes_initialCoverage]
    exact h

/-! ## One domain -/

/-- The node can be given up for the candidate. -/
def CanBeGivenUp (nodes : List τ) (candidate node : τ) : Prop :=
  1 < classCount domainFor nodes (domainFor node) ∧
    (label node = label candidate ∨ 1 < classCount label nodes (label node))

/-- What the list becomes for a candidate. -/
inductive CoverStep (maxNodes : ℕ) (candidate : τ) : List τ → List τ → Prop
  | present {nodes : List τ} :
    0 < classCount domainFor nodes (domainFor candidate) ∨ nodeId candidate ∈ nodes.map nodeId →
      CoverStep maxNodes candidate nodes nodes
  | appended {nodes : List τ} :
    nodes.length < maxNodes → nodeId candidate ∉ nodes.map nodeId → CoverStep maxNodes candidate nodes (nodes ++ [candidate])
  | refused {nodes : List τ} :
    maxNodes ≤ nodes.length → (∀ node ∈ nodes, ¬CanBeGivenUp nodes candidate node) →
      CoverStep maxNodes candidate nodes nodes
  | replaced {pre post : List τ} {node : τ} :
    nodeId candidate ∉ (pre ++ node :: post).map nodeId →
      classCount domainFor (pre ++ node :: post) (domainFor candidate) = 0 →
        CanBeGivenUp (pre ++ node :: post) candidate node →
          CoverStep maxNodes candidate (pre ++ node :: post) (pre ++ candidate :: post)

variable {s : CoverageState τ} {maxNodes : ℕ} {candidate : τ}

theorem Counted.mem_selectedIds (hs : Counted s) : nodeId candidate ∈ s.selectedIds ↔ nodeId candidate ∈ s.nodes.map nodeId := by
  rw [hs.ids, mem_toFinset]

theorem Counted.append (hs : Counted s) (hdomain : classCount domainFor s.nodes (domainFor candidate) = 0)
    (hid : nodeId candidate ∉ s.nodes.map nodeId) : Counted (appendCandidate s (domainFor candidate) candidate) where
  domains d := by
    rw [appendCandidate, countOf_set, classCount_concat]
    by_cases h : d = domainFor candidate
    · rw [if_pos h, if_pos h.symm, h, hdomain]
    · rw [if_neg h, if_neg (Ne.symm h), hs.domains]
      rfl
  labels l := by
    rw [appendCandidate, countOf_increment, classCount_concat, hs.labels]
  ids := by
    rw [appendCandidate, hs.ids]
    ext n
    simp [or_comm]
  nodup := by
    rw [appendCandidate, map_append, List.nodup_append]
    exact ⟨hs.nodup, nodup_singleton _, fun a ha b hb hab => hid (by rw [← mem_singleton.mp hb, ← hab]; exact ha)⟩

theorem Counted.replace {pre post : List τ} {node : τ} (hs : Counted s) (hnodes : s.nodes = pre ++ node :: post)
    (hdomain : classCount domainFor s.nodes (domainFor candidate) = 0) (hid : nodeId candidate ∉ s.nodes.map nodeId) :
    Counted (replaceNode s pre.length node (domainFor candidate) candidate) := by
  have hset : s.nodes.set pre.length candidate = pre ++ candidate :: post := by rw [hnodes, set_split]
  have hnodup := hs.nodup
  rw [hnodes] at hdomain hid hnodup
  constructor
  · intro d
    change countOf ((decrement s.domainCounts (domainFor node)).set (domainFor candidate) 1) d =
      classCount domainFor (s.nodes.set pre.length candidate) d
    rw [hset, countOf_set]
    have hreplace := classCount_replace domainFor pre post node candidate d
    by_cases h : d = domainFor candidate
    · rw [if_pos h]
      subst h
      rw [hdomain, if_pos rfl] at hreplace
      have hne : ¬domainFor node = domainFor candidate := by
        intro heq
        have hpos : 0 < classCount domainFor (pre ++ node :: post) (domainFor candidate) :=
          classCount_pos.mpr ⟨node, by simp, heq⟩
        omega
      rw [if_neg hne] at hreplace
      omega
    · rw [if_neg h, countOf_decrement, hs.domains, hnodes]
      rw [if_neg (Ne.symm h)] at hreplace
      omega
  · intro l
    change countOf (increment (decrement s.labelCounts (label node)) (label candidate)) l =
      classCount label (s.nodes.set pre.length candidate) l
    rw [hset, countOf_increment, countOf_decrement, hs.labels, hnodes]
    have hreplace := classCount_replace label pre post node candidate l
    have hpos : label node = l → 0 < classCount label (pre ++ node :: post) l := fun h =>
      classCount_pos.mpr ⟨node, by simp, h⟩
    split at hreplace
    · rename_i h
      have := hpos h
      rw [if_pos h]
      omega
    · rename_i h
      rw [if_neg h]
      omega
  · change insert (nodeId candidate) (s.selectedIds.erase (nodeId node)) =
      ((s.nodes.set pre.length candidate).map nodeId).toFinset
    rw [hset, hs.ids, hnodes]
    ext n
    have hnode : nodeId node ∉ pre.map nodeId ++ post.map nodeId := by
      rw [map_append, map_cons] at hnodup
      exact (nodup_middle.mp hnodup).notMem
    rw [mem_append, not_or] at hnode
    simp only [map_append, map_cons, Finset.mem_insert, Finset.mem_erase, mem_toFinset, mem_append,
      mem_cons]
    by_cases hn : n = nodeId node
    · subst hn
      simp only [ne_eq, not_true_eq_false, false_and, or_false, hnode.1, hnode.2, false_or]
    · simp only [ne_eq, hn, not_false_eq_true, true_and, false_or]
      exact or_left_comm
  · rw [replaceNode, hset]
    exact nodup_replace hnodup hid

/-- The loop finds a node that can be given up, if there is one. -/
theorem replacementIndex_spec (hs : Counted s) (candidate : τ) :
    (replacementIndex s candidate = none ∧ ∀ node ∈ s.nodes, ¬CanBeGivenUp s.nodes candidate node) ∨
      ∃ pre node post, s.nodes = pre ++ node :: post ∧ replacementIndex s candidate = some pre.length ∧
        CanBeGivenUp s.nodes candidate node := by
  have hsame (node : τ) : sameLabel s candidate node = true ↔
      label node = label candidate ∧ 1 < classCount domainFor s.nodes (domainFor node) := by
    simp [sameLabel, hs.domains]
  have hspare (node : τ) : spare s node = true ↔
      1 < classCount domainFor s.nodes (domainFor node) ∧ 1 < classCount label s.nodes (label node) := by
    simp [spare, hs.domains, hs.labels]
  rw [replacementIndex]
  cases hfirst : lastIndex (sameLabel s candidate) s.nodes with
  | some index =>
    obtain ⟨pre, node, post, hnodes, rfl, hnode, -⟩ := exists_split_of_lastIndex hfirst
    obtain ⟨hlabel, hdomain⟩ := (hsame node).mp hnode
    exact .inr ⟨pre, node, post, hnodes, rfl, hdomain, .inl hlabel⟩
  | none =>
    cases hsecond : lastIndex (spare s) s.nodes with
    | some index =>
      obtain ⟨pre, node, post, hnodes, rfl, hnode, -⟩ := exists_split_of_lastIndex hsecond
      obtain ⟨hdomain, hlabel⟩ := (hspare node).mp hnode
      exact .inr ⟨pre, node, post, hnodes, rfl, hdomain, .inr hlabel⟩
    | none =>
      refine .inl ⟨rfl, fun node hmem => ?_⟩
      rintro ⟨hdomain, hlabel | hlabel⟩
      · have hno := lastIndex_eq_none.mp hfirst node hmem
        rw [(hsame node).mpr ⟨hlabel, hdomain⟩] at hno
        cases hno
      · have hno := lastIndex_eq_none.mp hsecond node hmem
        rw [(hspare node).mpr ⟨hdomain, hlabel⟩] at hno
        cases hno

/-- A turn of the loop makes one step of the list, and the counters stay right. -/
theorem coverDomain_spec (hs : Counted s) (maxNodes : ℕ) (candidate : τ) :
    Counted (coverDomain maxNodes s (domainFor candidate, candidate)) ∧
      CoverStep maxNodes candidate s.nodes (coverDomain maxNodes s (domainFor candidate, candidate)).nodes := by
  rw [coverDomain]
  split
  · rename_i hpresent
    rw [hs.domains, hs.mem_selectedIds] at hpresent
    exact ⟨hs, .present hpresent⟩
  · rename_i hpresent
    rw [hs.domains, hs.mem_selectedIds] at hpresent
    obtain ⟨hdomain, hid⟩ := not_or.mp hpresent
    have hnone : classCount domainFor s.nodes (domainFor candidate) = 0 := Nat.eq_zero_of_not_pos hdomain
    split
    · rename_i hroom
      exact ⟨hs.append hnone hid, .appended hroom hid⟩
    · rename_i hroom
      rcases replacementIndex_spec hs candidate with ⟨hindex, hrefused⟩ | ⟨pre, node, post, hnodes, hindex, hnode⟩
      · rw [hindex]
        exact ⟨hs, .refused (Nat.le_of_not_lt hroom) hrefused⟩
      · have hget : s.nodes[pre.length]? = some node := by simp [hnodes]
        rw [hindex]
        dsimp only
        rw [hget]
        refine ⟨hs.replace hnodes hnone hid, ?_⟩
        change CoverStep maxNodes candidate s.nodes (s.nodes.set pre.length candidate)
        rw [hnodes] at hid hnone hnode ⊢
        rw [set_split]
        exact .replaced hid hnone hnode

/-! ## All domains -/

/-- The list is full, and no node of it can be given up for the candidate. -/
def Refused (maxNodes : ℕ) (candidate : τ) (nodes : List τ) : Prop :=
  maxNodes ≤ nodes.length ∧ ∀ node ∈ nodes, ¬CanBeGivenUp nodes candidate node

/-- A domain or a label that is there stays. -/
theorem CoverStep.represented (h : CoverStep maxNodes candidate nodes nodes') (k : Text) :
    (0 < classCount domainFor nodes k → 0 < classCount domainFor nodes' k) ∧
      (0 < classCount label nodes k → 0 < classCount label nodes' k) := by
  cases h with
  | present => exact ⟨fun h => h, fun h => h⟩
  | refused => exact ⟨fun h => h, fun h => h⟩
  | appended =>
    rw [classCount_concat, classCount_concat]
    exact ⟨Nat.lt_add_right _, Nat.lt_add_right _⟩
  | replaced hid hnone hnode =>
    exact ⟨represented_replace (.inl hnode.1), represented_replace hnode.2.symm⟩

/-- Later candidates take nothing that could be given up for this one. -/
theorem CoverStep.refused_of_refused {c : τ} (h : CoverStep maxNodes c nodes nodes')
    (hr : Refused maxNodes candidate nodes) : Refused maxNodes candidate nodes' := by
  cases h with
  | present => exact hr
  | refused => exact hr
  | appended hroom => exact absurd hr.1 (Nat.not_le_of_lt hroom)
  | @replaced pre post node hid hnone hnode =>
    -- The node that goes has the only label of its kind, so it is replaced by one with the same label.
    have hnot := hr.2 node (by simp)
    have hlabel : label node = label c := by
      rcases hnode.2 with h | h
      · exact h
      · exact absurd ⟨hnode.1, .inr h⟩ hnot
    refine ⟨by simpa using hr.1, fun m hm hgive => ?_⟩
    have hlabels := classCount_replace label pre post node c (label m)
    have hdomains := classCount_replace domainFor pre post node c (domainFor m)
    rw [hlabel] at hlabels
    obtain ⟨hdomain, hgive⟩ := hgive
    by_cases hc : domainFor c = domainFor m
    · rw [← hc] at hdomain hdomains
      rw [hnone, if_pos rfl] at hdomains
      omega
    · rw [if_neg hc] at hdomains
      have hold : m ∈ pre ++ node :: post := by
        rw [mem_append, mem_cons] at hm ⊢
        rcases hm with hm | rfl | hm
        · exact .inl hm
        · exact absurd rfl hc
        · exact .inr (.inr hm)
      refine hr.2 m hold ⟨by omega, hgive.imp_right fun h => ?_⟩
      omega

/-- Nodes with the same id are the same. -/
def IdsIdentify (nodes : List τ) : Prop := ∀ a ∈ nodes, ∀ b ∈ nodes, nodeId a = nodeId b → a = b

/-- What holds after the candidates that have been looked at. -/
structure CoverageInv (selectedNodes coverageCandidates : List τ) (maxNodes : ℕ) (done : List τ) (s : CoverageState τ) :
    Prop where
  counted : Counted s
  length_le : s.nodes.length ≤ maxNodes
  subset : ∀ node ∈ s.nodes, node ∈ selectedNodes ++ coverageCandidates
  domains (k : Text) : 0 < classCount domainFor selectedNodes k → 0 < classCount domainFor s.nodes k
  labels (k : Text) : 0 < classCount label selectedNodes k → 0 < classCount label s.nodes k
  done : ∀ c ∈ done, 0 < classCount domainFor s.nodes (domainFor c) ∨ Refused maxNodes c s.nodes

variable {selectedNodes coverageCandidates done : List τ}

section

variable (h : CoverStep maxNodes candidate nodes nodes')
include h

theorem CoverStep.length_le
    (hle : nodes.length ≤ maxNodes) : nodes'.length ≤ maxNodes := by
  cases h with
  | present => exact hle
  | refused => exact hle
  | appended hroom =>
    rw [length_append, length_singleton]
    exact hroom
  | replaced =>
    rw [length_append, length_cons] at hle ⊢
    exact hle

theorem CoverStep.subset {node : τ}
    (hn : node ∈ nodes') : node ∈ nodes ∨ node = candidate := by
  cases h with
  | present => exact .inl hn
  | refused => exact .inl hn
  | appended => simpa using hn
  | replaced =>
    simp only [mem_append, mem_cons] at hn ⊢
    rcases hn with hn | hn | hn
    · exact .inl (.inl hn)
    · exact .inr hn
    · exact .inl (.inr (.inr hn))

/-- Afterwards the domain of the candidate is there, or the candidate was refused. -/
theorem CoverStep.covers
    (hid : nodeId candidate ∈ nodes.map nodeId → candidate ∈ nodes) :
    0 < classCount domainFor nodes' (domainFor candidate) ∨ Refused maxNodes candidate nodes' := by
  cases h with
  | present hp => exact .inl (hp.elim (fun h => h) fun h => classCount_pos.mpr ⟨candidate, hid h, rfl⟩)
  | refused hfull hno => exact .inr ⟨hfull, hno⟩
  | appended => exact .inl (classCount_pos.mpr ⟨candidate, by simp, rfl⟩)
  | replaced => exact .inl (classCount_pos.mpr ⟨candidate, by simp, rfl⟩)

end

theorem CoverageInv.step (hids : IdsIdentify (selectedNodes ++ coverageCandidates))
    (h : CoverageInv selectedNodes coverageCandidates maxNodes done s) (hc : candidate ∈ coverageCandidates) :
    CoverageInv selectedNodes coverageCandidates maxNodes (done ++ [candidate])
      (coverDomain maxNodes s (domainFor candidate, candidate)) := by
  obtain ⟨hcounted, hstep⟩ := coverDomain_spec h.counted maxNodes candidate
  have hmem : candidate ∈ selectedNodes ++ coverageCandidates := mem_append_right _ hc
  refine ⟨hcounted, hstep.length_le h.length_le, fun node hn => ?_, fun k hk => (hstep.represented k).1 (h.domains k hk),
    fun k hk => (hstep.represented k).2 (h.labels k hk), fun c hdone => ?_⟩
  · rcases hstep.subset hn with hn | rfl
    · exact h.subset node hn
    · exact hmem
  · rcases mem_append.mp hdone with hdone | hdone
    · rcases h.done c hdone with hd | hr
      · exact .inl ((hstep.represented _).1 hd)
      · exact .inr (hstep.refused_of_refused hr)
    · obtain rfl := mem_singleton.mp hdone
      refine hstep.covers fun hid => ?_
      obtain ⟨node, hnode, heq⟩ := mem_map.mp hid
      exact hids node (h.subset node hnode) c hmem heq ▸ hnode

theorem CoverageInv.run (hids : IdsIdentify (selectedNodes ++ coverageCandidates)) {entries : List (Text × τ)}
    (hentries : ∀ e ∈ entries, e.1 = domainFor e.2 ∧ e.2 ∈ coverageCandidates)
    (h : CoverageInv selectedNodes coverageCandidates maxNodes done s) :
    CoverageInv selectedNodes coverageCandidates maxNodes (done ++ entries.map Prod.snd)
      (entries.foldl (coverDomain maxNodes) s) := by
  induction entries generalizing done s with
  | nil => simpa using h
  | cons e entries ih =>
    obtain ⟨hdomain, hc⟩ := hentries e mem_cons_self
    have hnext := h.step hids hc
    rw [← hdomain] at hnext
    have hall := ih (fun e he => hentries e (mem_cons_of_mem _ he)) hnext
    rwa [append_assoc] at hall

/-! ## The representatives -/

/-- The candidate has the lowest id of its domain. -/
def Lowest (coverageCandidates : List τ) (c : τ) : Prop :=
  c ∈ coverageCandidates ∧ ∀ c' ∈ coverageCandidates, domainFor c' = domainFor c → nodeId c ≤ nodeId c'

/-- Each domain has its candidate with the lowest id. -/
def Representatives (coverageCandidates : List τ) (m : OrderedMap Text τ) : Prop :=
  (∀ d r, m.get d = some r → domainFor r = d ∧ Lowest coverageCandidates r) ∧
    ∀ c ∈ coverageCandidates, ∃ r, m.get (domainFor c) = some r

theorem Representatives.concat {m : OrderedMap Text τ} (h : Representatives coverageCandidates m) (c : τ) :
    Representatives (coverageCandidates ++ [c]) (addRepresentative m c) := by
  obtain ⟨hrep, hall⟩ := h
  -- What is known of a representative stays, if the new candidate is not before it.
  have hkeep {d : Text} {r : τ} (hr : m.get d = some r) (hlow : domainFor c = d → nodeId r ≤ nodeId c) :
      domainFor r = d ∧ Lowest (coverageCandidates ++ [c]) r := by
    obtain ⟨hd, hmem, hle⟩ := hrep d r hr
    refine ⟨hd, mem_append_left _ hmem, fun c' hc' hdomain => ?_⟩
    rcases mem_append.mp hc' with hc' | hc'
    · exact hle c' hc' hdomain
    · obtain rfl := mem_singleton.mp hc'
      exact hlow (hdomain.trans hd)
  have hput (hlow : ∀ c' ∈ coverageCandidates, domainFor c' = domainFor c → nodeId c ≤ nodeId c') :
      Representatives (coverageCandidates ++ [c]) (m.set (domainFor c) c) := by
    refine ⟨fun d r hr => ?_, fun c' hc' => ?_⟩
    · rw [get_set] at hr
      split at hr
      · rename_i hd
        obtain rfl := Option.some.inj hr
        refine ⟨hd.symm, by simp, fun c' hc' hdomain => ?_⟩
        rcases mem_append.mp hc' with hc' | hc'
        · exact hlow c' hc' hdomain
        · rw [mem_singleton.mp hc']
      · rename_i hd
        exact hkeep hr fun hdomain => absurd hdomain.symm hd
    · rw [get_set]
      split
      · exact ⟨c, rfl⟩
      · rename_i hd
        rcases mem_append.mp hc' with hc' | hc'
        · exact hall c' hc'
        · exact absurd (by rw [mem_singleton.mp hc']) hd
  rw [addRepresentative]
  cases hget : m.get (domainFor c) with
  | none =>
    refine hput fun c' hc' hdomain => ?_
    obtain ⟨r, hr⟩ := hall c' hc'
    rw [hdomain, hget] at hr
    cases hr
  | some existing =>
    dsimp only
    split
    · rename_i hlt
      obtain ⟨hd, -, hle⟩ := hrep _ _ hget
      exact hput fun c' hc' hdomain => le_trans (le_of_lt hlt) (hle c' hc' (hdomain.trans hd.symm))
    · rename_i hlt
      refine ⟨fun d r hr => hkeep hr fun hdomain => ?_, fun c' hc' => ?_⟩
      · rw [← hdomain, hget] at hr
        exact Option.some.inj hr ▸ Nat.le_of_not_lt hlt
      · rcases mem_append.mp hc' with hc' | hc'
        · exact hall c' hc'
        · rw [mem_singleton.mp hc']
          exact ⟨existing, hget⟩

theorem representatives (coverageCandidates : List τ) :
    Representatives coverageCandidates (representativeByDomain coverageCandidates) := by
  induction coverageCandidates using List.reverseRecOn with
  | nil =>
    refine ⟨fun d r h => ?_, fun c h => absurd h not_mem_nil⟩
    rw [representativeByDomain, foldl_nil, get_empty] at h
    cases h
  | append_singleton candidates c ih =>
    rw [representativeByDomain, foldl_append]
    exact ih.concat c

/-! ## The list at the end -/

/-- The list has at most `maxNodes` nodes and none twice, and every domain and every label of the selection. -/
structure KeepsSelection (selectedNodes : List τ) (maxNodes : ℕ) (nodes : List τ) : Prop where
  nodup : (nodes.map (nodeId (τ := τ))).Nodup
  length_le : nodes.length ≤ maxNodes
  domains : ∀ node ∈ selectedNodes, ∃ m ∈ nodes, domainFor m = domainFor node
  labels : ∀ node ∈ selectedNodes, ∃ m ∈ nodes, label m = label node

/-- **The domains of the overview.** Nothing of the selection goes lost, and where a domain of the candidates is
missing no node can be given up for its candidate with the lowest id. -/
theorem ensureArchitectureDomainCoverage_covers (selectedNodes coverageCandidates : List τ) (maxNodes : ℕ)
    (hnodup : (selectedNodes.map (nodeId (τ := τ))).Nodup) (hids : IdsIdentify (selectedNodes ++ coverageCandidates))
    (hmax : selectedNodes.length ≤ maxNodes) :
    KeepsSelection selectedNodes maxNodes
        (ensureArchitectureDomainCoverage selectedNodes coverageCandidates maxNodes) ∧
      ∀ c, Lowest coverageCandidates c →
        (∀ m ∈ ensureArchitectureDomainCoverage selectedNodes coverageCandidates maxNodes, domainFor m ≠ domainFor c) →
          ∀ m ∈ ensureArchitectureDomainCoverage selectedNodes coverageCandidates maxNodes,
            ¬CanBeGivenUp (ensureArchitectureDomainCoverage selectedNodes coverageCandidates maxNodes) c m := by
  rw [ensureArchitectureDomainCoverage]
  split
  · rename_i hempty
    refine ⟨⟨hnodup, hmax, fun n hn => ⟨n, hn, rfl⟩, fun n hn => ⟨n, hn, rfl⟩⟩, fun c hc _ m hm => ?_⟩
    rcases hempty with hnil | hnil | hzero
    · rw [hnil] at hm
      cases hm
    · rw [hnil] at hc
      cases hc.1
    · rw [hzero] at hmax
      rw [length_eq_zero_iff.mp (Nat.eq_zero_of_le_zero hmax)] at hm
      cases hm
  · obtain ⟨hrep, hall⟩ := representatives coverageCandidates
    have hnodes := nodes_initialCoverage selectedNodes
    have hstart : CoverageInv selectedNodes coverageCandidates maxNodes [] (initialCoverage selectedNodes) := by
      refine ⟨counted_initialCoverage hnodup, ?_, ?_, ?_, ?_, fun c hc => by cases hc⟩
      · rw [hnodes]
        exact hmax
      · rw [hnodes]
        exact fun n hn => mem_append_left _ hn
      · rw [hnodes]
        exact fun _ hk => hk
      · rw [hnodes]
        exact fun _ hk => hk
    have hentries : ∀ e ∈ sortBy (fun left right => stableStringCompare left.1 right.1)
        (representativeByDomain coverageCandidates).entries, e.1 = domainFor e.2 ∧ e.2 ∈ coverageCandidates := by
      intro e he
      have hget := OrderedMap.get_eq_some_iff.mpr (mem_sortBy.mp he)
      obtain ⟨hd, hlow⟩ := hrep e.1 e.2 hget
      exact ⟨hd.symm, hlow.1⟩
    have hinv := hstart.run hids hentries
    generalize (sortBy (fun left right => stableStringCompare left.1 right.1)
      (representativeByDomain coverageCandidates).entries).foldl (coverDomain maxNodes) (initialCoverage selectedNodes) = s at *
    refine ⟨⟨hinv.counted.nodup, hinv.length_le, fun n hn => ?_, fun n hn => ?_⟩, fun c hc hmissing m hm => ?_⟩
    · exact classCount_pos.mp (hinv.domains _ (classCount_pos.mpr ⟨n, hn, rfl⟩))
    · exact classCount_pos.mp (hinv.labels _ (classCount_pos.mpr ⟨n, hn, rfl⟩))
    · obtain ⟨r, hr⟩ := hall c hc.1
      obtain ⟨hd, hlow⟩ := hrep _ _ hr
      -- The representative of the domain is the candidate itself.
      have heq : r = c := by
        refine hids r (mem_append_right _ hlow.1) c (mem_append_right _ hc.1) ?_
        exact le_antisymm (hlow.2 c hc.1 hd.symm) (hc.2 r hlow.1 hd)
      subst heq
      have hdone : r ∈ [] ++ (sortBy (fun left right => stableStringCompare left.1 right.1)
          (representativeByDomain coverageCandidates).entries).map Prod.snd := by
        rw [nil_append]
        exact mem_map.mpr ⟨_, mem_sortBy.mpr (OrderedMap.get_eq_some_iff.mp hr), rfl⟩
      rcases hinv.done r hdone with hpos | hrefused
      · obtain ⟨m', hm', hdomain⟩ := classCount_pos.mp hpos
        exact absurd hdomain (hmissing m' hm')
      · exact hrefused.2 m hm

/-- A node of the overview. -/
def overviewNode (n : ℕ) (label path : String) : CodeNode :=
  ⟨n, "p".toList, label.toList, [], [], path.toList⟩

/-- A second function of the domain `a` is given up for the domain `b`. -/
theorem ensureArchitectureDomainCoverage_covers_two :
    KeepsSelection [overviewNode 1 "Function" "a/x.ts", overviewNode 2 "Function" "a/y.ts"] 2
        (ensureArchitectureDomainCoverage
          [overviewNode 1 "Function" "a/x.ts", overviewNode 2 "Function" "a/y.ts"] [overviewNode 3 "Function" "b/z.ts"] 2) ∧
      ∀ c, Lowest [overviewNode 3 "Function" "b/z.ts"] c → (∀ m ∈ ensureArchitectureDomainCoverage
          [overviewNode 1 "Function" "a/x.ts", overviewNode 2 "Function" "a/y.ts"] [overviewNode 3 "Function" "b/z.ts"] 2,
            domainFor m ≠ domainFor c) → ∀ m ∈ ensureArchitectureDomainCoverage
            [overviewNode 1 "Function" "a/x.ts", overviewNode 2 "Function" "a/y.ts"] [overviewNode 3 "Function" "b/z.ts"] 2,
            ¬CanBeGivenUp (ensureArchitectureDomainCoverage
              [overviewNode 1 "Function" "a/x.ts", overviewNode 2 "Function" "a/y.ts"]
              [overviewNode 3 "Function" "b/z.ts"] 2) c m :=
  ensureArchitectureDomainCoverage_covers _ _ 2 (by decide) (by unfold IdsIdentify; decide) (by decide)

/-- A class and a function of one domain, and a file and a function of another: the file has the lower id. -/
theorem ensureArchitectureDomainCoverage_second : ¬∀ (selectedNodes coverageCandidates : List CodeNode) (maxNodes : ℕ),
      (selectedNodes.map (nodeId (τ := CodeNode))).Nodup → IdsIdentify (selectedNodes ++ coverageCandidates) →
        selectedNodes.length ≤ maxNodes → ∀ c ∈ coverageCandidates,
          (∀ m ∈ ensureArchitectureDomainCoverage selectedNodes coverageCandidates maxNodes, domainFor m ≠ domainFor c) →
            ∀ m ∈ ensureArchitectureDomainCoverage selectedNodes coverageCandidates maxNodes,
              ¬CanBeGivenUp (ensureArchitectureDomainCoverage selectedNodes coverageCandidates maxNodes) c m := by
  intro h
  have hgive := h [overviewNode 1 "Function" "a/x.ts", overviewNode 2 "Class" "a/y.ts"]
    [overviewNode 3 "File" "b/z.ts", overviewNode 4 "Function" "b/z.ts"] 2 (by decide) (by unfold IdsIdentify; decide)
    (by decide) (overviewNode 4 "Function" "b/z.ts") (by decide) (by decide)
    (overviewNode 1 "Function" "a/x.ts") (by decide)
  exact hgive ⟨by decide, .inl rfl⟩

end Ariad.Ui
