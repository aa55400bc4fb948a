import Mathlib.Data.List.Chain
import Mathlib.Data.List.Nodup
import Mathlib.Data.List.Perm.Subperm
import Mathlib.Data.Set.Image
import Mathlib.Logic.Relation

/-!
# Searching a graph for its one leaf

A node is a leaf, or it has successors. A search says whether no leaf is reachable, just one, or several.
Two searches that walk depth first answer alike:

* `shared` — every node is entered once: one list of seen nodes goes through the whole search.
* `branching` — only the path to a node is closed to it: a node is entered again from another branch.
* `Sums` — what an answer says of a set of leaves; `Sums.merge`, `Sums.unique`.
* `branching_sums`, `shared_sums` — both answer for the leaves that are reachable.
* `branching_isSome`, `shared_isSome` — a bound on the chains is a bound on the depth of both.
-/

namespace Ariad.Search

open List Option

/-! ## Answers -/

/-- What a search has found. -/
inductive Outcome (β : Type) where
  | missing
  | found (b : β)
  | ambiguous
  deriving DecidableEq

namespace Outcome

variable {β : Type} [DecidableEq β]

/-- Both answers together. -/
def merge : Outcome β → Outcome β → Outcome β
  | missing, r => r
  | r, missing => r
  | found b, found c => if b = c then found b else ambiguous
  | _, _ => ambiguous

variable {visit : List ν → ν → Option (Outcome β × List ν)} {r : Outcome β} {left : ℕ}

@[simp] theorem missing_merge (r : Outcome β) : merge missing r = r := by cases r <;> rfl

@[simp] theorem merge_missing (r : Outcome β) : merge r missing = r := by cases r <;> rfl

@[simp] theorem ambiguous_merge (r : Outcome β) : merge ambiguous r = ambiguous := by cases r <;> rfl

@[simp] theorem merge_ambiguous (r : Outcome β) : merge r ambiguous = ambiguous := by cases r <;> rfl

theorem merge_found (b c : β) : merge (found b) (found c) = if b = c then found b else ambiguous := rfl

theorem merge_assoc (a b c : Outcome β) : (a.merge b).merge c = a.merge (b.merge c) := by
  cases a with
  | missing => rw [missing_merge, missing_merge]
  | ambiguous => simp
  | found x =>
    cases b with
    | missing => rw [merge_missing, missing_merge]
    | ambiguous => simp
    | found y =>
      cases c with
      | missing => simp
      | ambiguous => simp
      | found z =>
        rw [merge_found, merge_found]
        by_cases hxy : x = y
        · subst hxy
          by_cases hxz : x = z
          · simp [hxz, merge_found]
          · simp [hxz, merge_found]
        · by_cases hyz : y = z
          · subst hyz
            simp [hxy, merge_found]
          · simp [hxy, hyz]

end Outcome

open Outcome

variable {ν β : Type}

/-- **The answer for a set of leaves.** -/
def Sums (S : Set β) : Outcome β → Prop
  | .missing => S = ∅
  | .found b => S = {b}
  | .ambiguous => ∃ b ∈ S, ∃ c ∈ S, b ≠ c

theorem Sums.merge [DecidableEq β] {S T : Set β} {r s : Outcome β} (hr : Sums S r) (hs : Sums T s) :
    Sums (S ∪ T) (r.merge s) := by
  cases r with
  | missing =>
    obtain rfl : S = ∅ := hr
    rwa [missing_merge, Set.empty_union]
  | ambiguous =>
    obtain ⟨b, hb, c, hc, hne⟩ := hr
    rw [ambiguous_merge]
    exact ⟨b, .inl hb, c, .inl hc, hne⟩
  | found b =>
    obtain rfl : S = {b} := hr
    cases s with
    | missing =>
      obtain rfl : T = ∅ := hs
      rw [merge_missing, Set.union_empty]
      rfl
    | ambiguous =>
      obtain ⟨c, hc, d, hd, hne⟩ := hs
      rw [merge_ambiguous]
      exact ⟨c, .inr hc, d, .inr hd, hne⟩
    | found c =>
      obtain rfl : T = {c} := hs
      rw [merge_found]
      split
      · rename_i hbc
        rw [hbc, Set.union_self]
        rfl
      · rename_i hbc
        exact ⟨b, .inl rfl, c, .inr rfl, hbc⟩

theorem eq_of_mem_singleton {S : Set β} {b c d : β} (h : S = {d}) (hb : b ∈ S) (hc : c ∈ S) : b = c := by
  rw [h] at hb hc
  exact hb.trans hc.symm

/-- A set has one answer. -/
theorem Sums.unique {S : Set β} {r s : Outcome β} (hr : Sums S r) (hs : Sums S s) : r = s := by
  cases r with
  | missing =>
    have hempty : S = ∅ := hr
    cases s with
    | missing => rfl
    | found c => exact absurd ((show S = {c} from hs).symm.trans hempty) (Set.singleton_ne_empty c)
    | ambiguous =>
      obtain ⟨b, hb, -⟩ := hs
      exact absurd (hempty ▸ hb) (Set.notMem_empty b)
  | found b =>
    have hone : S = {b} := hr
    cases s with
    | missing => exact absurd (hone.symm.trans hs) (Set.singleton_ne_empty b)
    | found c => rw [Set.singleton_injective (hone.symm.trans hs)]
    | ambiguous =>
      obtain ⟨c, hc, d, hd, hne⟩ := hs
      exact absurd (eq_of_mem_singleton hone hc hd) hne
  | ambiguous =>
    obtain ⟨c, hc, d, hd, hne⟩ := hr
    cases s with
    | missing => exact absurd ((show S = ∅ from hs) ▸ hc) (Set.notMem_empty c)
    | found b => exact absurd (eq_of_mem_singleton (show S = {b} from hs) hc hd) hne
    | ambiguous => rfl

/-! ## Graphs -/

/-- A node. -/
inductive Node (ν β : Type) where
  | leaf (b : β)
  | inner (next : List ν)

variable (space : ν → Node ν β)

/-- A step to a successor. -/
def Step (v w : ν) : Prop := ∃ next, space v = .inner next ∧ w ∈ next

/-- The leaves that are reachable. -/
def leaves (v : ν) : Set β := {b | ∃ w, Relation.ReflTransGen (Step space) v w ∧ space w = .leaf b}

/-- A chain of steps. Only its last node may have been in it before. -/
structure Chain (chain : List ν) : Prop where
  steps : chain.IsChain (Step space)
  nodup : chain.dropLast.Nodup

/-- A step to a node outside of `path`. -/
def StepAvoiding (path : List ν) (v w : ν) : Prop := Step space v w ∧ w ∉ path

/-- The leaves that are reachable without the nodes of `path`. -/
def leavesAvoiding (path : List ν) (v : ν) : Set β :=
  {b | v ∉ path ∧ ∃ w, Relation.ReflTransGen (StepAvoiding space path) v w ∧ space w = .leaf b}

variable {space} {v w : ν} {path : List ν} {next : List ν}

theorem step_iff (h : space v = .inner next) : Step space v w ↔ w ∈ next := by
  constructor
  · rintro ⟨next', hnext, hw⟩
    rw [h] at hnext
    cases hnext
    exact hw
  · exact fun hw => ⟨next, h, hw⟩

theorem not_step_of_leaf {b : β} (h : space v = .leaf b) : ¬Step space v w := by
  rintro ⟨next, hnext, -⟩
  rw [h] at hnext
  cases hnext

theorem leavesAvoiding_nil (v : ν) : leavesAvoiding space [] v = leaves space v := by
  have hstep : StepAvoiding space [] = Step space := by
    funext a b
    simp [StepAvoiding]
  simp [leavesAvoiding, leaves, hstep]

/-- A walk from `v` need not come back to `v`: its last part starts at a successor. -/
theorem exists_avoiding (h : Relation.ReflTransGen (StepAvoiding space path) v w) :
    w = v ∨ ∃ x, Step space v x ∧ x ∉ v :: path ∧ Relation.ReflTransGen (StepAvoiding space (v :: path)) x w := by
  induction h with
  | refl => exact .inl rfl
  | @tail y z _ hyz ih =>
    obtain ⟨hstep, havoid⟩ := hyz
    by_cases hzv : z = v
    · exact .inl hzv
    have hz : z ∉ v :: path := by simp [hzv, havoid]
    rcases ih with rfl | ⟨x, hx, hxpath, hwalk⟩
    · exact .inr ⟨z, hstep, hz, .refl⟩
    · exact .inr ⟨x, hx, hxpath, hwalk.tail ⟨hstep, hz⟩⟩

theorem leavesAvoiding_of_mem (h : v ∈ path) : leavesAvoiding space path v = ∅ :=
  Set.eq_empty_of_forall_notMem fun _ hb => hb.1 h

theorem leavesAvoiding_leaf {b : β} (h : v ∉ path) (hv : space v = .leaf b) : leavesAvoiding space path v = {b} := by
  ext c
  constructor
  · rintro ⟨-, w, hw, hc⟩
    rcases exists_avoiding hw with rfl | ⟨x, hx, -⟩
    · rw [hv] at hc
      cases hc
      rfl
    · exact absurd hx (not_step_of_leaf hv)
  · rintro rfl
    exact ⟨h, v, .refl, hv⟩

theorem leavesAvoiding_inner (h : v ∉ path) (hv : space v = .inner next) :
    leavesAvoiding space path v = {b | ∃ w ∈ next, b ∈ leavesAvoiding space (v :: path) w} := by
  ext b
  constructor
  · rintro ⟨-, w, hw, hb⟩
    rcases exists_avoiding hw with rfl | ⟨x, hx, hxpath, hwalk⟩
    · rw [hv] at hb
      cases hb
    · exact ⟨x, (step_iff hv).mp hx, hxpath, w, hwalk, hb⟩
  · rintro ⟨x, hx, hxpath, w, hwalk, hb⟩
    have hmono : ∀ a c, StepAvoiding space (v :: path) a c → StepAvoiding space path a c :=
      fun a c hac => ⟨hac.1, fun hc => hac.2 (mem_cons_of_mem _ hc)⟩
    have hfirst : StepAvoiding space path v x :=
      ⟨(step_iff hv).mpr hx, fun hc => hxpath (mem_cons_of_mem _ hc)⟩
    exact ⟨h, w, .head hfirst (Relation.ReflTransGen.mono hmono _ _ hwalk), hb⟩

/-! ## Chains -/

/-- The path to `v`, one step longer. -/
theorem Chain.step (hchain : Chain space ((v :: path).reverse)) (hmem : v ∉ path) (hnodup : path.Nodup)
    (hw : Step space v w) : Chain space ((w :: v :: path).reverse) := by
  refine ⟨?_, ?_⟩
  · rw [reverse_cons]
    refine hchain.steps.append (.singleton w) ?_
    intro a ha b hb
    simp only [reverse_cons, getLast?_concat, mem_def, Option.some.injEq] at ha
    simp only [head?_cons, mem_def, Option.some.injEq] at hb
    exact ha ▸ hb ▸ hw
  · rw [reverse_cons, dropLast_concat, nodup_reverse]
    exact nodup_cons.mpr ⟨hmem, hnodup⟩

variable (space) in
def successors (v : ν) : List ν :=
  match space v with
  | .leaf _ => []
  | .inner next => next

theorem mem_successors_of_step (h : Step space v w) : w ∈ successors space v := by
  obtain ⟨next, hv, hw⟩ := h
  rw [successors, hv]
  exact hw

/-- A chain inside of a finite part of the graph has at most one node more than this part. -/
theorem Chain.length_le {part chain : List ν} (hclosed : ∀ v ∈ part, ∀ w ∈ successors space v, w ∈ part)
    (h : Chain space chain) (hhead : ∀ v, chain.head? = some v → v ∈ part) : chain.length ≤ part.length + 1 := by
  have hall : ∀ chain : List ν, chain.IsChain (Step space) → (∀ v, chain.head? = some v → v ∈ part) →
      ∀ v ∈ chain, v ∈ part := by
    intro chain
    induction chain with
    | nil => simp
    | cons a chain ih =>
      intro hsteps hfirst v hv
      have ha : a ∈ part := hfirst a rfl
      rcases mem_cons.mp hv with rfl | hv
      · exact ha
      · refine ih hsteps.tail (fun w hw => ?_) v hv
        exact hclosed a ha w (mem_successors_of_step ((isChain_cons.mp hsteps).1 w hw))
  have hsub : chain.dropLast ⊆ part := fun v hv => hall chain h.steps hhead v (dropLast_subset _ hv)
  have hlength := (h.nodup.subperm hsub).length_le
  rw [length_dropLast] at hlength
  omega

/-- A path and one step more start at the same node. -/
theorem head?_reverse_step : (w :: v :: path).reverse.head? = (v :: path).reverse.head? := by
  rw [reverse_cons, head?_append, reverse_cons]
  simp

/-! ## Two searches -/

variable [DecidableEq β]

/-- The answers of several branches together; none if a branch has none. -/
def mergeAll : List (Option (Outcome β)) → Option (Outcome β)
  | [] => some .missing
  | none :: _ => none
  | some r :: rest => (mergeAll rest).map r.merge

theorem mergeAll_cons_eq_some {a : Option (Outcome β)} {rest : List (Option (Outcome β))}
    (h : mergeAll (a :: rest) = some r) : ∃ x y, a = some x ∧ mergeAll rest = some y ∧ r = x.merge y := by
  cases a with
  | none => simp [mergeAll] at h
  | some x =>
    simp only [mergeAll, map_eq_some_iff] at h
    obtain ⟨y, hy, rfl⟩ := h
    exact ⟨x, y, rfl, hy, rfl⟩

/-- Branches that answer for their own leaves answer together for all of these. -/
theorem sums_mergeAll {answer : ν → Option (Outcome β)} {S : ν → Set β} (hS : ∀ w r, answer w = some r → Sums (S w) r)
    {next : List ν} (h : mergeAll (next.map answer) = some r) : Sums {b | ∃ w ∈ next, b ∈ S w} r := by
  induction next generalizing r with
  | nil =>
    rw [map_nil, mergeAll, Option.some.injEq] at h
    subst h
    simp [Sums]
  | cons w next ih =>
    obtain ⟨x, y, hx, hy, rfl⟩ := mergeAll_cons_eq_some h
    have hunion : {b | ∃ u ∈ w :: next, b ∈ S u} = S w ∪ {b | ∃ u ∈ next, b ∈ S u} := by
      ext b
      simp
    rw [hunion]
    exact (hS w x hx).merge (ih hy)

theorem mergeAll_isSome {l : List (Option (Outcome β))} (h : ∀ a ∈ l, a.isSome) : (mergeAll l).isSome := by
  induction l with
  | nil => rfl
  | cons a l ih =>
    obtain ⟨x, rfl⟩ := isSome_iff_exists.mp (h a mem_cons_self)
    simpa [mergeAll] using ih fun b hb => h b (mem_cons_of_mem _ hb)

/-- A loop over successors that hands the seen nodes on. It stops at the first ambiguous answer. -/
def sharedLoop (visit : List ν → ν → Option (Outcome β × List ν)) :
    List ν → Outcome β → List ν → Option (Outcome β × List ν)
  | [], acc, seen => some (acc, seen)
  | w :: rest, acc, seen =>
    match visit seen w with
    | none => none
    | some (r, seen') =>
      match acc.merge r with
      | .ambiguous => some (.ambiguous, seen')
      | acc' => sharedLoop visit rest acc' seen'

variable [DecidableEq ν]

variable (space) in
/-- **Search with a path of its own in every branch.** At most `left` calls below each other. -/
def branching : ℕ → List ν → ν → Option (Outcome β)
  | 0, _, _ => none
  | left + 1, path, v =>
    if v ∈ path then some .missing
    else
      match space v with
      | .leaf b => some (.found b)
      | .inner next => mergeAll (next.map (branching left (v :: path)))

variable (space) in
/-- **Search with one list of seen nodes.** At most `left` calls below each other. -/
def shared : ℕ → List ν → ν → Option (Outcome β × List ν)
  | 0, _, _ => none
  | left + 1, seen, v =>
    if v ∈ seen then some (.missing, seen)
    else
      match space v with
      | .leaf b => some (.found b, v :: seen)
      | .inner next => sharedLoop (shared left) next .missing (v :: seen)

/-! ## Private paths -/

theorem branching_sums {path : List ν} {v : ν}
    (h : branching space left path v = some r) : Sums (leavesAvoiding space path v) r := by
  induction left generalizing path v r with
  | zero => simp [branching] at h
  | succ left ih =>
    rw [branching] at h
    split at h
    · rename_i hmem
      cases h
      exact leavesAvoiding_of_mem hmem
    · rename_i hmem
      cases hv : space v with
      | leaf b =>
        rw [hv] at h
        cases h
        exact leavesAvoiding_leaf hmem hv
      | inner next =>
        rw [hv] at h
        rw [leavesAvoiding_inner hmem hv]
        exact sums_mergeAll (fun w r hr => ih hr) h

/-- A branching search ends if no chain is longer than its depth. -/
theorem branching_isSome {left bound : ℕ} (hbound : bound ≤ left + path.length) (hnodup : path.Nodup)
    (hchain : Chain space ((v :: path).reverse))
    (hall : ∀ chain, Chain space chain → chain.head? = (v :: path).reverse.head? → chain.length ≤ bound) :
    (branching space left path v).isSome := by
  induction left generalizing path v with
  | zero =>
    have := hall _ hchain rfl
    simp only [length_reverse, length_cons] at this
    omega
  | succ left ih =>
    rw [branching]
    split
    · rfl
    · rename_i hmem
      cases hv : space v with
      | leaf b => rfl
      | inner next =>
        refine mergeAll_isSome fun a ha => ?_
        obtain ⟨w, hw, rfl⟩ := mem_map.mp ha
        have hstep : Step space v w := (step_iff hv).mpr hw
        refine ih ?_ (nodup_cons.mpr ⟨hmem, hnodup⟩) (hchain.step hmem hnodup hstep) ?_
        · rw [length_cons]
          omega
        · exact fun chain hc hhead => hall chain hc (hhead.trans head?_reverse_step)

/-! ## Shared nodes -/

omit [DecidableEq β] [DecidableEq ν] in
theorem Sums.mono {S T : Set β} (hST : S ⊆ T) (h : Sums S .ambiguous) : Sums T .ambiguous := by
  obtain ⟨b, hb, c, hc, hne⟩ := h
  exact ⟨b, hST hb, c, hST hc, hne⟩

variable (space) in
/-- The leaves among the nodes that are new. -/
def newLeaves (seen seen' : List ν) : Set β := {b | ∃ u ∈ seen', u ∉ seen ∧ space u = .leaf b}

variable (space) in
/-- What a search from `roots` that went to its end has done: the nodes are those of before and the ones it
reached, and no step leads out of the latter. -/
structure Closes (roots seen seen' : List ν) : Prop where
  mono : seen ⊆ seen'
  covers : roots ⊆ seen'
  reach : ∀ u ∈ seen', u ∈ seen ∨ ∃ w ∈ roots, Relation.ReflTransGen (Step space) w u
  closed : ∀ u ∈ seen', u ∈ seen ∨ ∀ x, Step space u x → x ∈ seen'

variable {seen seen' seen₁ roots rest : List ν}

omit [DecidableEq β] [DecidableEq ν] in
theorem Closes.trans (h : Closes space [w] seen seen₁) (h' : Closes space rest seen₁ seen') :
    Closes space (w :: rest) seen seen' where
  mono := List.Subset.trans h.mono h'.mono
  covers := cons_subset.mpr ⟨h'.mono (h.covers mem_cons_self), h'.covers⟩
  reach u hu := by
    rcases h'.reach u hu with hu | ⟨x, hx, hxu⟩
    · rcases h.reach u hu with hu | ⟨x, hx, hxu⟩
      · exact .inl hu
      · exact .inr ⟨x, mem_cons.mpr (.inl (mem_singleton.mp hx)), hxu⟩
    · exact .inr ⟨x, mem_cons_of_mem _ hx, hxu⟩
  closed u hu := by
    rcases h'.closed u hu with hu | hu
    · rcases h.closed u hu with hu | hu
      · exact .inl hu
      · exact .inr fun x hx => h'.mono (hu x hx)
    · exact .inr hu

omit [DecidableEq β] [DecidableEq ν] in
theorem newLeaves_subset (h : Closes space roots seen seen') :
    newLeaves space seen seen' ⊆ {b | ∃ w ∈ roots, b ∈ leaves space w} := by
  rintro b ⟨u, hu, hnew, hb⟩
  rcases h.reach u hu with hold | ⟨w, hw, hwu⟩
  · exact absurd hold hnew
  · exact ⟨w, hw, u, hwu, hb⟩

omit [DecidableEq β] in
theorem newLeaves_union (h : seen ⊆ seen₁) (h' : seen₁ ⊆ seen') :
    newLeaves space seen seen₁ ∪ newLeaves space seen₁ seen' = newLeaves space seen seen' := by
  ext b
  constructor
  · rintro (⟨u, hu, hnew, hb⟩ | ⟨u, hu, hnew, hb⟩)
    · exact ⟨u, h' hu, hnew, hb⟩
    · exact ⟨u, hu, fun hold => hnew (h hold), hb⟩
  · rintro ⟨u, hu, hnew, hb⟩
    by_cases hmid : u ∈ seen₁
    · exact .inl ⟨u, hmid, hnew, hb⟩
    · exact .inr ⟨u, hu, hmid, hb⟩

/-- How a visit of `roots` ends: with two leaves in hand, or with all nodes seen and the answer for them,
beside what it knew before. -/
def Ends (space : ν → Node ν β) (known : Set β) (roots seen : List ν) (r : Outcome β) (seen' : List ν) : Prop :=
  (r = .ambiguous ∧ Sums (known ∪ {b | ∃ w ∈ roots, b ∈ leaves space w}) .ambiguous) ∨
    (r ≠ .ambiguous ∧ Closes space roots seen seen' ∧ Sums (known ∪ newLeaves space seen seen') r)

/-- The loop, if each of its visits ends so. -/
theorem ends_sharedLoop (hvisit : ∀ seen w r seen', visit seen w = some (r, seen') → Ends space ∅ [w] seen r seen')
    {acc r : Outcome β} {known : Set β} (hacc : acc ≠ .ambiguous) (hknown : Sums known acc)
    (h : sharedLoop visit next acc seen = some (r, seen')) : Ends space known next seen r seen' := by
  induction next generalizing acc known seen with
  | nil =>
    simp only [sharedLoop, Option.some.injEq, Prod.mk.injEq] at h
    obtain ⟨rfl, rfl⟩ := h
    refine .inr ⟨hacc, ⟨List.Subset.refl _, nil_subset _, fun u hu => .inl hu, fun u hu => .inl hu⟩, ?_⟩
    have hnone : newLeaves space seen seen = ∅ :=
      Set.eq_empty_of_forall_notMem fun b ⟨u, hu, hnew, _⟩ => hnew hu
    rwa [hnone, Set.union_empty]
  | cons w rest ih =>
    rw [sharedLoop] at h
    cases hw : visit seen w with
    | none => simp [hw] at h
    | some answer =>
      obtain ⟨x, seen₁⟩ := answer
      rw [hw] at h
      simp only at h
      have hhead : {b | ∃ u ∈ [w], b ∈ leaves space u} ⊆ {b | ∃ u ∈ w :: rest, b ∈ leaves space u} := by
        rintro b ⟨u, hu, hb⟩
        exact ⟨u, mem_cons.mpr (.inl (mem_singleton.mp hu)), hb⟩
      rcases hvisit seen w x seen₁ hw with ⟨rfl, htwo⟩ | ⟨hx, hcloses, hsums⟩
      · rw [merge_ambiguous, Option.some.injEq, Prod.mk.injEq] at h
        rw [Set.empty_union] at htwo
        exact .inl ⟨h.1.symm, htwo.mono fun b hb => .inr (hhead hb)⟩
      · rw [Set.empty_union] at hsums
        have hmerged := hknown.merge hsums
        cases hacc' : acc.merge x with
        | ambiguous =>
          rw [hacc', Option.some.injEq, Prod.mk.injEq] at h
          rw [hacc'] at hmerged
          refine .inl ⟨h.1.symm, hmerged.mono (Set.union_subset_union_right _ ?_)⟩
          exact (newLeaves_subset hcloses).trans hhead
        | missing | found b =>
          rw [hacc'] at h hmerged
          rcases ih (by simp) hmerged h with ⟨rfl, htwo⟩ | ⟨hr, hrest, hall⟩
          · refine .inl ⟨rfl, htwo.mono ?_⟩
            rintro c ((hc | hc) | ⟨u, hu, hc⟩)
            · exact .inl hc
            · exact .inr (hhead (newLeaves_subset hcloses hc))
            · exact .inr ⟨u, mem_cons_of_mem _ hu, hc⟩
          · refine .inr ⟨hr, hcloses.trans hrest, ?_⟩
            rwa [Set.union_assoc, newLeaves_union hcloses.mono hrest.mono] at hall

theorem ends_shared {v : ν} (h : shared space left seen v = some (r, seen')) : Ends space ∅ [v] seen r seen' := by
  induction left generalizing seen v r seen' with
  | zero => simp [shared] at h
  | succ left ih =>
    rw [shared] at h
    split at h
    · rename_i hmem
      cases h
      refine .inr ⟨by simp, ⟨List.Subset.refl _, by simpa using hmem, fun u hu => .inl hu, fun u hu => .inl hu⟩, ?_⟩
      rw [Set.empty_union]
      exact Set.eq_empty_of_forall_notMem fun b ⟨u, hu, hnew, _⟩ => hnew hu
    · rename_i hmem
      cases hv : space v with
      | leaf b =>
        rw [hv] at h
        cases h
        refine .inr ⟨by simp, ⟨subset_cons_self _ _, by simp, ?_, ?_⟩, ?_⟩
        · intro u hu
          rcases mem_cons.mp hu with rfl | hu
          · exact .inr ⟨u, mem_singleton_self u, .refl⟩
          · exact .inl hu
        · intro u hu
          rcases mem_cons.mp hu with rfl | hu
          · exact .inr fun x hx => absurd hx (not_step_of_leaf hv)
          · exact .inl hu
        · rw [Set.empty_union]
          ext c
          constructor
          · rintro ⟨u, hu, hnew, hc⟩
            rcases mem_cons.mp hu with rfl | hu
            · rw [hv] at hc
              cases hc
              rfl
            · exact absurd hu hnew
          · rintro rfl
            exact ⟨v, mem_cons_self, hmem, hv⟩
      | inner next =>
        rw [hv] at h
        have hloop := ends_sharedLoop (fun _ _ _ _ hvisit => ih hvisit) (by simp) (show Sums ∅ .missing from rfl) h
        have hchild {b : β} (hb : ∃ w ∈ next, b ∈ leaves space w) : ∃ w ∈ [v], b ∈ leaves space w := by
          obtain ⟨w, hw, u, hwu, hu⟩ := hb
          exact ⟨v, mem_singleton_self v, u, .head ((step_iff hv).mpr hw) hwu, hu⟩
        rcases hloop with ⟨rfl, htwo⟩ | ⟨hr, hcloses, hsums⟩
        · exact .inl ⟨rfl, htwo.mono (Set.union_subset_union_right _ fun b hb => hchild hb)⟩
        · have hvseen : v ∈ seen' := hcloses.mono mem_cons_self
          refine .inr ⟨hr, ⟨List.Subset.trans (subset_cons_self _ _) hcloses.mono, by simpa using hvseen, ?_, ?_⟩, ?_⟩
          · intro u hu
            rcases hcloses.reach u hu with hold | ⟨w, hw, hwu⟩
            · rcases mem_cons.mp hold with rfl | hold
              · exact .inr ⟨u, mem_singleton_self u, .refl⟩
              · exact .inl hold
            · exact .inr ⟨v, mem_singleton_self v, .head ((step_iff hv).mpr hw) hwu⟩
          · intro u hu
            rcases hcloses.closed u hu with hold | hstep
            · rcases mem_cons.mp hold with rfl | hold
              · exact .inr fun x hx => hcloses.covers ((step_iff hv).mp hx)
              · exact .inl hold
            · exact .inr hstep
          · have hsame : newLeaves space (v :: seen) seen' = newLeaves space seen seen' := by
              ext b
              constructor
              · rintro ⟨u, hu, hnew, hb⟩
                exact ⟨u, hu, fun hold => hnew (mem_cons_of_mem _ hold), hb⟩
              · rintro ⟨u, hu, hnew, hb⟩
                refine ⟨u, hu, fun hold => ?_, hb⟩
                rcases mem_cons.mp hold with rfl | hold
                · rw [hv] at hb
                  cases hb
                · exact hnew hold
            rwa [hsame] at hsums

/-- **The shared search answers for the reachable leaves.** -/
theorem shared_sums {v : ν} (h : shared space left [] v = some (r, seen')) : Sums (leaves space v) r := by
  rcases ends_shared h with ⟨rfl, htwo⟩ | ⟨-, hcloses, hsums⟩
  · simpa using htwo
  · have hreach : ∀ u, Relation.ReflTransGen (Step space) v u → u ∈ seen' := by
      intro u hu
      induction hu with
      | refl => exact hcloses.covers mem_cons_self
      | tail _ hstep ih =>
        rcases hcloses.closed _ ih with hold | hclosed
        · exact absurd hold not_mem_nil
        · exact hclosed _ hstep
    have hleaves : ∅ ∪ newLeaves space [] seen' = leaves space v := by
      rw [Set.empty_union]
      ext b
      constructor
      · intro hb
        obtain ⟨w, hw, hb⟩ := newLeaves_subset hcloses hb
        rwa [mem_singleton.mp hw] at hb
      · rintro ⟨u, hu, hb⟩
        exact ⟨u, hreach u hu, not_mem_nil, hb⟩
    rwa [hleaves] at hsums

omit [DecidableEq ν] in
/-- A loop over visits that all end ends. -/
theorem sharedLoop_isSome (hvisit : ∀ seen w r seen', visit seen w = some (r, seen') → Ends space ∅ [w] seen r seen')
    (hsome : ∀ w ∈ next, ∀ seen', seen ⊆ seen' → (visit seen' w).isSome) {acc : Outcome β} :
    (sharedLoop visit next acc seen).isSome := by
  induction next generalizing acc seen with
  | nil => rfl
  | cons w rest ih =>
    obtain ⟨⟨x, seen₁⟩, hw⟩ := isSome_iff_exists.mp (hsome w mem_cons_self seen (List.Subset.refl _))
    rw [sharedLoop, hw]
    cases hacc : acc.merge x with
    | ambiguous => simp [hacc]
    | missing | found b =>
      have hx : x ≠ .ambiguous := by
        rintro rfl
        simp at hacc
      rcases hvisit seen w x seen₁ hw with ⟨hx', -⟩ | ⟨-, hcloses, -⟩
      · exact absurd hx' hx
      · simp only [hacc]
        refine ih fun u hu seen' hseen => hsome u (mem_cons_of_mem _ hu) seen' ?_
        exact List.Subset.trans hcloses.mono hseen

/-- A shared search ends if no chain is longer than its depth. -/
theorem shared_isSome {left bound : ℕ} {v : ν} (hbound : bound ≤ left + path.length) (hnodup : path.Nodup)
    (hseen : path ⊆ seen) (hchain : Chain space ((v :: path).reverse))
    (hall : ∀ chain, Chain space chain → chain.head? = (v :: path).reverse.head? → chain.length ≤ bound) :
    (shared space left seen v).isSome := by
  induction left generalizing path v seen with
  | zero =>
    have := hall _ hchain rfl
    simp only [length_reverse, length_cons] at this
    omega
  | succ left ih =>
    rw [shared]
    split
    · rfl
    · rename_i hmem
      cases hv : space v with
      | leaf b => rfl
      | inner next =>
        have hpath : v ∉ path := fun h => hmem (hseen h)
        refine sharedLoop_isSome (fun _ _ _ _ h => ends_shared h) fun w hw seen' hseen' => ?_
        have hstep : Step space v w := (step_iff hv).mpr hw
        refine ih ?_ (nodup_cons.mpr ⟨hpath, hnodup⟩) ?_ (hchain.step hpath hnodup hstep) ?_
        · rw [length_cons]
          omega
        · refine cons_subset.mpr ⟨hseen' mem_cons_self, ?_⟩
          exact fun u hu => hseen' (mem_cons_of_mem _ (hseen hu))
        · exact fun chain hc hhead => hall chain hc (hhead.trans head?_reverse_step)

/-- **The branching search answers for the reachable leaves.** -/
theorem branching_sums_nil {v : ν} (h : branching space left [] v = some r) : Sums (leaves space v) r := by
  have hsums := branching_sums h
  rwa [leavesAvoiding_nil] at hsums

end Ariad.Search
