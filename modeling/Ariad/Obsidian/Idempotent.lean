import Ariad.Obsidian.FileRows
import Ariad.Obsidian.Linking

/-!
# The same vault again

The second import of a vault, with no change of the files in between.

* `Idempotent` — it leaves nodes, links and edges and reports neither a created nor an updated note.
* `FileSettles` — what the file says is read back of what its import has written; `StaysRejected` — a file
  that was rejected for want of a slug is rejected again.
* `importVault_idempotent_iff` — the second import leaves everything exactly when every file settles.
-/

namespace Ariad.Obsidian

open Human Text List

variable {host : Host} {project relPath : Text} {vault : Vault} {now : ℕ} {db db' : Db}

/-- A node but for the time of its last sync. -/
def unsynced (n : HumanNode) : HumanNode := { n with lastSyncedAt := none }

/-- **The second import leaves the store as it is**, times of sync aside, and reports no note. -/
structure Idempotent (host : Host) (project : Text) (vault : Vault) (clock clock' : Text → ℕ) (db : Db) :
    Prop where
  nodes : (importVault host project vault clock' (importVault host project vault clock db).2).2.nodes.map
    unsynced = (importVault host project vault clock db).2.nodes.map unsynced
  links : (importVault host project vault clock' (importVault host project vault clock db).2).2.links =
    (importVault host project vault clock db).2.links
  edges : (importVault host project vault clock' (importVault host project vault clock db).2).2.edges =
    (importVault host project vault clock db).2.edges
  report : ∀ r ∈ (importVault host project vault clock' (importVault host project vault clock db).2).1,
    r.2 ≠ .created ∧ r.2 ≠ .updated

/-! ## When a file settles -/

/-- **The note reads back**: its ids are valid, its frontmatter is stored as it is compared, and a link to
a code node makes a new edge only if the frontmatter lists the node. -/
structure UpsertSpec.ReadsBack (spec : UpsertSpec) (host : Host) (project : Text) (id : ℕ) (old : Option Text)
    (db : Db) : Prop where
  ids : ∀ x ∈ spec.cbmNodeIds, validCbmId x = true
  frontmatter : spec.fm.stored.sortKeys.stored = spec.fm.sortKeys.stored
  links : ∀ k ∈ codeLinkKeys host project id spec.humanBody, ∀ x, k.target = .code x → validCbmId x = true →
    x ∈ spec.cbmNodeIds ∨ k ∈ (dropOldEdges id old db).edges.map HumanEdge.key

/-- **The file settles**: if it is not rejected, its note is unchanged or reads back. -/
def FileSettles (host : Host) (project : Text) (vault : Vault) (relPath : Text) (now : ℕ) (db : Db) : Prop :=
  ∀ spec, Reads host vault relPath spec → spec.update.check = .ok () →
    (∀ node, resolveExistingNode project vault relPath (slugify host spec.title) db = .ok (some node) →
      spec.Unchanged node ∨
        spec.ReadsBack host project node.id (oldObsidianPath relPath (some node)) db) ∧
    (resolveExistingNode project vault relPath (slugify host spec.title) db = .ok none →
      db.freeSlug project (titleSlug host spec.title now) ≠ none →
      spec.ReadsBack host project db.nextNode none db)

/-- A file whose title has no slug and for which no slug of the time was free finds none free later. -/
def StaysRejected (host : Host) (project : Text) (vault : Vault) (relPath : Text) (now : ℕ) (db : Db)
    (now' : ℕ) (db' : Db) : Prop :=
  ∀ spec, Reads host vault relPath spec → spec.update.check = .ok () → slugify host spec.title = [] →
    resolveExistingNode project vault relPath (slugify host spec.title) db = .ok none →
    db.freeSlug project (titleSlug host spec.title now) = none →
    db'.freeSlug project (titleSlug host spec.title now') = none

/-! ## A note that reads back is unchanged -/

theorem cbmNodeIds_addCbmIds_of_subset {xs : List Num} {n : HumanNode}
    (h : ∀ x ∈ xs, validCbmId x = true → x ∈ n.cbmNodeIds) :
    (addCbmIds xs n).cbmNodeIds = n.cbmNodeIds := by
  induction xs generalizing n with
  | nil => rfl
  | cons x xs ih =>
    have hstep : (n.addCbmId x).cbmNodeIds = n.cbmNodeIds := by
      rw [HumanNode.addCbmId]
      split
      · rfl
      · rename_i hx
        have hv : validCbmId x = false := by
          cases hv : validCbmId x with
          | false => rfl
          | true => exact absurd (h x mem_cons_self hv) hx
        have hself : n.cbmNodeIds.filter validCbmId = n.cbmNodeIds := by
          rw [HumanNode.cbmNodeIds, filter_filter]
          simp
        rw [cbmNodeIds_of_json (n := { n with cbmJson := (n.cbmNodeIds ++ [x]).map jsonNum }) rfl,
          filter_append, hself]
        simp [hv]
    have hrest := ih (n := n.addCbmId x) fun y hy hv => by
      rw [hstep]
      exact h y (mem_cons_of_mem _ hy) hv
    exact hrest.trans hstep

/-- Valid ids that are written alike are the same. -/
theorem eq_of_jsonNum {x y : Num} (hx : validCbmId x = true) (h : jsonNum y = jsonNum x) : y = x := by
  cases x with
  | nan => simp [validCbmId] at hx
  | infinite s => simp [validCbmId] at hx
  | finite q =>
    cases y with
    | nan => simp [jsonNum] at h
    | infinite s => simp [jsonNum] at h
    | finite r => simpa [jsonNum] using h

/-- **The ids of the node are those of the file** exactly if all are valid and the links add none. -/
theorem perm_ids_iff {spec : UpsertSpec} {m : HumanNode} {xs : List Num}
    (hjson : m.cbmJson = spec.cbmNodeIds.map jsonNum) :
    ((addCbmIds xs m).cbmNodeIds.map jsonNum).Perm (spec.cbmNodeIds.map jsonNum) ↔
      (∀ x ∈ spec.cbmNodeIds, validCbmId x = true) ∧
        ∀ x ∈ xs, validCbmId x = true → x ∈ spec.cbmNodeIds := by
  have hids : m.cbmNodeIds = spec.cbmNodeIds.filter validCbmId := cbmNodeIds_of_json hjson
  have hvalid : ∀ x ∈ (addCbmIds xs m).cbmNodeIds, validCbmId x = true :=
    fun x hx => (mem_filter.mp hx).2
  constructor
  · intro hperm
    refine ⟨fun y hy => ?_, fun x hx hv => ?_⟩
    · obtain ⟨x, hx, heq⟩ := mem_map.mp (hperm.mem_iff.mpr (mem_map_of_mem hy))
      rw [eq_of_jsonNum (hvalid x hx) heq.symm]
      exact hvalid x hx
    · have hmem : x ∈ (addCbmIds xs m).cbmNodeIds := mem_cbmNodeIds_addCbmIds.mpr (.inr ⟨hx, hv⟩)
      obtain ⟨y, hy, heq⟩ := mem_map.mp (hperm.mem_iff.mp (mem_map_of_mem hmem))
      rwa [← eq_of_jsonNum hv heq]
  · rintro ⟨hall, hsub⟩
    have hself : m.cbmNodeIds = spec.cbmNodeIds := by
      rw [hids]
      exact filter_eq_self.mpr hall
    rw [cbmNodeIds_addCbmIds_of_subset fun x hx hv => hself ▸ hsub x hx hv, hself]

/-- The codes that the links add, as the keys of the links say them. -/
theorem codeTargets_added_iff {spec : UpsertSpec} {id : ℕ} {old : Option Text} {added : List HumanEdge}
    {seen : List ℕ} {up linked : Db} (hup : up.edges = db.edges)
    (hadd : EdgesAdded project spec.relPath id
      (askedKeys host project id spec.relPath spec.humanBody (parseWikilinks spec.humanBody) up) seen added
      (dropOldEdges id old up) linked) :
    (∀ x ∈ codeTargets added, validCbmId x = true → x ∈ spec.cbmNodeIds) ↔
      ∀ k ∈ codeLinkKeys host project id spec.humanBody, ∀ x, k.target = .code x → validCbmId x = true →
        x ∈ spec.cbmNodeIds ∨ k ∈ (dropOldEdges id old db).edges.map HumanEdge.key := by
  have hedges : (dropOldEdges id old up).edges = (dropOldEdges id old db).edges := by
    unfold dropOldEdges
    cases old with
    | none => exact hup
    | some file => simp only [deleteStaleEdgesFromNode, hup]
  constructor
  · intro h k hk x hx hv
    obtain ⟨e, he, hkey, -⟩ := hadd.asked k (asked_of_code hk)
    rw [hadd.edges] at he
    rcases mem_append.mp he with he | he
    · exact .inr (mem_map.mpr ⟨e, hedges ▸ he, hkey⟩)
    · have htarget : e.target = .code x := by
        rw [← hkey] at hx
        exact hx
      exact .inl (h x (mem_filterMap.mpr ⟨e, he, by simp [htarget]⟩) hv)
  · intro h x hx hv
    obtain ⟨e, he, hex⟩ := mem_filterMap.mp hx
    cases ht : e.target with
    | human i => simp [ht] at hex
    | code y =>
      obtain rfl : y = x := by simpa [ht] using hex
      obtain ⟨hasked, hnew⟩ := hadd.new e he
      rcases h _ (code_of_asked hasked ht).1 _ ht hv with hmem | hmem
      · exact hmem
      · rw [← hedges] at hmem
        exact absurd hmem hnew

theorem unchanged_addCbmIds_iff {spec : UpsertSpec} {m : HumanNode} (hm : FileNode project spec m)
    (hne : spec.relPath ≠ []) (xs : List Num) :
    spec.Unchanged (addCbmIds xs m) ↔
      ((∀ x ∈ spec.cbmNodeIds, validCbmId x = true) ∧
          ∀ x ∈ xs, validCbmId x = true → x ∈ spec.cbmNodeIds) ∧
        spec.fm.stored.sortKeys.stored = spec.fm.sortKeys.stored := by
  rw [← perm_ids_iff hm.cbmJson, UpsertSpec.Unchanged]
  nth_rewrite 1 2 4 5 6 7 [addCbmIds_eq]
  simp only [hm.bodyMarkdown, hm.title, hm.tags, hm.status, hm.frontmatter, hm.obsidianPath hne, true_and,
    and_true, List.Perm.refl]

/-- **After its import a file that was not rejected is unchanged** exactly if it reads back. -/
theorem FileEffect.unchanged_iff {spec : UpsertSpec} {id : ℕ} {outcome : Outcome} {added : List HumanEdge}
    (hw : db.WellFormed) (h : FileEffect host project vault now spec id outcome added db db')
    (hne : spec.relPath ≠ []) {existing : Option HumanNode}
    (hres : resolveExistingNode project vault spec.relPath (slugify host spec.title) db = .ok existing) :
    ∃ n, db'.getNodeByObsidianPath project spec.relPath = some n ∧
      (spec.Unchanged n ↔ spec.ReadsBack host project id (oldObsidianPath spec.relPath existing) db) := by
  obtain ⟨m, -, hm, hget⟩ := h.found hw hne
  refine ⟨_, hget, ?_⟩
  obtain ⟨old, up, linked, seen, hups, hadd, -⟩ := h
  have hold : old = oldObsidianPath spec.relPath existing := by
    cases hups with
    | updated node found =>
      rw [found] at hres
      rw [← Except.ok.inj hres]
    | created row attempt notFound =>
      rw [notFound] at hres
      rw [← Except.ok.inj hres]
      rfl
  rw [unchanged_addCbmIds_iff hm hne, codeTargets_added_iff hups.edges hadd, hold]
  constructor
  · rintro ⟨⟨hids, hlinks⟩, hfm⟩
    exact ⟨hids, hfm, hlinks⟩
  · rintro ⟨hids, hfm, hlinks⟩
    exact ⟨⟨hids, hlinks⟩, hfm⟩

/-! ## A file in the second import -/

variable {clock clock' : Text → ℕ}

theorem resolve_of_path {slug : Text} {n : HumanNode}
    (h : db.getNodeByObsidianPath project relPath = some n) :
    resolveExistingNode project vault relPath slug db = .ok (some n) := by
  rw [resolveExistingNode, h]

/-- An unchanged note was found by its path. -/
theorem path_of_unchanged {spec : UpsertSpec} {slug : Text} {node : HumanNode}
    (hres : resolveExistingNode project vault spec.relPath slug db = .ok (some node))
    (h : spec.Unchanged node) : db.getNodeByObsidianPath project spec.relPath = some node := by
  rcases resolveExistingNode_path hres with hget | ⟨hnone, -⟩
  · exact hget
  · obtain ⟨hmem, hproject⟩ := resolveExistingNode_mem hres
    obtain ⟨-, -, -, -, -, -, hpath⟩ := h
    have := Rows.get_eq_none_iff.mp hnone node hmem
    simp only [hproject, hpath, ne_eq, not_true_eq_false] at this

section

variable {files : List Text} {spec : UpsertSpec} {now' : ℕ} (hdigits : ReadsDigits host) (hw : db.WellFormed)
  (hnamed : [] ∉ files) (hne : relPath ≠ []) (hother : relPath ∉ files) (hreads : Reads host vault relPath spec)
include hdigits hw hnamed hne hother hreads

/-- A file whose path finds a node, after the files that come behind it. -/
theorem second_of_found {n : HumanNode} (hcheck : spec.update.check = .ok ())
    (hget : db.getNodeByObsidianPath project relPath = some n) :
    ¬(importSingleFile host project vault now' relPath
      (importFiles host project vault clock files db).2).1.Moves ↔ spec.Unchanged n := by
  have hw' := importFiles_wellFormed project vault clock files hdigits hw
  have hkept := importFiles_path project vault clock hdigits hw hnamed hne hother hreads.not_missing
  rw [importSingleFile_moves_iff project now' hdigits hw' hreads, resolve_of_path (hkept.trans hget)]
  simp [hcheck]

theorem second_of_error {e : ImportError}
    (hres : resolveExistingNode project vault relPath (slugify host spec.title) db = .error e) :
    ¬(importSingleFile host project vault now' relPath
      (importFiles host project vault clock files db).2).1.Moves := by
  have hw' := importFiles_wellFormed project vault clock files hdigits hw
  obtain ⟨e', he'⟩ := importFiles_resolve_error project vault clock hdigits hw hnamed hne hother
    hreads.not_missing hres
  rw [importSingleFile_moves_iff project now' hdigits hw' hreads, he']
  simp

/-- A file that was found no node, and for which no slug was free. -/
theorem second_of_rejected (hcheck : spec.update.check = .ok ())
    (hres : resolveExistingNode project vault relPath (slugify host spec.title) db = .ok none)
    (hfree : db.freeSlug project (titleSlug host spec.title now) = none) :
    ¬(importSingleFile host project vault now' relPath
        (importFiles host project vault clock files db).2).1.Moves ↔
      (slugify host spec.title = [] → (importFiles host project vault clock files db).2.freeSlug project
        (titleSlug host spec.title now') = none) := by
  have hw' := importFiles_wellFormed project vault clock files hdigits hw
  have hnone := importFiles_resolve_none project vault clock hdigits hw hnamed hne hother hreads.not_missing hres
  rw [importSingleFile_moves_iff project now' hdigits hw' hreads]
  by_cases hslug : slugify host spec.title = []
  · have hkept := importFiles_path project vault clock hdigits hw hnamed hne hother hreads.not_missing
    have hstill : resolveExistingNode project vault relPath (slugify host spec.title)
        (importFiles host project vault clock files db).2 = .ok none :=
      resolveExistingNode_none_iff.mpr
        ⟨hkept.trans (resolveExistingNode_none_iff.mp hres).1, .inl hslug⟩
    rw [hstill]
    simp [hcheck, hslug]
  · have hsame : titleSlug host spec.title now' = titleSlug host spec.title now := by
      simp [titleSlug, hslug]
    have htaken := importFiles_freeSlug project vault clock hdigits hw hnamed hfree
    rw [hsame]
    refine iff_of_true ?_ fun h => absurd h hslug
    rintro ⟨-, ⟨node, hnode, -⟩ | ⟨-, h⟩⟩
    · exact hnone node hnode
    · exact h htaken

end

/-- **The second time** a file moves unless it settled the first time. `files` are those after it. -/
theorem second_moves_iff {files : List Text} {now' : ℕ} (hdigits : ReadsDigits host) (hw : db.WellFormed)
    (hnamed : [] ∉ files) (hne : relPath ≠ []) (hother : relPath ∉ files) :
    ¬(importSingleFile host project vault now' relPath (importFiles host project vault clock files
        (importSingleFile host project vault now relPath db).2).2).1.Moves ↔
      FileSettles host project vault relPath now db ∧
        StaysRejected host project vault relPath now db now' (importFiles host project vault clock files
          (importSingleFile host project vault now relPath db).2).2 := by
  have hw' : (importSingleFile host project vault now relPath db).2.WellFormed :=
    importSingleFile_wellFormed hdigits hw
  by_cases hreads : ∃ spec, Reads host vault relPath spec ∧ spec.update.check = .ok ()
  swap
  · -- Nothing that is accepted is read of the file.
    refine iff_of_true (fun hmoves => ?_) ⟨fun spec h hcheck => ?_, fun spec h hcheck => ?_⟩
    · have hw1 := importFiles_wellFormed project vault clock files hdigits hw'
      rcases importSingleFile_effect project vault now' relPath hdigits hw1 with ⟨h, -⟩ | ⟨-, spec, _, _, _, h, -⟩
      · exact h hmoves
      · exact hreads ⟨spec, h, ((importSingleFile_moves_iff project now' hdigits hw1 h).mp hmoves).1⟩
    · exact absurd ⟨spec, h, hcheck⟩ hreads
    · exact absurd ⟨spec, h, hcheck⟩ hreads
  obtain ⟨spec, hreads, hcheck⟩ := hreads
  have honly : ∀ spec', Reads host vault relPath spec' → spec' = spec := fun _ h => h.unique hreads
  have hfirst := importSingleFile_moves_iff project now hdigits hw hreads
  have hsettles : FileSettles host project vault relPath now db ↔
      (∀ node, resolveExistingNode project vault relPath (slugify host spec.title) db = .ok (some node) →
        spec.Unchanged node ∨
          spec.ReadsBack host project node.id (oldObsidianPath relPath (some node)) db) ∧
      (resolveExistingNode project vault relPath (slugify host spec.title) db = .ok none →
        db.freeSlug project (titleSlug host spec.title now) ≠ none →
        spec.ReadsBack host project db.nextNode none db) := by
    refine ⟨fun h => h spec hreads hcheck, fun h spec' hreads' _ => ?_⟩
    obtain rfl := honly _ hreads'
    exact h
  have hstays : ∀ later, StaysRejected host project vault relPath now db now' later ↔
      (slugify host spec.title = [] →
        resolveExistingNode project vault relPath (slugify host spec.title) db = .ok none →
        db.freeSlug project (titleSlug host spec.title now) = none →
        later.freeSlug project (titleSlug host spec.title now') = none) := by
    refine fun later => ⟨fun h => h spec hreads hcheck, fun h spec' hreads' _ => ?_⟩
    obtain rfl := honly _ hreads'
    exact h
  rw [hsettles, hstays]
  rcases importSingleFile_effect project vault now relPath hdigits hw with
    ⟨hstill, hsame⟩ | ⟨hmoves, spec', id, outcome, added, hreads', hfile⟩
  · rw [hsame]
    rw [hfirst] at hstill
    cases hres : resolveExistingNode project vault relPath (slugify host spec.title) db with
    | error e => simpa using second_of_error hdigits hw hnamed hne hother hreads hres
    | ok existing =>
      cases existing with
      | some node =>
        have hunchanged : spec.Unchanged node := by
          by_contra h
          exact hstill ⟨hcheck, .inl ⟨node, hres, h⟩⟩
        have hget : db.getNodeByObsidianPath project relPath = some node := by
          rw [← hreads.relPath_eq] at hres ⊢
          exact path_of_unchanged hres hunchanged
        rw [second_of_found hdigits hw hnamed hne hother hreads hcheck hget]
        simp [hunchanged]
      | none =>
        have hfree : db.freeSlug project (titleSlug host spec.title now) = none := by
          by_contra h
          exact hstill ⟨hcheck, .inr ⟨hres, h⟩⟩
        rw [second_of_rejected hdigits hw hnamed hne hother hreads hcheck hres hfree]
        simp [hfree]
  · obtain rfl := honly _ hreads'
    obtain rfl := hreads.relPath_eq
    rcases hfile.rows hw with ⟨node, hres, hchanged, -, rfl, -⟩ | ⟨attempt, hres, hfree, rfl, -⟩
    · obtain ⟨n, hget, hiff⟩ := hfile.unchanged_iff hw hne hres
      rw [second_of_found hdigits hw' hnamed hne hother hreads hcheck hget, hiff, hres]
      simp [hchanged]
    · obtain ⟨n, hget, hiff⟩ := hfile.unchanged_iff hw hne hres
      rw [second_of_found hdigits hw' hnamed hne hother hreads hcheck hget, hiff, hres]
      simp [hfree, oldObsidianPath]

/-! ## The second import -/

/-- **An import that reports no note leaves the database**, and no file moves. -/
theorem importFiles_quiet_iff (project : Text) (vault : Vault) (clock : Text → ℕ) (files : List Text)
    (hdigits : ReadsDigits host) (hw : db.WellFormed) :
    (∀ r ∈ (importFiles host project vault clock files db).1, ¬r.2.Moves) ↔
      ∀ file ∈ files, ¬(importSingleFile host project vault (clock file) file db).1.Moves := by
  induction files with
  | nil => simp [importFiles]
  | cons file files ih =>
    simp only [importFiles, forall_mem_cons]
    refine and_congr_right fun hstill => ?_
    obtain ⟨-, hsame⟩ := (importSingleFile_effect project vault (clock file) file hdigits hw).resolve_right
      fun h => hstill h.1
    rw [hsame]
    exact ih

theorem importFiles_of_quiet {files : List Text} (hdigits : ReadsDigits host) (hw : db.WellFormed)
    (h : ∀ file ∈ files, ¬(importSingleFile host project vault (clock file) file db).1.Moves) :
    (importFiles host project vault clock files db).2 = db := by
  induction files with
  | nil => rfl
  | cons file files ih =>
    obtain ⟨hstill, hrest⟩ := forall_mem_cons.mp h
    obtain ⟨-, hsame⟩ := (importSingleFile_effect project vault (clock file) file hdigits hw).resolve_right
      fun h => hstill h.1
    rw [importFiles, hsame]
    exact ih hrest

theorem idempotent_iff_quiet (hdigits : ReadsDigits host) (hw : db.WellFormed) :
    Idempotent host project vault clock clock' db ↔
      ∀ file ∈ vault.files, ¬(importSingleFile host project vault (clock' file) file
        (importVault host project vault clock db).2).1.Moves := by
  have hw' : (importVault host project vault clock db).2.WellFormed :=
    importFiles_wellFormed project vault clock vault.files hdigits hw
  have hreport := importFiles_quiet_iff project vault clock' vault.files hdigits hw'
  constructor
  · exact fun h => hreport.mp fun r hr => not_or.mpr (h.report r hr)
  · intro h
    have hsame : (importVault host project vault clock' (importVault host project vault clock db).2).2 =
        (importVault host project vault clock db).2 := importFiles_of_quiet hdigits hw' h
    refine ⟨by rw [hsame], by rw [hsame], by rw [hsame], fun r hr => ?_⟩
    exact not_or.mp (hreport.mpr h r hr)

/-- **The second import leaves everything** exactly when every file settles at its turn in the first, and
the files for which no slug of the time was free find none free the second time. -/
theorem importVault_idempotent_iff (hdigits : ReadsDigits host) (hw : db.WellFormed) (hwalked : vault.Walked) :
    Idempotent host project vault clock clock' db ↔
      ∀ before file after, vault.files = before ++ file :: after →
        FileSettles host project vault file (clock file) (importFiles host project vault clock before db).2 ∧
          StaysRejected host project vault file (clock file)
            (importFiles host project vault clock before db).2 (clock' file)
            (importVault host project vault clock db).2 := by
  rw [idempotent_iff_quiet hdigits hw]
  have hturn : ∀ before file after, vault.files = before ++ file :: after →
      (¬(importSingleFile host project vault (clock' file) file
          (importVault host project vault clock db).2).1.Moves ↔
        FileSettles host project vault file (clock file) (importFiles host project vault clock before db).2 ∧
          StaysRejected host project vault file (clock file)
            (importFiles host project vault clock before db).2 (clock' file)
            (importVault host project vault clock db).2) := by
    intro before file after heq
    have hnodup := hwalked.nodup
    have hnamed := hwalked.named
    rw [heq] at hnodup hnamed
    have hrun : (importVault host project vault clock db).2 =
        (importFiles host project vault clock after
          (importSingleFile host project vault (clock file) file
            (importFiles host project vault clock before db).2).2).2 := by
      rw [importVault, heq, importFiles_append]
      rfl
    rw [hrun]
    refine second_moves_iff hdigits (importFiles_wellFormed project vault clock before hdigits hw) ?_ ?_ ?_
    · exact fun h => hnamed (by simp [h])
    · rintro rfl
      exact hnamed (by simp)
    · exact (nodup_cons.mp (List.nodup_append.mp hnodup).2.1).1
  constructor
  · intro h before file after heq
    exact (hturn before file after heq).mp (h file (heq ▸ by simp))
  · intro h file hfile
    obtain ⟨before, after, heq⟩ := append_of_mem hfile
    exact (hturn before file after heq).mpr (h before file after heq)

/-! ## A link that the frontmatter does not list -/

/-- A vault with one file. -/
def oneFileVault (relPath content : Text) : Vault where
  files := [relPath]
  read path := if path = relPath then .content content else .missing

@[simp] theorem oneFileVault_read (relPath content : Text) :
    (oneFileVault relPath content).read relPath = .content content := if_pos rfl

theorem oneFileVault_walked {relPath content : Text} (hne : relPath ≠ []) :
    (oneFileVault relPath content).Walked :=
  ⟨nodup_singleton _, fun h => hne (mem_singleton.mp h).symm⟩

theorem oneFileVault_split {relPath content file : Text} {before after : List Text}
    (h : (oneFileVault relPath content).files = before ++ file :: after) :
    before = [] ∧ file = relPath := by
  change [relPath] = before ++ file :: after at h
  cases before with
  | nil => exact ⟨rfl, (List.cons.inj h).1.symm⟩
  | cons b bs => simp at h

def queuePath : Text := "ADR/queue.md".toList

/-- A new note with a link to the code node 42 is updated by the second import. -/
theorem importVault_updates_again :
    ¬Idempotent asciiHost "app".toList
      (oneFileVault queuePath "# Queue\n\n## HUMAN NOTES\n\nsee [[42]]\n".toList)
      (fun _ => 0) (fun _ => 1) Db.empty := by
  intro h
  refine (h.report (queuePath, .updated) ?_).2 rfl
  exact mem_singleton.mpr (by rfl)

/-- The law for a note without links to code nodes. -/
theorem importVault_idempotent_plain :
    Idempotent asciiHost "app".toList
      (oneFileVault queuePath "# Queue\n\n## HUMAN NOTES\n\nsee [[queue]]\n".toList)
      (fun _ => 0) (fun _ => 1) Db.empty := by
  have hread : ∃ spec, parseVaultFile asciiHost queuePath "# Queue\n\n## HUMAN NOTES\n\nsee [[queue]]\n".toList =
      .ok spec ∧ spec.cbmNodeIds = [] ∧ spec.fm = .nil ∧ slugify asciiHost spec.title ≠ [] ∧
      ∀ id, codeLinkKeys asciiHost "app".toList id spec.humanBody = [] :=
    ⟨_, rfl, rfl, rfl, by decide, fun _ => rfl⟩
  obtain ⟨spec, hparse, hids, hfm, hslug, hlinks⟩ := hread
  have hspec : ∀ spec', Reads asciiHost (oneFileVault queuePath
      "# Queue\n\n## HUMAN NOTES\n\nsee [[queue]]\n".toList) queuePath spec' → spec' = spec := by
    rintro spec' ⟨-, content, -, hread, hparse'⟩
    have hcontent := ReadNote.content.inj ((oneFileVault_read _ _).symm.trans hread)
    rw [← hcontent, hparse] at hparse'
    exact (Except.ok.inj hparse').symm
  have hback : ∀ id old db, spec.ReadsBack asciiHost "app".toList id old db := by
    intro id old db
    refine ⟨by simp [hids], by rw [hfm]; rfl, fun k hk => ?_⟩
    rw [hlinks] at hk
    cases hk
  refine (importVault_idempotent_iff asciiHost_readsDigits Db.WellFormed.empty
    (oneFileVault_walked (by decide))).mpr ?_
  intro before file after heq
  obtain ⟨rfl, rfl⟩ := oneFileVault_split heq
  refine ⟨fun spec' h _ => ?_, fun spec' h _ hno => ?_⟩
  · obtain rfl := hspec spec' h
    exact ⟨fun _ _ => .inr (hback _ _ _), fun _ _ => hback _ _ _⟩
  · obtain rfl := hspec spec' h
    exact absurd hno hslug

end Ariad.Obsidian
