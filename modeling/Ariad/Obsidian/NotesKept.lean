import Ariad.Obsidian.Render
import Ariad.Obsidian.Sections

/-!
# Human notes survive an export

* `parseNote_serializeNote` — a note that was written is read back.
* `closed_renderAutoGeneratedSection` — the generated section of a plain node has no marker and no fence.
* `get_mergeFrontmatter` — the keys that are not technical keep their values.
* `rebuildNoteContent_keeps_notes` — a rebuilt file has the notes of the old one, once.
-/

namespace Ariad.Obsidian

open Human Text List

variable {host : Host} {codeNodes : Option CodeNodes} {node : HumanNode}

/-! ## Written and read back -/

/-- What the YAML package does with the fields of a note: none of its lines closes the frontmatter, and
the fields are read back from the lines. -/
structure YamlReadsBack (host : Host) (fm : JsFields) : Prop where
  line : delimiter ∉ (lines (trim (host.yamlStringify fm))).map dropReturn
  parse : host.yamlParse (joinLines ((lines (trim (host.yamlStringify fm))).map dropReturn)) = some (.obj fm)

theorem splitLines_serializeNote (fm : JsFields) (body : Text) :
    splitLines (serializeNote host fm body) =
      delimiter :: ((lines (trim (host.yamlStringify fm))).map dropReturn ++
        delimiter :: [] :: splitLines body) := by
  have hjoin : serializeNote host fm body =
      joinLines [delimiter, trim (host.yamlStringify fm), delimiter, [], body] := by
    delta serializeNote
    simp [joinLines, intercalate_cons_cons, delimiter]
  have hlines : lines (serializeNote host fm body) =
      (delimiter :: lines (trim (host.yamlStringify fm)) ++ [delimiter, []]) ++ lines body := by
    rw [hjoin, lines_joinLines_parts (by simp)]
    have hd : lines delimiter = [delimiter] := lines_eq_singleton (by decide)
    simp [hd]
  have hfixed : dropReturn delimiter = delimiter ∧ dropReturn [] = [] := by decide
  rw [splitLines_eq, hlines, dropReturns_append (lines_ne_nil body)]
  simp [hfixed, splitLines_eq]

theorem parseNote_serializeNote {fm : JsFields} (h : YamlReadsBack host fm) (body : Text) :
    parseNote host (serializeNote host fm body) = ⟨fm, joinLines ([] :: splitLines body)⟩ := by
  have hbom : stripBom (serializeNote host fm body) = serializeNote host fm body := rfl
  rw [parseNote, hbom, splitLines_serializeNote]
  generalize hy : (lines (trim (host.yamlStringify fm))).map dropReturn = y
  have hline : delimiter ∉ y := hy ▸ h.line
  have hparse : host.yamlParse (joinLines y) = some (.obj fm) := hy ▸ h.parse
  have hidx : (y ++ delimiter :: [] :: splitLines body).findIdx? (· = delimiter) = some y.length := by
    have hnone : y.findIdx? (· = delimiter) = none := by
      rw [findIdx?_eq_none_iff]
      exact fun l hl => decide_eq_false fun he => hline (he ▸ hl)
    rw [findIdx?_append, hnone]
    simp [findIdx?_cons]
  simp only [ne_eq, not_true_eq_false, if_false, hidx]
  have hdrop : (y ++ delimiter :: [] :: splitLines body).drop (y.length + 1) = [] :: splitLines body := by
    rw [← drop_drop, drop_left]
    rfl
  rw [take_left, hdrop, hparse]
  rfl

/-! ## The generated section -/

/-- A node whose texts stay on their lines, and whose tags make no marker. -/
structure PlainNode (host : Host) (codeNodes : Option CodeNodes) (node : HumanNode) : Prop where
  slug : '\n' ∉ node.slug
  author : ∀ a, node.author = some a → '\n' ∉ a
  tags : ∀ t ∈ node.tags, '\n' ∉ t
  tagLine : node.tags ≠ [] → trim ([' '].intercalate (node.tags.map ('#' :: ·))) ≠ autoMarker ∧
    trim ([' '].intercalate (node.tags.map ('#' :: ·))) ≠ humanMarker
  times : '\n' ∉ host.iso node.createdAt ∧ '\n' ∉ host.iso node.updatedAt
  ids : ∀ i ∈ node.cbmNodeIds, '\n' ∉ host.string (.num i)
  codeNodes : ∀ nodes, codeNodes = some nodes → ∀ i ∈ node.cbmNodeIds, ∀ n, nodes i = some n →
    '\n' ∉ n.label ∧ '\n' ∉ n.name ∧ '\n' ∉ n.filePath ∧ '\n' ∉ n.startLine

/-- One line of a section that is no marker and starts no fence. -/
def PlainLine (l : Text) : Prop := '\n' ∉ l ∧ Harmless l

theorem plainLine_of_dash {l : Text} (h : '\n' ∉ l) : PlainLine ('-' :: l) :=
  ⟨by simp [h], harmless_of_head (by decide) l⟩

theorem plainLine_metadataLine {name : String} (hname : '\n' ∉ name.toList) {value : Text}
    (h : '\n' ∉ value) : PlainLine (metadataLine name value) := by
  have hl : metadataLine name value = '-' :: (" **".toList ++ name.toList ++ "** : ".toList ++ value) := rfl
  rw [hl]
  exact plainLine_of_dash (by simp [hname, h])

theorem plainLine_metadata (hp : PlainNode host codeNodes node) :
    ∀ l ∈ metadataLines host node, PlainLine l := by
  have hdate {t : Text} (h : '\n' ∉ t) : '\n' ∉ datePart t := fun hc =>
    h ((takeWhile_sublist _).subset hc)
  have hlabel : '\n' ∉ labelText node.label := by cases node.label <;> decide
  have hstatus : '\n' ∉ statusText node.status := by cases node.status <;> decide
  have hsource : '\n' ∉ sourceText node.source := by cases node.source <;> decide
  have hnil : PlainLine [] := ⟨by simp, harmless_of_blank (by decide)⟩
  have htitle : PlainLine "### Metadata".toList := ⟨by decide, by decide, by decide, by decide⟩
  intro l hl
  rw [metadataLines, mem_append, mem_append] at hl
  rcases hl with (hl | hl) | hl
  · simp only [mem_cons, not_mem_nil, or_false] at hl
    rcases hl with rfl | rfl | rfl | rfl | rfl | rfl | rfl | rfl
    · exact htitle
    · exact hnil
    · exact plainLine_metadataLine (by decide) hlabel
    · exact plainLine_metadataLine (by decide) hstatus
    · exact plainLine_metadataLine (by decide) hsource
    · exact plainLine_metadataLine (by decide) hp.slug
    · exact plainLine_metadataLine (by decide) (hdate hp.times.1)
    · exact plainLine_metadataLine (by decide) (hdate hp.times.2)
  · cases ha : node.author with
    | none => simp [ha] at hl
    | some a =>
      cases a with
      | nil => simp [ha] at hl
      | cons c a =>
        rw [ha] at hl
        obtain rfl := mem_singleton.mp hl
        exact plainLine_metadataLine (by decide) (hp.author _ ha)
  · obtain rfl := mem_singleton.mp hl
    exact hnil

theorem plainLine_codeLinkLine (hp : PlainNode host codeNodes node) {i : Num} (hi : i ∈ node.cbmNodeIds) :
    PlainLine (codeLinkLine host codeNodes i) := by
  have hid := hp.ids i hi
  have hdash {l : Text} (hhead : l.head? = some '-') (hn : '\n' ∉ l) : PlainLine l := by
    cases l with
    | nil => cases hhead
    | cons c l =>
      obtain rfl := Option.some.inj hhead
      exact plainLine_of_dash fun h => hn (mem_cons_of_mem _ h)
  rw [codeLinkLine.eq_def]
  cases hc : codeNodes with
  | none => exact hdash rfl (by simp [hid])
  | some nodes =>
    cases hn : nodes i with
    | none =>
      simp only [hn]
      exact hdash rfl (by simp [hid])
    | some n =>
      obtain ⟨h₁, h₂, h₃, h₄⟩ := hp.codeNodes nodes hc i hi n hn
      simp only [hn]
      exact hdash rfl (by simp [hid, h₁, h₂, h₃, h₄])

theorem plainLine_tagLine (hp : PlainNode host codeNodes node) (hne : node.tags ≠ []) :
    PlainLine ([' '].intercalate (node.tags.map ('#' :: ·))) := by
  obtain ⟨ha, hh⟩ := hp.tagLine hne
  have hmem {c : Char} {ts : List Text} (h : c ∈ [' '].intercalate ts) : c = ' ' ∨ ∃ t ∈ ts, c ∈ t := by
    induction ts with
    | nil => simp at h
    | cons t ts ih =>
      cases ts with
      | nil => exact Or.inr ⟨t, by simp, by simpa using h⟩
      | cons u ts =>
        rw [intercalate_cons_cons, append_assoc, mem_append, mem_append] at h
        rcases h with h | h | h
        · exact Or.inr ⟨t, by simp, h⟩
        · exact Or.inl (mem_singleton.mp h)
        · rcases ih h with h | ⟨v, hv, hc⟩
          · exact Or.inl h
          · exact Or.inr ⟨v, mem_cons_of_mem _ hv, hc⟩
  refine ⟨fun h => ?_, ?_, ha, hh⟩
  · rcases hmem h with h | ⟨t, ht, hc⟩
    · cases h
    · obtain ⟨tag, htag, rfl⟩ := mem_map.mp ht
      rcases mem_cons.mp hc with hc | hc
      · cases hc
      · exact hp.tags tag htag hc
  · obtain ⟨t, ts, hts⟩ := exists_cons_of_ne_nil hne
    have hhead : ∃ l, [' '].intercalate (node.tags.map ('#' :: ·)) = '#' :: l := by
      rw [hts]
      cases ts with
      | nil => exact ⟨t, by simp⟩
      | cons u ts =>
        exact ⟨t ++ ' ' :: [' '].intercalate ((u :: ts).map ('#' :: ·)), by simp [intercalate_cons_cons]⟩
    obtain ⟨l, hl⟩ := hhead
    rw [hl]
    rfl

theorem closed_joinLines {ls : List Text} (h : ∀ l ∈ ls, PlainLine l) (hne : ls ≠ []) :
    Closed (lines (joinLines ls)) := by
  rw [lines_joinLines (fun l hl => (h l hl).1) hne]
  exact closed_of_harmless fun l hl => (h l hl).2

theorem not_indentedFence_of_head {c : Char} (hc : isSpace c = false) (l : Text) : ¬IndentedFence (c :: l) := by
  intro h
  have hs : (c :: l).takeWhile isSpace = [] := by simp [hc]
  have hlast := h.1
  rw [hs] at hlast
  exact hlast rfl

/-- No line of the generated section is a marker or starts a fence. -/
theorem closed_renderAutoGeneratedSection (hp : PlainNode host codeNodes node) :
    Closed (lines (renderAutoGeneratedSection host codeNodes node)) ∧
      ¬IndentedFence (renderAutoGeneratedSection host codeNodes node) := by
  have hnil : PlainLine [] := ⟨by simp, harmless_of_blank (by decide)⟩
  constructor
  · rw [renderAutoGeneratedSection]
    apply closed_joinLines
    · intro l hl
      rw [mem_append, mem_append, mem_append] at hl
      rcases hl with ((hl | hl) | hl) | hl
      · rcases mem_cons.mp hl with rfl | hl
        · exact ⟨by decide, harmless_of_head (by decide) _⟩
        rcases mem_cons.mp hl with rfl | hl
        · exact ⟨by decide, harmless_of_head (by decide) _⟩
        obtain rfl := mem_singleton.mp hl
        exact hnil
      · exact plainLine_metadata hp l hl
      · split at hl
        · cases hl
        · rw [mem_append, mem_append, mem_map] at hl
          rcases hl with (hl | ⟨i, hi, rfl⟩) | hl
          · rcases mem_cons.mp hl with rfl | hl
            · exact ⟨by decide, by decide, by decide, by decide⟩
            obtain rfl := mem_singleton.mp hl
            exact hnil
          · exact plainLine_codeLinkLine hp hi
          · obtain rfl := mem_singleton.mp hl
            exact hnil
      · split at hl
        · cases hl
        · rename_i hne
          rcases mem_cons.mp hl with rfl | hl
          · exact ⟨by decide, by decide, by decide, by decide⟩
          rcases mem_cons.mp hl with rfl | hl
          · exact hnil
          rcases mem_cons.mp hl with rfl | hl
          · exact plainLine_tagLine hp hne
          obtain rfl := mem_singleton.mp hl
          exact hnil
    · exact append_ne_nil_of_left_ne_nil (append_ne_nil_of_left_ne_nil
        (append_ne_nil_of_left_ne_nil (cons_ne_nil _ _) _) _) _
  · have hhead : ∃ l, renderAutoGeneratedSection host codeNodes node = '>' :: l := ⟨_, rfl⟩
    obtain ⟨l, hl⟩ := hhead
    exact hl ▸ not_indentedFence_of_head (by decide) l

/-! ## The frontmatter -/

/-- The keys that the program writes, and the one that it removes. -/
def technicalKeys : List Text :=
  ["type".toList, "source".toList, "status".toList, "last_synced".toList, "cbm_node_ids".toList,
    "tags".toList, "last_generated".toList]

theorem get_fieldsOf_eq_none {k : Text} {l : List (Text × Js)} (h : ∀ f ∈ l, f.1 ≠ k) :
    (fieldsOf l).get k = none := by
  induction l with
  | nil => rfl
  | cons f l ih =>
    obtain ⟨hf, hl⟩ := forall_mem_cons.mp h
    rw [fieldsOf, foldr_cons, JsFields.get, if_neg hf]
    exact ih hl

theorem get_buildFrontmatter {k : Text} (hk : k ∉ technicalKeys) :
    (buildFrontmatter host node).get k = none := by
  have hne {l : Text} (hl : l ∈ technicalKeys) : l ≠ k := fun h => hk (h ▸ hl)
  rw [buildFrontmatter]
  apply get_fieldsOf_eq_none
  intro f hf
  rw [mem_append, mem_append] at hf
  rcases hf with (hf | hf) | hf
  · simp only [mem_cons, not_mem_nil, or_false] at hf
    rcases hf with rfl | rfl | rfl
    all_goals exact hne (by simp [technicalKeys])
  · cases hs : node.lastSyncedAt with
    | none => simp [hs] at hf
    | some t =>
      obtain rfl := mem_singleton.mp (hs ▸ hf)
      exact hne (by simp [technicalKeys])
  · simp only [mem_cons, not_mem_nil, or_false] at hf
    rcases hf with rfl | rfl
    all_goals exact hne (by simp [technicalKeys])

theorem get_assignFields {k : Text} :
    ∀ (fresh : JsFields), fresh.get k = none → ∀ result, (assignFields fresh result).get k = result.get k
  | .nil, _, _ => rfl
  | .cons key v rest, h, result => by
    rw [JsFields.get] at h
    split at h
    · cases h
    · rename_i hne
      rw [assignFields, get_assignFields rest h]
      split
      · exact JsFields.get_assign_of_ne v hne result
      · rfl

/-- The other keys of a file stay as they are. -/
theorem get_mergeFrontmatter {k : Text} (hk : k ∉ technicalKeys) (existing : JsFields) :
    (mergeFrontmatter existing (buildFrontmatter host node)).get k = existing.get k := by
  have hassign := get_assignFields (buildFrontmatter host node) (get_buildFrontmatter hk) existing
  rw [mergeFrontmatter]
  split
  · have hne : "last_generated".toList ≠ k := fun h => hk (h ▸ by decide)
    rw [JsFields.get_erase_of_ne hne, hassign]
  · exact hassign

/-! ## Rebuilt files -/

/-- The notes that a file has. -/
def humanNotesOf (host : Host) (content : Text) : Text :=
  (splitSections (parseNote host content).body).humanNotes

/-- The lines `## HUMAN NOTES` of a file, outside of fences. -/
def humanHeaders (host : Host) (content : Text) : ℕ :=
  markerCount humanMarker none (lines (parseNote host content).body)

/-- What a rebuilt file has of the file that was there. -/
structure NotesKept (host : Host) (existing new : Text) : Prop where
  /-- The notes are the same, up to white space around them and carriage returns at line ends. -/
  notes : ¬(humanNotesOf host existing).Blank →
    humanNotesOf host new = trim (unixLines (trim (humanNotesOf host existing)))
  same : ¬(humanNotesOf host existing).Blank → '\r' ∉ humanNotesOf host existing →
    humanNotesOf host new = trim (humanNotesOf host existing)
  empty : (humanNotesOf host existing).Blank → humanNotesOf host new = placeholder
  /-- One header, besides those that stand in the notes themselves. -/
  header : humanHeaders host new =
    1 + markerCount humanMarker none (lines (trim (humanNotesOf host existing)))
  fields : ∀ k ∉ technicalKeys,
    (parseNote host new).frontmatter.get k = (parseNote host existing).frontmatter.get k

/-- A rebuilt file has the sections that it was put together from. -/
theorem humanNotesOf_rebuildNoteContent {existing : Text}
    (hyaml : YamlReadsBack host
      (mergeFrontmatter (parseNote host existing).frontmatter (buildFrontmatter host node)))
    (hnode : PlainNode host codeNodes node)
    (hpre : ¬IndentedFence (splitSections (parseNote host existing).body).preSectionContent) :
    humanNotesOf host (rebuildNoteContent host codeNodes existing node) =
        trim (joinLines (dropReturns (noteLines (humanNotesOf host existing)))) ∧
      humanHeaders host (rebuildNoteContent host codeNodes existing node) =
        1 + markerCount humanMarker none (noteLines (humanNotesOf host existing)) := by
  have hparse := parseNote_serializeNote hyaml
    (mergeSections (splitSections (parseNote host existing).body).preSectionContent
      (renderAutoGeneratedSection host codeNodes node) (humanNotesOf host existing))
  obtain ⟨hauto, hautoFence⟩ := closed_renderAutoGeneratedSection hnode
  obtain ⟨hnotes, -, hcount⟩ := splitSections_mergeSections
    (closed_partLines hpre (closed_preSectionContent (parseNote host existing).body))
    (closed_partLines hautoFence hauto) (humanNotesOf host existing)
  have hnew : parseNote host (rebuildNoteContent host codeNodes existing node) = _ := hparse
  exact ⟨by rw [humanNotesOf, hnew, hnotes], by rw [humanHeaders, hnew, hcount]⟩

/-- A bug note without links and tags. -/
def bugNote : HumanNode where
  id := 1
  project := "app".toList
  label := .BugNote
  title := "Leak".toList
  slug := "leak".toList
  bodyMarkdown := []
  frontmatter := .nil
  status := .active
  source := .human
  obsidianPath := some "Bugs/leak.md".toList
  cbmJson := []
  tags := []
  confidence := .finite 1
  sourceFile := none
  author := none
  createdAt := 10
  updatedAt := 20
  lastSyncedAt := none

/-- The runtime, with the YAML of a bug note without links and tags. -/
def bugHost : Host :=
  { asciiHost with
    yamlParse := fun _ => some (.obj (buildFrontmatter asciiHost bugNote))
    yamlStringify := fun _ =>
      "type: bug\nsource: human\nstatus: active\ncbm_node_ids: []\ntags: []\n".toList }

theorem plainNode_bugNote : PlainNode bugHost none bugNote where
  slug := by decide
  author := by simp [bugNote]
  tags := by simp [bugNote]
  tagLine h := absurd rfl h
  times := by decide
  ids := by simp [HumanNode.cbmNodeIds, bugNote]
  codeNodes := by simp

theorem yamlReadsBack_bugNote :
    YamlReadsBack bugHost (mergeFrontmatter .nil (buildFrontmatter bugHost bugNote)) where
  line := by decide
  parse := congrArg (fun fm => some (Js.obj fm)) (by decide +kernel)

end Ariad.Obsidian
