import Ariad.Ui.GraphRoutes

/-!
# Cursors are read back if they are short

* `readCursor_encodeCursor` — a cursor is read if its JSON has at most three bytes for four characters of the limit.
* `decodeSearchCursor_encode`, `decodeScopeCursor_encode`, `decodeNeighborhoodCursor_encode` — what each route takes
  from its own cursors.
* `SearchFits`, `ScopeFits` — the sizes that fit. Cursors of a neighborhood always fit.
-/

namespace Ariad.Ui

open Bridge Json List Bool

/-! ## Lengths -/

variable {o : Fields}

theorem units_base64url (bytes : List UInt8) : units (base64url bytes) = (4 * bytes.length + 2) / 3 := by
  have hdigit : ∀ n, (utf16 (base64Digit n)).length = 1 := by
    intro n
    have hall : base64Digits.all (fun c => decide (c.toNat < 0x10000)) = true := by decide
    rw [base64Digit, getD_eq_getElem?_getD]
    cases h : base64Digits[n]? with
    | none => rfl
    | some c =>
      have hc := of_decide_eq_true (all_eq_true.mp hall c (mem_of_getElem? h))
      simp [utf16, hc]
  have hunits : ∀ ns : List ℕ, units (ns.map base64Digit) = ns.length := by
    intro ns
    induction ns with
    | nil => rfl
    | cons n ns ih =>
      rw [units] at ih ⊢
      rw [map_cons, flatMap_cons, length_append, hdigit, ih, length_cons]
      omega
  rw [base64url, hunits, length_sextets, length_map]

theorem readCursor_encodeCursor (ho : o ≠ []) (k : ℕ) :
    readCursor (4 * k) (encodeCursor o) = if (utf8 (stringify o)).length ≤ 3 * k then some o else none := by
  have hlength := length_base64url (utf8 (stringify o))
  have hpos := length_utf8_stringify ho
  have hne : encodeCursor o ≠ [] := by
    intro hnil
    rw [encodeCursor] at hnil
    rw [hnil, length_nil] at hlength
    omega
  have hread : (ofUtf8 (ofBase64url (encodeCursor o))).bind parse = some o := by
    rw [encodeCursor, ofBase64url_base64url, ofUtf8_utf8, Option.bind_some, parse_stringify]
  have hunits : units (encodeCursor o) = (4 * (utf8 (stringify o)).length + 2) / 3 := units_base64url _
  rw [readCursor, hread, hunits]
  by_cases hfits : (utf8 (stringify o)).length ≤ 3 * k
  · rw [if_pos hfits, if_neg]
    rintro (h | h)
    · exact hne h
    · omega
  · rw [if_neg hfits, if_pos]
    exact .inr (by omega)

/-! ## Sizes -/

/-- A string that needs no escapes has its own bytes. -/
theorem jsonBytes_eq_of_escape {t : Text} (h : ∀ c ∈ t, escape c = [c]) : jsonBytes t = (utf8 t).length := by
  induction t with
  | nil => rfl
  | cons c t ih =>
    have hrest := ih fun d hd => h d (mem_cons_of_mem _ hd)
    have hc : charBytes c = (utf8 [c]).length := by rw [charBytes, h c mem_cons_self]
    have happend : (utf8 (c :: t)).length = (utf8 [c]).length + (utf8 t).length := length_utf8_append [c] t
    rw [happend, jsonBytes, map_cons, sum_cons, hc]
    rw [jsonBytes] at hrest
    rw [hrest]

theorem escape_eq_self {c : Char} (hquote : c ≠ '"') (hback : c ≠ '\\') (hcontrol : 32 ≤ c.toNat) : escape c = [c] := by
  rw [escape, if_neg hquote, if_neg hback]
  iterate 6 rw [if_neg (by omega)]

/-- Letters, digits, `_` and `-` take one byte. -/
theorem charBytes_of_alphanum {c : Char} (h : (c.isAlphanum || decide (c = '_') || decide (c = '-')) = true) :
    charBytes c = 1 := by
  have hrange : c.toNat < 128 ∧ 45 ≤ c.toNat ∧ c.toNat ≠ 92 := by
    replace h : (((decide (c.val ≥ 'A'.val ∧ c.val ≤ 'Z'.val) || (c.val ≥ 'a'.val && c.val ≤ 'z'.val)) ||
      (c.val ≥ '0'.val && c.val ≤ '9'.val)) || decide (c = '_') || decide (c = '-')) = true := h
    simp only [or_eq_true, and_eq_true, decide_eq_true_eq, ge_iff_le, UInt32.le_iff_toNat_le] at h
    have hval : c.toNat = c.val.toNat := rfl
    have hunder : c = '_' → c.toNat = 95 := fun h => h ▸ rfl
    have hdash : c = '-' → c.toNat = 45 := fun h => h ▸ rfl
    have hA : 'A'.val.toNat = 65 := rfl
    have hZ : 'Z'.val.toNat = 90 := rfl
    have ha : 'a'.val.toNat = 97 := rfl
    have hz : 'z'.val.toNat = 122 := rfl
    have h0 : '0'.val.toNat = 48 := rfl
    have h9 : '9'.val.toNat = 57 := rfl
    obtain ((((hupper | hlower) | hdigit) | hc) | hc) := h
    · omega
    · omega
    · omega
    · have := hunder hc
      omega
    · have := hdash hc
      omega
  obtain ⟨hascii, hlow, hback⟩ := hrange
  have hquote : c ≠ '"' := by
    rintro rfl
    exact absurd hlow (by decide)
  have hback' : c ≠ '\\' := by
    rintro rfl
    exact hback rfl
  have hsize : c.utf8Size = 1 := by
    rw [Char.utf8Size_eq_one_iff, UInt32.le_iff_toNat_le]
    exact Nat.le_of_lt_succ hascii
  rw [charBytes, escape_eq_self hquote hback' (by omega)]
  exact length_utf8_ascii (by simpa using hsize)

theorem jsonBytes_revision (r : GraphRevision) : jsonBytes r.text = 38 := by
  have hvalid := r.valid
  simp only [isGraphRevision, and_eq_true, decide_eq_true_eq, all_eq_true] at hvalid
  obtain ⟨⟨hlead, hlength⟩, hall⟩ := hvalid
  obtain ⟨rest, hrest⟩ := List.isPrefixOf_iff_prefix.mp hlead
  have hdrop : r.text.drop 16 = rest := by
    rw [← hrest]
    rfl
  have hcount : rest.length = 22 := by
    rw [← hrest, length_append] at hlength
    have hhead : "graph-reader-v1:".toList.length = 16 := rfl
    omega
  have hbytes : rest.map charBytes = List.replicate 22 1 := by
    rw [eq_replicate_iff]
    refine ⟨by rw [length_map, hcount], ?_⟩
    intro n hn
    obtain ⟨c, hc, rfl⟩ := mem_map.mp hn
    exact charBytes_of_alphanum (hall c (hdrop ▸ hc))
  rw [← hrest, jsonBytes, map_append, hbytes]
  decide

theorem length_toDigits_le {n : ℕ} (h : n ≤ maxSafeInteger) : (Nat.toDigits 10 n).length ≤ 16 := by
  rw [Nat.length_toDigits_le_iff (by omega) (by omega)]
  rw [maxSafeInteger] at h
  omega

/-- A project has at most 246 bytes, none of which is escaped. -/
theorem jsonBytes_project {project : Text} (h : isValidProjectName project = true) : jsonBytes project ≤ 246 := by
  simp only [isValidProjectName, and_eq_true, decide_eq_true_eq, not_eq_true'] at h
  have hchars := h.1.1.1.1.1.2
  have hbytes := h.2
  have hescape : ∀ c ∈ project, escape c = [c] := by
    intro c hc
    have hvalid : invalidFilenameChar c = false := by
      rw [any_eq_false] at hchars
      simpa using hchars c hc
    simp only [invalidFilenameChar, isControl, or_eq_false_iff, decide_eq_false_iff_not] at hvalid
    apply escape_eq_self
    iterate 2
      · rintro rfl
        exact absurd hvalid.2 (by decide)
    · omega
  have hsuffix : (utf8 ".human.db".toList).length = 9 := by decide
  rw [length_utf8_append, hsuffix] at hbytes
  rw [jsonBytes_eq_of_escape hescape]
  omega

/-! ## What is read back -/

theorem revisionField_eq {r : GraphRevision} (h : field o "graph_revision" = some (.str r.text)) :
    revisionField o = some r.text := by
  rw [revisionField, h]
  exact if_pos r.valid

theorem safeField_eq {name : String} {n : ℕ} (h : field o name = some (.num n)) (hn : n ≤ maxSafeInteger) :
    safeField o name = some n := by
  rw [safeField, h]
  exact if_pos hn

theorem safeFieldOrMissing_eq {name : String} {n : ℕ} (h : field o name = some (.num n))
    (hn : n ≤ maxSafeInteger) : safeFieldOrMissing o name = some (n : ℤ) := by
  rw [safeFieldOrMissing, h]
  simp only
  rw [safeField_eq h hn, Option.map_some]

theorem jsonBytes_names : jsonBytes "v".toList = 1 ∧ jsonBytes "project".toList = 7 ∧ jsonBytes "query".toList = 5 ∧
    jsonBytes "match_version".toList = 13 ∧ jsonBytes matchVersion = 20 ∧ jsonBytes "after_rank".toList = 10 ∧
    jsonBytes "kind".toList = 4 ∧ jsonBytes "key".toList = 3 ∧ jsonBytes "node_id".toList = 7 ∧
    jsonBytes "after_node_id".toList = 13 ∧ jsonBytes "batch_end_node_id".toList = 17 ∧
    jsonBytes "after_edge_id".toList = 13 ∧ jsonBytes "graph_revision".toList = 14 ∧
    (Nat.toDigits 10 1).length = 1 := by decide

/-- The search cursors that the route reads back: their last node behind `query` has an id of few digits. -/
def SearchFits (project query : Text) (nodeId : ℕ) : Prop :=
  jsonBytes project + jsonBytes query + (Nat.toDigits 10 nodeId).length ≤ 608

theorem decodeSearchCursor_encode (project query : Text) {afterRank afterNodeId : ℕ} (r : GraphRevision)
    (hrank : afterRank ≤ 5) (hpos : 0 < afterNodeId) (hsafe : afterNodeId ≤ maxSafeInteger) :
    (SearchFits project query afterNodeId →
      decodeSearchCursor (encodeSearchCursor ⟨project, query, afterRank, afterNodeId, r.text⟩) project query =
        some (afterRank, afterNodeId, r.text)) ∧ (¬ SearchFits project query afterNodeId →
      decodeSearchCursor (encodeSearchCursor ⟨project, query, afterRank, afterNodeId, r.text⟩) project query = none) := by
  obtain ⟨c, hc⟩ : ∃ c : SearchCursor, c = ⟨project, query, afterRank, afterNodeId, r.text⟩ := ⟨_, rfl⟩
  have hne : c.fields ≠ [] := by simp [SearchCursor.fields]
  have hrankDigits : (Nat.toDigits 10 afterRank).length = 1 := by
    rw [Nat.toDigits_of_lt_base (by omega)]
    rfl
  have hbytes : (utf8 (stringify c.fields)).length =
      160 + jsonBytes project + jsonBytes query + (Nat.toDigits 10 afterNodeId).length := by
    rw [length_utf8_stringify hne, hc]
    simp only [SearchCursor.fields, map_cons, map_nil, sum_cons, sum_nil, Value.bytes,
      jsonBytes_names, jsonBytes_revision, hrankDigits]
    omega
  have hread : readCursor 1024 (encodeCursor c.fields) = _ := readCursor_encodeCursor hne 256
  rw [hbytes] at hread
  rw [← hc]
  simp only [decodeSearchCursor, encodeSearchCursor]
  constructor
  · intro hfits
    rw [SearchFits] at hfits
    rw [hread, if_pos (by omega), Option.bind_some, hc]
    rw [if_pos ⟨rfl, rfl, rfl, rfl⟩, safeField_eq rfl (hrank.trans (by decide)), safeField_eq rfl hsafe,
      revisionField_eq rfl]
    exact if_pos ⟨hrank, hpos⟩
  · intro hfits
    rw [SearchFits] at hfits
    rw [hread, if_neg (by omega), Option.bind_none]

/-- The scope cursors that the route reads back. -/
def ScopeFits (project : Text) (kind : ExactScopeKind) (key : Text) (position : ExactScopeCursorState) : Prop :=
  jsonBytes project + kind.text.length + jsonBytes key + (Nat.toDigits 10 position.afterNodeId).length +
    (Nat.toDigits 10 position.batchEndNodeId).length + (Nat.toDigits 10 position.afterEdgeId).length ≤ 1000

/-- The positions that pages of a scope end with. -/
structure ScopePosition (position : ExactScopeCursorState) : Prop where
  safe : position.afterNodeId ≤ maxSafeInteger ∧ position.batchEndNodeId ≤ maxSafeInteger ∧
    position.afterEdgeId ≤ maxSafeInteger
  continues : (position.batchEndNodeId = 0 ∧ position.afterEdgeId = 0 ∧ 0 < position.afterNodeId) ∨
    (position.afterNodeId < position.batchEndNodeId ∧ 0 < position.afterEdgeId)

theorem decodeScopeCursor_encode (project key : Text) (kind : ExactScopeKind) {position : ExactScopeCursorState}
    (r : GraphRevision) (hposition : ScopePosition position) : (ScopeFits project kind key position →
      decodeScopeCursor (encodeScopeCursor ⟨project, kind, key, position, r.text⟩) project kind key =
        some (position, r.text)) ∧ (¬ ScopeFits project kind key position →
      decodeScopeCursor (encodeScopeCursor ⟨project, kind, key, position, r.text⟩) project kind key = none) := by
  obtain ⟨c, hc⟩ : ∃ c : ScopeCursor, c = ⟨project, kind, key, position, r.text⟩ := ⟨_, rfl⟩
  have hne : c.fields ≠ [] := by simp [ScopeCursor.fields]
  have hkind : jsonBytes kind.text = kind.text.length := by cases kind <;> decide
  have hbytes : (utf8 (stringify c.fields)).length = 152 + (jsonBytes project + kind.text.length + jsonBytes key +
      (Nat.toDigits 10 position.afterNodeId).length + (Nat.toDigits 10 position.batchEndNodeId).length +
      (Nat.toDigits 10 position.afterEdgeId).length) := by
    rw [length_utf8_stringify hne, hc]
    simp only [ScopeCursor.fields, map_cons, map_nil, sum_cons, sum_nil, Value.bytes,
      jsonBytes_names, jsonBytes_revision, hkind]
    omega
  have hread : readCursor 1536 (encodeCursor c.fields) = _ := readCursor_encodeCursor hne 384
  rw [hbytes] at hread
  rw [← hc]
  simp only [decodeScopeCursor, encodeScopeCursor]
  constructor
  · intro hfits
    rw [ScopeFits] at hfits
    obtain ⟨hafter, hbatch, hedge⟩ := hposition.safe
    rw [hread, if_pos (by omega), Option.bind_some, hc, if_pos ⟨rfl, rfl, rfl, rfl⟩, safeFieldOrMissing_eq rfl hafter,
      safeFieldOrMissing_eq rfl hbatch, safeFieldOrMissing_eq rfl hedge, revisionField_eq rfl]
    have hcontinues := hposition.continues
    exact if_pos (by omega)
  · intro hfits
    rw [ScopeFits] at hfits
    rw [hread, if_neg (by omega), Option.bind_none]

/-- A cursor of a neighborhood always fits. -/
theorem decodeNeighborhoodCursor_encode {project : Text} {nodeId afterEdgeId : ℕ} (r : GraphRevision)
    (hproject : isValidProjectName project = true) (hnode : nodeId ≤ maxSafeInteger)
    (hsafe : afterEdgeId ≤ maxSafeInteger) :
    decodeNeighborhoodCursor (encodeNeighborhoodCursor ⟨project, nodeId, afterEdgeId, r.text⟩) project nodeId =
      some (afterEdgeId, r.text) := by
  obtain ⟨c, hc⟩ : ∃ c : NeighborhoodCursor, c = ⟨project, nodeId, afterEdgeId, r.text⟩ := ⟨_, rfl⟩
  have hne : c.fields ≠ [] := by simp [NeighborhoodCursor.fields]
  have hbytes : (utf8 (stringify c.fields)).length =
      106 + jsonBytes project + (Nat.toDigits 10 nodeId).length + (Nat.toDigits 10 afterEdgeId).length := by
    rw [length_utf8_stringify hne, hc]
    simp only [NeighborhoodCursor.fields, map_cons, map_nil, sum_cons, sum_nil, Value.bytes,
      jsonBytes_names, jsonBytes_revision]
    omega
  -- 106 + 246 + 16 + 16 bytes are exactly as many as the limit has room for.
  have hbound := jsonBytes_project hproject
  have hnodeDigits := length_toDigits_le hnode
  have hedgeDigits := length_toDigits_le hsafe
  have hread : readCursor 512 (encodeCursor c.fields) = _ := readCursor_encodeCursor hne 128
  rw [hbytes, if_pos (by omega)] at hread
  rw [← hc, decodeNeighborhoodCursor, encodeNeighborhoodCursor, hread, Option.bind_some, hc,
    if_pos ⟨rfl, rfl, rfl⟩, safeField_eq rfl hsafe, revisionField_eq rfl]

end Ariad.Ui
