import Ariad.Relational.Rows
import Ariad.Storage.Manifest

/-!
# What is written is read

A manifest that passes the rules is written within the bound of the reader, and the reader gets it back.

* `validate_objectOf` — the rules give back the manifest whose object they are shown.
* `length_payload_le` — the bytes of a manifest.
* `ManifestCalls.Read` — the calls of the reader on a file that stays as it is.
* `manifest_and_timestamp` — the round trip, and the days that the timestamps may have.
-/

namespace Ariad.Storage

open JsonText List

variable {m m' : Manifest} {project : JsString} {ε α β : Type}

variable {error : ManifestError}

theorem bind_eq_ok {x : Except ε α} {f : α → Except ε β} {b : β} :
    (x >>= f) = .ok b ↔ ∃ a, x = .ok a ∧ f a = .ok b := by
  cases x with
  | error e => simp [bind, Except.bind]
  | ok a => simp [bind, Except.bind]

@[simp] theorem ensure_eq_ok {condition : Bool} {u : Unit} : ensure condition error = .ok u ↔ condition = true := by
  rw [ensure]
  cases condition <;> simp

/-! ## The rules -/

/-- The field of an object, by its text. -/
def getField (obj : List (List ℕ × Value)) (key : String) : Option Value := field obj (units key.toList)

/-- What the rules have found in the fields. -/
structure ValidFields (obj : List (List ℕ × Value)) (expectedProject : JsString) (m : Manifest) : Prop where
  formatVersion : safeNonNegativeInt (getField obj "formatVersion") = some 1 ∧ m.formatVersion = 1
  project : assertSafeStringField "project".toList MAX_PROJECT_NAME_LENGTH (getField obj "project") = .ok m.project
  expected : m.project = expectedProject
  generationId : assertMatches UUID_V4_REGEX .generationId (getField obj "generationId") = .ok m.generationId
  dbFile : assertString .dbFileNotString (getField obj "dbFile") = .ok m.dbFile
  canonical : m.dbFile = canonicalDbFile m.generationId
  createdAt : assertString .createdAtNotString (getField obj "createdAt") = .ok m.createdAt
  calendar : assertCalendarValidTimestamp m.createdAt = .ok ()
  rootFingerprint : assertSafeStringField "rootFingerprint".toList MAX_ROOT_FINGERPRINT_LENGTH
    (getField obj "rootFingerprint") = .ok m.rootFingerprint
  extractorSemanticsVersion : safeNonNegativeInt (getField obj "extractorSemanticsVersion") =
    some m.extractorSemanticsVersion
  discoveryPolicyVersion : safeNonNegativeInt (getField obj "discoveryPolicyVersion") = some m.discoveryPolicyVersion
  nodeCount : safeNonNegativeInt (getField obj "nodeCount") = some m.nodeCount
  edgeCount : safeNonNegativeInt (getField obj "edgeCount") = some m.edgeCount
  fileCount : safeNonNegativeInt (getField obj "fileCount") = some m.fileCount
  sizeBytes : safeNonNegativeInt (getField obj "sizeBytes") = some m.sizeBytes
  sha256 : assertMatches SHA256_REGEX .sha256 (getField obj "sha256") = .ok m.sha256

theorem assertSafeNonNegativeInt_eq_ok {name : Text} {value : Option Value} {n : ℕ} :
    assertSafeNonNegativeInt name value = .ok n ↔ safeNonNegativeInt value = some n := by
  rw [assertSafeNonNegativeInt]
  cases safeNonNegativeInt value with
  | none => simp
  | some k => simp

theorem mapError_eq_ok {x : Except ε α} {f : ε → β} {a : α} : x.mapError f = .ok a ↔ x = .ok a := by
  cases x with
  | error e => simp [Except.mapError]
  | ok b => simp [Except.mapError]

theorem validateFields_ok {obj : List (List ℕ × Value)} (h : validateFields obj project = .ok m) :
    ValidFields obj project m := by
  obtain ⟨version, hversion, h⟩ := bind_eq_ok.mp h
  obtain ⟨projectField, hproject, h⟩ := bind_eq_ok.mp h
  obtain ⟨_, hexpected, h⟩ := bind_eq_ok.mp h
  obtain ⟨generationId, hgeneration, h⟩ := bind_eq_ok.mp h
  obtain ⟨dbFile, hdbFile, h⟩ := bind_eq_ok.mp h
  obtain ⟨_, hcanonical, h⟩ := bind_eq_ok.mp h
  obtain ⟨createdAt, hcreatedAt, h⟩ := bind_eq_ok.mp h
  obtain ⟨_, hcalendar, h⟩ := bind_eq_ok.mp h
  obtain ⟨rootFingerprint, hroot, h⟩ := bind_eq_ok.mp h
  obtain ⟨extractor, hextractor, h⟩ := bind_eq_ok.mp h
  obtain ⟨discovery, hdiscovery, h⟩ := bind_eq_ok.mp h
  obtain ⟨nodeCount, hnodes, h⟩ := bind_eq_ok.mp h
  obtain ⟨edgeCount, hedges, h⟩ := bind_eq_ok.mp h
  obtain ⟨fileCount, hfiles, h⟩ := bind_eq_ok.mp h
  obtain ⟨sizeBytes, hsize, h⟩ := bind_eq_ok.mp h
  obtain ⟨sha256, hsha, h⟩ := bind_eq_ok.mp h
  obtain ⟨-, -, h⟩ := bind_eq_ok.mp h
  obtain rfl := Except.ok.inj h
  rw [assertVersion] at hversion
  split at hversion
  · rename_i hone
    obtain rfl := Except.ok.inj hversion
    exact {
      formatVersion := ⟨hone, rfl⟩
      project := hproject
      expected := by simpa using hexpected
      generationId := hgeneration
      dbFile := hdbFile
      canonical := by simpa using hcanonical
      createdAt := hcreatedAt
      calendar := mapError_eq_ok.mp hcalendar
      rootFingerprint := hroot
      extractorSemanticsVersion := assertSafeNonNegativeInt_eq_ok.mp hextractor
      discoveryPolicyVersion := assertSafeNonNegativeInt_eq_ok.mp hdiscovery
      nodeCount := assertSafeNonNegativeInt_eq_ok.mp hnodes
      edgeCount := assertSafeNonNegativeInt_eq_ok.mp hedges
      fileCount := assertSafeNonNegativeInt_eq_ok.mp hfiles
      sizeBytes := assertSafeNonNegativeInt_eq_ok.mp hsize
      sha256 := hsha }
  · cases hversion

/-! ## The object of a manifest -/

theorem field_objectOf {members : List (Text × Scalar)} (hnodup : (members.map fun e => units e.1).Nodup) {key : Text}
    {v : Scalar} (h : (key, v) ∈ members) : field (objectOf members) (units key) = some v.value := by
  have hkeys : ((objectOf members).reverse.map Prod.fst).Nodup := by
    rw [map_reverse, nodup_reverse, objectOf, map_map]
    exact hnodup
  have hfind : Rows.get Prod.fst (units key) (objectOf members).reverse = some (units key, v.value) :=
    (Rows.get_eq_some_iff hkeys).mpr ⟨mem_reverse.mpr (mem_map.mpr ⟨(key, v), h, rfl⟩), rfl⟩
  rw [Rows.get] at hfind
  rw [field, hfind]
  rfl

theorem nodup_members (m : Manifest) : (m.members.map fun e => units e.1).Nodup := by
  have hkeys : (MANIFEST_V1_KEYS.map units).Nodup := by decide
  exact hkeys

/-- The fields of the object of a manifest. -/
theorem getField_members {key : String} {v : Scalar} (h : (key.toList, v) ∈ m.members) :
    getField (objectOf m.members) key = some v.value :=
  field_objectOf (nodup_members m) h

theorem assertString_value {s t : JsString} (h : assertString error (some (Scalar.str s).value) = .ok t) : t = s := by
  have heq : JsString.ofUnits s.toUnits = t := Except.ok.inj h
  rw [← heq, JsString.ofUnits_toUnits]

theorem assertSafeStringField_value {name : Text} {maxLength : ℕ} {s t : JsString}
    (h : assertSafeStringField name maxLength (some (Scalar.str s).value) = .ok t) : t = s ∧ s.length ≤ maxLength := by
  simp only [assertSafeStringField, Scalar.value, JsString.ofUnits_toUnits] at h
  split at h
  · cases h
  split at h
  · cases h
  rename_i hlength
  split at h
  · cases h
  · exact ⟨(Except.ok.inj h).symm, not_lt.mp hlength⟩

theorem length_eq_of_matchesUnits {pattern : List (UInt16 → Bool)} {s : JsString} (h : matchesUnits pattern s = true) :
    s.length = pattern.length := by
  induction pattern generalizing s with
  | nil =>
    cases s with
    | nil => rfl
    | cons u s => cases h
  | cons p pattern ih =>
    cases s with
    | nil => cases h
    | cons u s => rw [length_cons, length_cons, ih (Bool.and_eq_true_iff.mp h).2]

theorem assertMatches_value {pattern : List (UInt16 → Bool)} {s t : JsString}
    (h : assertMatches pattern error (some (Scalar.str s).value) = .ok t) : t = s ∧ s.length = pattern.length := by
  obtain ⟨u, hu, hrest⟩ := bind_eq_ok.mp h
  obtain ⟨_, hmatches, hpure⟩ := bind_eq_ok.mp hrest
  obtain rfl := assertString_value hu
  exact ⟨(Except.ok.inj hpure).symm, length_eq_of_matchesUnits (ensure_eq_ok.mp hmatches)⟩

theorem safeNonNegativeInt_value {n k : ℕ} (h : safeNonNegativeInt (some (Scalar.num n).value) = some k) :
    k = n ∧ n < 2 ^ 53 := by
  simp only [safeNonNegativeInt, Scalar.value, numberOf_toDigits] at h
  obtain ⟨⟨-, -, hle⟩, hk⟩ := Option.ite_none_right_eq_some.mp h
  have hlt : n < 2 ^ 53 := by
    by_contra hge
    have hlarge := le_nearestDouble_natCast (not_lt.mp hge)
    have hmax : (MAX_SAFE_INTEGER : ℚ) < 2 ^ 53 := by norm_num [MAX_SAFE_INTEGER]
    exact absurd (lt_of_le_of_lt hle hmax) (not_lt.mpr hlarge)
  rw [nearestDouble_natCast hlt] at hk
  exact ⟨by simpa using hk.symm, hlt⟩

/-- The sizes of the fields of a valid manifest. -/
structure Bounded (m : Manifest) : Prop where
  project : m.project.length ≤ MAX_PROJECT_NAME_LENGTH
  generationId : m.generationId.length = UUID_V4_REGEX.length
  canonical : m.dbFile = canonicalDbFile m.generationId
  rootFingerprint : m.rootFingerprint.length ≤ MAX_ROOT_FINGERPRINT_LENGTH
  sha256 : m.sha256.length = SHA256_REGEX.length
  formatVersion : m.formatVersion < 2 ^ 53
  extractorSemanticsVersion : m.extractorSemanticsVersion < 2 ^ 53
  discoveryPolicyVersion : m.discoveryPolicyVersion < 2 ^ 53
  nodeCount : m.nodeCount < 2 ^ 53
  edgeCount : m.edgeCount < 2 ^ 53
  fileCount : m.fileCount < 2 ^ 53
  sizeBytes : m.sizeBytes < 2 ^ 53

/-- **The rules give back the manifest whose object they are shown.** -/
theorem validate_objectOf (h : validateGenerationManifest (.object (objectOf m.members)) project = .ok m') :
    m' = m ∧ Bounded m := by
  rw [validateGenerationManifest] at h
  split at h
  · cases h
  obtain ⟨⟨hversion, hone⟩, hproject, -, hgeneration, hdbFile, hcanonical, hcreatedAt, -, hroot, hextractor, hdiscovery,
    hnodes, hedges, hfiles, hsize, hsha⟩ := validateFields_ok h
  rw [getField_members (mem_of_getElem? (i := 0) rfl)] at hversion
  rw [getField_members (mem_of_getElem? (i := 1) rfl)] at hproject
  rw [getField_members (mem_of_getElem? (i := 2) rfl)] at hgeneration
  rw [getField_members (mem_of_getElem? (i := 3) rfl)] at hdbFile
  rw [getField_members (mem_of_getElem? (i := 4) rfl)] at hcreatedAt
  rw [getField_members (mem_of_getElem? (i := 5) rfl)] at hroot
  rw [getField_members (mem_of_getElem? (i := 6) rfl)] at hextractor
  rw [getField_members (mem_of_getElem? (i := 7) rfl)] at hdiscovery
  rw [getField_members (mem_of_getElem? (i := 8) rfl)] at hnodes
  rw [getField_members (mem_of_getElem? (i := 9) rfl)] at hedges
  rw [getField_members (mem_of_getElem? (i := 10) rfl)] at hfiles
  rw [getField_members (mem_of_getElem? (i := 11) rfl)] at hsize
  rw [getField_members (mem_of_getElem? (i := 12) rfl)] at hsha
  have hversion := safeNonNegativeInt_value hversion
  have hproject := assertSafeStringField_value hproject
  have hgeneration := assertMatches_value hgeneration
  have hdbFile := assertString_value hdbFile
  have hcreatedAt := assertString_value hcreatedAt
  have hroot := assertSafeStringField_value hroot
  have hextractor := safeNonNegativeInt_value hextractor
  have hdiscovery := safeNonNegativeInt_value hdiscovery
  have hnodes := safeNonNegativeInt_value hnodes
  have hedges := safeNonNegativeInt_value hedges
  have hfiles := safeNonNegativeInt_value hfiles
  have hsize := safeNonNegativeInt_value hsize
  have hsha := assertMatches_value hsha
  constructor
  · exact Manifest.ext (hone.trans hversion.1) hproject.1 hgeneration.1 hdbFile hcreatedAt hroot.1 hextractor.1
      hdiscovery.1 hnodes.1 hedges.1 hfiles.1 hsize.1 hsha.1
  · exact {
      project := hproject.2
      generationId := hgeneration.2
      canonical := by rw [← hdbFile, hcanonical, hgeneration.1]
      rootFingerprint := hroot.2
      sha256 := hsha.2
      formatVersion := hversion.2
      extractorSemanticsVersion := hextractor.2
      discoveryPolicyVersion := hdiscovery.2
      nodeCount := hnodes.2
      edgeCount := hedges.2
      fileCount := hfiles.2
      sizeBytes := hsize.2 }

/-! ## The bytes -/

theorem length_toDigits_le {n : ℕ} (h : n < 2 ^ 53) : (Nat.toDigits 10 n).length ≤ 16 :=
  (Nat.length_toDigits_le_iff (by decide) (by decide)).mpr (lt_trans h (by decide))

/-- The values of the fields take at most these bytes. -/
theorem sum_bounds_le (h : Bounded m) (hcreatedAt : m.createdAt.length ≤ 1024) :
    (m.members.map fun e => e.2.bound).sum ≤ 7 * 16 + 3 * (6 * 1024 + 2) + 3 * (6 * 64 + 2) := by
  have hproject : m.project.length ≤ 1024 := h.project
  have hroot : m.rootFingerprint.length ≤ 1024 := h.rootFingerprint
  have hgeneration : m.generationId.length = 36 := h.generationId
  have hsha : m.sha256.length = 64 := h.sha256
  have hversion := length_toDigits_le h.formatVersion
  have hextractor := length_toDigits_le h.extractorSemanticsVersion
  have hdiscovery := length_toDigits_le h.discoveryPolicyVersion
  have hnodes := length_toDigits_le h.nodeCount
  have hedges := length_toDigits_le h.edgeCount
  have hfiles := length_toDigits_le h.fileCount
  have hsize := length_toDigits_le h.sizeBytes
  have hdbFile : m.dbFile.length ≤ 64 := by
    have hbefore : (JsString.ofText "generations/generation-".toList).length = 23 := by decide
    have hafter : (JsString.ofText ".db".toList).length = 3 := by decide
    rw [h.canonical, canonicalDbFile, length_append, length_append, hbefore, hafter, hgeneration]
    decide
  simp only [Manifest.members, MANIFEST_V1_KEYS, map_cons, map_nil, zip_cons_cons, zip_nil_right,
    sum_cons, sum_nil, Scalar.bound]
  linarith only [hproject, hroot, hgeneration, hsha, hversion, hextractor, hdiscovery, hnodes, hedges, hfiles, hsize,
    hdbFile, hcreatedAt]

/-- **A valid manifest stays within the bound of the reader**, if its time is not written with many digits. -/
theorem length_payload_le (h : Bounded m) (hcreatedAt : m.createdAt.length ≤ 1024) :
    (utf8 (pretty m.members ++ ['\n'])).length ≤ MAX_GENERATION_MANIFEST_BYTES := by
  have hpretty := length_utf8_pretty_le m.members
  have hnewline : (utf8 ['\n']).length = 1 := by decide
  have hbounds := sum_bounds_le h hcreatedAt
  have hkeys : (MANIFEST_V1_KEYS.map fun key => 6 * (units key).length + 8).sum = 1010 := by decide
  have hsum : (m.members.map fun e => 6 * (units e.1).length + 8 + e.2.bound).sum =
      (MANIFEST_V1_KEYS.map fun key => 6 * (units key).length + 8).sum + (m.members.map fun e => e.2.bound).sum := by
    have hzip : MANIFEST_V1_KEYS = m.members.map Prod.fst := rfl
    rw [hzip, map_map, ← sum_map_add]
    rfl
  rw [length_utf8_append, hnewline, MAX_GENERATION_MANIFEST_BYTES]
  omega

/-! ## The round trip -/

/-- The calls of the reader on a file with these bytes, which stays as it is: it is read in pieces of any size. -/
structure ManifestCalls.Read (calls : ManifestCalls) (bytes : List UInt8) (stat : FileStat) : Prop where
  isFile : stat.isFile = true
  notLink : stat.isSymbolicLink = false
  size : stat.size = bytes.length
  lstat : calls.lstat = .ok stat
  openFile : calls.openFile = .ok ()
  fstat : calls.fstat = .ok stat
  reads : ∃ pieces : List (List UInt8), calls.reads = pieces.map .ok ∧ (∀ piece ∈ pieces, piece ≠ []) ∧
    pieces.flatten = bytes
  refstat : calls.refstat = .ok stat
  probe : calls.probe = .ok 0

theorem fillBuffer_pieces (pieces : List (List UInt8)) (h : ∀ piece ∈ pieces, piece ≠ []) :
    fillBuffer pieces.flatten.length (pieces.map .ok) = .ok pieces.flatten := by
  induction pieces with
  | nil => rfl
  | cons piece pieces ih =>
    have hpiece : piece ≠ [] := h piece mem_cons_self
    have hpos := length_pos_iff.mpr hpiece
    obtain ⟨left, hleft⟩ : ∃ left, (piece :: pieces).flatten.length = left + 1 :=
      ⟨(piece :: pieces).flatten.length - 1, by rw [flatten_cons, length_append]; omega⟩
    have htotal := hleft
    rw [flatten_cons, length_append] at htotal
    have hrest : left + 1 - piece.length = pieces.flatten.length := by omega
    have htake : piece.take (left + 1) = piece := take_of_length_le (by omega)
    rw [hleft, map_cons, fillBuffer, if_neg hpiece, hrest, htake,
      ih fun piece hp => h piece (mem_cons_of_mem _ hp)]
    rfl

theorem openManifest_read {calls : ManifestCalls} {bytes : List UInt8} {stat : FileStat} (h : calls.Read bytes stat)
    (noFollow : Bool) : openManifest noFollow calls = .ok stat := by
  rw [openManifest, h.openFile, h.fstat, h.lstat]
  cases noFollow with
  | true => rfl
  | false => simp [h.notLink]

theorem decodeUtf8_pretty (members : List (Text × Scalar)) (tail : Text) :
    decodeUtf8 (utf8 (pretty members ++ tail)) = some (pretty members ++ tail) := by
  have hhead : (pretty members ++ tail).head? = some '\x7b' := by
    cases members with
    | nil => rfl
    | cons m members => rfl
  rw [decodeUtf8, ofUtf8_utf8, Option.map_some, hhead, if_neg (by decide)]

/-- The file of a valid manifest is read as the manifest. -/
theorem parse_payload {calls : ManifestCalls} {stat : FileStat}
    (hvalid : validateGenerationManifest (.object (objectOf m.members)) project = .ok m)
    (hcreatedAt : m.createdAt.length ≤ 1024) (hread : calls.Read (utf8 (pretty m.members ++ ['\n'])) stat)
    (noFollow : Bool) : parseGenerationManifest noFollow calls project = .ok m := by
  have hbound := length_payload_le (validate_objectOf hvalid).2 hcreatedAt
  obtain ⟨pieces, hreads, hpieces, hflatten⟩ := hread.reads
  have hfill : fillBuffer stat.size calls.reads = .ok (utf8 (pretty m.members ++ ['\n'])) := by
    rw [hread.size, hreads, ← hflatten]
    exact fillBuffer_pieces pieces hpieces
  have hsize : stat.size ≤ MAX_GENERATION_MANIFEST_BYTES := hread.size ▸ hbound
  have hparse : parse (pretty m.members ++ ['\n']) = some (.object (objectOf m.members)) :=
    parse_pretty (cons_ne_nil _ _) rfl
  rw [parseGenerationManifest]
  refine bind_eq_ok.mpr ⟨stat, openManifest_read hread noFollow, ?_⟩
  refine bind_eq_ok.mpr ⟨(), by simp [hread.isFile], ?_⟩
  refine bind_eq_ok.mpr ⟨(), by simp [hsize], ?_⟩
  refine bind_eq_ok.mpr ⟨_, hfill, ?_⟩
  refine bind_eq_ok.mpr ⟨stat, by rw [hread.refstat]; rfl, ?_⟩
  refine bind_eq_ok.mpr ⟨(), by simp, ?_⟩
  refine bind_eq_ok.mpr ⟨0, by rw [hread.probe]; rfl, ?_⟩
  refine bind_eq_ok.mpr ⟨(), by simp, ?_⟩
  refine bind_eq_ok.mpr ⟨_, by rw [decodeUtf8_pretty]; rfl, ?_⟩
  refine bind_eq_ok.mpr ⟨_, by rw [hparse]; rfl, ?_⟩
  exact hvalid

theorem parse_members (m : Manifest) : parse (pretty m.members) = some (.object (objectOf m.members)) := by
  have hparse := @parse_pretty m.members (cons_ne_nil _ _) [] rfl
  rwa [append_nil] at hparse

/-- What is prepared is a valid manifest with its bytes. -/
theorem prepare_eq_ok {value : Manifest} {payload : List UInt8}
    (h : prepareGenerationManifestForWrite m project = .ok (value, payload)) :
    value = m ∧ payload = utf8 (pretty m.members ++ ['\n']) ∧
      validateGenerationManifest (.object (objectOf m.members)) project = .ok m := by
  obtain ⟨validated, hvalid, hrest⟩ := bind_eq_ok.mp h
  obtain rfl := (validate_objectOf hvalid).1
  obtain ⟨reparsed, hreparsed, hrest⟩ := bind_eq_ok.mp hrest
  rw [parse_members] at hreparsed
  obtain rfl := Except.ok.inj hreparsed
  obtain ⟨again, hagain, hpure⟩ := bind_eq_ok.mp hrest
  obtain rfl := Except.ok.inj (hvalid.symm.trans hagain)
  obtain ⟨rfl, rfl⟩ := Prod.mk.inj (Except.ok.inj hpure)
  exact ⟨rfl, rfl, hvalid⟩

/-- A manifest that passes the rules is prepared. -/
theorem prepare_of_valid (hvalid : validateGenerationManifest (.object (objectOf m.members)) project = .ok m) :
    prepareGenerationManifestForWrite m project = .ok (m, utf8 (pretty m.members ++ ['\n'])) := by
  rw [prepareGenerationManifestForWrite]
  refine bind_eq_ok.mpr ⟨m, hvalid, ?_⟩
  refine bind_eq_ok.mpr ⟨_, by rw [parse_members]; rfl, ?_⟩
  exact bind_eq_ok.mpr ⟨m, hvalid, rfl⟩

/-- **A manifest that a publication makes is written and read back, within the bound of the reader. The timestamps that
are accepted are the dates and times, as long as the 29th of February of the year zero is not asked for.** -/
theorem manifest_and_timestamp (project generationId rootFingerprint sha256 : JsString) (now : TimeValue)
    (extractorSemanticsVersion discoveryPolicyVersion nodeCount edgeCount fileCount sizeBytes : ℕ)
    (timestamp : JsString) :
    let m := manifestInput project generationId rootFingerprint sha256 now extractorSemanticsVersion
      discoveryPolicyVersion nodeCount edgeCount fileCount sizeBytes
    (∀ value payload, prepareGenerationManifestForWrite m project = .ok (value, payload) →
      value = m ∧ payload.length ≤ MAX_GENERATION_MANIFEST_BYTES ∧
        ∀ noFollow calls stat, ManifestCalls.Read calls payload stat →
          parseGenerationManifest noFollow calls project = .ok m) ∧
    ((assertCalendarValidTimestamp timestamp = .ok () ↔ ∃ t, matchTimestamp timestamp = some t ∧ t.Real) ↔
      ¬∃ t, matchTimestamp timestamp = some t ∧ t.Real ∧ t.isLeapDayOfYearZero) := by
  constructor
  · intro value payload h
    obtain ⟨rfl, rfl, hvalid⟩ := prepare_eq_ok h
    have hcreatedAt := le_trans (length_toISOString_le now) (show 64 ≤ 1024 by decide)
    exact ⟨rfl, length_payload_le (validate_objectOf hvalid).2 hcreatedAt,
      fun noFollow calls stat hread => parse_payload hvalid hcreatedAt hread noFollow⟩
  · rw [assertCalendarValidTimestamp_iff]
    cases matchTimestamp timestamp with
    | none => simp
    | some t =>
      simp only [Option.some.injEq, exists_eq_left']
      tauto

/-- A manifest with a path in every field, and the first time of all. -/
theorem manifest_and_timestamp_first :
    let project := JsString.ofText "p".toList
    let m := manifestInput project (.ofText "00000000-0000-4000-8000-000000000000".toList) (.ofText "1:2".toList)
      (List.replicate 64 48) ⟨0, by decide⟩ 2 3 5 7 1 4096
    ∃ payload, prepareGenerationManifestForWrite m project = .ok (m, payload) ∧
      payload.length ≤ MAX_GENERATION_MANIFEST_BYTES ∧
      assertCalendarValidTimestamp (.ofText "1970-01-01T00:00:00.000Z".toList) = .ok () := by
  intro project m
  have hvalid : validateGenerationManifest (.object (objectOf m.members)) project = .ok m := by decide +kernel
  have hprepared := prepare_of_valid hvalid
  have h := manifest_and_timestamp project (.ofText "00000000-0000-4000-8000-000000000000".toList)
    (.ofText "1:2".toList) (List.replicate 64 48) ⟨0, by decide⟩ 2 3 5 7 1 4096
    (.ofText "1970-01-01T00:00:00.000Z".toList)
  exact ⟨_, hprepared, (h.1 _ _ hprepared).2.1, by decide⟩

/-- The 29th of February of the year zero is refused. -/
theorem leap_day_refused : ¬∀ timestamp : JsString, assertCalendarValidTimestamp timestamp = .ok () ↔
      ∃ t, matchTimestamp timestamp = some t ∧ t.Real := by
  intro h
  have hmatch : matchTimestamp (.ofText "0000-02-29T00:00:00Z".toList) = some ⟨0, 2, 29, 0, 0, 0, none⟩ := by decide
  have hreal : Timestamp.Real ⟨0, 2, 29, 0, 0, 0, none⟩ :=
    ⟨by decide, by decide, by decide, by decide, by decide, by decide, by decide, by decide⟩
  have haccepted := (h (.ofText "0000-02-29T00:00:00Z".toList)).mpr ⟨_, hmatch, hreal⟩
  have hrefused : assertCalendarValidTimestamp (.ofText "0000-02-29T00:00:00Z".toList) = .error (.day 29 0 2) := by
    decide
  rw [hrefused] at haccepted
  cases haccepted

end Ariad.Storage
