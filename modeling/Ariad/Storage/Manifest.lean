import Ariad.Javascript.JsonParse
import Ariad.Storage.Timestamp

/-!
# The manifest of a generation

The file that names the active generation of a project.

* `validateGenerationManifest` — the rules of its fields.
* `prepareGenerationManifestForWrite` — the bytes that are written.
* `parseGenerationManifest` — the bounded reader of the file.
* `manifestInput` — the manifest that a publication makes.
-/

namespace Ariad.Storage

open JsonText

@[ext] structure Manifest where
  formatVersion : ℕ
  project : JsString
  generationId : JsString
  dbFile : JsString
  createdAt : JsString
  rootFingerprint : JsString
  extractorSemanticsVersion : ℕ
  discoveryPolicyVersion : ℕ
  nodeCount : ℕ
  edgeCount : ℕ
  fileCount : ℕ
  sizeBytes : ℕ
  sha256 : JsString
  deriving DecidableEq

def MANIFEST_V1_KEYS : List Text :=
  ["formatVersion", "project", "generationId", "dbFile", "createdAt", "rootFingerprint", "extractorSemanticsVersion",
    "discoveryPolicyVersion", "nodeCount", "edgeCount", "fileCount", "sizeBytes", "sha256"].map String.toList

def MAX_GENERATION_MANIFEST_BYTES : ℕ := 64 * 1024

def MAX_ROOT_FINGERPRINT_LENGTH : ℕ := 1024

def MAX_PROJECT_NAME_LENGTH : ℕ := 1024

def MAX_SAFE_INTEGER : ℕ := 2 ^ 53 - 1

/-! ## Errors -/

/-- What is wrong with a string. -/
inductive StringError where
  | notString
  | blank
  | tooLong (length maxLength : ℕ)
  | control (offset : ℕ)
  deriving DecidableEq

/-- What is wrong with a manifest, and in which field. -/
inductive ManifestError where
  | notFound
  | symlinkRejected
  | notRegular
  | tooLarge
  /-- The file cannot be read, or is no text, or no JSON. -/
  | unreadable
  | notObject
  | keySet (missing : List Text) (extra : List (List ℕ))
  | unsupportedVersion
  | safeString (field : Text) (error : StringError)
  | projectMismatch
  | generationId
  | dbFileNotString
  | dbFileNotCanonical
  | createdAtNotString
  | createdAt (error : TimestampError)
  | safeInteger (field : Text)
  | sha256
  | newline
  | serialization
  deriving DecidableEq

def ManifestError.code : ManifestError → Text
  | notFound => "MANIFEST_NOT_FOUND".toList
  | symlinkRejected => "MANIFEST_SYMLINK_REJECTED".toList
  | notRegular => "MANIFEST_TARGET_NOT_REGULAR".toList
  | tooLarge => "MANIFEST_TOO_LARGE".toList
  | unreadable => "MANIFEST_PARSE_ERROR".toList
  | unsupportedVersion => "MANIFEST_UNSUPPORTED_VERSION".toList
  | projectMismatch => "MANIFEST_PROJECT_MISMATCH".toList
  | dbFileNotCanonical => "MANIFEST_DBFILE_NOT_CANONICAL".toList
  | serialization => "ATOMIC_SERIALIZATION_FAILED".toList
  | _ => "MANIFEST_SCHEMA_ERROR".toList

/-! ## The rules -/

/-- White space of `trim`. -/
def isSpaceUnit (u : UInt16) : Bool := Text.isSpace (Char.ofNat u.toNat)

/-- A string that is not blank, not too long and has no control characters. -/
def assertSafeStringField (field : Text) (maxLength : ℕ) (value : Option Value) : Except ManifestError JsString :=
  match value with
  | some (.string us) =>
    let s := JsString.ofUnits us
    if s.all isSpaceUnit then .error (.safeString field .blank)
    else if maxLength < s.length then .error (.safeString field (.tooLong s.length maxLength))
    else if s.any (· < 32) then .error (.safeString field (.control (s.findIdx (· < 32))))
    else .ok s
  | _ => .error (.safeString field .notString)

/-- The number that a value is, if it is a safe integer and not negative. -/
def safeNonNegativeInt (value : Option Value) : Option ℕ :=
  match value with
  | some (.number t) =>
    if (numberOf t).isInt ∧ 0 ≤ numberOf t ∧ numberOf t ≤ MAX_SAFE_INTEGER then some (numberOf t).num.toNat else none
  | _ => none

def assertSafeNonNegativeInt (field : Text) (value : Option Value) : Except ManifestError ℕ :=
  match safeNonNegativeInt value with
  | some n => .ok n
  | none => .error (.safeInteger field)

def isHexUnit (u : UInt16) : Bool := isDigitUnit u || 97 ≤ u && u ≤ 102

/-- A string that has, unit by unit, these properties. -/
def matchesUnits : List (UInt16 → Bool) → JsString → Bool
  | [], [] => true
  | p :: ps, u :: s => p u && matchesUnits ps s
  | _, _ => false

def unitIn (cs : Text) (u : UInt16) : Bool := cs.any fun c => u.toNat = c.toNat

/-- `[0-9a-f]{8}-[0-9a-f]{4}-4[0-9a-f]{3}-[89ab][0-9a-f]{3}-[0-9a-f]{12}` -/
def UUID_V4_REGEX : List (UInt16 → Bool) :=
  List.replicate 8 isHexUnit ++ [unitIn ['-']] ++ List.replicate 4 isHexUnit ++ [unitIn ['-'], unitIn ['4']] ++
    List.replicate 3 isHexUnit ++ [unitIn ['-'], unitIn ['8', '9', 'a', 'b']] ++ List.replicate 3 isHexUnit ++
    [unitIn ['-']] ++ List.replicate 12 isHexUnit

def SHA256_REGEX : List (UInt16 → Bool) := List.replicate 64 isHexUnit

/-- A value that has to be a string. -/
def assertString (error : ManifestError) (value : Option Value) : Except ManifestError JsString :=
  match value with
  | some (.string us) => .ok (.ofUnits us)
  | _ => .error error

def ensure (condition : Bool) (error : ManifestError) : Except ManifestError Unit :=
  if condition then .ok () else .error error

/-- A value that has to be a string that matches. -/
def assertMatches (pattern : List (UInt16 → Bool)) (error : ManifestError) (value : Option Value) :
    Except ManifestError JsString := do
  let s ← assertString error value
  ensure (matchesUnits pattern s) error
  return s

/-- `formatVersion !== 1` -/
def assertVersion (value : Option Value) : Except ManifestError ℕ :=
  if safeNonNegativeInt value = some 1 then .ok 1 else .error .unsupportedVersion

def canonicalDbFile (generationId : JsString) : JsString :=
  JsString.ofText "generations/generation-".toList ++ generationId ++ JsString.ofText ".db".toList

/-- A value with a line break in it. -/
def hasNewline : Value → Bool
  | .string us => us.any fun u => u = 10 || u = 13
  | _ => false

/-- The checks of the fields, one after the other. -/
def validateFields (obj : List (List ℕ × Value)) (expectedProject : JsString) : Except ManifestError Manifest := do
  let get (key : String) : Option Value := field obj (units key.toList)
  let version ← assertVersion (get "formatVersion")
  let project ← assertSafeStringField "project".toList MAX_PROJECT_NAME_LENGTH (get "project")
  ensure (project = expectedProject) .projectMismatch
  let generationId ← assertMatches UUID_V4_REGEX .generationId (get "generationId")
  let dbFile ← assertString .dbFileNotString (get "dbFile")
  ensure (dbFile = canonicalDbFile generationId) .dbFileNotCanonical
  let createdAt ← assertString .createdAtNotString (get "createdAt")
  (assertCalendarValidTimestamp createdAt).mapError .createdAt
  let rootFingerprint ←
    assertSafeStringField "rootFingerprint".toList MAX_ROOT_FINGERPRINT_LENGTH (get "rootFingerprint")
  let extractorSemanticsVersion ←
    assertSafeNonNegativeInt "extractorSemanticsVersion".toList (get "extractorSemanticsVersion")
  let discoveryPolicyVersion ← assertSafeNonNegativeInt "discoveryPolicyVersion".toList (get "discoveryPolicyVersion")
  let nodeCount ← assertSafeNonNegativeInt "nodeCount".toList (get "nodeCount")
  let edgeCount ← assertSafeNonNegativeInt "edgeCount".toList (get "edgeCount")
  let fileCount ← assertSafeNonNegativeInt "fileCount".toList (get "fileCount")
  let sizeBytes ← assertSafeNonNegativeInt "sizeBytes".toList (get "sizeBytes")
  let sha256 ← assertMatches SHA256_REGEX .sha256 (get "sha256")
  ensure (!(keys obj).any fun key => (field obj key).any hasNewline) .newline
  return { formatVersion := version, project, generationId, dbFile, createdAt, rootFingerprint,
           extractorSemanticsVersion, discoveryPolicyVersion, nodeCount, edgeCount, fileCount, sizeBytes, sha256 }

def validateGenerationManifest (value : Value) (expectedProject : JsString) : Except ManifestError Manifest :=
  match value with
  | .object obj =>
    let missing := MANIFEST_V1_KEYS.filter fun key => units key ∉ keys obj
    let extra := (keys obj).filter fun key => key ∉ MANIFEST_V1_KEYS.map units
    if missing ≠ [] ∨ extra ≠ [] then .error (.keySet missing extra) else validateFields obj expectedProject
  | _ => .error .notObject

/-! ## Writing -/

/-- A result, or the error that its absence is. -/
def orError {α : Type} (o : Option α) (error : ManifestError) : Except ManifestError α :=
  match o with
  | some a => .ok a
  | none => .error error

/-- The members of the object that is written. -/
def Manifest.members (m : Manifest) : List (Text × Scalar) :=
  MANIFEST_V1_KEYS.zip [.num m.formatVersion, .str m.project, .str m.generationId, .str m.dbFile, .str m.createdAt,
    .str m.rootFingerprint, .num m.extractorSemanticsVersion, .num m.discoveryPolicyVersion, .num m.nodeCount,
    .num m.edgeCount, .num m.fileCount, .num m.sizeBytes, .str m.sha256]

/-- The value and the bytes that are written. -/
def prepareGenerationManifestForWrite (input : Manifest) (project : JsString) :
    Except ManifestError (Manifest × List UInt8) := do
  let validated ← validateGenerationManifest (.object (objectOf input.members)) project
  let reparsed ← orError (parse (pretty validated.members)) .serialization
  let validatedParsed ← validateGenerationManifest reparsed project
  return (validatedParsed, utf8 (pretty validated.members ++ ['\n']))

/-- The manifest that a publication makes of what it has counted and hashed. -/
def manifestInput (project generationId rootFingerprint sha256 : JsString) (now : TimeValue)
    (extractorSemanticsVersion discoveryPolicyVersion nodeCount edgeCount fileCount sizeBytes : ℕ) : Manifest where
  formatVersion := 1
  project := project
  generationId := generationId
  dbFile := canonicalDbFile generationId
  createdAt := toISOString now
  rootFingerprint := rootFingerprint
  extractorSemanticsVersion := extractorSemanticsVersion
  discoveryPolicyVersion := discoveryPolicyVersion
  nodeCount := nodeCount
  edgeCount := edgeCount
  fileCount := fileCount
  sizeBytes := sizeBytes
  sha256 := sha256

/-! ## Reading -/

inductive Errno where
  | enoent
  | eloop
  | other
  deriving DecidableEq

structure FileStat where
  size : ℕ
  isFile : Bool
  isSymbolicLink : Bool
  dev : ℕ
  ino : ℕ
  deriving DecidableEq

/-- What the calls of the reader answer, each when it is made. -/
structure ManifestCalls where
  /-- Before the file is opened, where the system cannot refuse links. -/
  lstat : Except Errno FileStat
  openFile : Except Errno Unit
  fstat : Except Errno FileStat
  /-- The bytes of one read after the other. Behind them nothing more is read. -/
  reads : List (Except Errno (List UInt8))
  refstat : Except Errno FileStat
  /-- The number of bytes behind the size of the file. -/
  probe : Except Errno ℕ

/-- The loop that fills the buffer. -/
def fillBuffer : ℕ → List (Except Errno (List UInt8)) → Except ManifestError (List UInt8)
  | 0, _ => .ok []
  | _, [] => .error .unreadable
  | _, .error _ :: _ => .error .unreadable
  | left + 1, .ok bytes :: reads =>
    if bytes = [] then .error .unreadable
    else (fillBuffer (left + 1 - bytes.length) reads).map (bytes.take (left + 1) ++ ·)

/-- The open file and its size, or the reason why it is not read. -/
def openManifest (noFollow : Bool) (calls : ManifestCalls) : Except ManifestError FileStat :=
  if noFollow then
    match calls.openFile with
    | .error .enoent => .error .notFound
    | .error .eloop => .error .symlinkRejected
    | .error .other => .error .unreadable
    | .ok () => calls.fstat.mapError fun _ => .unreadable
  else
    match calls.lstat with
    | .error .enoent => .error .notFound
    | .error _ => .error .unreadable
    | .ok lstat =>
      if lstat.isSymbolicLink then .error .symlinkRejected
      else
        match calls.openFile with
        | .error .enoent => .error .notFound
        | .error _ => .error .unreadable
        | .ok () =>
          match calls.fstat with
          | .error _ => .error .unreadable
          | .ok fstat =>
            if lstat.dev ≠ fstat.dev ∨ lstat.ino ≠ fstat.ino then .error .symlinkRejected else .ok fstat

/-- `new TextDecoder("utf-8", { fatal: true }).decode(bytes)`: a byte order mark is not part of the text. -/
def decodeUtf8 (bytes : List UInt8) : Option Text :=
  (ofUtf8 bytes).map fun t => if t.head? = some (Char.ofNat 0xFEFF) then t.tail else t

def parseGenerationManifest (noFollow : Bool) (calls : ManifestCalls) (expectedProject : JsString) :
    Except ManifestError Manifest := do
  let stat ← openManifest noFollow calls
  ensure stat.isFile .notRegular
  ensure (stat.size ≤ MAX_GENERATION_MANIFEST_BYTES) .tooLarge
  let bytes ← fillBuffer stat.size calls.reads
  let refstat ← calls.refstat.mapError fun _ => .unreadable
  ensure (refstat.size = stat.size ∧ refstat.dev = stat.dev ∧ refstat.ino = stat.ino) .unreadable
  let extra ← calls.probe.mapError fun _ => .unreadable
  ensure (extra = 0) .tooLarge
  let raw ← orError (decodeUtf8 bytes) .unreadable
  let parsed ← orError (parse raw) .unreadable
  validateGenerationManifest parsed expectedProject

end Ariad.Storage
