import Mathlib.Data.Char
import Mathlib.Data.List.Lex
import Ariad.Bridge.CodeGraph
import Ariad.Javascript.PosixPath
import Ariad.Mcp.SourceMatch
import Ariad.Relational.Keyset

/-!
# Exact literals in source files

The indexed files are read one after the other, and each literal is looked for in their texts. Budgets bound the files,
the bytes and the matches. The platform is POSIX.

* `SourceDisk` — what `realpath`, `stat` and `readFile` answer. Nothing changes during a call.
* `normalizedIndexedPath`, `locate` — the spelling of an indexed path, and the file to which it leads.
* `scanContent` — the loop over the matches in a file.
* `scanPath`, `scanPaths` — the loop over the files, with all of its exits.
* `lookupLiterals` — the whole operation.
-/

namespace Ariad.Mcp

open Find Bridge Keyset

/-! ## The disk -/

/-- An absolute path, as its names. -/
abbrev Names := List Text

inductive RealpathError where
  | enoent
  | other
  deriving DecidableEq

inductive SourceEntry where
  | file (bytes : List UInt8) (readable : Bool)
  | other
  deriving DecidableEq

/-- What a disk answers. Behind a path and behind its real path there is the same. -/
structure SourceDisk where
  realpath : Names → Except RealpathError Names
  /-- What is at a real path. -/
  entry : Names → Option SourceEntry
  realpath_append : ∀ p q names, realpath p = .ok q → realpath (q ++ names) = realpath (p ++ names)

variable (disk : SourceDisk)

def SourceDisk.stat (p : Names) : Option SourceEntry :=
  match disk.realpath p with
  | .ok real => disk.entry real
  | .error _ => none

/-! ## Paths -/

/-- The names of a path behind those of a base, as `path.resolve`. -/
def resolveNames (base : Names) (path : Text) : Names :=
  ((path.splitOn '/').foldl (Posix.pushName false) base.reverse).reverse

def isAbsolute (path : Text) : Bool := path.head? = some '/'

/-- `win32.isAbsolute` -/
def win32IsAbsolute : Text → Bool
  | c :: ':' :: d :: _ => c = '/' || c = '\\' || (c.isAlpha && (d = '/' || d = '\\'))
  | c :: _ => c = '/' || c = '\\'
  | [] => false

/-- `path.relative`, of two absolute paths -/
def relativeNames : Names → Names → Names
  | [], candidate => candidate
  | root, [] => root.map fun _ => "..".toList
  | a :: root, b :: candidate =>
    if a = b then relativeNames root candidate else ((a :: root).map fun _ => "..".toList) ++ b :: candidate

/-- `isPathInside` -/
def insideRoot (root candidate : Names) : Bool := (relativeNames root candidate).head? ≠ some "..".toList

/-- The walk up to a directory that exists; the last name stands first. -/
def nearestExistingAncestor : Names → Option Names
  | [] =>
    match disk.realpath [] with
    | .ok real => some real
    | .error _ => none
  | name :: above =>
    match disk.realpath (name :: above).reverse with
    | .ok real => some real
    | .error .enoent => (nearestExistingAncestor above).map (· ++ [name])
    | .error .other => none

def safeRealpath (absPath : Names) : Option Names :=
  match disk.realpath absPath with
  | .ok real => some real
  | .error .enoent => nearestExistingAncestor disk absPath.reverse
  | .error .other => none

inductive PathError where
  | rejected
  | failed
  deriving DecidableEq

def assertPathInsideRoot (rootPath : Names) (relPath : Text) : Except PathError Names :=
  if Text.includes "..".toList relPath then .error .rejected
  else if '\\' ∈ relPath then .error .rejected
  else
    let absRoot :=
      match disk.realpath rootPath with
      | .ok real => real
      | .error _ => rootPath
    match safeRealpath disk (resolveNames absRoot relPath) with
    | none => .error .failed
    | some real => if insideRoot absRoot real then .ok real else .error .rejected

/-- `replace(/^\.\//u, '')` -/
def dropDotSlash : Text → Text
  | '.' :: '/' :: t => t
  | t => t

def normalizedIndexedPath (filePath : Text) : Text := dropDotSlash (slashes filePath)

def hasParentTraversal (filePath : Text) : Bool := (filePath.splitOn '/').any (· = "..".toList)

inductive Located where
  | isUnsafe
  | unreadable
  | at (real : Names)
  deriving DecidableEq

/-- The real path of a file, or why there is none. -/
def realFilePath (realRoot : Names) (filePath : Text) : Except PathError Names :=
  if isAbsolute filePath then
    match disk.realpath (resolveNames [] filePath) with
    | .ok real => .ok real
    | .error _ => .error .failed
  else assertPathInsideRoot disk realRoot filePath

/-- Where the file of a path is. -/
def locate (realRoot : Names) (filePath : Text) : Located :=
  if filePath = [] || hasParentTraversal filePath || (!isAbsolute filePath && win32IsAbsolute filePath) then .isUnsafe
  else
    match realFilePath disk realRoot filePath with
    | .error .rejected => .isUnsafe
    | .error .failed => .unreadable
    | .ok real => if insideRoot realRoot real then .at real else .isUnsafe

/-! ## Matches in a file -/

structure QueryResult where
  query : Units
  found : List SourceMatch
  matchesTruncated : Bool
  deriving DecidableEq

/-- The loop over the matches. The number bounds its rounds. -/
def scanFrom (maxResults : ℕ) (content : Units) (filePath : Text) : ℕ → ℕ → QueryResult → QueryResult
  | 0, _, result => result
  | rounds + 1, start, result =>
    match indexOf content result.query start with
    | none => result
    | some offset =>
      if maxResults ≤ result.found.length then { result with matchesTruncated := true }
      else
        scanFrom maxResults content filePath rounds (offset + result.query.length)
          { result with found := result.found ++ [sourceMatch content (lineStartsFor content) offset filePath] }

def scanContent (maxResults : ℕ) (content : Units) (filePath : Text) (result : QueryResult) : QueryResult :=
  if result.matchesTruncated then result else scanFrom maxResults content filePath (content.length + 1) 0 result

/-! ## All files -/

def maxIndexedFiles : ℕ := 20000

def maxFileBytes : ℕ := 4 * 1024 * 1024

def maxTotalBytes : ℕ := 128 * 1024 * 1024

inductive ScanReason where
  | unsafePaths
  | unreadableFiles
  | nonFilePaths
  | oversizedFiles
  | binaryFiles
  | indexedFileLimit
  | byteBudget
  deriving DecidableEq

structure LiteralScan where
  results : List QueryResult
  seenRealPaths : List Names
  filesScanned : ℕ
  bytesScanned : ℕ
  reasons : OrderedMap ScanReason ℕ
  deriving DecidableEq

def incrementReason (key : ScanReason) (s : LiteralScan) : LiteralScan :=
  { s with reasons := s.reasons.set key ((s.reasons.get key).getD 0 + 1) }

/-- What is read of a file that passed the checks before; `Bool` tells whether the loop goes on. -/
def scanBuffer (maxResults : ℕ) (filePath : Text) (buffer : List UInt8) (s : LiteralScan) : LiteralScan × Bool :=
  if maxFileBytes < buffer.length then (incrementReason .oversizedFiles s, true)
  else if maxTotalBytes < s.bytesScanned + buffer.length then (incrementReason .byteBudget s, false)
  else
    let s := { s with filesScanned := s.filesScanned + 1, bytesScanned := s.bytesScanned + buffer.length }
    if 0 ∈ buffer then (incrementReason .binaryFiles s, true)
    else ({ s with results := s.results.map (scanContent maxResults (decodeUtf8 buffer) filePath) }, true)

/-- One path of the list. -/
def scanPath (maxResults : ℕ) (realRoot : Names) (s : LiteralScan) (filePath : Text) : LiteralScan × Bool :=
  match locate disk realRoot filePath with
  | .isUnsafe => (incrementReason .unsafePaths s, true)
  | .unreadable => (incrementReason .unreadableFiles s, true)
  | .at realFilePath =>
    if realFilePath ∈ s.seenRealPaths then (s, true)
    else
      let s := { s with seenRealPaths := s.seenRealPaths ++ [realFilePath] }
      match disk.stat realFilePath with
      | none => (incrementReason .unreadableFiles s, true)
      | some .other => (incrementReason .nonFilePaths s, true)
      | some (.file bytes readable) =>
        if maxFileBytes < bytes.length then (incrementReason .oversizedFiles s, true)
        else if maxTotalBytes < s.bytesScanned + bytes.length then (incrementReason .byteBudget s, false)
        else if readable then scanBuffer maxResults filePath bytes s
        else (incrementReason .unreadableFiles s, true)

def scanPaths (maxResults : ℕ) (realRoot : Names) : LiteralScan → List Text → LiteralScan
  | s, [] => s
  | s, filePath :: rest =>
    let next := scanPath disk maxResults realRoot s filePath
    if next.2 then scanPaths maxResults realRoot next.1 rest else next.1

/-! ## The operation -/

/-- `SELECT DISTINCT file_path … WHERE file_path != '' ORDER BY file_path COLLATE BINARY LIMIT ?` -/
def listProjectFilePaths (indexed : List Text) (limit : ℕ) : List Text :=
  (orderBy id (indexed.dedup.filter (· ≠ []))).take limit

/-- A query has a text, on one line. -/
def validQuery (query : Units) : Bool :=
  (query.any fun c => !Text.isSpace (Char.ofNat c)) && query.length ≤ 256 && 10 ∉ query && 13 ∉ query && 0 ∉ query

def validateQueries (queries : List Units) : Bool :=
  1 ≤ queries.length && queries.length ≤ 10 && queries.all validQuery && decide queries.Nodup

def maxResultsPerQuery (value : Option ℤ) : ℕ := (max 1 (min 50 (value.getD 20))).toNat

structure LiteralResponse where
  results : List QueryResult
  filesScanned : ℕ
  bytesScanned : ℕ
  scanComplete : Bool
  scanIncompleteReasons : OrderedMap ScanReason ℕ
  deriving DecidableEq

/-- The paths in the order in which they are read. -/
def indexedPaths (indexed : List Text) : List Text :=
  sortBy stableStringCompare
    (((listProjectFilePaths indexed (maxIndexedFiles + 1)).take maxIndexedFiles).map normalizedIndexedPath).dedup

def startScan (indexed : List Text) (queries : List Units) : LiteralScan :=
  let indexedPathProbe := listProjectFilePaths indexed (maxIndexedFiles + 1)
  { results := queries.map fun query => ⟨query, [], false⟩
    seenRealPaths := []
    filesScanned := 0
    bytesScanned := 0
    reasons :=
      if maxIndexedFiles < indexedPathProbe.length then
        OrderedMap.empty.set .indexedFileLimit (indexedPathProbe.length - maxIndexedFiles)
      else .empty }

def LiteralScan.response (s : LiteralScan) : LiteralResponse :=
  ⟨s.results, s.filesScanned, s.bytesScanned, s.reasons.entries.isEmpty, s.reasons⟩

/-- Without an answer, the response is an error. -/
def lookupLiterals (projectRoot : Option Names) (indexed : List Text) (queries : List Units) (maxResults : Option ℤ) :
    Option LiteralResponse :=
  if validateQueries queries then
    match projectRoot.map disk.realpath with
    | some (.ok realRoot) =>
      let s := scanPaths disk (maxResultsPerQuery maxResults) realRoot (startScan indexed queries) (indexedPaths indexed)
      some s.response
    | _ => none
  else none

end Ariad.Mcp
