import Ariad.Indexer.Deletions

/-!
# The code database

What the database holds of one project, and what the statements and transactions of the indexer do to
it.

* `ProjectRow` — the row of `projects`: the trust columns.
* `ExtractedRows` — the rows that one extraction of a file put into a table. They stand for themselves by
  what they were extracted from: which file, under which root, which text.
* `CodeDb` — the tables of one project.
* `premark`, `updateProjectStats`, `commitAliasStateAtomically`, … — the writes.
-/

namespace Ariad

variable {φ χ δ : Type}

def CURRENT_EXTRACTOR_SEMANTICS_VERSION : ℤ := 9

def CURRENT_DISCOVERY_POLICY_VERSION : ℤ := 3

/-- The row of `projects`. Every trust column may be null; of `last_successful_index_at` only that is
ever asked. -/
structure ProjectRow (φ : Type) where
  rootPath : AbsPath
  crossFileCallsStale : Option ℤ
  callSitesInitialized : Option ℤ
  extractorSemanticsVersion : Option ℤ
  hasLastSuccessfulIndexAt : Bool
  aliasHistoryInitialized : Option ℤ
  discoveryPolicyVersion : Option ℤ
  rootFingerprint : Option φ
  deriving DecidableEq

/-- The tables with rows of files. The edges here are those inside one file. -/
inductive FileTable where
  | nodes
  | edges
  | callSites
  | imports
  | exports
  deriving DecidableEq, Repr

/-- What one extraction put into a table: the rows that the extractor makes of `content`, the text that
the file had under the root. -/
structure ExtractedRows (φ χ : Type) where
  path : RelPath
  root : φ
  content : χ
  deriving DecidableEq

/-- A row of `file_hashes`, and the root of the run that wrote it. -/
structure FileHash (φ δ : Type) where
  path : RelPath
  contentHash : δ
  mtimeNs : Option ℤ
  size : ℕ
  root : φ
  deriving DecidableEq

/-- The types of the edges between files. -/
inductive CrossFileType where
  | CALLS
  | IMPORTS
  deriving DecidableEq, Repr

/-- An edge that the cross-file resolver made of rows of the root. -/
structure CrossFileEdge (φ : Type) where
  source : RelPath
  target : RelPath
  type : CrossFileType
  root : φ
  deriving DecidableEq

/-- A row of `alias_history`. -/
structure AliasHistoryRow (φ : Type) where
  rootFingerprint : φ
  entry : AliasHistoryEntry
  lastObservedRunId : Option ℕ
  deriving DecidableEq

/-- The tables of one project. -/
structure CodeDb (φ χ δ : Type) where
  project : Option (ProjectRow φ)
  table : FileTable → List (ExtractedRows φ χ)
  fileHashes : List (FileHash φ δ)
  crossFileEdges : List (CrossFileEdge φ)
  aliasHistory : List (AliasHistoryRow φ)

namespace ProjectRow

/-- The row that the premark inserts; the other columns have their defaults. -/
def inserted (rootPath : AbsPath) : ProjectRow φ where
  rootPath := rootPath
  crossFileCallsStale := some 1
  callSitesInitialized := some 0
  extractorSemanticsVersion := some 0
  hasLastSuccessfulIndexAt := false
  aliasHistoryInitialized := some 0
  discoveryPolicyVersion := some 0
  rootFingerprint := none

def stale (row : ProjectRow φ) : ProjectRow φ := { row with crossFileCallsStale := some 1 }

end ProjectRow

/-- How SQLite stores a boolean. -/
def sqlBool (b : Bool) : ℤ := if b then 1 else 0

namespace CodeDb

variable (db : CodeDb φ χ δ)

/-! ## Reads -/

/-- The rows of one file in a table. -/
def rowsOf (t : FileTable) (p : RelPath) : List (ExtractedRows φ χ) := (db.table t).filter fun r => r.path = p

/-- `SELECT DISTINCT file_path FROM nodes UNION SELECT file_path FROM file_hashes`. -/
def indexedPaths : List RelPath :=
  ((db.table .nodes).map ExtractedRows.path ++ db.fileHashes.map FileHash.path).dedup

/-- The row of `file_hashes` for a file. -/
def hashOf (p : RelPath) : Option (FileHash φ δ) := db.fileHashes.find? fun h => h.path = p

def isCallSitesInitialized : Bool := (db.project.bind ProjectRow.callSitesInitialized) = some 1

def isExtractorSemanticsCurrent : Bool :=
  ((db.project.bind ProjectRow.extractorSemanticsVersion).getD 0) = CURRENT_EXTRACTOR_SEMANTICS_VERSION

/-- `loadAliasHistory`. -/
def loadAliasHistory [DecidableEq φ] (fingerprint : φ) : List AliasHistoryEntry :=
  (db.aliasHistory.filter fun r => r.rootFingerprint = fingerprint).map AliasHistoryRow.entry

/-! ## The row of `projects` -/

/-- `UPDATE projects SET cross_file_calls_stale = 1`. -/
def markStale : CodeDb φ χ δ := { db with project := db.project.map ProjectRow.stale }

/-- The pessimistic premark: an upsert that touches no other column of an existing row. -/
def premark (rootPath : AbsPath) : CodeDb φ χ δ :=
  { db with project := some ((db.project.map ProjectRow.stale).getD (.inserted rootPath)) }

/-- `updateProjectStats`. The last three are null unless the run succeeded, and null keeps the column. -/
def updateProjectStats (rootPath : AbsPath) (crossFileCallsStale callSitesInitialized : Bool)
    (extractorSemanticsVersion : ℤ) (hasIndexError : Bool)
    (aliasHistoryInitialized : Option Bool) (discoveryPolicyVersion : Option ℤ)
    (rootFingerprint : Option φ) : CodeDb φ χ δ :=
  let succeeded := !hasIndexError && !crossFileCallsStale
  let excluded : ProjectRow φ :=
    { rootPath := rootPath
      crossFileCallsStale := some (sqlBool crossFileCallsStale)
      callSitesInitialized := some (sqlBool callSitesInitialized)
      extractorSemanticsVersion := some extractorSemanticsVersion
      hasLastSuccessfulIndexAt := succeeded
      aliasHistoryInitialized := if succeeded then aliasHistoryInitialized.map sqlBool else none
      discoveryPolicyVersion := if succeeded then discoveryPolicyVersion else none
      rootFingerprint := if succeeded then rootFingerprint else none }
  { db with
    project := some <|
      match db.project with
      | none => excluded
      | some row =>
        { excluded with
          rootPath := if excluded.hasLastSuccessfulIndexAt then excluded.rootPath else row.rootPath
          hasLastSuccessfulIndexAt :=
            excluded.hasLastSuccessfulIndexAt || row.hasLastSuccessfulIndexAt
          aliasHistoryInitialized := excluded.aliasHistoryInitialized <|> row.aliasHistoryInitialized
          discoveryPolicyVersion := excluded.discoveryPolicyVersion <|> row.discoveryPolicyVersion
          rootFingerprint := excluded.rootFingerprint <|> row.rootFingerprint } }

/-! ## The alias history -/

section

variable [DecidableEq φ]

/-- The upsert of one resolved alias. -/
def upsertAlias (fingerprint : φ) (runId : ℕ) (history : List (AliasHistoryRow φ))
    (a : ResolvedAlias) : List (AliasHistoryRow φ) :=
  history.filter (fun r => ¬(r.rootFingerprint = fingerprint ∧ r.entry.aliasPath = a.aliasPath)) ++
    [⟨fingerprint, ⟨a.aliasPath, a.canonicalTarget, a.targetKind⟩, some runId⟩]

/-- What `commitAliasStateAtomically` makes of the history: the contributive aliases are written, the
live ones are stamped, and rows of the root without the stamp are collected. -/
def committedHistory (fingerprint : φ) (runId : ℕ) (resolvedAliases : List ResolvedAlias)
    (liveAliasPaths : List RelPath) (history : List (AliasHistoryRow φ)) : List (AliasHistoryRow φ) :=
  ((resolvedAliases.foldl (upsertAlias fingerprint runId) history).map fun r =>
    if r.rootFingerprint = fingerprint ∧ r.entry.aliasPath ∈ liveAliasPaths then
      { r with lastObservedRunId := some runId }
    else r).filter fun r =>
      ¬(r.rootFingerprint = fingerprint ∧ r.lastObservedRunId ≠ some runId)

/-- `commitAliasStateAtomically`: the history and the trust columns in one transaction. -/
def commitAliasStateAtomically (rootPath : AbsPath) (callSitesInitialized : Bool)
    (extractorSemanticsVersion : ℤ) (fingerprint : φ) (runId : ℕ)
    (resolvedAliases : List ResolvedAlias) (liveAliasPaths : List RelPath) : CodeDb φ χ δ :=
  { db with
    aliasHistory := committedHistory fingerprint runId resolvedAliases liveAliasPaths db.aliasHistory
    project := some
      { rootPath := rootPath
        crossFileCallsStale := some 0
        callSitesInitialized := some (sqlBool callSitesInitialized)
        extractorSemanticsVersion := some extractorSemanticsVersion
        hasLastSuccessfulIndexAt := true
        aliasHistoryInitialized := some 1
        discoveryPolicyVersion := some CURRENT_DISCOVERY_POLICY_VERSION
        rootFingerprint := some fingerprint } }

end

/-! ## The rows of files -/

/-- `clearProjectData`. -/
def clearProjectData : CodeDb φ χ δ :=
  { db with table := fun _ => [], fileHashes := [], crossFileEdges := [] }

def clearCrossFileCallEdges : CodeDb φ χ δ := { db with crossFileEdges := [] }

/-- Delete the nodes of some files, with the edges at these nodes. -/
def deleteNodes (paths : List RelPath) : CodeDb φ χ δ :=
  let hit := fun p => p ∈ paths ∧ db.rowsOf .nodes p ≠ []
  { db with
    table := fun t =>
      match t with
      | .nodes => (db.table .nodes).filter fun r => r.path ∉ paths
      | .edges => (db.table .edges).filter fun r => ¬hit r.path
      | t => db.table t
    crossFileEdges := db.crossFileEdges.filter fun e => ¬hit e.source ∧ ¬hit e.target }

/-- Delete the call sites, imports and exports of some files. -/
def deleteBindings (paths : List RelPath) : CodeDb φ χ δ :=
  { db with
    table := fun t =>
      match t with
      | .nodes => db.table .nodes
      | .edges => db.table .edges
      | t => (db.table t).filter fun r => r.path ∉ paths }

def deleteHashes (paths : List RelPath) : CodeDb φ χ δ :=
  { db with fileHashes := db.fileHashes.filter fun h => h.path ∉ paths }

/-- Delete all rows of some files. -/
def deleteFiles (paths : List RelPath) : CodeDb φ χ δ :=
  ((db.deleteNodes paths).deleteHashes paths).deleteBindings paths

def upsertHash (h : FileHash φ δ) : CodeDb φ χ δ :=
  { db with fileHashes := (db.fileHashes.filter fun h' => h'.path ≠ h.path) ++ [h] }

end CodeDb

/-! ## Extraction -/

/-- What the code of other files does with a text: the digest, the parser with the extractor, and the
cross-file resolver. -/
structure Extractor (φ χ δ : Type) where
  /-- SHA-256 of the text. -/
  sha256 : χ → δ
  /-- The text can be parsed and extracted. -/
  extracts : RelPath → χ → Bool
  /-- The extraction has rows for the table. -/
  yields : FileTable → RelPath → χ → Bool
  /-- An edge inside a file joins nodes of the file. -/
  yields_edges : ∀ p c, yields .edges p c = true → yields .nodes p c = true
  /-- `rebuildCrossFileCallsEdges`: the edges afterwards, by the scope, the rows and the edges before. -/
  rebuild : Option (List RelPath) → (FileTable → List (ExtractedRows φ χ)) → List (CrossFileEdge φ) →
    List (CrossFileEdge φ)
  /-- An edge that was not there before is made of rows of the project. -/
  rebuild_root : ∀ scope table edges e, e ∈ rebuild scope table edges →
    e ∈ edges ∨ ∃ t, ∃ rows ∈ table t, rows.root = e.root

/-- Every text can be parsed and gives nodes, and there are no edges between files. -/
def plainExtractor : Extractor ℕ ℕ ℕ where
  sha256 := id
  extracts := fun _ _ => true
  yields := fun t _ _ => t = .nodes
  yields_edges := fun _ _ _ => rfl
  rebuild := fun _ _ edges => edges
  rebuild_root := fun _ _ _ _ he => .inl he

/-- What is written to `file_hashes` for a file. -/
structure HashUpdate (δ : Type) where
  path : RelPath
  hash : δ
  mtimeNs : ℤ
  size : ℕ
  deriving DecidableEq

/-- A file that was extracted from `content`. -/
structure FileUpdate (χ δ : Type) extends HashUpdate δ where
  content : χ
  deriving DecidableEq

def HashUpdate.row (u : HashUpdate δ) (root : φ) : FileHash φ δ :=
  ⟨u.path, u.hash, some u.mtimeNs, u.size, root⟩

namespace CodeDb

variable (X : Extractor φ χ δ) (db : CodeDb φ χ δ)

def upsertHashes (root : φ) (us : List (HashUpdate δ)) : CodeDb φ χ δ :=
  us.foldl (fun db u => db.upsertHash (u.row root)) db

/-- The rows of one file; an incremental run deletes the old ones first. -/
def writeFile (incremental : Bool) (root : φ) (db : CodeDb φ χ δ) (u : FileUpdate χ δ) :
    CodeDb φ χ δ :=
  let db := if incremental then (db.deleteNodes [u.path]).deleteBindings [u.path] else db
  { db with
    table := fun t =>
      db.table t ++ if X.yields t u.path u.content then [ExtractedRows.mk u.path root u.content] else []
  }.upsertHash (u.row root)

def rebuildCrossFileCallsEdges (scope : Option (List RelPath)) : CodeDb φ χ δ :=
  { db with crossFileEdges := X.rebuild scope db.table db.crossFileEdges }

/-- The end of an extraction: the cross-file edges, and whether they are resolved. -/
def resolveCrossFile (incremental callSitesInitialized : Bool) (scope : Option (List RelPath)) :
    CodeDb φ χ δ × Bool :=
  if incremental then
    if !db.isExtractorSemanticsCurrent then (db.clearCrossFileCallEdges, false)
    else if !callSitesInitialized then (db, false)
    else if db.table .nodes ≠ [] then (db.rebuildCrossFileCallsEdges X scope, true)
    else (db, true)
  else (db.rebuildCrossFileCallsEdges X none, true)

/-- The transaction of `extractFromFilesWasm`. -/
def extractionTx (incremental : Bool) (root : φ) (updates : List (FileUpdate χ δ))
    (metadataOnly : List (HashUpdate δ)) : CodeDb φ χ δ × Bool :=
  ((updates.foldl (writeFile X incremental root) db).upsertHashes root metadataOnly).resolveCrossFile X
    incremental db.isCallSitesInitialized none

/-- The transaction of `indexParallel`. A full run clears the project in it; the metadata is written
with the first file. -/
def streamingTx (incremental : Bool) (root : φ) (updates : List (FileUpdate χ δ))
    (metadataOnly : List (HashUpdate δ)) (callSitesInitialized : Bool)
    (scope : Option (List RelPath)) : CodeDb φ χ δ × Bool :=
  let db := updates.foldl (writeFile X incremental root) (if incremental then db else db.clearProjectData)
  (if updates = [] then db else db.upsertHashes root metadataOnly).resolveCrossFile X incremental
    callSitesInitialized scope

/-! ## Deletion -/

/-- The transaction of the deletion-only path, and whether the cross-file edges are resolved. -/
def cleanupTx (deletedRelPaths : List RelPath) (semanticsStale callSitesInitialized : Bool) :
    CodeDb φ χ δ × Bool :=
  let db := db.deleteFiles deletedRelPaths
  if semanticsStale then (db.clearCrossFileCallEdges, false)
  else if callSitesInitialized && db.table .nodes ≠ [] then (db.rebuildCrossFileCallsEdges X none, true)
  else (db, callSitesInitialized)

/-- The deletions of the main path. -/
def deleteTx (deletedRelPaths : List RelPath) (semanticsStale : Bool) : CodeDb φ χ δ :=
  let db := db.deleteFiles deletedRelPaths
  if semanticsStale then db.clearCrossFileCallEdges
  else if db.isCallSitesInitialized then db.rebuildCrossFileCallsEdges X none
  else db

/-- The transaction of the no-op path. -/
def noOpTx (semanticsStale noOpStale : Bool) (rootPath : AbsPath) (existingInitialized : Bool)
    (existingSemanticsVersion : ℤ) (hasIndexError : Bool) : CodeDb φ χ δ :=
  let db := if semanticsStale then db.clearCrossFileCallEdges else db
  if noOpStale then
    db.updateProjectStats rootPath noOpStale existingInitialized existingSemanticsVersion hasIndexError
      none none none
  else db

/-- The transaction of `markProjectStalePreservingGraph`: edges of another semantics are cleared. -/
def markTx (storedVersion : ℤ) : CodeDb φ χ δ :=
  if storedVersion ≠ CURRENT_EXTRACTOR_SEMANTICS_VERSION then db.markStale.clearCrossFileCallEdges
  else db.markStale

end CodeDb

end Ariad
