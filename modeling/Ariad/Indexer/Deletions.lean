import Ariad.Indexer.Discovery

/-!
# What an incremental run deletes

An incremental run deletes the rows of the stored paths that discovery did not list, less those that it
must hold back: paths and subtrees that answered uncertainly, and the old targets of aliases that are
broken now. One row of `alias_history` per alias says what it resolved to in the last certified run.
-/

namespace Ariad

/-- A row of `alias_history`. -/
structure AliasHistoryEntry where
  aliasPath : RelPath
  canonicalTarget : RelPath
  targetKind : TargetKind
  deriving DecidableEq, Repr

/-- What the run reads of the project before it deletes. -/
structure DeletionInput where
  /-- The paths in `nodes` and `file_hashes`. -/
  indexedPaths : List RelPath
  /-- The history rows of the root. -/
  aliasHistory : List AliasHistoryEntry
  /-- The history has been initialised under the current policy. -/
  bootstrapComplete : Bool
  hasExistingGraphData : Bool

/-- `p === dir || p.startsWith(dir + sep)`. -/
def atOrUnder (dir p : RelPath) : Bool :=
  p == dir || (if dir = [] then p.head? == some "" else dir.isPrefixOf p)

namespace Discovery

variable (realRoot : AbsPath) (db : DeletionInput) (s : Discovery)

def currentRelPaths : List RelPath := s.files.map (relative realRoot)

/-- The history rows of the aliases that are broken now. -/
def historicalBrokenAliases : List AliasHistoryEntry :=
  s.brokenAliases.filterMap fun broken =>
    db.aliasHistory.find? fun entry => entry.aliasPath = broken.1

/-- Old targets of broken file aliases that discovery did not list. -/
def protectedPaths : List RelPath :=
  (((s.historicalBrokenAliases db).filter fun a => a.targetKind = .file).map
    AliasHistoryEntry.canonicalTarget).filter fun p => !(s.currentRelPaths realRoot).contains p

/-- Old targets of broken directory aliases below which discovery listed nothing. -/
def protectedSubtrees : List RelPath :=
  (((s.historicalBrokenAliases db).filter fun a => a.targetKind = .directory).map
    AliasHistoryEntry.canonicalTarget).filter fun dir =>
      !(s.currentRelPaths realRoot).any (atOrUnder dir)

/-- Broken aliases cannot be judged without a history. -/
def coldStartLock : Bool :=
  !db.bootstrapComplete && !s.brokenAliases.isEmpty && db.hasExistingGraphData

def effectiveGlobalDeletionUncertainty : Bool :=
  s.uncertainSubtrees.contains [] || s.coldStartLock db

/-- A path that must not be taken for deleted. -/
def heldBack (p : RelPath) : Bool :=
  (s.protectedPaths realRoot db).contains p || (s.protectedSubtrees realRoot db).any (atOrUnder · p) ||
    s.uncertainPaths.contains p || s.uncertainSubtrees.any (atOrUnder · p)

/-- `deletedRelPaths`. -/
def deletedRelPaths : List RelPath :=
  if s.effectiveGlobalDeletionUncertainty db then []
  else (db.indexedPaths.filter fun p => !(s.currentRelPaths realRoot).contains p).filter fun p =>
    !s.heldBack realRoot db p

/-- What the run deletes: nothing when the discovery is incomplete. -/
def deletions : List RelPath := if s.complete then s.deletedRelPaths realRoot db else []

end Discovery

end Ariad
