import Mathlib.Data.List.AList
import Mathlib.Data.List.Infix
import Ariad.Indexer.Paths

/-!
# Discovery

`discoverSourceFilesStructured` walks the file tree below the root and lists the source files. It asks
the file system with `readdir`, `lstat`, `realpath` and `stat`; any call may fail, and the tree may
change between two calls.

* `FileSystem` — the answers, by the number of calls made before.
* `Discovery` — the variables of the walk, with the calls made so far.
* `visitSymlink`, `visitDirectory`, `visitFile` — what is done with a listed name.
* `discover` — the loop over the stack of directories.
-/

namespace Ariad

/-! ## What discovery leaves out -/

/-- Full discovery is the default; fast discovery leaves out more. -/
inductive DiscoveryMode where
  | full
  | fast
  deriving DecidableEq, Repr

/-- The options of a discovery. -/
structure DiscoveryConfig where
  mode : DiscoveryMode
  /-- Directory names that are skipped besides, in lower case. -/
  extraSkipDirs : List String
  /-- Denied entries are warnings. -/
  tolerant : Bool
  /-- `String.prototype.toLowerCase`, which folds all of Unicode. -/
  toLowerCase : String → String

/-! ## Tables -/

def ALWAYS_SKIP_DIRS : List String :=
  [".git", ".hg", ".svn", ".worktrees", ".idea", ".vs", ".vscode", ".eclipse", ".claude",
  ".claude-worktrees", "Antigravity", ".cache", ".eggs", ".env", ".mypy_cache", ".nox",
  ".pytest_cache", ".ruff_cache", ".tox", ".venv", "__pycache__", "env", "htmlcov",
  "site-packages", "venv", ".npm", ".nyc_output", ".pnpm-store", ".yarn", "bower_components",
  "coverage", "node_modules", ".next", ".nuxt", ".svelte-kit", ".angular", ".turbo",
  ".parcel-cache", ".docusaurus", ".expo", "dist", "obj", "Pods", "target", "temp", "tmp",
  ".terraform", ".serverless", "bazel-bin", "bazel-out", "bazel-testlogs", ".cargo",
  ".stack-work", ".dart_tool", "zig-cache", "zig-out", ".metals", ".bloop", ".bsp",
  ".ccls-cache", ".clangd", "elm-stuff", "_opam", ".cpcache", ".shadow-cljs", ".vercel",
  ".netlify", "deploy", "deployed", ".codex-runtime", ".qdrant_code_embeddings", ".tmp",
  "vendor", "vendored"]

def FAST_SKIP_DIRS : List String :=
  ["generated", "gen", "auto-generated", "fixtures", "testdata", "test_data", "__tests__",
  "__mocks__", "__snapshots__", "__fixtures__", "__test__", "docs", "doc", "documentation",
  "examples", "example", "samples", "sample", "assets", "static", "public", "media",
  "third_party", "thirdparty", "3rdparty", "external", "migrations", "seeds", "e2e",
  "integration", "locale", "locales", "i18n", "l10n", "scripts", "tools", "hack", "bin", "build",
  "out"]

def FAST_SKIP_FILENAMES : List String :=
  ["LICENSE", "LICENSE.txt", "LICENSE.md", "LICENSE-MIT", "LICENSE-APACHE", "LICENCE",
  "LICENCE.txt", "LICENCE.md", "CHANGELOG", "CHANGELOG.md", "CHANGES.md", "HISTORY",
  "HISTORY.md", "AUTHORS", "AUTHORS.md", "CONTRIBUTORS", "CONTRIBUTORS.md", "CODEOWNERS",
  "go.sum", "yarn.lock", "pnpm-lock.yaml", "Pipfile.lock", "poetry.lock", "Gemfile.lock",
  "Cargo.lock", "mix.lock", "flake.lock", "pubspec.lock", "composer.lock", "package-lock.json",
  "configure", "Makefile.in", "config.guess", "config.sub", "package.json", "tsconfig.json",
  "jsconfig.json", "openapi.json", "swagger.json", "jest.config.json", ".eslintrc.json",
  ".prettierrc.json", ".babelrc.json", "angular.json", "firebase.json", "renovate.json",
  "lerna.json", "turbo.json", "composer.json", "tslint.json", ".stylelintrc.json",
  "pnpm-lock.json", "launch.json", "settings.json", "extensions.json", "tasks.json", "deno.json",
  "biome.json", "devcontainer.json", ".devcontainer.json"]

def FAST_FILE_PATTERNS : List String :=
  [".d.ts", ".bundle.", ".chunk.", ".generated.", ".pb.go", "_pb2.py", ".pb2.py", "_grpc.pb.go",
  "_string.go", "mock_", "_mock.", "_test_helpers.", ".stories.", ".spec.", ".test."]

def FAST_IGNORED_SUFFIXES : List String :=
  [".map", ".min.js", ".min.css", ".pem", ".crt", ".key", ".cer", ".p12", ".coverage", ".prof",
  ".patch", ".diff"]

def EXT_TO_LANG : List (String × String) :=
  [(".ts", "typescript"), (".tsx", "tsx"), (".js", "javascript"), (".jsx", "javascript"),
  (".mjs", "javascript"), (".cjs", "javascript"), (".py", "python"), (".go", "go"),
  (".rs", "rust"), (".java", "java"), (".c", "c"), (".h", "c"), (".cpp", "cpp"), (".cc", "cpp"),
  (".cxx", "cpp"), (".hpp", "cpp"), (".hxx", "cpp"), (".rb", "ruby"), (".php", "php"),
  (".swift", "swift"), (".kt", "kotlin"), (".kts", "kotlin"), (".scala", "scala"),
  (".dart", "dart"), (".lua", "lua"), (".sh", "bash"), (".bash", "bash"), (".yml", "yaml"),
  (".yaml", "yaml"), (".json", "json"), (".html", "html"), (".css", "css"), (".sql", "sql"),
  (".md", "markdown"), (".dockerfile", "dockerfile")]

/-! ## Names -/

def shouldSkipDirectory (cfg : DiscoveryConfig) (name : String) : Bool :=
  ALWAYS_SKIP_DIRS.contains name || (cfg.mode == .fast && FAST_SKIP_DIRS.contains name) ||
    cfg.extraSkipDirs.contains (cfg.toLowerCase name)

/-- `String.prototype.includes`. -/
def includes (name pattern : String) : Bool := pattern.toList <:+: name.toList

/-- `String.prototype.endsWith`. -/
def endsWith (name pattern : String) : Bool := pattern.toList <:+ name.toList

def shouldSkipFile (cfg : DiscoveryConfig) (name : String) : Bool :=
  cfg.mode == .fast && (FAST_SKIP_FILENAMES.contains name ||
    FAST_FILE_PATTERNS.any (includes name) || FAST_IGNORED_SUFFIXES.any (endsWith name))

/-- `path.extname`: from the last dot on, unless the name starts with it. -/
def extname (name : String) : String :=
  match name.toList.reverse.span (· ≠ '.') with
  | (_, []) => ""
  | (_, [_]) => ""
  | (ext, _ :: _ :: _) => String.ofList ('.' :: ext.reverse)

/-- The last name of a path. -/
def basename (p : AbsPath) : String := (p.getLast?.map Subtype.val).getD ""

def detectLanguage (cfg : DiscoveryConfig) (p : AbsPath) : Option String :=
  let ext := cfg.toLowerCase (extname (basename p))
  if ext = ".dockerfile" ∨ cfg.toLowerCase (basename p) = "dockerfile" then some "dockerfile"
  else EXT_TO_LANG.lookup ext

/-- Whether a target passes through a directory that is skipped, or would be skipped itself. -/
def hasSkippedComponent (cfg : DiscoveryConfig) (realRoot realTarget : AbsPath) : Bool :=
  (relative realRoot realTarget).any (shouldSkipDirectory cfg)

end Ariad

namespace Ariad

/-! ## The file system -/

/-- The codes that the walk tells apart. -/
inductive ErrnoCode where
  | ENOENT
  | ELOOP
  | EACCES
  | EPERM
  | other (code : String)
  deriving DecidableEq, Repr

def ErrnoCode.text : ErrnoCode → String
  | .ENOENT => "ENOENT"
  | .ELOOP => "ELOOP"
  | .EACCES => "EACCES"
  | .EPERM => "EPERM"
  | .other code => code

/-- `isFile`, `isDirectory`, `isSymbolicLink`, or none of them. -/
inductive FileKind where
  | regular
  | directory
  | symlink
  | special
  deriving DecidableEq, Repr

/-- What `stat` returns. -/
structure FileStat where
  kind : FileKind
  dev : ℕ
  ino : ℕ
  mtimeNs : ℤ
  size : ℕ
  deriving DecidableEq, Repr

/-- A file system that may change between any two calls: the first argument counts the calls that were
made before. -/
structure FileSystem where
  readdir : ℕ → AbsPath → Except ErrnoCode (List FileName)
  lstat : ℕ → AbsPath → Except ErrnoCode FileKind
  realpath : ℕ → AbsPath → Except ErrnoCode AbsPath
  stat : ℕ → AbsPath → Except ErrnoCode FileStat

/-- Where the walk makes a call. -/
inductive CallSite where
  /-- `readdirSync` of a directory -/
  | readdir
  /-- `lstatSync` of a listed name -/
  | lstat
  /-- `realpathSync` of a symbolic link -/
  | link
  /-- `statSync` of the target of a link -/
  | target
  /-- `realpathSync` of a directory -/
  | directory
  /-- `statSync` and `realpathSync` of a file, for its identity -/
  | identity
  deriving DecidableEq, Repr

/-- What a call returned. -/
inductive Answer where
  | names (names : List FileName)
  | kind (kind : FileKind)
  | path (path : AbsPath)
  | stat (stat : FileStat)
  | error (code : ErrnoCode)
  deriving DecidableEq

/-- A call that was made. -/
structure FsCall where
  site : CallSite
  path : AbsPath
  answer : Answer
  deriving DecidableEq

/-! ## The variables of the walk -/

/-- What makes two paths the same file. -/
inductive IdentityKey where
  | inode (dev ino : ℕ) (language : String)
  | path (realpath : AbsPath) (language : String)
  deriving DecidableEq

/-- What an alias resolved to. -/
inductive TargetKind where
  | file
  | directory
  deriving DecidableEq, Repr

/-- A link inside the tree, with what it stands for. -/
structure ResolvedAlias where
  aliasPath : RelPath
  canonicalTarget : RelPath
  targetKind : TargetKind
  deriving DecidableEq, Repr

/-- The variables of the walk, and the calls made so far. -/
structure Discovery where
  calls : List FsCall
  stack : List AbsPath
  visitedDirs : List AbsPath
  visitedFiles : AList fun _ : IdentityKey => AbsPath
  fileStats : AList fun _ : AbsPath => FileStat
  errors : List (AbsPath × ErrnoCode)
  warnings : List (String × RelPath)
  uncertainPaths : List RelPath
  uncertainSubtrees : List RelPath
  resolvedAliases : List ResolvedAlias
  brokenAliases : List (RelPath × ErrnoCode)
  skippedExternalSymlinks : ℕ
  skippedPolicyPaths : ℕ
  duplicates : ℕ

namespace Discovery

def initial (realRoot : AbsPath) : Discovery where
  calls := []
  stack := [realRoot]
  visitedDirs := [realRoot]
  visitedFiles := ∅
  fileStats := ∅
  errors := []
  warnings := []
  uncertainPaths := []
  uncertainSubtrees := []
  resolvedAliases := []
  brokenAliases := []
  skippedExternalSymlinks := 0
  skippedPolicyPaths := 0
  duplicates := 0

/-- The calls made before. -/
def time (s : Discovery) : ℕ := s.calls.length

/-- A call has been made. -/
def called (s : Discovery) (site : CallSite) (p : AbsPath) (a : Answer) : Discovery :=
  { s with calls := s.calls ++ [⟨site, p, a⟩] }

def recordError (s : Discovery) (p : AbsPath) (code : ErrnoCode) : Discovery :=
  { s with errors := s.errors ++ [(p, code)] }

def recordWarning (s : Discovery) (code : String) (p : RelPath) : Discovery :=
  { s with warnings := s.warnings ++ [(code, p)] }

def uncertainPath (s : Discovery) (p : RelPath) : Discovery :=
  { s with uncertainPaths := s.uncertainPaths ++ [p] }

def uncertainSubtree (s : Discovery) (p : RelPath) : Discovery :=
  { s with uncertainSubtrees := s.uncertainSubtrees ++ [p] }

def brokenAlias (s : Discovery) (p : RelPath) (code : ErrnoCode) : Discovery :=
  { s.recordWarning code.text p with brokenAliases := s.brokenAliases ++ [(p, code)] }

def resolvedAlias (s : Discovery) (a : ResolvedAlias) : Discovery :=
  { s with resolvedAliases := s.resolvedAliases ++ [a] }

def skippedExternal (s : Discovery) : Discovery :=
  { s with skippedExternalSymlinks := s.skippedExternalSymlinks + 1 }

def skippedPolicy (s : Discovery) : Discovery :=
  { s with skippedPolicyPaths := s.skippedPolicyPaths + 1 }

def duplicate (s : Discovery) : Discovery := { s with duplicates := s.duplicates + 1 }

end Discovery

variable (cfg : DiscoveryConfig) (fs : FileSystem) (realRoot : AbsPath)

/-- The codes that a tolerant discovery does not treat as errors. -/
def denied (code : ErrnoCode) : Bool := cfg.tolerant && (code == .EACCES || code == .EPERM)

namespace Discovery

/-- What is done about a code that the call site does not treat specially: a denied path is held back
with all below it, and anything else is an error. -/
def fail (p : AbsPath) (code : ErrnoCode) (s : Discovery) : Discovery :=
  let rel := relative realRoot p
  if denied cfg code then
    ((s.recordWarning code.text rel).uncertainPath rel).uncertainSubtree rel
  else s.recordError p code

/-! ## Files -/

/-- `fileIdentityWithStat`. -/
def fileIdentityWithStat (p : AbsPath) (language : String) (s : Discovery) :
    Option (IdentityKey × Option FileStat) × Discovery :=
  match fs.stat s.time p with
  | .ok st =>
    let s := s.called .identity p (.stat st)
    if st.dev = 0 ∧ st.ino = 0 then
      match fs.realpath s.time p with
      | .ok q => (some (.path q language, some st), s.called .identity p (.path q))
      | .error c => (none, s.called .identity p (.error c))
    else (some (.inode st.dev st.ino language, some st), s)
  | .error c =>
    let s := s.called .identity p (.error c)
    match fs.realpath s.time p with
    | .ok q => (some (.path q language, none), s.called .identity p (.path q))
    | .error c => (none, s.called .identity p (.error c))

/-- Of two paths to a file the smaller one is kept. -/
def addFileCandidate (identity : IdentityKey) (p : AbsPath) (s : Discovery) : Discovery :=
  match s.visitedFiles.lookup identity with
  | none => { s with visitedFiles := s.visitedFiles.insert identity p }
  | some existing =>
    if pathLe existing p then s.duplicate
    else { s with visitedFiles := s.visitedFiles.insert identity p }

/-- A regular file of a supported language. -/
def addFile (p : AbsPath) (language : String) (s : Discovery) : Discovery :=
  match fileIdentityWithStat fs p language s with
  | (none, s) =>
    let rel := relative realRoot p
    (s.recordWarning "ENOENT_IDENTITY" rel).uncertainPath rel
  | (some (identity, none), s) => s.addFileCandidate identity p
  | (some (identity, some st), s) =>
    { s with fileStats := s.fileStats.insert p st }.addFileCandidate identity p

/-! ## Listed names -/

/-- A directory is walked once. -/
def pushDirectory (p : AbsPath) (s : Discovery) : Discovery :=
  if p ∈ s.visitedDirs then s.duplicate
  else { s with visitedDirs := p :: s.visitedDirs, stack := p :: s.stack }

/-- The target of a link, inside the root and not skipped. -/
def visitTarget (fullPath realTarget : AbsPath) (s : Discovery) : Discovery :=
  let relAlias := relative realRoot fullPath
  let relTarget := relative realRoot realTarget
  match fs.stat s.time realTarget with
  | .error .ENOENT =>
    let s := s.called .target realTarget (.error .ENOENT)
    ((s.recordWarning "ENOENT_STAT" relTarget).uncertainPath relTarget).uncertainSubtree relTarget
  | .error c => (s.called .target realTarget (.error c)).fail cfg realRoot realTarget c
  | .ok st =>
    let s := s.called .target realTarget (.stat st)
    match st.kind with
    | .directory => (s.resolvedAlias ⟨relAlias, relTarget, .directory⟩).pushDirectory realTarget
    | .regular =>
      if shouldSkipFile cfg (basename realTarget) then s.skippedPolicy
      else
        match detectLanguage cfg realTarget with
        | none => s
        | some language =>
          (s.resolvedAlias ⟨relAlias, relTarget, .file⟩).addFile fs realRoot realTarget language
    | _ => s

/-- A symbolic link. -/
def visitSymlink (fullPath : AbsPath) (s : Discovery) : Discovery :=
  if shouldSkipDirectory cfg (basename fullPath) then s.skippedPolicy
  else
    let relAlias := relative realRoot fullPath
    match fs.realpath s.time fullPath with
    | .error .ENOENT => (s.called .link fullPath (.error .ENOENT)).brokenAlias relAlias .ENOENT
    | .error .ELOOP => (s.called .link fullPath (.error .ELOOP)).brokenAlias relAlias .ELOOP
    | .error c => (s.called .link fullPath (.error c)).fail cfg realRoot fullPath c
    | .ok realTarget =>
      let s := s.called .link fullPath (.path realTarget)
      if !isPathInside realRoot realTarget then s.skippedExternal
      else if hasSkippedComponent cfg realRoot realTarget then s.skippedPolicy
      else s.visitTarget cfg fs realRoot fullPath realTarget

/-- A directory that is not a link. -/
def visitDirectory (fullPath : AbsPath) (s : Discovery) : Discovery :=
  if shouldSkipDirectory cfg (basename fullPath) then s.skippedPolicy
  else
    match fs.realpath s.time fullPath with
    | .error .ENOENT =>
      let rel := relative realRoot fullPath
      let s := s.called .directory fullPath (.error .ENOENT)
      (s.recordWarning "ENOENT_REALPATH_DIR" rel).uncertainSubtree rel
    | .error c => (s.called .directory fullPath (.error c)).fail cfg realRoot fullPath c
    | .ok realDir => (s.called .directory fullPath (.path realDir)).pushDirectory realDir

/-- A regular file that is not a link. -/
def visitFile (fullPath : AbsPath) (s : Discovery) : Discovery :=
  if shouldSkipFile cfg (basename fullPath) then s.skippedPolicy
  else
    match detectLanguage cfg fullPath with
    | none => s
    | some language => s.addFile fs realRoot fullPath language

/-- A name that `readdir` has listed. -/
def visitEntry (dir : AbsPath) (s : Discovery) (entry : FileName) : Discovery :=
  let fullPath := dir ++ [entry]
  match fs.lstat s.time fullPath with
  | .error .ENOENT =>
    -- it was there when the directory was read; only the path itself is held back
    let rel := relative realRoot fullPath
    let s := s.called .lstat fullPath (.error .ENOENT)
    (s.recordWarning "ENOENT_LSTAT" rel).uncertainPath rel
  | .error c => (s.called .lstat fullPath (.error c)).fail cfg realRoot fullPath c
  | .ok kind =>
    let s := s.called .lstat fullPath (.kind kind)
    match kind with
    | .symlink => s.visitSymlink cfg fs realRoot fullPath
    | .directory => s.visitDirectory cfg fs realRoot fullPath
    | .regular => s.visitFile cfg fs realRoot fullPath
    | .special => s

/-! ## The walk -/

/-- A directory from the stack. -/
def readDirectory (dir : AbsPath) (s : Discovery) : Discovery :=
  match fs.readdir s.time dir with
  | .error c => (s.called .readdir dir (.error c)).fail cfg realRoot dir c
  | .ok entries =>
    entries.foldl (visitEntry cfg fs realRoot dir) (s.called .readdir dir (.names entries))

/-- The loop; `none` when the fuel does not last. -/
def walk : (fuel : ℕ) → Discovery → Option Discovery
  | fuel, s =>
    match s.stack with
    | [] => some s
    | dir :: rest =>
      match fuel with
      | 0 => none
      | fuel + 1 => walk fuel ({ s with stack := rest }.readDirectory cfg fs realRoot dir)

/-- `discoverSourceFilesStructured`, below a root that has been resolved. -/
def discover (fuel : ℕ) : Option Discovery := walk cfg fs realRoot fuel (initial realRoot)

/-! ## The result -/

/-- No call has failed fatally. -/
def complete (s : Discovery) : Bool := s.errors.isEmpty

/-- The files that were found, sorted. -/
def files (s : Discovery) : List AbsPath :=
  (s.visitedFiles.entries.map fun e => e.2).mergeSort pathLe

end Discovery

end Ariad
