import Ariad.Javascript.OrderedMap
import Ariad.Javascript.PosixPath

/-!
# Exported names across files

How the cross-file resolver follows an exported name to the declaration behind it.

* `ModuleTables` — the rows of `nodes`, `imports` and `exports` of one project, in the order of their ids.
* `resolveModulePath` — the file that a relative specifier means.
* `fileExports` — the export table of a file, and what makes the whole module invalid.
* `resolveExportedSymbol` — the declaration behind an exported name: through re-exports and star exports.
-/

namespace Ariad.CrossFile

/-! ## Tables -/

/-- A row of `nodes`. -/
structure NodeRow where
  name : Text
  qualifiedName : Text
  filePath : Text
  deriving DecidableEq

inductive ImportKind where
  | named
  | alias
  | default
  | namespace_
  | default_export
  deriving DecidableEq

/-- A row of `imports`. -/
structure ImportRow where
  filePath : Text
  localName : Text
  sourceModule : Text
  importedName : Text
  importKind : ImportKind
  deriving DecidableEq

inductive ExportKind where
  | local_named
  | local_alias
  | re_export_named
  | re_export_alias
  | star_re_export
  | type_only_default
  deriving DecidableEq

/-- A row of `exports`. -/
structure ExportRow where
  filePath : Text
  exportedName : Text
  localName : Option Text
  sourceModule : Option Text
  importedName : Option Text
  exportKind : ExportKind
  deriving DecidableEq

/-- The tables, and what `node:module` says of a specifier. -/
structure ModuleTables where
  nodes : List NodeRow
  imports : List ImportRow
  exports : List ExportRow
  isBuiltin : Text → Bool

/-- A string that is there and not empty. -/
def truthy : Option Text → Option Text
  | some [] => none
  | t => t

/-! ## Files -/

def toPortableProjectPath (filePath : Text) : Text := filePath.map fun c => if c = '\\' then '/' else c

/-- `knownFiles.get(candidate)`: the first row of a portable path. -/
def ModuleTables.knownFile (t : ModuleTables) (candidate : Text) : Option Text :=
  truthy ((t.nodes.find? fun n => toPortableProjectPath n.filePath = candidate).map NodeRow.filePath)

/-- The source files that an emitted file may stand for. -/
def emittedExtensionSubstitutions (extension : Text) : List Text :=
  if extension = ".js".toList then [".ts".toList, ".tsx".toList, ".d.ts".toList, ".jsx".toList]
  else if extension = ".jsx".toList then [".tsx".toList, ".d.ts".toList]
  else if extension = ".mjs".toList then [".mts".toList, ".d.mts".toList]
  else if extension = ".cjs".toList then [".cts".toList, ".d.cts".toList]
  else []

def moduleExtensions : List Text :=
  [".ts".toList, ".tsx".toList, ".js".toList, ".jsx".toList, ".mjs".toList, ".cjs".toList]

/-- The paths that a specifier may mean, the best one first. -/
def candidatePaths (basePath : Text) : List Text :=
  let sourceExtension := Posix.extname basePath
  let sourceBase := basePath.take (basePath.length - sourceExtension.length)
  basePath :: (emittedExtensionSubstitutions sourceExtension).map (sourceBase ++ ·) ++
    moduleExtensions.map (basePath ++ ·) ++ moduleExtensions.map fun ext => basePath ++ "/index".toList ++ ext

/-- The file that a specifier means; only relative ones are resolved. -/
def ModuleTables.resolveModulePath (t : ModuleTables) (sourceModule currentFile : Text) : Option Text :=
  if sourceModule.head? ≠ some '.' then none
  else
    let currentDir := Posix.dirname (toPortableProjectPath currentFile)
    let basePath := Posix.normalize (Posix.join (if currentDir = ['.'] then [] else currentDir)
      (toPortableProjectPath sourceModule))
    (candidatePaths basePath).findSome? t.knownFile

/-! ## Symbols -/

/-- `fileSymbolIndex.get(filePath)?.get(name)`: the first node of the name. Anonymous functions have none. -/
def ModuleTables.fileSymbol (t : ModuleTables) (filePath name : Text) : Option Text :=
  truthy ((t.nodes.find? fun n =>
    n.filePath = filePath ∧ n.name = name ∧ ¬"anonymous#".toList.isPrefixOf n.name).map NodeRow.qualifiedName)

/-- `parseInt(t, 10) || 0`. -/
def parseCount (t : Text) : ℤ :=
  let digits (s : Text) : ℕ := (s.takeWhile Char.isDigit).foldl (fun n c => 10 * n + (c.toNat - '0'.toNat)) 0
  match Text.trimStart t with
  | '-' :: rest => -(digits rest : ℤ)
  | '+' :: rest => digits rest
  | rest => digits rest

/-- An entry of `defaultExportByFile`. -/
structure DefaultExport where
  qn : Option Text
  count : ℤ
  deriving DecidableEq

/-- `defaultExportByFile.get(filePath)`: the last marker of the file. -/
def ModuleTables.defaultExport (t : ModuleTables) (filePath : Text) : Option DefaultExport :=
  (t.imports.filter fun i => i.filePath = filePath ∧ i.importKind = .default_export ∧
    i.localName = "__default_export__".toList).getLast?.map fun i =>
      ⟨truthy (some i.importedName), parseCount i.sourceModule⟩

/-! ## The export table of a file -/

inductive UnknownReason where
  | legacy_export_tracking
  | unresolved_reexport_module
  | depth_limit
  | untracked_export_form
  | invalid_duplicate_export
  deriving DecidableEq

namespace UnknownReason

def priority : UnknownReason → ℕ
  | invalid_duplicate_export => 5
  | unresolved_reexport_module => 4
  | untracked_export_form => 3
  | legacy_export_tracking => 2
  | depth_limit => 1

/-- `higherPriorityUnknownReason`. -/
def higher (a b : UnknownReason) : UnknownReason := if a.priority < b.priority then b else a

end UnknownReason

structure NamedBinding where
  localName : Option Text
  sourceModule : Option Text
  importedName : Option Text
  exportKind : ExportKind
  deriving DecidableEq

structure FileExports where
  named : OrderedMap Text (List NamedBinding)
  /-- The specifiers of the star exports. -/
  stars : List Text
  /-- Why no name of the module can be imported. -/
  fileInvalidReason : Option UnknownReason
  deriving DecidableEq

namespace FileExports

def empty : FileExports := ⟨.empty, [], none⟩

/-- One row of the table. A second binding of a name makes the module invalid. -/
def addRow (fileExp : FileExports) (exp : ExportRow) : FileExports :=
  if exp.exportKind = .star_re_export then
    match truthy exp.sourceModule with
    | some source => { fileExp with stars := fileExp.stars ++ [source] }
    | none => fileExp
  else
    let binding : NamedBinding := ⟨exp.localName, exp.sourceModule, exp.importedName, exp.exportKind⟩
    match fileExp.named.get exp.exportedName with
    | some existing =>
      { fileExp with
        named := fileExp.named.set exp.exportedName (existing ++ [binding])
        fileInvalidReason := some .invalid_duplicate_export }
    | none => { fileExp with named := fileExp.named.set exp.exportedName [binding] }

/-- The reason, unless there is one already. -/
def invalidate (fileExp : FileExports) (reason : UnknownReason) : FileExports :=
  { fileExp with fileInvalidReason := some (fileExp.fileInvalidReason.getD reason) }

end FileExports

namespace ModuleTables

variable (t : ModuleTables)

/-- The rows of a file; nothing if there are none. -/
def exportRows (filePath : Text) : Option FileExports :=
  match t.exports.filter fun e => e.filePath = filePath with
  | [] => none
  | rows => some (rows.foldl FileExports.addRow .empty)

/-- Two default exports, or one beside a binding of the name, make the module invalid. -/
def checkDefault (filePath : Text) (fileExp : Option FileExports) : Option FileExports :=
  match t.defaultExport filePath with
  | none => fileExp
  | some defaultInfo =>
    if 1 < defaultInfo.count then some ((fileExp.getD .empty).invalidate .invalid_duplicate_export)
    else if 0 < defaultInfo.count then
      fileExp.map fun e => if e.named.has "default".toList then e.invalidate .invalid_duplicate_export else e
    else fileExp

/-- A star source that cannot be: a relative one without a file, or a builtin that does not exist. -/
def starUnresolved (filePath source : Text) : Bool :=
  if source.head? ≠ some '.' then "node:".toList.isPrefixOf source && !t.isBuiltin source
  else (t.resolveModulePath source filePath).isNone

def checkStars (filePath : Text) (fileExp : FileExports) : FileExports :=
  if fileExp.stars.any (t.starUnresolved filePath) then fileExp.invalidate .unresolved_reexport_module else fileExp

/-- `exportsByFile.get(filePath)`, after all checks. -/
def fileExports (filePath : Text) : Option FileExports :=
  (t.checkDefault filePath (t.exportRows filePath)).map (t.checkStars filePath)

end ModuleTables

/-! ## Resolution -/

inductive ResolutionResult where
  | resolved (qn : Text)
  | missing
  | ambiguous
  | unknown (reason : UnknownReason)
  deriving DecidableEq

/-- What the loop over the star exports knows. -/
structure StarState where
  starTargets : List Text
  hasAmbiguous : Bool
  unknownReason : Option UnknownReason
  deriving DecidableEq

namespace StarState

def start : StarState := ⟨[], false, none⟩

/-- The result of one branch. -/
def add (s : StarState) : ResolutionResult → StarState
  | .resolved qn =>
    if qn ∈ s.starTargets then s else { s with starTargets := s.starTargets ++ [qn] }
  | .ambiguous => { s with hasAmbiguous := true }
  | .unknown reason => { s with unknownReason := some ((s.unknownReason.map (·.higher reason)).getD reason) }
  | .missing => s

/-- Ambiguous before unknown before the count of the targets. -/
def result (s : StarState) : ResolutionResult :=
  if s.hasAmbiguous then .ambiguous
  else
    match s.unknownReason with
    | some reason => .unknown reason
    | none =>
      match s.starTargets with
      | [] => .missing
      | [qn] => .resolved qn
      | _ => .ambiguous

end StarState

/-- One star export. A source without a file is a branch that nothing is known of. -/
def StarState.addSource (resolveModule : Text → Option Text) (branch : Text → ResolutionResult) (s : StarState)
    (source : Text) : StarState :=
  match resolveModule source with
  | none => s.add (.unknown .unresolved_reexport_module)
  | some resolvedFile => s.add (branch resolvedFile)

/-- The loop over the star exports. -/
def starBranches (resolveModule : Text → Option Text) (branch : Text → ResolutionResult) (stars : List Text) :
    ResolutionResult := (stars.foldl (StarState.addSource resolveModule branch) .start).result

/-- The key of a call in `visited`. -/
def visitedKey (filePath exportedName : Text) : Text := filePath ++ "::".toList ++ exportedName

/-- **The declaration behind an exported name.** The number is how many calls the depth limit of ten still
lets in: 11 at depth 0. -/
def ModuleTables.resolveExportedSymbol (t : ModuleTables) : ℕ → Text → Text → List Text → ResolutionResult
  | 0, _, _, _ => .unknown .depth_limit
  | left + 1, filePath, exportedName, visited =>
    let key := visitedKey filePath exportedName
    if key ∈ visited then .missing
    else
      let visited := key :: visited
      match t.fileExports filePath with
      | none => .unknown .legacy_export_tracking
      | some fileExp =>
        match fileExp.fileInvalidReason with
        | some reason => .unknown reason
        | none =>
          -- `export *` never exports `default`
          let fromStars : ResolutionResult :=
            if exportedName = "default".toList then .missing
            else
              starBranches (fun source => t.resolveModulePath source filePath)
                (fun resolvedFile => t.resolveExportedSymbol left resolvedFile exportedName visited) fileExp.stars
          match fileExp.named.get exportedName with
          | none | some [] => fromStars
          | some (_ :: _ :: _) => .unknown .invalid_duplicate_export
          | some [expBinding] =>
            match expBinding.exportKind with
            | .type_only_default => .missing
            | .local_named | .local_alias =>
              match t.fileSymbol filePath ((truthy expBinding.localName).getD exportedName) with
              | some qn => .resolved qn
              | none => .missing
            | .re_export_named | .re_export_alias =>
              match truthy expBinding.sourceModule with
              | none => .missing
              | some source =>
                match t.resolveModulePath source filePath with
                | none => .unknown .unresolved_reexport_module
                | some resolvedFile =>
                  -- the marker of the source counts only for what is taken from it as `default`
                  let marker :=
                    if expBinding.importedName = some "default".toList then t.defaultExport resolvedFile else none
                  match marker.bind DefaultExport.qn with
                  | some qn => .resolved qn
                  | none =>
                    t.resolveExportedSymbol left resolvedFile
                      ((truthy expBinding.importedName).getD exportedName) visited
            | .star_re_export => fromStars

end Ariad.CrossFile
