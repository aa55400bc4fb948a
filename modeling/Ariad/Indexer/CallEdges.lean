import Ariad.Indexer.TableScans

/-!
# Call edges across files

How the cross-file resolver finds the declarations that a call site calls: through the imports of its file, or
else by name.

* `IndexedProject` — the rows that the maps of the resolver are built from.
* `namespaceImport`, `explicitImport` — the two ways through an import. Each either decides the call site or
  leaves it to what follows.
* `nameFallback` — up to five declarations of the name, wherever they are.
* `callSiteEdges` — the edges of one call site.
-/

namespace Ariad.CrossFile

/-! ## Rows and maps -/

/-- What the resolver takes from its runtime. -/
structure Runtime where
  /-- `isBuiltin` of `node:module`. -/
  isBuiltin : Text → Bool
  /-- `String.prototype.toLowerCase`, which folds all of Unicode. -/
  toLowerCase : Text → Text
  ascii : ∀ t : Text, (∀ c ∈ t, c.toNat < 128) → toLowerCase t = t.map Char.toLower

/-- The rows of a project, in the order of their ids. -/
structure IndexedProject where
  nodes : List IndexedNode
  imports : List ImportRow
  exports : List ExportRow
  runtime : Runtime
  ids : ∀ n ∈ nodes, n.id ≠ 0

namespace IndexedProject

variable (p : IndexedProject)

def tables : ModuleTables := ⟨p.nodes.map IndexedNode.node, p.imports, p.exports, p.runtime.isBuiltin⟩

/-- `qnToId.get(qn)`: the last node of the name. An id is never 0, so none of them counts as missing. -/
def nodeId (qn : Text) : Option ℕ :=
  (p.nodes.filter fun n => n.node.qualifiedName = qn).getLast?.map IndexedNode.id

/-- `importsByFile.get(filePath)?.get(name)`: the last row of the local name. -/
def importBinding (filePath name : Text) : Option ImportRow :=
  (p.imports.filter fun i => i.filePath = filePath ∧ i.localName = name).getLast?

/-- `globalSymbolIndex.get(name)`. Anonymous functions cannot be called by a name. -/
def globalSymbols (name : Text) : List Text :=
  (p.nodes.filter fun n => n.node.name = name ∧ ¬"anonymous#".toList.isPrefixOf n.node.name).map
    fun n => n.node.qualifiedName

end IndexedProject

/-! ## Edges -/

inductive Resolution where
  | cross_file_namespace_exact
  | cross_file_import_exact
  | cross_file_import_alias
  | cross_file_name_fallback
  | cross_file_ambiguous
  deriving DecidableEq

/-- An edge of type `CALLS`, with its properties. The confidence is in hundredths. -/
structure CallEdge where
  sourceId : ℕ
  targetId : ℕ
  callee : Text
  resolution : Resolution
  confidence : ℕ
  candidateCount : ℕ
  candidateIndex : ℕ
  callKind : CallKind
  /-- The kind and the specifier of the import, where there is one. -/
  importSource : Option (ImportKind × Text)
  deriving DecidableEq

/-- The edge to the one target of an import. -/
def importEdge (sourceId targetId : ℕ) (cs : CallSite) (resolution : Resolution) (binding : ImportRow) : CallEdge :=
  ⟨sourceId, targetId, cs.callee, resolution, 100, 1, 0, cs.callKind,
    some (binding.importKind, binding.sourceModule)⟩

/-! ## Imports

A branch of the loop gives the edges of the call site and goes to the next one, or it gives nothing and the
branches below it are tried. -/

/-- `cs.callee.substring(0, dotIndex)`; nothing if there is no dot behind a first character. -/
def objectName (callee : Text) : Option Text :=
  if '.' ∈ callee then truthy (some (callee.takeWhile (· ≠ '.'))) else none

namespace IndexedProject

variable (p : IndexedProject)

/-- A result without a target. Nothing is known of a module that is not tracked, so a project of an older
extractor goes on to the names. -/
def terminal (semanticsCurrent : Bool) : ResolutionResult → Option (List CallEdge)
  | .unknown _ => if semanticsCurrent then some [] else none
  | _ => some []

/-- The edge from the call site to what its import means, if both have a node. -/
def edgeTo (cs : CallSite) (targetQn : Text) (resolution : Resolution) (binding : ImportRow) :
    Option (List CallEdge) :=
  match p.nodeId cs.sourceQn, p.nodeId targetQn with
  | some sourceId, some targetId => some [importEdge sourceId targetId cs resolution binding]
  | _, _ => none

/-- `ns.foo()` of `import * as ns from './api'`. -/
def namespaceImport (semanticsCurrent : Bool) (cs : CallSite) : Option (List CallEdge) :=
  if cs.callKind = .member_call then
    match (objectName cs.callee).bind (p.importBinding cs.filePath) with
    | none => none
    | some nsBinding =>
      if nsBinding.importKind = .namespace_ then
        match p.tables.resolveModulePath nsBinding.sourceModule cs.filePath with
        | none => if semanticsCurrent then some [] else none
        | some resolvedFile =>
          -- a file that is found has nodes, so it has symbols
          match p.tables.resolveExportedSymbol 11 resolvedFile cs.lastSegment [] with
          | .resolved targetQn =>
            -- a call of the caller itself goes on to the names
            if targetQn = cs.sourceQn then none else p.edgeTo cs targetQn .cross_file_namespace_exact nsBinding
          | result => terminal semanticsCurrent result
      else none
  else none

/-- What a default import means: the marker of the module, unless the module is invalid. -/
def defaultTarget (resolvedFile : Text) : ResolutionResult :=
  match (p.tables.fileExports resolvedFile).bind FileExports.fileInvalidReason with
  | some reason => .unknown reason
  | none =>
    match (p.tables.defaultExport resolvedFile).bind DefaultExport.qn with
    | some qn => .resolved qn
    | none => p.tables.resolveExportedSymbol 11 resolvedFile "default".toList []

/-- `foo()` of `import { foo } from './b'` and the like. -/
def explicitImport (semanticsCurrent : Bool) (cs : CallSite) : Option (List CallEdge) :=
  if cs.callKind = .identifier_call then
    match (p.importBinding cs.filePath cs.callee).or (p.importBinding cs.filePath cs.lastSegment) with
    | none => none
    | some impBinding =>
      match p.tables.resolveModulePath impBinding.sourceModule cs.filePath with
      | none => if semanticsCurrent then some [] else none
      | some resolvedFile =>
        -- a namespace object cannot be called
        if impBinding.importKind = .namespace_ then some []
        else
          let result :=
            if impBinding.importKind = .default then p.defaultTarget resolvedFile
            else p.tables.resolveExportedSymbol 11 resolvedFile impBinding.importedName []
          match result with
          | .resolved targetQn =>
            if targetQn = cs.sourceQn then some []
            else
              p.edgeTo cs targetQn
                (if impBinding.importKind = .alias then .cross_file_import_alias else .cross_file_import_exact)
                impBinding
          | result => terminal semanticsCurrent result
  else none

/-! ## Names -/

/-- `BUILTIN_METHOD_NAMES`. -/
def builtinMethodNames : List Text :=
  ["map", "filter", "foreach", "reduce", "reduceRight", "find", "findIndex",
    "some", "every", "includes", "indexOf", "lastIndexOf", "flat", "flatMap",
    "sort", "reverse", "join", "slice", "splice", "concat", "fill", "keys",
    "values", "entries", "from", "isArray", "of",
    "then", "catch", "finally", "resolve", "reject", "all", "race", "allSettled",
    "push", "pop", "shift", "unshift", "get", "set", "has", "delete", "clear",
    "add", "entries", "forEach",
    "log", "warn", "error", "info", "debug", "trace", "dir", "table",
    "prepare", "run", "exec", "all", "get", "transaction",
    "toString", "valueOf", "toJSON", "toFixed", "toPrecision",
    "call", "apply", "bind",
    "startsWith", "endsWith", "includes", "replace", "replaceAll",
    "split", "match", "matchAll", "trim", "trimStart", "trimEnd",
    "padStart", "padEnd", "repeat", "substring", "substr", "toLowerCase", "toUpperCase",
    "parse", "stringify"].map String.toList

/-- `globalSymbolIndex.get(cs.callee) || globalSymbolIndex.get(cs.last_segment)`. -/
def candidates (cs : CallSite) : List Text :=
  match p.globalSymbols cs.callee with
  | [] => p.globalSymbols cs.lastSegment
  | symbols => symbols

/-- One candidate of `n`. A member call is never surer than 0.3. -/
def candidateEdge (cs : CallSite) (n : ℕ) (candidate : Text × ℕ) : Option CallEdge :=
  if candidate.1 = cs.sourceQn then none
  else
    match p.nodeId cs.sourceQn, p.nodeId candidate.1 with
    | some sourceId, some targetId =>
      some ⟨sourceId, targetId, cs.callee, if n = 1 then .cross_file_name_fallback else .cross_file_ambiguous,
        if cs.callKind = .member_call then min (100 / n) 30 else 100 / n, n, candidate.2, cs.callKind, none⟩
    | _, _ => none

/-- The first five declarations of the name, wherever they are. -/
def nameFallback (cs : CallSite) : List CallEdge :=
  let capped := (p.candidates cs).take 5
  capped.zipIdx.filterMap (p.candidateEdge cs capped.length)

/-- A member call of a method that the language has itself. -/
def builtinCall (cs : CallSite) : Bool :=
  cs.callKind = .member_call && (p.runtime.toLowerCase cs.lastSegment) ∈ builtinMethodNames

/-- **The edges of a call site.** -/
def callSiteEdges (semanticsCurrent : Bool) (cs : CallSite) : List CallEdge :=
  match (p.namespaceImport semanticsCurrent cs).or (p.explicitImport semanticsCurrent cs) with
  | some edges => edges
  | none => if p.builtinCall cs then [] else p.nameFallback cs

end IndexedProject

end Ariad.CrossFile
