import Ariad.Javascript.Text

/-!
# Path strings

`posix` of `node:path`, on texts.

* `normalize`, `join` — a path without `.`, `..` and empty names.
* `dirname`, `extname` — the parts of a path.
-/

namespace Ariad.Posix

/-- One name of a path, put behind those before it. These stand in reverse order. -/
def pushName (allowAboveRoot : Bool) (above : List Text) (name : Text) : List Text :=
  if name = [] ∨ name = ['.'] then above
  else if name = ['.', '.'] then
    match above with
    | top :: rest => if top ≠ ['.', '.'] then rest else if allowAboveRoot then name :: above else above
    | [] => if allowAboveRoot then [name] else []
  else name :: above

/-- `normalizeString(path, allowAboveRoot, '/')`. -/
def normalizeString (allowAboveRoot : Bool) (path : Text) : Text :=
  ['/'].intercalate ((path.splitOn '/').foldl (pushName allowAboveRoot) []).reverse

def normalize (path : Text) : Text :=
  if path = [] then ['.']
  else
    let isAbsolute := path.head? == some '/'
    let trailingSeparator := path.getLast? == some '/'
    let body := normalizeString (!isAbsolute) path
    if body = [] then
      if isAbsolute then ['/'] else if trailingSeparator then ['.', '/'] else ['.']
    else
      let body := if trailingSeparator then body ++ ['/'] else body
      if isAbsolute then '/' :: body else body

/-- `join` of two paths. -/
def join (left right : Text) : Text :=
  match [left, right].filter (· ≠ []) with
  | [] => ['.']
  | parts => normalize (['/'].intercalate parts)

def dirname (path : Text) : Text :=
  let hasRoot := path.head? == some '/'
  let upToSlash := (path.rdropWhile (· = '/')).rdropWhile (· ≠ '/')
  if path = [] then ['.']
  else if upToSlash.length ≤ 1 then if hasRoot then ['/'] else ['.']
  else if hasRoot ∧ upToSlash.length = 2 then ['/', '/']
  else upToSlash.dropLast

/-- From the last dot of the last name on, unless the name starts there or is `..`. -/
def extname (path : Text) : Text :=
  let name := (path.rdropWhile (· = '/')).rtakeWhile (· ≠ '/')
  let beforeDot := (name.rdropWhile (· ≠ '.')).dropLast
  if '.' ∈ name ∧ beforeDot ≠ [] ∧ name ≠ ['.', '.'] then name.drop beforeDot.length else []

example : join "src/ui".toList "../core/./mod.js".toList = "src/core/mod.js".toList := by decide

example : extname "src/a.d.ts".toList = ".ts".toList ∧ dirname "src/a.ts".toList = "src".toList := by decide

end Ariad.Posix
