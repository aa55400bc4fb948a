import Ariad.Obsidian.Frontmatter

/-!
# Wikilinks

* `parseWikilinks` — the links `[[target]]` and `[[target|alias]]` of a note, with the line each
  stands in.
* `classifyWikilinkTarget` — what kind of target a link names.
* `inferEdgeType` — the edge type that the heading above a link implies.
-/

namespace Ariad.Obsidian

open Human Text

structure Wikilink where
  target : Text
  linkAlias : Option Text
  /-- The number of the line where the link starts. -/
  line : ℕ
  deriving DecidableEq

/-- A character of a target. -/
def isTargetChar (c : Char) : Bool := c ≠ ']' && c ≠ '|' && c ≠ '['

/-- A link at the start of a text: its target and alias, and how many characters it has. -/
def matchWikilink : Text → Option (Text × Option Text × ℕ)
  | '[' :: '[' :: t =>
    let target := t.takeWhile isTargetChar
    if target = [] then none
    else
      match t.dropWhile isTargetChar with
      | ']' :: ']' :: _ => some (target, none, target.length + 4)
      | '|' :: t' =>
        let linkAlias := t'.takeWhile (· ≠ ']')
        if linkAlias = [] then none
        else
          match t'.dropWhile (· ≠ ']') with
          | ']' :: ']' :: _ => some (target, some linkAlias, target.length + linkAlias.length + 5)
          | _ => none
      | _ => none
  | _ => none

/-- The links of a text. The numbers count the characters of a link that are still to be passed over, and
the lines before. -/
def wikilinksFrom (skip line : ℕ) : Text → List Wikilink
  | [] => []
  | c :: t =>
    let line' := if c = '\n' then line + 1 else line
    match skip with
    | skip + 1 => wikilinksFrom skip line' t
    | 0 =>
      match matchWikilink (c :: t) with
      | some (target, linkAlias, length) =>
        ⟨trim target, linkAlias.map trim, line⟩ :: wikilinksFrom (length - 1) line' t
      | none => wikilinksFrom 0 line' t

def parseWikilinks (markdown : Text) : List Wikilink := wikilinksFrom 0 0 markdown

inductive WikilinkKind where
  | code
  | human
  | path
  | unknown
  deriving DecidableEq

def isDigit (c : Char) : Bool := '0' ≤ c && c ≤ '9'

def classifyWikilinkTarget (target : Text) : WikilinkKind :=
  if target ≠ [] ∧ target.all isDigit then .code
  else if target.contains '/' ∨ target.contains '\\' then .path
  else
    match target with
    | c :: t => if isSlugChar c ∧ t.all (fun d => isSlugChar d || d == '-') then .human else .unknown
    | [] => .unknown

/-- `Number` of a target that has only digits. -/
def parseCodeNodeId (host : Host) (target : Text) : Option Num :=
  if target ≠ [] ∧ target.all isDigit then some (host.number (.str target)) else none

/-! ## The heading above a link -/

/-- For each line whether it is part of a fenced code block; the lines of its fences are. -/
def buildFenceState (fence : Option Char) : List Text → List Bool
  | [] => []
  | line :: rest => (fence ≠ none ∨ fenceOf line ≠ none) :: buildFenceState (fenceStep fence line) rest

/-- The text of a heading: `/^(#{1,6})\s+(.+)$/`. -/
def headingText (line : Text) : Option Text :=
  let hashes := line.takeWhile (· = '#')
  let t := line.dropWhile (· = '#')
  let space := t.takeWhile isSpace
  let rest := t.dropWhile isSpace
  if hashes = [] ∨ 6 < hashes.length ∨ space = [] then none
  else if rest ≠ [] then if rest.any isTerminator then none else some rest
  else
    -- Only white space: the last character of it is the text.
    match space.getLast? with
    | some c => if 2 ≤ space.length ∧ !isTerminator c then some [c] else none
    | none => none

/-- The edge type that a heading implies. -/
def headingType (host : Host) (heading : Text) : HumanEdgeType :=
  let lastHeading := trim (heading.flatMap host.lower)
  let has := fun word : String => Text.includes word.toList lastHeading
  if has "décision" || has "decision" then .DECIDES
  else if has "bug" then .AFFECTS
  else if has "à faire" || has "todo" || has "refactor" then .TODO_FOR
  else if has "explication" || has "explique" || has "explications" || has "contexte" then .EXPLAINS
  else .MENTIONS

/-- The last heading outside of fences, of lines with their fence state. -/
def lastHeading (ls : List (Text × Bool)) : Option Text :=
  ls.reverse.findSome? fun l => if l.2 then none else headingText l.1

/-- The type of the edge of a link to a code node in the given line. -/
def inferEdgeType (host : Host) (markdown : Text) (line : ℕ) : HumanEdgeType :=
  let allLines := lines markdown
  match lastHeading ((allLines.zip (buildFenceState none allLines)).take (line + 1)) with
  | some heading => headingType host heading
  | none => .MENTIONS

end Ariad.Obsidian
