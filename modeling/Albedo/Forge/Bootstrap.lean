import Albedo.Forge.Declare
import Albedo.Forge.RowChange

/-!
# The boot of a declared schema

The statements a declared schema generates, and what SQLite makes of them: which words it does not
read as names, which names are taken, and which columns a statement can name. The boot creates each
collection's table and index, and puts its seed rows into a table that has none.
-/
namespace Albedo.Forge
open Fallible

/-- The database engine: what it computes on cells, and what it makes of names. -/
structure Sqlite extends Engine where
  /-- A word that is not read as the name of a table. -/
  tableWord : String → Bool
  /-- A word that is not read as the name of a column. -/
  columnWord : String → Bool
  /-- A word that a definition reads as a column's name, and a query as the time. -/
  clockWord : String → Bool
  /-- How many columns a table, a result, an ordering or an index may have. -/
  columnLimit : ℕ
  store_ne_null : ∀ ty v, v ≠ .null → store ty v ≠ .null

def sqliteWords : List String :=
  ["add", "all", "alter", "and", "as", "autoincrement", "between", "case", "check", "collate",
    "commit", "constraint", "create", "default", "deferrable", "delete", "distinct", "drop", "else",
    "escape", "except", "exists", "foreign", "from", "group", "having", "in", "index", "insert",
    "intersect", "into", "is", "isnull", "join", "limit", "not", "nothing", "notnull", "null", "on",
    "or", "order", "primary", "references", "returning", "select", "set", "table", "then", "to",
    "transaction", "union", "unique", "update", "using", "values", "when", "where"]

def Sqlite.plain : Sqlite where
  toEngine := .plain
  tableWord := fun name => foldName name ∈ sqliteWords
  columnWord := fun name => foldName name ∈ sqliteWords
  clockWord := fun name => foldName name ∈ ["current_date", "current_time", "current_timestamp"]
  columnLimit := 2000
  store_ne_null := fun _ _ hv => hv

/-! ### Statements -/

inductive Statement where
  /-- `CREATE TABLE IF NOT EXISTS table (key INTEGER PRIMARY KEY AUTOINCREMENT, fields)` -/
  | createTable (table key : String) (fields : List (String × FieldSpec))
  /-- `CREATE INDEX IF NOT EXISTS name ON table(columns)` -/
  | createIndex (name table : String) (columns : List SortKey)
  /-- `SELECT COUNT(*) FROM table` -/
  | count (table : String)
  /-- `INSERT INTO table (columns) VALUES (?1, …)` -/
  | insert (table : String) (row : SeedRow)
  /-- The materialising query of a collection. -/
  | select (query : Select)

def Statement.table : Statement → String
  | .createTable table _ _ | .createIndex _ table _ | .count table | .insert table _ => table
  | .select query => query.table

namespace CollectionDecl

variable (d : CollectionDecl) (topic column : String)

/-- The columns of the index: the partition column, then what was read back of the ordering. -/
def indexTerms : List SortKey :=
  ⟨column, .asc⟩ :: d.readOrdering.filter fun k => k.column ≠ column

def indexName : String :=
  "idx_" ++ "_".intercalate (d.tableName topic :: (d.indexTerms column).map SortKey.column)

end CollectionDecl

namespace Declared

variable {engine : Engine} (d : Declared engine)

def table : String := d.decl.tableName d.topic

def createTable : Statement := .createTable d.table d.decl.keyName d.decl.fields.entries

def createIndex (column : String) : Statement :=
  .createIndex (d.decl.indexName d.topic column) d.table (d.decl.indexTerms column)

def migrations : List Statement := d.createTable :: (d.decl.partitionBy.map d.createIndex).toList

def inserts : List Statement := d.seed.map (.insert d.table)

def statements : List Statement :=
  d.migrations ++ .count d.table :: .select d.collection.query :: d.inserts

end Declared

/-! ### What the engine makes of them -/

structure Index where
  name : String
  table : String
  columns : List (Column × SortDir)

/-- The tables and the indexes of a database, by folded name. The side table of row authors is there
from the start, as the `authors` of the tables. -/
structure Store where
  db : Db
  indexes : String → Option Index

def Store.empty : Store := ⟨⟨fun _ => none, fun _ => none⟩, fun _ => none⟩

def Store.index (s : Store) (name : String) : Option Index := s.indexes (foldName name)

def Store.setIndex (s : Store) (name : String) (index : Index) : Store :=
  { s with indexes := Function.update s.indexes (foldName name) (some index) }

/-- The engine keeps the names that begin so for its own tables. -/
def isInternal (name : String) : Bool := "sqlite_".toList.isPrefixOf (foldName name).toList

def syntaxError : SubstrateError := .migration "syntax error"

section Run

variable (sqlite : Sqlite) (s : Store) (table : String)

/-- The names of a statement are read as names. -/
def Sqlite.reads (columns : List String) : Except SubstrateError Unit := do
  demand (sqlite.tableWord table = false) syntaxError
  demand (∀ name ∈ columns, sqlite.columnWord name = false) syntaxError

theorem rows_nil_sorted : ([] : List Row).Pairwise fun r s => r.key < s.key := List.Pairwise.nil

def Store.createTable (key : String) (fields : List (String × FieldSpec)) :
    Except SubstrateError Store := do
  let names := key :: fields.map Prod.fst
  sqlite.reads table names
  demand (isInternal table = false)
    (.migration s!"object name reserved for internal use: {table}")
  match s.db.table table with
  | some _ => return s
  | none =>
      demand (s.index table = none) (.migration s!"there is already an index named {table}")
      demand (names.length ≤ sqlite.columnLimit) (.migration s!"too many columns on {table}")
      if h : (names.map foldName).Nodup then
        return { s with db := s.db.setTable table ⟨table, key, fields, [], 0, rows_nil_sorted, h⟩ }
      else .error (.migration "duplicate column name")

def Store.createIndex (name : String) (columns : List SortKey) : Except SubstrateError Store := do
  sqlite.reads table (columns.map SortKey.column)
  let t ← s.db.named table
  demand (s.db.table name = none) (.migration s!"there is already a table named {name}")
  match s.index name with
  | some _ => return s
  | none =>
      demand (columns.length ≤ sqlite.columnLimit) (.migration "too many columns in index")
      demand (∀ k ∈ columns, sqlite.clockWord k.column = false)
        (.migration "non-deterministic functions prohibited in index expressions")
      let cols ← t.resolveAll (fun column => s!"no such column: {column}")
        (columns.map SortKey.column)
      return s.setIndex name ⟨name, table, cols.zip (columns.map SortKey.dir)⟩

def Store.insert (row : SeedRow) : Except SubstrateError Store := do
  let t ← s.db.named table
  let (_, t') ← t.insert sqlite.toEngine row.columns row.params
  return { s with db := s.db.setTable table t' }

end Run

/-- What a query gives under one name: a column of its table, or the time. -/
inductive Source where
  | column (c : Column)
  | clock (word : String)

def Table.source (t : Table) (sqlite : Sqlite) (name : String) : Except SubstrateError Source :=
  if sqlite.clockWord name = true then .ok (.clock name)
  else
    match t.resolve name with
    | some c => .ok (.column c)
    | none => .error (.query s!"no such column: {name}")

def Store.prepare (sqlite : Sqlite) (s : Store) (q : Select) :
    Except SubstrateError (Table × List Source) := do
  sqlite.reads q.table (q.columns ++ q.filter.toList ++ q.orderBy.map SortKey.column)
  let t ← s.db.named q.table
  demand (q.columns.length ≤ sqlite.columnLimit) (.query "too many columns in result set")
  let results ← q.columns.mapM (t.source sqlite)
  let _ ← q.filter.toList.mapM (t.source sqlite)
  demand (q.orderBy.length ≤ sqlite.columnLimit) (.query "too many terms in ORDER BY clause")
  let _ ← q.orderBy.mapM fun k => t.source sqlite k.column
  return (t, results)

def Store.indexStep (sqlite : Sqlite) (topic : String) (d : CollectionDecl) (s : Store) :
    Except SubstrateError Store :=
  match d.partitionBy with
  | none => pure s
  | some column =>
      s.createIndex sqlite (d.tableName topic) (d.indexName topic column) (d.indexTerms column)

def Store.seedStep (sqlite : Sqlite) (table : String) (rows : List SeedRow) (s : Store) :
    Except SubstrateError Store := do
  if rows = [] then return s
  let t ← s.db.named table
  if t.rows = [] then rows.foldlM (fun s row => s.insert sqlite table row) s else return s

def Store.install (sqlite : Sqlite) (s : Store) (d : Declared sqlite.toEngine) :
    Except SubstrateError Store := do
  let s ← s.createTable sqlite d.table d.decl.keyName d.decl.fields.entries
  let s ← s.indexStep sqlite d.topic d.decl
  s.seedStep sqlite d.table d.seed

def bootstrapSchema (sqlite : Sqlite) (schema : DeclaredSchema sqlite.toEngine) :
    Except SubstrateError Store :=
  schema.declared.foldlM (Store.install sqlite) .empty

end Albedo.Forge
