import Albedo.Forge.Migration

/-!
# Schema evolution

A schema about to be served is compared with the tables that exist. A new nullable column
is added; anything else refuses the whole schema. The tables are read and altered one
statement at a time, outside any transaction, and any statement may fail.
-/
namespace Albedo.Forge
open KeyedList

/-! ### The tables that exist -/

structure LiveColumn where
  name : String
  type : String
  notNull : Bool
  /-- The position in the primary key, from one; zero outside it. -/
  pk : ℕ
  deriving DecidableEq

structure LiveTable where
  columns : List LiveColumn
  not_empty : columns ≠ []
  names : (columns.map fun c => foldName c.name).Nodup

abbrev Catalog := String → Option LiveTable

def Catalog.table (cat : Catalog) (name : String) : Option LiveTable := cat (foldName name)

/-- One row of `PRAGMA table_info`. -/
def LiveColumn.info (cid : ℕ) (c : LiveColumn) : List SqlValue :=
  [.integer cid, .text c.name, .text c.type, .integer (if c.notNull then 1 else 0), .null,
    .integer c.pk]

/-- `PRAGMA table_info(name)`: no rows where there is no such table. -/
def Catalog.tableInfo (cat : Catalog) (name : String) : Rows where
  columns := ["cid", "name", "type", "notnull", "dflt_value", "pk"]
  rows :=
    match cat.table name with
    | none => []
    | some t => t.columns.zipIdx.map fun c => c.1.info c.2

structure Addition where
  topic : String
  table : String
  field : String
  sqlType : String
  deriving DecidableEq

/-- The column an `ALTER TABLE … ADD COLUMN` without `NOT NULL` makes. -/
def Addition.column (a : Addition) : LiveColumn := ⟨a.field, a.sqlType, false, 0⟩

def LiveTable.add (t : LiveTable) (column : LiveColumn)
    (h : foldName column.name ∉ t.columns.map fun c => foldName c.name) : LiveTable where
  columns := t.columns ++ [column]
  not_empty := List.append_ne_nil_of_left_ne_nil t.not_empty _
  names := by
    rw [List.map_append, List.map_singleton, ← List.concat_eq_append]
    exact t.names.concat h

/-- `ALTER TABLE … ADD COLUMN`. -/
def Catalog.addColumn (cat : Catalog) (a : Addition) : Except SubstrateError Catalog :=
  match cat.table a.table with
  | none => .error (.migration s!"no such table: {a.table}")
  | some t =>
      if h : foldName a.column.name ∈ t.columns.map fun c => foldName c.name then
        .error (.migration s!"duplicate column name: {a.field}")
      else .ok (Function.update cat (foldName a.table) (some (t.add a.column h)))

/-! ### The shape of a live table -/

def SqlValue.asStr : SqlValue → Option String
  | .text s => some s
  | _ => none

def SqlValue.asInteger : SqlValue → Option ℤ
  | .integer i => some i
  | _ => none

/-- The columns of a `PRAGMA` are addressed by name. -/
def Rows.columnAt (rows : Rows) (name : String) : Option ℕ := rows.columns.findIdx? (· = name)

/-- Read one row of `PRAGMA table_info`. -/
def readColumn (nameAt typeAt notNullAt pkAt : ℕ)
    (shape : Option String × OrderedMap String ColumnShape) (row : List SqlValue) :
    Option (Option String × OrderedMap String ColumnShape) := do
  let name ← row[nameAt]? >>= SqlValue.asStr
  let sqlType := (row[typeAt]? >>= SqlValue.asStr).getD ""
  let notNull := (row[notNullAt]? >>= SqlValue.asInteger).getD 0 ≠ 0
  if (row[pkAt]? >>= SqlValue.asInteger).getD 0 ≠ 0 then
    return (some name, shape.2)
  else
    return (shape.1, shape.2.insert name ⟨upperName sqlType.toList, notNull⟩)

def readTableShape (rows : Rows) (table : String) : Option TableShape := do
  guard (!rows.rows.isEmpty)
  let nameAt ← rows.columnAt "name"
  let typeAt ← rows.columnAt "type"
  let notNullAt ← rows.columnAt "notnull"
  let pkAt ← rows.columnAt "pk"
  let (key, columns) ← rows.rows.foldlM (readColumn nameAt typeAt notNullAt pkAt)
    (none, OrderedMap.empty)
  return ⟨table, key, columns⟩

/-! ### Differences -/

/-- One difference between the declaration and the database. -/
inductive Change where
  | fieldAdded (field sqlType : String) (nullable : Bool)
  | fieldRemoved (field sqlType : String)
  | typeChanged (field «from» «to» : String)
  | nullabilityChanged (field : String) (nowRequired : Bool)
  | keyChanged («from» «to» : String)
  deriving DecidableEq

/-- Only a new nullable column can join a table that may hold rows. -/
def Change.isAdditive : Change → Bool
  | .fieldAdded _ _ nullable => nullable
  | _ => false

structure CollectionDrift where
  topic : String
  table : String
  changes : List Change
  deriving DecidableEq

def keyChange (expected live : TableShape) : List Change :=
  match expected.key with
  | some «to» =>
      if expected.key = live.key then [] else [.keyChanged (live.key.getD "(none)") «to»]
  | none => []

def columnChange (live : TableShape) (field : String) (want : ColumnShape) : Option Change :=
  match live.columns.get field with
  | none => some (.fieldAdded field want.sqlType !want.notNull)
  | some held =>
      if held.sqlType ≠ want.sqlType then some (.typeChanged field held.sqlType want.sqlType)
      else if held.notNull ≠ want.notNull then some (.nullabilityChanged field want.notNull)
      else none

def removedChange (expected : TableShape) (field : String) (live : ColumnShape) : Option Change :=
  match expected.columns.get field with
  | none => some (.fieldRemoved field live.sqlType)
  | some _ => none

def changesBetween (expected live : TableShape) : List Change :=
  keyChange expected live ++
    expected.columns.entries.filterMap (fun e => columnChange live e.1 e.2) ++
    live.columns.entries.filterMap fun e => removedChange expected e.1 e.2

def diff (c : ForgeCollection) (expected live : TableShape) : Option CollectionDrift :=
  let changes := changesBetween expected live
  if changes.isEmpty then none else some ⟨c.topic, c.table, changes⟩

/-! ### Evolving -/

/-- Why the database could not be certified. -/
inductive VerifyError where
  | substrate (err : SubstrateError)
  | drift (collections : List CollectionDrift)
  deriving DecidableEq

/-- What a difference adds, when it is a new column. -/
def ForgeCollection.addition (c : ForgeCollection) : Change → Option Addition
  | .fieldAdded field sqlType _ => some ⟨c.topic, c.table, field, sqlType⟩
  | _ => none

/-- What a collection calls for, given what its table's `PRAGMA` answered: the columns to
add, or the drift that refuses the schema. -/
def ForgeCollection.plan (c : ForgeCollection) (info : Rows) :
    List Addition × List CollectionDrift :=
  match c.expectedShape with
  | none => ([], [])
  | some expected =>
      match readTableShape info c.table with
      | none => ([], [])
      | some live =>
          match diff c expected live with
          | none => ([], [])
          | some drift =>
              if drift.changes.all Change.isAdditive then (drift.changes.filterMap c.addition, [])
              else ([], [drift])

/-- Read a collection's table and compare. A declaration that was not understood is skipped. -/
def ForgeCollection.inspect (fault : Op → Option SubstrateError) (cat : Catalog)
    (c : ForgeCollection) : Except SubstrateError (List Addition × List CollectionDrift) :=
  if c.expectedShape.isSome then
    match fault (.read c.topic) with
    | some err => .error err
    | none => .ok (c.plan (cat.tableInfo c.table))
  else .ok ([], [])

/-- Phase 1: every collection is read before anything is applied. -/
def planSchema (fault : Op → Option SubstrateError) (cat : Catalog) :
    List ForgeCollection → Except SubstrateError (List Addition × List CollectionDrift)
  | [] => .ok ([], [])
  | c :: cs => do
      let plan ← c.inspect fault cat
      let rest ← planSchema fault cat cs
      return (plan.1 ++ rest.1, plan.2 ++ rest.2)

/-- Phase 2: one `ALTER` after another. A failure leaves the columns added so far. -/
def applyAdditions (fault : Op → Option SubstrateError) :
    ℕ → List Addition → Catalog → Except SubstrateError Unit × Catalog
  | _, [], cat => (.ok (), cat)
  | n, a :: rest, cat =>
      match fault (.statement n) with
      | some err => (.error err, cat)
      | none =>
          match cat.addColumn a with
          | .error err => (.error err, cat)
          | .ok cat' => applyAdditions fault (n + 1) rest cat'

/-- Add what can be added, refuse the rest: what the caller is told, and the tables left. -/
def evolveSchema (fault : Op → Option SubstrateError) (schema : ForgeSchema) (cat : Catalog) :
    Except VerifyError (List Addition) × Catalog :=
  match planSchema fault cat schema.collections with
  | .error err => (.error (.substrate err), cat)
  | .ok (additions, drifted) =>
      if drifted.isEmpty then
        match applyAdditions fault 0 additions cat with
        | (.error err, cat') => (.error (.substrate err), cat')
        | (.ok (), cat') => (.ok additions, cat')
      else (.error (.drift drifted), cat)

end Albedo.Forge
