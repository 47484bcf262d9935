import Mathlib.Data.List.Nodup
import Mathlib.Data.List.Pairwise
import Mathlib.Data.List.Sort
import Albedo.Forge.Value
import Albedo.Library.Fallible

/-!
# The substrate

The tables of the app, the side table of row authors, and the statements the
write and read paths run against them. Statements carry their structure instead
of their text; the engine resolves column names under ASCII case folding, and
the row key of a table is its 64-bit row id, also reachable as `rowid`, `oid` and
`_rowid_` where no column has that name.

What depends on the engine's arithmetic (column affinity, comparison) is a
parameter, `Engine`, with the laws the results below use.
-/
namespace Albedo.Forge
open Json Fallible

/-- ASCII case folding, under which the engine resolves names. -/
def foldName (name : String) : String := String.ofList (name.toList.map Char.toLower)

structure Engine where
  /-- The nearest float to an integer beyond 64 signed bits. -/
  intAsF64 : ℤ → F64
  /-- What a column of the type stores for a bound value. -/
  store : FieldType → SqlValue → SqlValue
  /-- The row id a bound value is equal to, if it is equal to one. -/
  rowid : SqlValue → Option ℤ
  /-- Whether a stored value of a column equals a bound one. -/
  equals : FieldType → SqlValue → SqlValue → Bool
  /-- The order of stored values. -/
  le : SqlValue → SqlValue → Bool
  store_null : ∀ ty, store ty .null = .null
  store_text : ∀ s, store .text (.text s) = .text s
  rowid_null : rowid .null = none
  rowid_integer : ∀ i, rowid (.integer i) = some i
  equals_text : ∀ s t, equals .text (.text s) (.text t) = decide (s = t)
  le_integer : ∀ i j, le (.integer i) (.integer j) = decide (i ≤ j)
  le_trans : ∀ a b c, le a b = true → le b c = true → le a c = true
  le_total : ∀ a b, (le a b || le b a) = true

/-- The class of a cell in the order of an engine without affinities. -/
def SqlValue.rank : SqlValue → ℕ
  | .null => 0
  | .integer _ => 1
  | .real _ => 2
  | .text _ => 3
  | .blob _ => 4

/-- The order within a class, as far as it is defined here. -/
def SqlValue.plainLe : SqlValue → SqlValue → Bool
  | .integer i, .integer j => i ≤ j
  | .text s, .text t => s ≤ t
  | a, b => a.rank ≤ b.rank

def FieldType.plainStore (_ : FieldType) (v : SqlValue) : SqlValue := v

/-- An engine without affinities: it stores and compares values as they are given. -/
def Engine.plain : Engine where
  intAsF64 := fun _ => ⟨['0', '.', '0'], by decide⟩
  store := FieldType.plainStore
  rowid := fun
    | .integer i => some i
    | _ => none
  equals := fun _ a b => a = b
  le := SqlValue.plainLe
  store_null := fun _ => rfl
  store_text := fun _ => rfl
  rowid_null := rfl
  rowid_integer := fun _ => rfl
  equals_text := fun s t => by simp
  le_integer := fun _ _ => rfl
  le_trans := by
    intro a b c hab hbc
    cases a <;> cases b <;> cases c <;>
      simp_all [SqlValue.plainLe, SqlValue.rank] <;>
      first
      | exact Int.le_trans hab hbc
      | exact String.le_trans hab hbc
  le_total := by
    intro a b
    cases a <;> cases b <;> simp [SqlValue.plainLe, SqlValue.rank]
    · exact Int.le_total _ _
    · exact String.le_total _ _

/-! ### Tables -/

structure Row where
  key : ℤ
  cells : String → SqlValue

/-- A table as its declaration created it, with its rows in row id order. No two of its
columns share a folded name: the engine refuses to create such a table. -/
structure Table where
  name : String
  key : String
  fields : List (String × FieldSpec)
  rows : List Row
  /-- The largest row id ever inserted. -/
  seq : ℤ
  sorted : rows.Pairwise fun r s => r.key < s.key
  names : ((key :: fields.map Prod.fst).map foldName).Nodup

inductive Column where
  | key
  | field (name : String)
  deriving DecidableEq

def isRowidAlias (name : String) : Bool := foldName name ∈ ["rowid", "oid", "_rowid_"]

/-- What `name` stands for in the table. -/
def Table.resolve (t : Table) (name : String) : Option Column :=
  if foldName name = foldName t.key then some .key
  else
    match t.fields.find? fun f => foldName f.1 = foldName name with
    | some f => some (.field f.1)
    | none => if isRowidAlias name then some .key else none

theorem Table.resolve_key (t : Table) : t.resolve t.key = some .key := by
  simp [Table.resolve]

def Row.value (r : Row) : Column → SqlValue
  | .key => .integer r.key
  | .field f => r.cells f

def Table.has (t : Table) (key : ℤ) : Bool := t.rows.any fun r => r.key = key

def Table.row? (t : Table) (key : ℤ) : Option Row := t.rows.find? fun r => r.key = key

def insertRow (row : Row) : List Row → List Row
  | [] => [row]
  | r :: rs => if row.key < r.key then row :: r :: rs else r :: insertRow row rs

theorem mem_insertRow {row x : Row} {rs : List Row} :
    x ∈ insertRow row rs ↔ x = row ∨ x ∈ rs := by
  induction rs with
  | nil => simp [insertRow]
  | cons r rs ih =>
      unfold insertRow
      split_ifs with h
      · simp
      · simp only [List.mem_cons, ih]
        tauto

theorem insertRow_perm (row : Row) (rs : List Row) : (insertRow row rs).Perm (row :: rs) := by
  induction rs with
  | nil => exact List.Perm.refl _
  | cons r rs ih =>
      unfold insertRow
      split_ifs with h
      · exact List.Perm.refl _
      · exact (ih.cons r).trans (List.Perm.swap row r rs)

theorem insertRow_sorted {row : Row} {rs : List Row}
    (hs : rs.Pairwise fun r s => r.key < s.key) (hne : ∀ r ∈ rs, r.key ≠ row.key) :
    (insertRow row rs).Pairwise fun r s => r.key < s.key := by
  induction rs with
  | nil => simp [insertRow]
  | cons r rs ih =>
      rw [List.pairwise_cons] at hs
      unfold insertRow
      split_ifs with h
      · rw [List.pairwise_cons, List.pairwise_cons]
        refine ⟨?_, hs⟩
        intro s hmem
        rcases List.mem_cons.mp hmem with rfl | hmem
        · exact h
        · exact Int.lt_trans h (hs.1 s hmem)
      · rw [List.pairwise_cons]
        refine ⟨?_, ih hs.2 (fun s hmem => hne s (by simp [hmem]))⟩
        intro s hmem
        rcases mem_insertRow.mp hmem with rfl | hmem
        · have := hne r (by simp)
          omega
        · exact hs.1 s hmem

theorem Table.not_has {t : Table} {key : ℤ} (h : t.has key = false) :
    ∀ r ∈ t.rows, r.key ≠ key := by
  intro r hr hk
  have : t.has key = true := List.any_eq_true.mpr ⟨r, hr, by simpa using hk⟩
  rw [h] at this
  cases this

def Table.remove (t : Table) (key : ℤ) : Table :=
  { t with
    rows := t.rows.filter fun r => r.key ≠ key
    sorted := t.sorted.filter _ }

def Table.put (t : Table) (row : Row) (h : t.has row.key = false) : Table :=
  { t with
    rows := insertRow row t.rows
    sorted := insertRow_sorted t.sorted (Table.not_has h) }

def Table.nextKey (t : Table) : ℤ := t.rows.foldl (fun m r => max m r.key) t.seq + 1

def Table.resolveAll (t : Table) (missing : String → String) :
    List String → Except SubstrateError (List Column)
  | [] => .ok []
  | name :: names =>
      match t.resolve name with
      | none => .error (.query (missing name))
      | some c => do
          let cs ← t.resolveAll missing names
          return c :: cs

/-- The first column declared not to take null that would get one. -/
def Table.nullViolation (t : Table) (cells : String → SqlValue) : Option String :=
  (t.fields.find? fun f => !f.2.nullable && cells f.1 = .null).map Prod.fst

def Table.notNullError (t : Table) (column : String) : SubstrateError :=
  .query s!"NOT NULL constraint failed: {t.name}.{column}"

def Table.uniqueError (t : Table) : SubstrateError :=
  .query s!"UNIQUE constraint failed: {t.name}.{t.key}"

/-- The cells an insert stores. Where one column is named twice its first value counts. -/
def Table.insertCells (t : Table) (engine : Engine) (given : List (Column × SqlValue)) :
    String → SqlValue :=
  fun f =>
    match t.fields.lookup f with
    | some spec => engine.store spec.ty ((given.lookup (.field f)).getD .null)
    | none => .null

/-- The key an insert stores. Where the key is named twice its last value counts. -/
def Table.insertKey (t : Table) (engine : Engine) (given : List (Column × SqlValue)) :
    Except SubstrateError ℤ :=
  match given.reverse.lookup .key with
  | none | some .null =>
      if t.nextKey < i64Bound then .ok t.nextKey else .error (.query "database or disk is full")
  | some v =>
      match engine.rowid v with
      | some key => .ok key
      | none => .error (.query "datatype mismatch")

/-- `INSERT INTO t (columns) VALUES (…)`: the new row, and the table with it. -/
def Table.insert (t : Table) (engine : Engine) (columns : List String) (params : List SqlValue) :
    Except SubstrateError (Row × Table) := do
  let cols ← t.resolveAll (fun name => s!"table {t.name} has no column named {name}") columns
  let given := cols.zip params
  let key ← t.insertKey engine given
  let row : Row := ⟨key, t.insertCells engine given⟩
  match t.nullViolation row.cells with
  | some column => .error (t.notNullError column)
  | none =>
      if h : t.has row.key = false then
        .ok (row, { t.put row h with seq := max t.seq row.key })
      else .error t.uniqueError

/-- The key an update leaves. Where the key is named twice its last value counts. -/
def Table.updateKey (engine : Engine) (given : List (Column × SqlValue)) (row : Row) :
    Except SubstrateError ℤ :=
  match given.reverse.lookup .key with
  | none => .ok row.key
  | some v =>
      match engine.rowid v with
      | some key => .ok key
      | none => .error (.query "datatype mismatch")

/-- The cells an update leaves. Where one column is named twice its last value counts. -/
def Table.updateCells (t : Table) (engine : Engine) (given : List (Column × SqlValue)) (row : Row) :
    String → SqlValue :=
  fun f =>
    match t.fields.lookup f, given.reverse.lookup (.field f) with
    | some spec, some v => engine.store spec.ty v
    | _, _ => row.cells f

def Table.updateRow (t : Table) (engine : Engine) (given : List (Column × SqlValue)) (row : Row) :
    Except SubstrateError Row := do
  let key ← Table.updateKey engine given row
  let cells := t.updateCells engine given row
  match t.nullViolation cells with
  | some column => .error (t.notNullError column)
  | none => .ok ⟨key, cells⟩

/-- `UPDATE t SET … WHERE key = ?`. -/
def Table.update (t : Table) (engine : Engine) (columns : List String) (params : List SqlValue)
    (key : SqlValue) : Except SubstrateError Table := do
  let cols ← t.resolveAll (fun name => s!"no such column: {name}") columns
  match (engine.rowid key).bind t.row? with
  | none => return t
  | some row =>
      let row' ← t.updateRow engine (cols.zip params) row
      if h : (t.remove row.key).has row'.key = false then return (t.remove row.key).put row' h
      else .error t.uniqueError

/-- `DELETE FROM t WHERE key = ?`. -/
def Table.delete (t : Table) (engine : Engine) (key : SqlValue) : Table :=
  match engine.rowid key with
  | some k => t.remove k
  | none => t

/-! ### Queries -/

/-- Sort direction of one `ORDER BY` term. -/
inductive SortDir where
  | asc
  | desc
  deriving DecidableEq

/-- One `ORDER BY` term. -/
structure SortKey where
  column : String
  dir : SortDir

/-- `SELECT columns FROM table [WHERE filter = ?1] ORDER BY …`. -/
structure Select where
  columns : List String
  table : String
  filter : Option String
  orderBy : List SortKey

/-- Whether `r` may come before `s` in the order of the terms. -/
def orderLe (engine : Engine) : List (Column × SortDir) → Row → Row → Bool
  | [], _, _ => true
  | (c, dir) :: rest, r, s =>
      let a := r.value c
      let b := s.value c
      if engine.le a b && engine.le b a then orderLe engine rest r s
      else
        match dir with
        | .asc => engine.le a b
        | .desc => engine.le b a

def Table.typeOf (t : Table) (field : String) : FieldType :=
  ((t.fields.lookup field).map FieldSpec.ty).getD .text

/-- Whether a row passes `WHERE column = ?`. -/
def Table.passes (t : Table) (engine : Engine) (column : Column) (bound : SqlValue) (r : Row) :
    Bool :=
  match column with
  | .key => engine.rowid bound = some r.key
  | .field f => engine.equals (t.typeOf f) (r.cells f) bound

def Table.selectRows (t : Table) (engine : Engine) (filter : Option (Column × SqlValue))
    (order : List (Column × SortDir)) : List Row :=
  let kept := match filter with
    | none => t.rows
    | some (column, bound) => t.rows.filter (t.passes engine column bound)
  kept.insertionSort fun r s => orderLe engine order r s = true

def Table.nameOf (t : Table) : Column → String
  | .key => t.key
  | .field f => f

def Table.selectFilter (t : Table) (q : Select) (params : List SqlValue) :
    Except SubstrateError (Option (Column × SqlValue)) :=
  match q.filter with
  | none => .ok none
  | some name =>
      match t.resolve name with
      | none => .error (.query s!"no such column: {name}")
      | some c => .ok (some (c, params.head?.getD .null))

def Table.select (t : Table) (engine : Engine) (q : Select) (params : List SqlValue) :
    Except SubstrateError Rows := do
  let missing := fun name => s!"no such column: {name}"
  let cols ← t.resolveAll missing q.columns
  let filter ← t.selectFilter q params
  let order ← t.resolveAll missing (q.orderBy.map SortKey.column)
  let rows := t.selectRows engine filter (order.zip (q.orderBy.map SortKey.dir))
  return { columns := cols.map t.nameOf, rows := rows.map fun r => cols.map r.value }

/-! ### The database -/

structure Db where
  tables : String → Option Table
  authors : String × ℤ → Option String

def Db.table (db : Db) (name : String) : Option Table := db.tables (foldName name)

def Db.setTable (db : Db) (name : String) (t : Table) : Db :=
  { db with tables := Function.update db.tables (foldName name) (some t) }

def Db.setAuthor (db : Db) (table : String) (key : ℤ) (author : Option String) : Db :=
  { db with authors := Function.update db.authors (table, key) author }

def Db.authorOf (db : Db) (collection : SqlValue) (key : ℤ) : SqlValue :=
  match collection with
  | .text c => ((db.authors (c, key)).map SqlValue.text).getD .null
  | _ => .null

/-- The statements of the write and read paths. `key` names the row key column. -/
inductive Sql where
  /-- `INSERT INTO table (columns) VALUES (?1, …) RETURNING returning` -/
  | insert (table : String) (columns returning : List String)
  /-- `UPDATE table SET column = ?1, … WHERE key = ?n` -/
  | update (table : String) (columns : List String) (key : String)
  /-- `DELETE FROM table WHERE key = ?1` -/
  | delete (table key : String)
  /-- `SELECT column FROM table WHERE key = ?1` -/
  | selectColumn (column table key : String)
  /-- `SELECT a.principal FROM table AS t LEFT JOIN albedo_row_authors AS a
  ON a.collection = ?2 AND a.row_key = t.key WHERE t.key = ?1` -/
  | selectAuthor (table key : String)
  /-- `SELECT last_insert_rowid()` -/
  | lastInsertRowid
  /-- `INSERT OR REPLACE INTO albedo_row_authors (collection, row_key, principal)
  VALUES (?1, ?2, ?3)` -/
  | replaceAuthor
  /-- `DELETE FROM albedo_row_authors WHERE collection = ?1 AND row_key = ?2` -/
  | deleteAuthor
  /-- The materialising query of a collection. -/
  | select (query : Select)

def Db.named (db : Db) (table : String) : Except SubstrateError Table :=
  match db.table table with
  | none => .error (.query s!"no such table: {table}")
  | some t => .ok t

def Db.keyed (db : Db) (table key : String) : Except SubstrateError Table := do
  let t ← db.named table
  if foldName key = foldName t.key then return t
  else .error (.query s!"no such column: {key}")

/-- Run one statement: its rows, the database after it, and the last inserted row id. -/
def Sql.run (engine : Engine) (honoursReturning : Bool) (last : ℤ) (db : Db) :
    Sql → List SqlValue → Except SubstrateError (Rows × Db × ℤ)
  | .insert table columns returning, params => do
      let t ← db.named table
      let (row, t') ← t.insert engine columns params
      let cols ← t.resolveAll (fun name => s!"no such column: {name}") returning
      let rows := if honoursReturning then [cols.map row.value] else []
      return ({ columns := returning, rows }, db.setTable table t', row.key)
  | .update table columns key, params => do
      let t ← db.keyed table key
      let t' ← t.update engine columns params (params.getLast?.getD .null)
      return ({ columns := [], rows := [] }, db.setTable table t', last)
  | .delete table key, params => do
      let t ← db.keyed table key
      let t' := t.delete engine (params.head?.getD .null)
      return ({ columns := [], rows := [] }, db.setTable table t', last)
  | .selectColumn column table key, params => do
      let t ← db.keyed table key
      let cols ← t.resolveAll (fun name => s!"no such column: {name}") [column]
      let found := ((engine.rowid (params.head?.getD .null)).bind t.row?).toList
      return ({ columns := cols.map t.nameOf, rows := found.map fun r => cols.map r.value }, db, last)
  | .selectAuthor table key, params => do
      let t ← db.keyed table key
      let found := ((engine.rowid (params.head?.getD .null)).bind t.row?).toList
      let author := fun r : Row => db.authorOf (params.tail.head?.getD .null) r.key
      return ({ columns := ["principal"], rows := found.map fun r => [author r] }, db, last)
  | .lastInsertRowid, _ =>
      return ({ columns := ["last_insert_rowid()"], rows := [[.integer last]] }, db, last)
  | .replaceAuthor, params =>
      match params with
      | [.text collection, key, .text principal] =>
          match engine.rowid key with
          | some k => .ok ({ columns := [], rows := [] }, db.setAuthor collection k principal, last)
          | none => .error (.query "NOT NULL constraint failed: albedo_row_authors.row_key")
      | _ => .error (.query "datatype mismatch")
  | .deleteAuthor, params =>
      match params with
      | [.text collection, key] =>
          match engine.rowid key with
          | some k => .ok ({ columns := [], rows := [] }, db.setAuthor collection k none, last)
          | none => .ok ({ columns := [], rows := [] }, db, last)
      | _ => .ok ({ columns := [], rows := [] }, db, last)
  | .select q, params => do
      let t ← db.named q.table
      let rows ← t.select engine q params
      return (rows, db, last)

/-! ### What each statement does -/

def Table.at (t : Table) (engine : Engine) (bound : SqlValue) : Option Row :=
  (engine.rowid bound).bind t.row?

theorem Except.pure_ok {ε α : Type} {a b : α} (h : (pure a : Except ε α) = .ok b) : a = b := by
  cases h
  rfl

theorem Db.named_ok {db : Db} {table : String} {t : Table} (h : db.named table = .ok t) :
    db.table table = some t := by
  unfold Db.named at h
  cases ht : db.table table with
  | none => simp [ht] at h
  | some t' => simpa [ht] using h

theorem Db.keyed_ok {db : Db} {table key : String} {t : Table} (h : db.keyed table key = .ok t) :
    db.table table = some t ∧ foldName key = foldName t.key := by
  obtain ⟨t', ht, hkey⟩ := bind_eq_ok.mp h
  split_ifs at hkey with hfold
  obtain rfl := Except.pure_ok hkey
  exact ⟨Db.named_ok ht, hfold⟩

theorem Table.resolveAll_ok {t : Table} {missing : String → String} {names : List String}
    {cols : List Column} (h : t.resolveAll missing names = .ok cols) :
    names.mapM t.resolve = some cols := by
  induction names generalizing cols with
  | nil =>
      obtain rfl : cols = [] := by simpa [Table.resolveAll, eq_comm] using h
      rfl
  | cons name names ih =>
      unfold Table.resolveAll at h
      cases hname : t.resolve name with
      | none => simp [hname] at h
      | some c =>
          rw [hname] at h
          obtain ⟨cs, hcs, hok⟩ := bind_eq_ok.mp h
          obtain rfl := Except.pure_ok hok
          simp [List.mapM_cons, hname, ih hcs]

section
variable {engine : Engine} {honoursReturning : Bool} {last last' : ℤ} {db db' : Db} {rows : Rows}
variable {table key column : String} {columns returning : List String} {params : List SqlValue}

theorem run_insert_ok
    (h : (Sql.insert table columns returning).run engine honoursReturning last db params =
      .ok (rows, db', last')) :
    ∃ t row t' cols, db.table table = some t ∧ t.insert engine columns params = .ok (row, t') ∧
      returning.mapM t.resolve = some cols ∧ db' = db.setTable table t' ∧ last' = row.key ∧
      rows.rows = if honoursReturning then [cols.map row.value] else [] := by
  obtain ⟨t, ht, h⟩ := bind_eq_ok.mp h
  obtain ⟨⟨row, t'⟩, hinsert, h⟩ := bind_eq_ok.mp h
  obtain ⟨cols, hcols, h⟩ := bind_eq_ok.mp h
  obtain ⟨rfl, rfl, rfl⟩ := Prod.mk.injEq .. ▸ Except.pure_ok h
  exact ⟨t, row, t', cols, Db.named_ok ht, hinsert, Table.resolveAll_ok hcols, rfl, rfl, rfl⟩

theorem run_update_ok
    (h : (Sql.update table columns key).run engine honoursReturning last db params =
      .ok (rows, db', last')) :
    ∃ t t', db.table table = some t ∧
      t.update engine columns params (params.getLast?.getD .null) = .ok t' ∧
      db' = db.setTable table t' ∧ last' = last := by
  obtain ⟨t, ht, h⟩ := bind_eq_ok.mp h
  obtain ⟨t', hupdate, h⟩ := bind_eq_ok.mp h
  obtain ⟨rfl, rfl, rfl⟩ := Prod.mk.injEq .. ▸ Except.pure_ok h
  exact ⟨t, t', (Db.keyed_ok ht).1, hupdate, rfl, rfl⟩

theorem run_delete_ok
    (h : (Sql.delete table key).run engine honoursReturning last db params =
      .ok (rows, db', last')) :
    ∃ t, db.table table = some t ∧
      db' = db.setTable table (t.delete engine (params.head?.getD .null)) ∧ last' = last := by
  obtain ⟨t, ht, h⟩ := bind_eq_ok.mp h
  obtain ⟨rfl, rfl, rfl⟩ := Prod.mk.injEq .. ▸ Except.pure_ok h
  exact ⟨t, (Db.keyed_ok ht).1, rfl, rfl⟩

theorem run_selectColumn_ok
    (h : (Sql.selectColumn column table key).run engine honoursReturning last db params =
      .ok (rows, db', last')) :
    ∃ t col, db.table table = some t ∧ t.resolve column = some col ∧ db' = db ∧ last' = last ∧
      rows.rows = (t.at engine (params.head?.getD .null)).toList.map fun r => [r.value col] := by
  obtain ⟨t, ht, h⟩ := bind_eq_ok.mp h
  obtain ⟨cols, hcols, h⟩ := bind_eq_ok.mp h
  obtain ⟨rfl, rfl, rfl⟩ := Prod.mk.injEq .. ▸ Except.pure_ok h
  have hresolve := Table.resolveAll_ok hcols
  cases hcol : t.resolve column with
  | none => simp [hcol] at hresolve
  | some col =>
      obtain rfl : [col] = cols := by simpa [hcol] using hresolve
      exact ⟨t, col, (Db.keyed_ok ht).1, hcol, rfl, rfl, rfl⟩

theorem run_selectAuthor_ok
    (h : (Sql.selectAuthor table key).run engine honoursReturning last db params =
      .ok (rows, db', last')) :
    ∃ t, db.table table = some t ∧ db' = db ∧ last' = last ∧
      rows.rows = (t.at engine (params.head?.getD .null)).toList.map fun r =>
        [db.authorOf (params.tail.head?.getD .null) r.key] := by
  obtain ⟨t, ht, h⟩ := bind_eq_ok.mp h
  obtain ⟨rfl, rfl, rfl⟩ := Prod.mk.injEq .. ▸ Except.pure_ok h
  exact ⟨t, (Db.keyed_ok ht).1, rfl, rfl, rfl⟩

theorem run_lastInsertRowid_ok
    (h : Sql.lastInsertRowid.run engine honoursReturning last db params =
      .ok (rows, db', last')) : db' = db ∧ last' = last ∧ rows.rows = [[.integer last]] := by
  obtain ⟨rfl, rfl, rfl⟩ := Prod.mk.injEq .. ▸ Except.pure_ok h
  exact ⟨rfl, rfl, rfl⟩

theorem run_replaceAuthor_ok {principal : String} {i : ℤ}
    (h : Sql.replaceAuthor.run engine honoursReturning last db
      [.text table, .integer i, .text principal] = .ok (rows, db', last')) :
    db' = db.setAuthor table i (some principal) ∧ last' = last := by
  simp only [Sql.run, engine.rowid_integer] at h
  cases h
  exact ⟨rfl, rfl⟩

theorem run_deleteAuthor_ok {bound : SqlValue}
    (h : Sql.deleteAuthor.run engine honoursReturning last db [.text table, bound] =
      .ok (rows, db', last')) :
    last' = last ∧ db' = match engine.rowid bound with
      | some i => db.setAuthor table i none
      | none => db := by
  simp only [Sql.run] at h
  cases hrow : engine.rowid bound <;> rw [hrow] at h <;> cases h <;> exact ⟨rfl, rfl⟩

end

end Albedo.Forge
