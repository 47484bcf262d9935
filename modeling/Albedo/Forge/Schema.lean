import Albedo.Forge.Substrate
import Albedo.Runtime.Broadcast

/-!
# The collection registry

A collection is a broadcast topic materialised from a table. The invariants its
construction guarantees are fields: identifiers are safe, the partition column is
a declared field, and the structured ordering, where it begins with the key, begins as the
query's does. `Deployed` relates a schema to the tables it created.
-/
namespace Albedo.Forge
open Json Broadcast

def isSafeIdentifier (name : String) : Bool :=
  let cs := name.toList
  !cs.isEmpty && cs.length ≤ 64 && cs.head?.any (fun c => c.isAlpha || c = '_') &&
    cs.all fun c => c.isAlphanum || c = '_'

/-- Who may update or remove a row once it exists. -/
inductive EditRule where
  | author
  | anyone
  deriving DecidableEq

structure ForgeCollection where
  topic : String
  table : String
  keyColumn : String
  fields : List (String × FieldSpec)
  /-- The terms of the query's `ORDER BY`. -/
  orderBy : List SortKey
  /-- The structured ordering parsed back from the query; empty when the parse gave up. -/
  sort : List SortKey
  partitionBy : Option String
  identityPartitioned : Bool
  edit : EditRule
  table_safe : isSafeIdentifier table = true
  key_safe : isSafeIdentifier keyColumn = true
  key_fresh : keyColumn ∉ fields.map Prod.fst
  fields_nodup : (fields.map Prod.fst).Nodup
  partition_declared : ∀ column ∈ partitionBy, column ∈ fields.map Prod.fst
  sort_head : ∀ k ∈ sort.head?, k.column = keyColumn → orderBy.head? = some k

/-- The read that materialises the topic's value. -/
def ForgeCollection.query (c : ForgeCollection) : Select :=
  { columns := c.keyColumn :: c.fields.map Prod.fst
    table := c.table
    filter := c.partitionBy
    orderBy := c.orderBy }

def ForgeCollection.slotId (c : ForgeCollection) : SlotId := broadcastSlotId c.topic

def ForgeCollection.typeOf (c : ForgeCollection) (column : String) : Option FieldType :=
  (c.fields.lookup column).map FieldSpec.ty

def guestbook : ForgeCollection where
  topic := "guestbook"
  table := "guestbook"
  keyColumn := "id"
  fields := [("author", ⟨.text, false⟩)]
  orderBy := [⟨"id", .asc⟩]
  sort := [⟨"id", .asc⟩]
  partitionBy := none
  identityPartitioned := false
  edit := .author
  table_safe := by decide
  key_safe := by decide
  key_fresh := by decide
  fields_nodup := by decide
  partition_declared := by decide
  sort_head _ hk _ := hk

structure ForgeSchema where
  collections : List ForgeCollection
  sorted : collections.Pairwise fun c d => c.slotId < d.slotId

def ForgeSchema.resolve (schema : ForgeSchema) (slotId : SlotId) : Option ForgeCollection :=
  schema.collections.find? fun c => c.slotId = slotId

/-- The collection named `topic`, found through its wire id. -/
def ForgeSchema.slotForTopic (schema : ForgeSchema) (topic : String) : Option ForgeCollection :=
  schema.resolve (broadcastSlotId topic)

theorem ForgeSchema.slotForTopic_mem {schema : ForgeSchema} {topic : String} {c : ForgeCollection}
    (h : schema.slotForTopic topic = some c) : c ∈ schema.collections :=
  List.mem_of_find?_eq_some h

def ForgeCollection.DeployedIn (c : ForgeCollection) (db : Db) : Prop :=
  ∃ t, db.table c.table = some t ∧ t.key = c.keyColumn ∧ t.fields = c.fields

/-- Every collection's table is there, as the boot that created or checked it left it. -/
def ForgeSchema.Deployed (schema : ForgeSchema) (db : Db) : Prop :=
  ∀ c ∈ schema.collections, c.DeployedIn db

def guestbookSchema : ForgeSchema := ⟨[guestbook], by simp⟩

def guestbookDb : Db where
  tables := fun name =>
    if name = "guestbook" then
      some ⟨"guestbook", "id", [("author", ⟨.text, false⟩)], [], 0, by simp, by decide⟩
    else none
  authors := fun _ => none

theorem guestbook_deployed : guestbookSchema.Deployed guestbookDb := by
  intro c hc
  obtain rfl := List.mem_singleton.mp hc
  exact ⟨_, rfl, rfl, rfl⟩

/-! ### The substrate and its reads -/

/-- The operations of one call, by what they are for. -/
inductive Op where
  | begin
  | statement (n : ℕ)
  | commit
  /-- The read of a channel's value, outside the transaction. -/
  | read (channel : String)
  deriving DecidableEq

/-- A database connection: its engine, whether inserts answer `RETURNING`, and which
of a call's operations fail. -/
structure Substrate where
  engine : Engine
  honoursReturning : Bool
  fault : Op → Option SubstrateError

def Substrate.plain : Substrate := ⟨.plain, true, fun _ => none⟩

def rowsToJson (rows : Rows) (typeOf : String → Option FieldType) : Value :=
  .array (rows.rows.map fun row =>
    collectObject ((rows.columns.zip row).map fun (column, value) =>
      (column, columnValueToJson value (typeOf column))))

def Substrate.query (substrate : Substrate) (op : Op) (db : Db) (sql : Sql)
    (params : List SqlValue) : Except SubstrateError Rows :=
  match substrate.fault op with
  | some err => .error err
  | none => (sql.run substrate.engine substrate.honoursReturning 0 db params).map fun r => r.1

def partitionParams (c : ForgeCollection) (partition : Option String) :
    Except SubstrateError (List SqlValue) :=
  match c.partitionBy, partition with
  | some _, some key => .ok [.text key]
  | none, none => .ok []
  | some column, none =>
      .error (.backend (s!"collection '{c.topic}' is partitioned by '{column}'; " ++
        "materialising it needs a partition key"))
  | none, some _ =>
      .error (.backend (s!"collection '{c.topic}' is not partitioned; materialising it " ++
        "must not be given a partition key"))

def materializeSlot (substrate : Substrate) (op : Op) (db : Db) (c : ForgeCollection)
    (partition : Option String) : Except SubstrateError (List Char) := do
  let params ← partitionParams c partition
  let rows ← substrate.query op db (.select c.query) params
  return (rowsToJson rows c.typeOf).encode

end Albedo.Forge
