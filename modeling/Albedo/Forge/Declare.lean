import Albedo.Forge.OrderBy
import Mathlib.Data.List.Sort

/-!
# Declared collections

An app declares the shape of its data: fields and their types, an ordering, a partition column and
seed rows. A declaration that passes its checks is lowered to the collection the runtime uses, and
the lowered collections are put in the order of their wire slots.
-/
namespace Albedo.Forge
open Json Fallible Broadcast

inductive ForgeSchemaError where
  | slotCollision (a b : String) (slot : SlotId)
  | invalidIdentifier (topic field value : String)
  | emptyDeclaration (topic : String)
  | keyIsAlsoAField (topic key : String)
  | unknownPartitionColumn (topic column : String) (declared : List String)
  | invalidOrderBy (topic orderBy : String)
  | unknownSeedColumn (topic column : String)
  | unsupportedSeedValue (topic column : String)
  | reservedCollectionName (topic reservedPrefix : String) (reserved : List String)

structure CollectionDecl where
  table : Option String
  key : Option String
  fields : OrderedMap String FieldSpec
  orderBy : Option String
  partitionBy : Option String
  seed : List (OrderedMap String Value)
  edit : EditRule

structure SeedRow where
  columns : List String
  params : List SqlValue

def reservedPrefix : String := "albedo_"

def reservedCollections : List String :=
  ["albedo_users", "albedo_accounts", "albedo_sessions", "albedo_credentials"]

def isReserved (name : String) : Bool := reservedPrefix.toList.isPrefixOf name.toList

def demand {ε : Type} (p : Prop) [Decidable p] (e : ε) : Except ε Unit :=
  if p then .ok () else .error e

theorem demand_eq_ok {ε : Type} {p : Prop} [Decidable p] {e : ε} {u : Unit} :
    demand p e = .ok u ↔ p := by
  unfold demand
  split_ifs with hp
  · simp [hp]
  · simp [hp]

def requireIdentifier (topic field value : String) : Except ForgeSchemaError Unit :=
  demand (isSafeIdentifier value = true) (.invalidIdentifier topic field value)

namespace CollectionDecl

variable (d : CollectionDecl) (topic : String)

def tableName : String := d.table.getD topic

def keyName : String := d.key.getD "id"

def fieldNames : List String := d.fields.entries.map Prod.fst

def columns : List String := d.keyName :: d.fieldNames

/-- The terms of the collection's ordering: by its key, or as its declaration's text is read. -/
def ordering : List SortKey :=
  match d.orderBy with
  | none => [⟨d.keyName, .asc⟩]
  | some raw => parseOrderBy ("SELECT 1 ORDER BY ".toList ++ raw.toList)

/-- The `ORDER BY` clause, emitted again from its parse. -/
def orderBySql : Except ForgeSchemaError (List SortKey) :=
  match d.orderBy with
  | none => .ok d.ordering
  | some raw => do
      demand (d.ordering ≠ []) (.invalidOrderBy topic raw)
      -- A parsed column that the collection does not have would fail at every read.
      d.ordering.forM fun term => demand (term.column ∈ d.columns)
        (.invalidOrderBy topic s!"{raw} (no such field '{term.column}')")
      return d.ordering

def queryText : List Char :=
  let select := s!"SELECT {d.keyName}, " ++ ", ".intercalate d.fieldNames ++
    s!" FROM {d.tableName topic}"
  let filter := (d.partitionBy.map fun column => s!" WHERE {column} = ?1").getD ""
  (select ++ filter).toList ++ (" ORDER BY ".toList ++ orderText d.ordering)

def checkField (f : String × FieldSpec) : Except ForgeSchemaError Unit := do
  requireIdentifier topic "field" f.1
  demand (f.1 ≠ d.keyName) (.keyIsAlsoAField topic d.keyName)

def checkPartition : Except ForgeSchemaError Unit :=
  match d.partitionBy with
  | none => .ok ()
  | some column => do
      requireIdentifier topic "partition_by" column
      demand (column ∈ d.fieldNames) (.unknownPartitionColumn topic column d.fieldNames)

end CollectionDecl

def asF64 (engine : Engine) : Number → F64
  | .int i => engine.intAsF64 i
  | .float f => f

/-- Lower one seed value to a bound parameter, checked against the column's declared type. -/
def seedValue (engine : Engine) (topic column : String) (spec : FieldSpec) (value : Value) :
    Except ForgeSchemaError SqlValue :=
  let mismatch := .error (.unsupportedSeedValue topic column)
  match spec.ty, value with
  | _, .null => if spec.nullable then .ok .null else mismatch
  | .text, .string s => .ok (.text s)
  | .bool, .bool b => .ok (.integer (if b then 1 else 0))
  | .int, .number n | .timestamp, .number n =>
      match asI64 n with
      | some i => .ok (.integer i)
      | none => mismatch
  | .real, .number n => .ok (.real (.finite (asF64 engine n)))
  | _, _ => mismatch

namespace CollectionDecl

variable (engine : Engine) (d : CollectionDecl) (topic : String)

def lowerSeedCell (cell : String × Value) : Except ForgeSchemaError SqlValue :=
  match d.fields.get cell.1 with
  | none => .error (.unknownSeedColumn topic cell.1)
  | some spec => seedValue engine topic cell.1 spec cell.2

def lowerSeedRow (row : OrderedMap String Value) : Except ForgeSchemaError SeedRow := do
  let params ← row.entries.mapM (d.lowerSeedCell engine topic)
  demand (row.entries ≠ []) (.unknownSeedColumn topic "<empty seed row>")
  return ⟨row.entries.map Prod.fst, params⟩

def check : Except ForgeSchemaError (List SeedRow) := do
  requireIdentifier topic "table" (d.tableName topic)
  requireIdentifier topic "key_column" d.keyName
  demand (d.fields.entries ≠ []) (.emptyDeclaration topic)
  d.fields.entries.forM (d.checkField topic)
  d.checkPartition topic
  let _ ← d.orderBySql topic
  d.seed.mapM (d.lowerSeedRow engine topic)

structure Checked (seed : List SeedRow) : Prop where
  table_safe : isSafeIdentifier (d.tableName topic) = true
  key_safe : isSafeIdentifier d.keyName = true
  fields_ne_nil : d.fields.entries ≠ []
  fields_safe : ∀ name ∈ d.fieldNames, isSafeIdentifier name = true
  key_fresh : d.keyName ∉ d.fieldNames
  partition_declared : ∀ column ∈ d.partitionBy, column ∈ d.fieldNames
  ordering_ne_nil : d.ordering ≠ []
  ordering_declared : ∀ k ∈ d.ordering, k.column ∈ d.columns
  seed_eq : d.seed.mapM (d.lowerSeedRow engine topic) = .ok seed

end CollectionDecl

section Checks

variable {engine : Engine} {d : CollectionDecl} {topic : String} {seed : List SeedRow}

theorem CollectionDecl.orderBySql_ok {terms : List SortKey} (h : d.orderBySql topic = .ok terms) :
    d.ordering ≠ [] ∧ ∀ k ∈ d.ordering, k.column ∈ d.columns := by
  unfold orderBySql at h
  cases horder : d.orderBy with
  | none =>
      have hordering : d.ordering = [⟨d.keyName, .asc⟩] := by
        rw [ordering, horder]
      rw [hordering]
      refine ⟨List.cons_ne_nil _ _, fun k hk => ?_⟩
      obtain rfl := List.mem_singleton.mp hk
      exact List.mem_cons_self
  | some raw =>
      rw [horder] at h
      obtain ⟨u, hne, h⟩ := bind_eq_ok.mp h
      obtain ⟨v, hall, -⟩ := bind_eq_ok.mp h
      exact ⟨demand_eq_ok.mp hne, fun k hk => demand_eq_ok.mp (forM_eq_ok.mp hall k hk)⟩

theorem CollectionDecl.checkPartition_ok {u : Unit} (h : d.checkPartition topic = .ok u) :
    ∀ column ∈ d.partitionBy, column ∈ d.fieldNames := by
  intro column hcolumn
  unfold checkPartition at h
  rw [Option.mem_def.mp hcolumn] at h
  obtain ⟨v, -, hmem⟩ := bind_eq_ok.mp h
  exact demand_eq_ok.mp hmem

theorem CollectionDecl.check_ok (h : d.check engine topic = .ok seed) :
    d.Checked engine topic seed := by
  obtain ⟨u, htable, h⟩ := bind_eq_ok.mp h
  obtain ⟨v, hkey, h⟩ := bind_eq_ok.mp h
  obtain ⟨w, hne, h⟩ := bind_eq_ok.mp h
  obtain ⟨x, hfields, h⟩ := bind_eq_ok.mp h
  obtain ⟨y, hpartition, h⟩ := bind_eq_ok.mp h
  obtain ⟨terms, horder, hseed⟩ := bind_eq_ok.mp h
  obtain ⟨hordering, hdeclared⟩ := orderBySql_ok horder
  have hfield : ∀ name ∈ d.fieldNames, isSafeIdentifier name = true ∧ name ≠ d.keyName := by
    intro name hname
    obtain ⟨f, hf, rfl⟩ := List.mem_map.mp hname
    obtain ⟨z, hsafe, hfresh⟩ := bind_eq_ok.mp (forM_eq_ok.mp hfields f hf)
    exact ⟨demand_eq_ok.mp hsafe, demand_eq_ok.mp hfresh⟩
  exact {
    table_safe := demand_eq_ok.mp htable
    key_safe := demand_eq_ok.mp hkey
    fields_ne_nil := demand_eq_ok.mp hne
    fields_safe := fun name hname => (hfield name hname).1
    key_fresh := fun hmem => (hfield d.keyName hmem).2 rfl
    partition_declared := checkPartition_ok hpartition
    ordering_ne_nil := hordering
    ordering_declared := hdeclared
    seed_eq := hseed }

def CollectionDecl.readOrdering (d : CollectionDecl) : List SortKey :=
  match d.orderBy with
  | none => readBack d.keyName
  | some _ => d.ordering

theorem CollectionDecl.parseOrderBy_queryText (h : d.Checked engine topic seed) :
    parseOrderBy (d.queryText topic) = d.readOrdering := by
  unfold queryText readOrdering
  cases horder : d.orderBy with
  | none =>
      have htext : orderText d.ordering = d.keyName.toList := by
        rw [ordering, horder, orderText, List.map_cons, List.map_nil, List.intercalate_singleton]
        rfl
      rw [htext]
      exact parseOrderBy_column _ h.key_safe
  | some raw =>
      refine parseOrderBy_orderText _ (fun k hk => ?_) h.ordering_ne_nil
      rw [ordering, horder] at hk
      exact readWhole_of_mem_parseOrderBy hk

theorem CollectionDecl.sort_head (h : d.Checked engine topic seed) :
    ∀ k ∈ (parseOrderBy (d.queryText topic)).head?, k.column = d.keyName →
      d.ordering.head? = some k := by
  rw [parseOrderBy_queryText h]
  intro k hk hkey
  unfold readOrdering at hk
  cases horder : d.orderBy with
  | none =>
      rw [horder] at hk
      replace hk : (readBack d.keyName).head? = some k := hk
      unfold readBack at hk
      split_ifs at hk with hempty
      · cases hk
      · have hordering : d.ordering = [⟨d.keyName, .asc⟩] := by
          rw [ordering, horder]
        obtain ⟨column, dir⟩ := k
        obtain ⟨-, rfl⟩ := SortKey.mk.inj (Option.some.inj hk)
        obtain rfl : column = d.keyName := hkey
        rw [hordering]
        rfl
  | some raw =>
      rw [horder] at hk
      exact hk

end Checks

structure Declared (engine : Engine) where
  topic : String
  decl : CollectionDecl
  seed : List SeedRow
  checked : decl.Checked engine topic seed

namespace Declared

variable {engine : Engine} (d : Declared engine)

def collection : ForgeCollection where
  topic := d.topic
  table := d.decl.tableName d.topic
  keyColumn := d.decl.keyName
  fields := d.decl.fields.entries
  orderBy := d.decl.ordering
  sort := parseOrderBy (d.decl.queryText d.topic)
  partitionBy := d.decl.partitionBy
  identityPartitioned := false
  edit := d.decl.edit
  table_safe := d.checked.table_safe
  key_safe := d.checked.key_safe
  key_fresh := d.checked.key_fresh
  fields_nodup := d.decl.fields.sorted.nodup_keys
  partition_declared := d.checked.partition_declared
  sort_head := CollectionDecl.sort_head d.checked

def slotId : SlotId := broadcastSlotId d.topic

end Declared

def CollectionDecl.lower (engine : Engine) (d : CollectionDecl) (topic : String) :
    Except ForgeSchemaError (Declared engine) :=
  match h : d.check engine topic with
  | .error e => .error e
  | .ok seed => .ok ⟨topic, d, seed, CollectionDecl.check_ok h⟩

def firstCollision {engine : Engine} : List (Declared engine) →
    Option (Declared engine × Declared engine)
  | c :: d :: rest => if c.slotId = d.slotId then some (c, d) else firstCollision (d :: rest)
  | _ => none

theorem sorted_of_firstCollision {engine : Engine} {declared : List (Declared engine)}
    (hle : declared.Pairwise fun c d => c.slotId ≤ d.slotId) (h : firstCollision declared = none) :
    declared.Pairwise fun c d => c.slotId < d.slotId := by
  induction declared with
  | nil => exact List.Pairwise.nil
  | cons c rest ih =>
      obtain ⟨hc, hrest⟩ := List.pairwise_cons.mp hle
      cases rest with
      | nil => exact List.pairwise_singleton _ _
      | cons d rest =>
          rw [firstCollision] at h
          split_ifs at h with hslot
          have hlater := ih hrest h
          have hlt : c.slotId < d.slotId :=
            UInt32.lt_of_le_of_ne (hc d List.mem_cons_self) hslot
          refine List.pairwise_cons.mpr ⟨fun e he => ?_, hlater⟩
          rcases List.mem_cons.mp he with rfl | he
          · exact hlt
          · exact UInt32.lt_trans hlt ((List.pairwise_cons.mp hlater).1 e he)

/-- The lowered declarations in the order of their wire slots, which is the order of the boot. -/
structure DeclaredSchema (engine : Engine) where
  declared : List (Declared engine)
  sorted : declared.Pairwise fun c d => c.slotId < d.slotId

def DeclaredSchema.schema {engine : Engine} (s : DeclaredSchema engine) : ForgeSchema where
  collections := s.declared.map Declared.collection
  sorted := List.pairwise_map.mpr s.sorted

def slotOrder {engine : Engine} (declared : List (Declared engine)) : List (Declared engine) :=
  declared.insertionSort fun c d => c.slotId ≤ d.slotId

theorem sorted_slotOrder {engine : Engine} (declared : List (Declared engine)) :
    (slotOrder declared).Pairwise fun c d => c.slotId ≤ d.slotId := by
  have : Std.Total fun c d : Declared engine => c.slotId ≤ d.slotId :=
    ⟨fun c d => UInt32.le_total c.slotId d.slotId⟩
  have : IsTrans (Declared engine) fun c d => c.slotId ≤ d.slotId :=
    ⟨fun c d e => UInt32.le_trans⟩
  exact List.pairwise_insertionSort _ _

/-- Put lowered collections in the order of their wire slots. Their identifiers were checked when
they were lowered. -/
def buildSchema {engine : Engine} (declared : List (Declared engine)) :
    Except ForgeSchemaError (DeclaredSchema engine) :=
  match h : firstCollision (slotOrder declared) with
  | some (c, d) => .error (.slotCollision c.topic d.topic c.slotId)
  | none => .ok ⟨slotOrder declared, sorted_of_firstCollision (sorted_slotOrder declared) h⟩

def fromDeclarations (engine : Engine) (declarations : OrderedMap String CollectionDecl) :
    Except ForgeSchemaError (DeclaredSchema engine) := do
  let declared ← declarations.entries.mapM fun e => do
    demand (isReserved e.1 = false)
      (.reservedCollectionName e.1 reservedPrefix reservedCollections)
    e.2.lower engine e.1
  buildSchema declared

/-! ### The order of the boot -/

def bootOrder (declarations : OrderedMap String CollectionDecl) : List (String × CollectionDecl) :=
  declarations.entries.insertionSort fun e f => broadcastSlotId e.1 ≤ broadcastSlotId f.1

def Declared.entry {engine : Engine} (d : Declared engine) : String × CollectionDecl :=
  (d.topic, d.decl)

theorem CollectionDecl.lower_ok {engine : Engine} {d : CollectionDecl} {topic : String}
    {c : Declared engine} (h : d.lower engine topic = .ok c) : c.entry = (topic, d) := by
  unfold lower at h
  split at h
  · cases h
  · cases h
    rfl

theorem fromDeclarations_ok {engine : Engine} {declarations : OrderedMap String CollectionDecl}
    {s : DeclaredSchema engine} (h : fromDeclarations engine declarations = .ok s) :
    s.declared.map Declared.entry = bootOrder declarations := by
  obtain ⟨declared, hlower, hbuild⟩ := bind_eq_ok.mp h
  have hentries : declared.map Declared.entry = declarations.entries := by
    have hall := mapM_eq_ok.mp hlower
    clear hlower hbuild h
    generalize declarations.entries = entries at hall
    induction hall with
    | nil => rfl
    | cons hstep _ ih =>
        obtain ⟨u, -, hlowered⟩ := bind_eq_ok.mp hstep
        rw [List.map_cons, ih, CollectionDecl.lower_ok hlowered]
  unfold buildSchema at hbuild
  split at hbuild
  · cases hbuild
  · cases hbuild
    rw [bootOrder, ← hentries]
    exact List.map_insertionSort (r := fun c d : Declared engine => c.slotId ≤ d.slotId) _ _ _
      fun c _ d _ => Iff.rfl

end Albedo.Forge
