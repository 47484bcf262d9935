import Albedo.Forge.Statement

/-!
# The writes of one transaction

One action's writes run inside a transaction: each resolves onto its channels, is
checked, and runs its statements, while the channels it touched are accumulated. A
step either yields the state after it or fails, and a failed step leaves no state:
the transaction is rolled back.
-/
namespace Albedo.Forge
open Json Broadcast

/-- How a step fails: with an error, or by an `expect` that does not hold. -/
inductive Failure where
  | error (err : SubstrateError)
  | panicked
  deriving DecidableEq

/-- An open transaction: what it sees, the last inserted row id, and its statements so far. -/
structure Tx where
  db : Db
  last : ℤ
  statements : ℕ

abbrev TxM := StateT Tx (Except Failure)

theorem TxM.bind_ok {α β : Type} {x : TxM α} {f : α → TxM β} {tx tx' : Tx} {b : β}
    (h : (x >>= f) tx = .ok (b, tx')) : ∃ a mid, x tx = .ok (a, mid) ∧ f a mid = .ok (b, tx') := by
  change (x tx >>= fun p => f p.1 p.2) = .ok (b, tx') at h
  cases hx : x tx with
  | error e => rw [hx] at h; cases h
  | ok p => exact ⟨p.1, p.2, rfl, by rw [hx] at h; exact h⟩

theorem TxM.pure_ok {α : Type} {a b : α} {tx tx' : Tx} (h : (pure a : TxM α) tx = .ok (b, tx')) :
    a = b ∧ tx = tx' := by
  cases h
  exact ⟨rfl, rfl⟩

def check {α : Type} (result : Except SubstrateError α) : TxM α := fun tx =>
  match result with
  | .ok a => .ok (a, tx)
  | .error err => .error (.error err)

theorem check_ok {α : Type} {result : Except SubstrateError α} {a : α} {tx tx' : Tx}
    (h : check result tx = .ok (a, tx')) : result = .ok a ∧ tx = tx' := by
  unfold check at h
  cases result with
  | error err => cases h
  | ok b => cases h; exact ⟨rfl, rfl⟩

def Substrate.run (substrate : Substrate) (sql : Sql) (params : List SqlValue) : TxM Rows :=
  fun tx =>
    match substrate.fault (.statement tx.statements) with
    | some err => .error (.error err)
    | none =>
        match sql.run substrate.engine substrate.honoursReturning tx.last tx.db params with
        | .error err => .error (.error err)
        | .ok (rows, db, last) => .ok (rows, ⟨db, last, tx.statements + 1⟩)

theorem Substrate.run_ok {substrate : Substrate} {sql : Sql} {params : List SqlValue} {tx tx' : Tx}
    {rows : Rows} (h : substrate.run sql params tx = .ok (rows, tx')) :
    sql.run substrate.engine substrate.honoursReturning tx.last tx.db params =
      .ok (rows, tx'.db, tx'.last) := by
  unfold Substrate.run at h
  split at h
  · cases h
  · split at h
    · cases h
    · rename_i hrun
      cases h
      exact hrun

/-! ### Channels -/

/-- One channel a write touches: a collection and, where it is partitioned, which
partition; the rows appended to it, and whether anything else touched it. -/
structure Touched where
  slot : ForgeCollection
  partition : Option String
  channel : String
  appended : List Value
  mutated : Bool

/-- The channel of a partition: none for a partitioned write whose row vanished. -/
def channelOf (slot : ForgeCollection) (partition : Option String) :
    Except SubstrateError (Option String) :=
  match slot.partitionBy, partition with
  | some _, some key =>
      match partitionTopicName slot.topic key with
      | some channel => .ok (some channel)
      | none => .error (.backend (s!"FORGE write: partition key {debugText key} for " ++
          s!"'{slot.topic}' cannot name a channel"))
  | some _, none => .ok none
  | none, _ => .ok (some slot.topic)

def addTouched (touched : List Touched) (slot : ForgeCollection) (partition : Option String)
    (channel : String) : List Touched :=
  if touched.any fun known => known.channel = channel then touched
  else touched ++ [⟨slot, partition, channel, [], false⟩]

def noteTouched (touched : List Touched) (slot : ForgeCollection) (partition : Option String) :
    Except SubstrateError (List Touched) :=
  (channelOf slot partition).map fun channel =>
    match channel with
    | some channel => addTouched touched slot partition channel
    | none => touched

def noteResolved (slot : ForgeCollection) : List Touched → List (Option String) →
    Except SubstrateError (List Touched)
  | touched, [] => .ok touched
  | touched, partition :: rest => do
      let touched ← noteTouched touched slot partition
      noteResolved slot touched rest

/-- What a write did to one channel: it appended a row, or something else. -/
def Touched.record (t : Touched) : Option Value → Touched
  | some record => { t with appended := t.appended ++ [record] }
  | none => { t with mutated := true }

def recordOutcome (touched : List Touched) (slot : ForgeCollection) (outcome : Option Value) :
    List Touched :=
  let channels := (touched.filter fun known => known.slot.topic = slot.topic).map Touched.channel
  touched.map fun known => if known.channel ∈ channels then known.record outcome else known

/-! ### One write -/

section
variable (substrate : Substrate) (slot : ForgeCollection) (principal : Option PrincipalId)

/-- The author check, for a row of a collection that is not identity-partitioned. -/
def authorizeAuthor (key : Value) : TxM Unit :=
  if slot.identityPartitioned ∨ slot.edit = .anyone then pure ()
  else
    match principal with
    | none => check (.error (anonymousChangeRefused slot))
    | some principal => do
        let bound ← check (keyToSqlvalue substrate.engine slot.topic slot.keyColumn key)
        let rows ← substrate.run (.selectAuthor slot.table slot.keyColumn)
          [bound, .text slot.table]
        match rows.rows.head? with
        | none => pure ()
        | some row => check (checkAuthor slot principal row[0]?)

/-- The key to record an author against: the returned one, or the last inserted. -/
def appendedKey (returned : Option SqlValue) : TxM SqlValue :=
  match returned with
  | some key => pure key
  | none => do
      let rows ← substrate.run .lastInsertRowid []
      match rows.rows.head?.bind fun row => row[0]? with
      | some key => pure key
      | none => check (.error (.backend (s!"FORGE append: the new row of '{slot.topic}' has no " ++
          "key to record its author against")))

def recordAuthor (returned : Option SqlValue) (principal : PrincipalId) : TxM Unit := do
  let key ← appendedKey substrate slot returned
  let _ ← substrate.run .replaceAuthor [.text slot.table, key, .text principal.id]
  pure ()

/-- A signed-in append records its author where the row does not already name its owner. -/
def noteAuthor (returned : Option SqlValue) : TxM Unit :=
  match principal, slot.identityPartitioned with
  | some principal, false => recordAuthor substrate slot returned principal
  | _, _ => pure ()

def readPartition (key : Value) : TxM (Option String) :=
  match slot.partitionBy with
  | none => pure none
  | some column => do
      let bound ← check (keyToSqlvalue substrate.engine slot.topic slot.keyColumn key)
      let rows ← substrate.run (.selectColumn column slot.table slot.keyColumn) [bound]
      match rows.rows.head? with
      | none => pure none
      | some row => do
          let partition ← check (cellPartition slot column row[0]?)
          pure (some partition)

def updatePartitions (before : Option String) (fields : Record) :
    Except SubstrateError (List (Option String)) :=
  match slot.partitionBy with
  | none => .ok [none]
  | some column =>
      match fields.get column with
      | none => .ok [before]
      | some moved => (partitionValueToKey slot.topic column moved).map fun after =>
          [before, some after]

/-- Run an append, and hand back the row as the database persisted it, if it did. -/
def runAppend (record : Record) : TxM (Option Value) := do
  let (sql, params, columns) ← check (buildAppendReturning substrate.engine slot.table
    slot.keyColumn record)
  let rows ← substrate.run sql params
  noteAuthor substrate slot principal (rows.rows.head?.bind fun row => row[0]?)
  pure (rows.rows.head?.bind fun row => returnedRecord columns row slot.typeOf)

def runDelete (write : ForgeWrite) (key : Value) : TxM Unit := do
  let (sql, params) ← check (buildStatement substrate.engine slot write)
  let _ ← substrate.run sql params
  let bound ← check (keyToSqlvalue substrate.engine slot.topic slot.keyColumn key)
  let _ ← substrate.run .deleteAuthor [.text slot.table, bound]
  pure ()

def runUpdate (write : ForgeWrite) : TxM Unit := do
  let (sql, params) ← check (buildStatement substrate.engine slot write)
  let _ ← substrate.run sql params
  pure ()

/-- One write: authorize it, resolve its channels, note them, run it and record its outcome. -/
def runWrite (touched : List Touched) : ForgeWrite → TxM (List Touched)
  | .append _ record => do
      let record ← check (authorizeAppend slot record principal)
      let partition ← check (appendPartition slot record)
      let touched ← check (noteResolved slot touched [partition])
      let persisted ← runAppend substrate slot principal record
      pure (recordOutcome touched slot persisted)
  | .update collection key fields => do
      authorizeAuthor substrate slot principal key
      let before ← readPartition substrate slot key
      check (authorizeExistingRow slot before principal)
      check (authorizePartitionMove slot fields principal)
      let resolved ← check (updatePartitions slot before fields)
      let touched ← check (noteResolved slot touched resolved)
      runUpdate substrate slot (.update collection key fields)
      pure (recordOutcome touched slot none)
  | .delete collection key => do
      authorizeAuthor substrate slot principal key
      let before ← readPartition substrate slot key
      check (authorizeExistingRow slot before principal)
      let touched ← check (noteResolved slot touched [before])
      runDelete substrate slot (.delete collection key) key
      pure (recordOutcome touched slot none)

end

def resolveSlots (schema : ForgeSchema) : List ForgeCollection → List ForgeWrite →
    Except SubstrateError (List ForgeCollection)
  | slots, [] => .ok slots
  | slots, write :: writes =>
      match schema.slotForTopic write.collection with
      | none => .error (.backend s!"FORGE write: '{write.collection}' is not a FORGE-backed collection")
      | some slot =>
          if slots.any fun known => known.topic = slot.topic then resolveSlots schema slots writes
          else resolveSlots schema (slots ++ [slot]) writes

/-- The writes in order. A collection found through a colliding wire id is not among
the resolved ones under its own name, and the lookup that expects it fails. -/
def runWrites (substrate : Substrate) (principal : Option PrincipalId)
    (slots : List ForgeCollection) : List Touched → List ForgeWrite → TxM (List Touched)
  | touched, [] => pure touched
  | touched, write :: writes =>
      match slots.find? fun slot => slot.topic = write.collection with
      | none => fun _ => .error .panicked
      | some slot => do
          let touched ← runWrite substrate slot principal touched write
          runWrites substrate principal slots touched writes

end Albedo.Forge
