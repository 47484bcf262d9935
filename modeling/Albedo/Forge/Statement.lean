import Albedo.Forge.Schema

/-!
# Writes, their statements and their owners

What an action body records, the statement each write becomes, and the checks on who
may make it: everything about one write that does not need the database. The checks
look a column up under its exact name; the statements they guard are matched by the
engine, which folds names.
-/
namespace Albedo.Forge
open Json Broadcast

structure PrincipalId where
  id : String
  valid : isValidPartitionKey id = true

def ada : PrincipalId := ⟨"ada", by decide⟩

/-- One durable mutation requested by an action body. -/
inductive ForgeWrite where
  | append (collection : String) (record : Record)
  | update (collection : String) (key : Value) (fields : Record)
  | delete (collection : String) (key : Value)

def ForgeWrite.collection : ForgeWrite → String
  | .append c _ | .update c _ _ | .delete c _ => c

/-! ### Values and identifiers -/

def jsonToSqlvalue (engine : Engine) (column : String) : Value → Except SubstrateError SqlValue
  | .null => .ok .null
  | .bool b => .ok (.integer (if b then 1 else 0))
  | .string s => .ok (.text s)
  | .number n =>
      match asI64 n, n with
      | some i, _ => .ok (.integer i)
      | none, .int i => .ok (.real (.finite (engine.intAsF64 i)))
      | none, .float f => .ok (.real (.finite f))
  | .object _ | .array _ =>
      .error (.backend (s!"FORGE append: column '{column}' is a nested object/array; " ++
        "append takes flat records of scalars"))

def appendColumns (engine : Engine) : Fields → Except SubstrateError (List SqlValue)
  | [] => .ok []
  | (column, value) :: rest => do
      if !isSafeIdentifier column then
        .error (.backend s!"FORGE append: '{column}' is not a valid column name")
      else
        let param ← jsonToSqlvalue engine column value
        let params ← appendColumns engine rest
        return param :: params

def buildAppend (engine : Engine) (collection : String) (record : Record) :
    Except SubstrateError (Sql × List SqlValue) := do
  if record.entries = [] then
    .error (.backend s!"FORGE append: record for '{collection}' is empty; nothing to write")
  else
    let params ← appendColumns engine record.entries
    return (.insert collection record.columns [], params)

/-- The append with the list of columns it hands back: the key, then the written ones. -/
def buildAppendReturning (engine : Engine) (table keyColumn : String) (record : Record) :
    Except SubstrateError (Sql × List SqlValue × List String) := do
  let (_, params) ← buildAppend engine table record
  let returned := keyColumn :: record.columns
  return (.insert table record.columns returned, params, returned)

def returnedRecord (columns : List String) (row : List SqlValue)
    (typeOf : String → Option FieldType) : Option Value := do
  let values ← columns.zipIdx.mapM fun (column, index) =>
    match row[index]? with
    | none => none
    | some (.blob _) => none
    | some stored => some (column, columnValueToJson stored (typeOf column))
  return collectObject values

def keyToSqlvalue (engine : Engine) (collection keyColumn : String) :
    Value → Except SubstrateError SqlValue
  | .null =>
      .error (.backend (s!"FORGE write: '{collection}' key ('{keyColumn}') is null; " ++
        "a mutation must identify exactly one row"))
  | scalar => jsonToSqlvalue engine keyColumn scalar

/-- Lower the columns of an update. The key column is refused under its own spelling. -/
def updateColumns (engine : Engine) (collection keyColumn : String) :
    Fields → Except SubstrateError (List SqlValue)
  | [] => .ok []
  | (column, value) :: rest => do
      if !isSafeIdentifier column then
        .error (.backend s!"FORGE update: '{column}' is not a valid column name")
      else if column = keyColumn then
        .error (.backend (s!"FORGE update: cannot change the key column '{keyColumn}' of " ++
          s!"'{collection}'; delete and re-append instead"))
      else
        let param ← jsonToSqlvalue engine column value
        let params ← updateColumns engine collection keyColumn rest
        return param :: params

def buildUpdate (engine : Engine) (collection keyColumn : String) (key : Value) (fields : Record) :
    Except SubstrateError (Sql × List SqlValue) := do
  if fields.entries = [] then
    .error (.backend s!"FORGE update: no fields to set for '{collection}'; nothing to change")
  else
    let params ← updateColumns engine collection keyColumn fields.entries
    let key ← keyToSqlvalue engine collection keyColumn key
    return (.update collection fields.columns keyColumn, params ++ [key])

def buildDelete (engine : Engine) (collection keyColumn : String) (key : Value) :
    Except SubstrateError (Sql × List SqlValue) := do
  let key ← keyToSqlvalue engine collection keyColumn key
  return (.delete collection keyColumn, [key])

def buildStatement (engine : Engine) (slot : ForgeCollection) :
    ForgeWrite → Except SubstrateError (Sql × List SqlValue)
  | .append _ record => buildAppend engine slot.table record
  | .update _ key fields => buildUpdate engine slot.table slot.keyColumn key fields
  | .delete _ key => buildDelete engine slot.table slot.keyColumn key

/-! ### Partitions -/

/-- How text is shown in an error: quoted, with its quotes and controls escaped. -/
def debugText (text : String) : String :=
  let shown := fun c : Char =>
    if c = '"' then "\\\"" else if c = '\\' then "\\\\" else if c = '\n' then "\\n"
    else if c = '\r' then "\\r" else if c = '\t' then "\\t" else if c = '\x00' then "\\0"
    else String.ofList [c]
  "\"" ++ String.join (text.toList.map shown) ++ "\""

def debugCell : Option SqlValue → String
  | none => "None"
  | some .null => "Some(Null)"
  | some (.integer i) => s!"Some(Integer({i}))"
  | some (.real (.finite x)) => s!"Some(Real({String.ofList x.text}))"
  | some (.real (.infinite negative)) => if negative then "Some(Real(-inf))" else "Some(Real(inf))"
  | some (.text t) => s!"Some(Text({debugText t}))"
  | some (.blob bytes) => "Some(Blob([" ++ String.intercalate ", " (bytes.map toString) ++ "]))"

def partitionText : Value → Option String
  | .string text => some text
  | .number n => if (asI64 n).isSome then some (String.ofList n.text) else none
  | _ => none

def partitionValueToKey (topic column : String) (value : Value) :
    Except SubstrateError String :=
  match partitionText value with
  | none => .error (.backend (s!"FORGE write: partition column '{column}' of '{topic}' must " ++
      s!"be text or an integer; got {String.ofList value.encode}"))
  | some key =>
      if isValidPartitionKey key then .ok key
      else .error (.backend (s!"FORGE write: partition key {debugText key} for '{topic}' is " ++
        "outside the permitted alphabet ([A-Za-z0-9_-], 1..=64)"))

def appendPartition (slot : ForgeCollection) (record : Record) :
    Except SubstrateError (Option String) :=
  match slot.partitionBy with
  | none => .ok none
  | some column =>
      match record.get column with
      | none => .error (.backend (s!"FORGE append: collection '{slot.topic}' is partitioned by " ++
          s!"'{column}', but the record does not set it — an append with no partition would be " ++
          "invisible to every reader"))
      | some value => (partitionValueToKey slot.topic column value).map some

def cellPartition (slot : ForgeCollection) (column : String) :
    Option SqlValue → Except SubstrateError String
  | some (.text text) => partitionValueToKey slot.topic column (.string text)
  | some (.integer number) => partitionValueToKey slot.topic column (.number (.int number))
  | other => .error (.backend (s!"FORGE write: partition column '{column}' of '{slot.topic}' read " ++
      s!"back as {debugCell other}, which is not a usable key"))

/-! ### Who may write -/

def anonymousWriteRefused (slot : ForgeCollection) : SubstrateError :=
  .backend (s!"FORGE write refused: '{slot.topic}' is partitioned by the signed-in principal, and " ++
    "this request is anonymous. There is no owner to check the write against, so it is refused " ++
    "rather than run unconstrained")

/-- The owner check for a row that already exists. A missing row is not a refusal. -/
def authorizeExistingRow (slot : ForgeCollection) (before : Option String)
    (principal : Option PrincipalId) : Except SubstrateError Unit :=
  if !slot.identityPartitioned then .ok ()
  else
    match principal, before with
    | none, _ => .error (anonymousWriteRefused slot)
    | some _, none => .ok ()
    | some principal, some owner =>
        if owner = principal.id then .ok ()
        else .error (.backend (s!"FORGE write refused: this row of '{slot.topic}' belongs to a " ++
          "different principal. A write may only touch the caller's own partition"))

/-- The owner check for the row an update leaves behind. -/
def authorizePartitionMove (slot : ForgeCollection) (fields : Record)
    (principal : Option PrincipalId) : Except SubstrateError Unit :=
  if !slot.identityPartitioned then .ok ()
  else
    match slot.partitionBy with
    | none => .ok ()
    | some column =>
        match fields.get column, principal with
        | none, _ => .ok ()
        | some _, none => .error (anonymousWriteRefused slot)
        | some moved, some principal =>
            if moved = .string principal.id then .ok ()
            else .error (.backend (s!"FORGE update refused: '{column}' is what makes a row of " ++
              s!"'{slot.topic}' belong to someone, so setting it to another principal would hand " ++
              "the row away. A row cannot be given to a different owner"))

/-- An append's owner is supplied: injected when absent, refused when someone else. -/
def authorizeAppend (slot : ForgeCollection) (record : Record) (principal : Option PrincipalId) :
    Except SubstrateError Record :=
  if !slot.identityPartitioned then .ok record
  else
    match slot.partitionBy with
    | none => .ok record
    | some column =>
        match principal with
        | none => .error (anonymousWriteRefused slot)
        | some principal =>
            match record.get column with
            | none => .ok (record.insert column (.string principal.id))
            | some owner =>
                if owner = .string principal.id then .ok record
                else .error (.backend (s!"FORGE append refused: '{column}' names the owner of a " ++
                  s!"row in '{slot.topic}', and this record sets it to someone other than the " ++
                  "caller. Leave it out — the server fills it in from the signed-in principal"))

def anonymousChangeRefused (slot : ForgeCollection) : SubstrateError :=
  .backend (s!"FORGE write refused: a row of '{slot.topic}' can be changed only by the signed-in " ++
    "user who added it, and this request is anonymous. Declare `edit: \"anyone\"` on the " ++
    "collection if any visitor may change any row")

def checkAuthor (slot : ForgeCollection) (principal : PrincipalId) :
    Option SqlValue → Except SubstrateError Unit
  | some (.text author) =>
      if author = principal.id then .ok ()
      else .error (.backend (s!"FORGE write refused: this row of '{slot.topic}' was added by a " ++
        "different user. A row can be changed only by the user who added it"))
  | _ => .error (.backend (s!"FORGE write refused: this row of '{slot.topic}' has no recorded " ++
      "author — it was added anonymously, seeded, or written before authorship was recorded — so " ++
      "no request may change it. Declare `edit: \"anyone\"` on the collection if any visitor may"))

/-! ### What the checks and the builders guarantee -/

theorem partitionValueToKey_spec {topic column key : String} {value : Value}
    (h : partitionValueToKey topic column value = .ok key) :
    partitionText value = some key ∧ isValidPartitionKey key = true := by
  unfold partitionValueToKey at h
  cases ht : partitionText value with
  | none => simp [ht] at h
  | some k =>
      simp only [ht] at h
      split_ifs at h with hvalid
      obtain rfl : k = key := by simpa using h
      exact ⟨rfl, hvalid⟩

end Albedo.Forge
