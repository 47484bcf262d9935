import Albedo.Forge.Schema
import Albedo.Library.KeyedList

/-!
# What changed between two values of a collection

The record-level diff, the classifiers that decide which wire shape can carry a
transition, and the rendered rows they are paired with. Everything here is a pure
function of two JSON arrays or of their texts.
-/
namespace Albedo.Forge
open Json Broadcast

/-- The outer HTML of one rendered row: an element's markup, so never empty. -/
structure Markup where
  html : String
  nonempty : html ≠ ""

structure RenderedRows where
  rows : List (String × Markup)
  nodup : (KeyedList.keys rows).Nodup

def RenderedRows.new : RenderedRows := ⟨[], by simp⟩

def RenderedRows.keys (r : RenderedRows) : List String := KeyedList.keys r.rows

def RenderedRows.get (r : RenderedRows) (key : String) : Option Markup := r.rows.lookup key

def RenderedRows.insert (r : RenderedRows) (key : String) (value : Markup) : RenderedRows where
  rows := KeyedList.put key value r.rows
  nodup := KeyedList.nodup_put key value r.nodup

inductive RowProjection where
  | perRecord
  | wholeView
  deriving DecidableEq

structure RowProjector where
  projectRows : String → Option String → List Char → Option RenderedRows
  projectionClass : String → RowProjection

structure RecordChange where
  weight : ℤ
  key : String
  record : Value

/-- A collection's records by key, in order. -/
abbrev Keyed := List (String × Value)

def recordKey (keyColumn : String) (record : Value) : Option String :=
  (record.get keyColumn).bind rowKey

/-- The keys and records of the rows, refused when a key is missing or repeated. -/
def indexFrom (keyColumn : String) : List String → List Value → Option Keyed
  | _, [] => some []
  | seen, row :: rows => do
      let key ← recordKey keyColumn row
      if key ∈ seen then none
      else
        let rest ← indexFrom keyColumn (key :: seen) rows
        return (key, row) :: rest

def indexByKey (rows : List Value) (keyColumn : String) : Option Keyed :=
  indexFrom keyColumn [] rows

def changesAt (previous : Keyed) (row : String × Value) : List RecordChange :=
  match previous.lookup row.1 with
  | some before =>
      if before.same row.2 then [] else [⟨-1, row.1, before⟩, ⟨1, row.1, row.2⟩]
  | none => [⟨1, row.1, row.2⟩]

/-- The signed changes between two keyed lists: retractions, then the next order. -/
def diffKeyed (previous next : Keyed) : List RecordChange :=
  (previous.filter fun row => row.1 ∉ KeyedList.keys next).map
      (fun row => ⟨-1, row.1, row.2⟩) ++
    next.flatMap (changesAt previous)

def diffRecords (previous next : Value) (keyColumn : String) : Option (List RecordChange) := do
  let previous ← indexByKey (← previous.asArray) keyColumn
  let next ← indexByKey (← next.asArray) keyColumn
  return diffKeyed previous next

def projectChange (rows : RenderedRows) (change : RecordChange) : Option SlotChange :=
  (if change.weight < 0 then some "" else (rows.get change.key).map Markup.html).map
    fun payload => { weight := change.weight, key := change.key, payload }

def projectChanges (changes : List RecordChange) (rows : RenderedRows) :
    Option (List SlotChange) :=
  changes.mapM (projectChange rows)

def insertsLast (previous : List String) : Bool → List String → Bool
  | _, [] => true
  | seenInsert, key :: keys =>
      if key ∈ previous then !seenInsert && insertsLast previous seenInsert keys
      else insertsLast previous true keys

/-- Whether the survivors keep their order and every insert comes after them. -/
def isTailAppend (previous next : Value) (keyColumn : String) : Bool :=
  match previous.asArray, next.asArray with
  | some prev, some next =>
      match indexByKey prev keyColumn, indexByKey next keyColumn with
      | some prev, some next =>
          let prevKeys := KeyedList.keys prev
          let nextKeys := KeyedList.keys next
          prevKeys.filter (· ∈ nextKeys) = nextKeys.filter (· ∈ prevKeys) &&
            insertsLast prevKeys false nextKeys
      | _, _ => false
  | _, _ => false

/-- Whether `fragment` occurs in `text`. -/
def containsText (text fragment : List Char) : Bool := text.tails.any fragment.isPrefixOf

/-- Key the appended records, refused when a key repeats or its text occurs before. -/
def keyAppended (previous : List Char) (keyColumn : String) :
    List String → List Value → Option Keyed
  | _, [] => some []
  | seen, record :: records => do
      let keyValue ← record.get keyColumn
      let key ← rowKey keyValue
      if key ∈ seen then none
      else if containsText previous (encodeString keyColumn ++ ':' :: keyValue.encode) then none
      else
        let rest ← keyAppended previous keyColumn (key :: seen) records
        return (key, record) :: rest

/-- The rows `next` appends to `previous`, decided on their texts. `next` is a
rendered array, so it is never just `previous` without its bracket. -/
def appendedRows (previous next : List Char) (keyColumn : String) : Option Keyed :=
  if previous.length < 2 ∨ previous.head? ≠ some '[' ∨ previous.getLast? ≠ some ']' ∨
      next.getLast? ≠ some ']' then none
  else if !previous.dropLast.isPrefixOf next then none
  else
    match (next.drop previous.dropLast.length).dropLast with
    | [] => some []
    | c :: tail =>
        let body := if c = ',' then tail else c :: tail
        match fromSlice ('[' :: (body ++ [']'])) with
        | some (.array records) => keyAppended previous keyColumn [] records
        | _ => none

structure PositionedInsert where
  before : Option String
  keys : List String

structure InsertWalk where
  keys : List String
  before : Option String
  runClosed : Bool
  survivors : List String

def walkInsert (previous : Keyed) (walk : InsertWalk) (row : String × Value) :
    Option InsertWalk :=
  match previous.lookup row.1 with
  | some record =>
      if !record.same row.2 then none
      else if walk.keys ≠ [] ∧ !walk.runClosed then
        some { walk with
          before := some row.1
          runClosed := true
          survivors := walk.survivors ++ [row.1] }
      else some { walk with survivors := walk.survivors ++ [row.1] }
  | none => if walk.runClosed then none else some { walk with keys := walk.keys ++ [row.1] }

/-- Whether the transition adds one run of rows and touches nothing else. -/
def classifyKeyedInsert (previous next : Keyed) : Option PositionedInsert := do
  if previous.any fun row => row.1 ∉ KeyedList.keys next then none
  else
    let walk ← next.foldlM (walkInsert previous) ⟨[], none, false, []⟩
    if walk.keys = [] then none
    else if KeyedList.keys previous ≠ walk.survivors then none
    else return { before := walk.before, keys := walk.keys }

def classifyPositionedInsert (previous next : Value) (keyColumn : String) :
    Option PositionedInsert := do
  let previous ← indexByKey (← previous.asArray) keyColumn
  let next ← indexByKey (← next.asArray) keyColumn
  classifyKeyedInsert previous next

def projectInsertedRows (insert : PositionedInsert) (rows : RenderedRows) :
    Option (List ReconcileRow) :=
  insert.keys.mapM fun key => (rows.get key).map fun markup => ⟨key, markup.html⟩

/-! ### Indexing -/

theorem recordKey_object {keyColumn key : String} {record : Value}
    (h : recordKey keyColumn record = some key) (n : Number) : record ≠ .number n := by
  rintro rfl
  simp [recordKey, Value.get] at h

theorem indexFrom_spec {keyColumn : String} {seen : List String} {rows : List Value} {index : Keyed}
    (h : indexFrom keyColumn seen rows = some index) :
    index.map Prod.snd = rows ∧ (KeyedList.keys index).Nodup ∧
      (∀ key ∈ KeyedList.keys index, key ∉ seen) ∧
      ∀ row ∈ index, recordKey keyColumn row.2 = some row.1 := by
  induction rows generalizing seen index with
  | nil =>
      obtain rfl : index = [] := by simpa [indexFrom, eq_comm] using h
      simp
  | cons row rows ih =>
      cases hkey : recordKey keyColumn row with
      | none => simp [indexFrom, hkey] at h
      | some key =>
          by_cases hseen : key ∈ seen
          · simp [indexFrom, hkey, hseen] at h
          · cases hrest : indexFrom keyColumn (key :: seen) rows with
            | none => simp [indexFrom, hkey, hseen, hrest] at h
            | some rest =>
                obtain rfl : (key, row) :: rest = index := by
                  simpa [indexFrom, hkey, hseen, hrest] using h
                obtain ⟨hrows, hnodup, hfresh, hkeys⟩ := ih hrest
                refine ⟨by simp [hrows], ?_, ?_, ?_⟩
                · rw [KeyedList.keys_cons, List.nodup_cons]
                  exact ⟨fun hmem => hfresh key hmem (by simp), hnodup⟩
                · intro k hk
                  rcases List.mem_cons.mp hk with rfl | hk
                  · exact hseen
                  · exact fun hmem => hfresh k hk (by simp [hmem])
                · intro r hr
                  rcases List.mem_cons.mp hr with rfl | hr
                  · exact hkey
                  · exact hkeys r hr

theorem indexByKey_spec {keyColumn : String} {rows : List Value} {index : Keyed}
    (h : indexByKey rows keyColumn = some index) :
    index.map Prod.snd = rows ∧ (KeyedList.keys index).Nodup ∧
      ∀ row ∈ index, recordKey keyColumn row.2 = some row.1 := by
  obtain ⟨hrows, hnodup, _, hkeys⟩ := indexFrom_spec h
  exact ⟨hrows, hnodup, hkeys⟩

theorem indexByKey_not_number {keyColumn : String} {rows : List Value} {index : Keyed}
    (h : indexByKey rows keyColumn = some index) : ∀ row ∈ rows, ∀ n, row ≠ .number n := by
  obtain ⟨hrows, _, hkeys⟩ := indexByKey_spec h
  intro row hrow n
  rw [← hrows, List.mem_map] at hrow
  obtain ⟨entry, hentry, rfl⟩ := hrow
  exact recordKey_object (hkeys entry hentry) n

theorem keyAppended_spec {previous : List Char} {keyColumn : String} {seen : List String}
    {records : List Value} {index : Keyed}
    (h : keyAppended previous keyColumn seen records = some index) :
    index.map Prod.snd = records ∧ ∀ row ∈ index, recordKey keyColumn row.2 = some row.1 := by
  induction records generalizing seen index with
  | nil =>
      obtain rfl : index = [] := by simpa [keyAppended, eq_comm] using h
      simp
  | cons record records ih =>
      cases hvalue : record.get keyColumn with
      | none => simp [keyAppended, hvalue] at h
      | some keyValue =>
          cases hkey : rowKey keyValue with
          | none => simp [keyAppended, hvalue, hkey] at h
          | some key =>
              simp only [keyAppended, hvalue, hkey, Option.bind_eq_bind, Option.bind_some] at h
              split_ifs at h
              cases hrest : keyAppended previous keyColumn (key :: seen) records with
              | none => simp [hrest] at h
              | some rest =>
                  obtain rfl : (key, record) :: rest = index := by simpa [hrest] using h
                  obtain ⟨hrows, hkeys⟩ := ih hrest
                  refine ⟨by simp [hrows], ?_⟩
                  intro r hr
                  rcases List.mem_cons.mp hr with rfl | hr
                  · simp [recordKey, hvalue, hkey]
                  · exact hkeys r hr

end Albedo.Forge
