import Mathlib.Algebra.Group.Int.Defs
import Mathlib.Data.String.Basic
import Albedo.Library.Json

/-!
# Values crossing the substrate boundary

Cells as the storage engine holds them, the declared types of a collection's
fields, and the translation between cells and JSON in both directions.
-/
namespace Albedo.Forge
open Json

/-- The largest signed 64-bit integer, plus one. -/
def i64Bound : ℤ := 2 ^ 63

/-- A float as the engine stores it: JSON has no infinities, a column can. -/
inductive Real where
  | finite (x : F64)
  | infinite (negative : Bool)
  deriving DecidableEq

def Real.isZero : Real → Bool
  | .finite x => x.isZero
  | .infinite _ => false

inductive SqlValue where
  | null
  | integer (i : ℤ)
  | real (r : Real)
  | text (s : String)
  | blob (bytes : List UInt8)
  deriving DecidableEq

structure Rows where
  columns : List String
  rows : List (List SqlValue)

inductive SubstrateError where
  | backend (message : String)
  | migration (message : String)
  | query (message : String)
  deriving DecidableEq

def SubstrateError.message : SubstrateError → String
  | .backend m => s!"substrate backend error: {m}"
  | .migration m => s!"migration failed: {m}"
  | .query m => s!"query failed: {m}"

inductive FieldType where
  | text
  | int
  | real
  | bool
  | timestamp

structure FieldSpec where
  ty : FieldType
  nullable : Bool

abbrev Fields := List (String × Value)

/-- `insert` of an ordered map: in place when the key is there, in order otherwise. -/
def Fields.insert (key : String) (value : Value) : Fields → Fields
  | [] => [(key, value)]
  | (k, v) :: rest =>
      if key = k then (key, value) :: rest
      else if key < k then (key, value) :: (k, v) :: rest
      else (k, v) :: Fields.insert key value rest

theorem Fields.mem_insert {key : String} {value : Value} {fields : Fields} {g : String × Value}
    (h : g ∈ fields.insert key value) : g = (key, value) ∨ g ∈ fields := by
  induction fields with
  | nil => exact Or.inl (List.mem_singleton.mp h)
  | cons f rest ih =>
      obtain ⟨l, w⟩ := f
      unfold Fields.insert at h
      split_ifs at h
      · rcases List.mem_cons.mp h with h | h
        · exact Or.inl h
        · exact Or.inr (by simp [h])
      · rcases List.mem_cons.mp h with h | h
        · exact Or.inl h
        · exact Or.inr h
      · rcases List.mem_cons.mp h with h | h
        · exact Or.inr (by simp [h])
        · exact (ih h).imp_right fun h => by simp [h]

/-- The keys are in ascending order, so no two are equal. -/
def Fields.Sorted (fields : Fields) : Prop := fields.Pairwise fun f g => f.1 < g.1

instance (fields : Fields) : Decidable fields.Sorted :=
  inferInstanceAs (Decidable (fields.Pairwise fun f g => f.1 < g.1))

theorem Fields.insert_sorted (key : String) (value : Value) {fields : Fields} (h : fields.Sorted) :
    Fields.Sorted (fields.insert key value) := by
  induction fields with
  | nil => simp [Fields.insert, Fields.Sorted]
  | cons f rest ih =>
      obtain ⟨k, v⟩ := f
      obtain ⟨hhead, hrest⟩ := List.pairwise_cons.mp h
      unfold Fields.insert
      split_ifs with heq hlt
      · subst heq
        exact List.pairwise_cons.mpr ⟨hhead, hrest⟩
      · refine List.pairwise_cons.mpr ⟨fun g hg => ?_, h⟩
        rcases List.mem_cons.mp hg with rfl | hg
        · exact hlt
        · exact lt_trans hlt (hhead g hg)
      · refine List.pairwise_cons.mpr ⟨fun g hg => ?_, ih hrest⟩
        rcases Fields.mem_insert hg with hg | hg
        · rw [hg]
          exact lt_of_le_of_ne (not_lt.mp hlt) (Ne.symm heq)
        · exact hhead g hg

/-- A flat record as an action body hands it over: a sorted map of columns. -/
structure Record where
  entries : Fields
  sorted : entries.Sorted

def Record.single (column : String) (value : Value) : Record :=
  ⟨[(column, value)], List.pairwise_singleton _ _⟩

def Record.get (r : Record) (column : String) : Option Value := r.entries.lookup column

def Record.insert (r : Record) (column : String) (value : Value) : Record :=
  ⟨r.entries.insert column value, Fields.insert_sorted column value r.sorted⟩

def Record.columns (r : Record) : List String := r.entries.map Prod.fst

/-! ### Cells to JSON -/

def sqlvalueToJson : SqlValue → Value
  | .null => .null
  | .integer i => .number (.int i)
  | .real (.finite x) => .number (.float x)
  | .real (.infinite _) => .null
  | .text s => .string s
  | .blob bytes => .array (bytes.map fun b => .number (.int b.toNat))

def columnValueToJson (value : SqlValue) (declared : Option FieldType) : Value :=
  match declared, value with
  | _, .null => .null
  | some .bool, .integer i => .bool (i ≠ 0)
  | some .bool, .real r => .bool (!r.isZero)
  | _, v => sqlvalueToJson v

def collectObject (pairs : List (String × Value)) : Value :=
  .object (pairs.foldl (fun fields p => Fields.insert p.1 p.2 fields) [])

def rowKey : Value → Option String
  | .string text => some text
  | .number n => some (String.ofList n.text)
  | .bool flag => some (toString flag)
  | .null | .object _ | .array _ => none

/-! ### JSON to cells -/

def asI64 : Number → Option ℤ
  | .int i => if -i64Bound ≤ i ∧ i < i64Bound then some i else none
  | .float _ => none

end Albedo.Forge
