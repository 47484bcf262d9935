import Mathlib.Data.List.Nodup

/-!
# Tables with a unique key

Rows in the order they came, no two with the same key. An insert under a key that is taken
has no result, or changes nothing where that is asked for.
-/
namespace Albedo

structure UniqueTable {α κ : Type} (key : α → κ) where
  rows : List α
  unique : (rows.map key).Nodup

namespace UniqueTable

variable {α κ : Type} {key : α → κ} {t t' : UniqueTable key} {row r s : α} {k : κ}

def empty : UniqueTable key := ⟨[], List.nodup_nil⟩

instance : Membership α (UniqueTable key) := ⟨fun t r => r ∈ t.rows⟩

instance [DecidableEq α] : Decidable (r ∈ t) := inferInstanceAs (Decidable (r ∈ t.rows))

theorem mem_rows : r ∈ t ↔ r ∈ t.rows := Iff.rfl

@[simp] theorem not_mem_empty : r ∉ (empty : UniqueTable key) := List.not_mem_nil

theorem eq_of_key (hr : r ∈ t) (hs : s ∈ t) (h : key r = key s) : r = s :=
  List.inj_on_of_nodup_map t.unique hr hs h

/-- `DELETE … WHERE p`. -/
def delete (t : UniqueTable key) (p : α → Bool) : UniqueTable key where
  rows := t.rows.filter fun r => !p r
  unique := t.unique.sublist (List.filter_sublist.map _)

@[simp] theorem mem_delete {p : α → Bool} : r ∈ t.delete p ↔ r ∈ t ∧ p r = false := by
  rw [mem_rows, delete, List.mem_filter, Bool.not_eq_true', mem_rows]

/-- `UPDATE … WHERE p`, of columns outside the key. -/
def update (t : UniqueTable key) (p : α → Bool) (f : α → α) (h : ∀ r, key (f r) = key r) :
    UniqueTable key where
  rows := t.rows.map fun r => if p r then f r else r
  unique := by
    have hkeys : (t.rows.map fun r => if p r then f r else r).map key = t.rows.map key := by
      rw [List.map_map]
      refine List.map_congr_left fun r _ => ?_
      rw [Function.comp_apply]
      split_ifs
      · exact h r
      · rfl
    rw [hkeys]
    exact t.unique

def Free (t : UniqueTable key) (row : α) : Prop := key row ∉ t.rows.map key

theorem free_iff : t.Free row ↔ ∀ r ∈ t, key r ≠ key row := by
  rw [Free, List.mem_map]
  constructor
  · intro h r hr hkey
    exact h ⟨r, hr, hkey⟩
  · rintro h ⟨r, hr, hkey⟩
    exact h r hr hkey

def put (t : UniqueTable key) (row : α) (h : t.Free row) : UniqueTable key where
  rows := t.rows ++ [row]
  unique := by
    rw [List.map_append, List.map_singleton, ← List.concat_eq_append]
    exact t.unique.concat h

@[simp] theorem mem_put (h : t.Free row) : r ∈ t.put row h ↔ r ∈ t ∨ r = row := by
  rw [mem_rows, put, List.mem_append, List.mem_singleton, mem_rows]

variable [DecidableEq κ]

def find? (t : UniqueTable key) (k : κ) : Option α := t.rows.find? fun r => key r = k

theorem find?_some (h : t.find? k = some r) : r ∈ t ∧ key r = k :=
  ⟨List.mem_of_find?_eq_some h, by simpa using List.find?_some h⟩

theorem find?_eq_none : t.find? k = none ↔ ∀ r ∈ t, key r ≠ k := by
  rw [find?, List.find?_eq_none]
  simp [mem_rows]

theorem find?_of_mem (h : r ∈ t) : t.find? (key r) = some r := by
  cases hfind : t.find? (key r) with
  | none => exact absurd rfl (find?_eq_none.mp hfind r h)
  | some s =>
      obtain ⟨hs, hkey⟩ := find?_some hfind
      rw [eq_of_key hs h hkey]

theorem find?_eq_some : t.find? k = some r ↔ r ∈ t ∧ key r = k := by
  constructor
  · exact find?_some
  · rintro ⟨hr, rfl⟩
    exact find?_of_mem hr

instance : Decidable (t.Free row) := inferInstanceAs (Decidable (key row ∉ t.rows.map key))

/-- `INSERT`: no result where the key is taken. -/
def insert (t : UniqueTable key) (row : α) : Option (UniqueTable key) :=
  if h : t.Free row then some (t.put row h) else none

theorem insert_eq_some : t.insert row = some t' ↔ ∃ h : t.Free row, t' = t.put row h := by
  unfold insert
  split_ifs with h
  · constructor
    · intro heq
      exact ⟨h, (Option.some.inj heq).symm⟩
    · rintro ⟨_, rfl⟩
      rfl
  · constructor
    · intro heq
      cases heq
    · rintro ⟨hfree, -⟩
      exact absurd hfree h

theorem map_insert_eq_some {β : Type} {f : UniqueTable key → β} {b : β} :
    (t.insert row).map f = some b ↔ ∃ h : t.Free row, b = f (t.put row h) := by
  rw [Option.map_eq_some_iff]
  constructor
  · rintro ⟨t', hinsert, rfl⟩
    obtain ⟨h, rfl⟩ := insert_eq_some.mp hinsert
    exact ⟨h, rfl⟩
  · rintro ⟨h, rfl⟩
    exact ⟨_, insert_eq_some.mpr ⟨h, rfl⟩, rfl⟩

/-- `INSERT OR IGNORE`. -/
def insertOrIgnore (t : UniqueTable key) (row : α) : UniqueTable key := (t.insert row).getD t

theorem mem_insertOrIgnore : r ∈ t.insertOrIgnore row ↔ r ∈ t ∨ r = row ∧ t.Free row := by
  unfold insertOrIgnore insert
  split_ifs with h
  · rw [Option.getD_some, mem_put]
    simp [h]
  · simp [h]

end UniqueTable

end Albedo
