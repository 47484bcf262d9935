import Mathlib.Algebra.Order.Group.Int
import Mathlib.Data.List.Pairwise
import Mathlib.Data.List.Nodup
import Mathlib.Data.Option.Basic
import Mathlib.Logic.Function.Basic

/-!
# The reservation tables

Resources by their key, reservations in the order of their ids. A row that breaks a
constraint of the schema cannot be built: a statement that would have to has no result.
Integers do not overflow where the constraints hold, so `ℤ` stands for the 64-bit column.
-/
namespace Albedo.Reserve

/-- A row of `forge_resource`, with its `CHECK`s. -/
structure Resource where
  capacity : ℤ
  remaining : ℤ
  nonneg : 0 ≤ remaining
  within : remaining ≤ capacity

/-- A row of `forge_reservation`, with its `CHECK`. -/
structure Reservation where
  id : ℤ
  resourceKey : String
  holder : String
  quantity : ℤ
  idempotencyKey : Option String
  positive : 0 < quantity

structure Store where
  resource : String → Option Resource
  reservations : List Reservation
  lastId : ℤ
  ids : reservations.Pairwise fun r s => r.id < s.id
  issued : ∀ r ∈ reservations, r.id ≤ lastId
  keys : (reservations.filterMap Reservation.idempotencyKey).Nodup

def Store.empty : Store := ⟨fun _ => none, [], 0, .nil, fun _ h => absurd h List.not_mem_nil, .nil⟩

structure Request where
  resource : String
  holder : String
  quantity : ℤ
  idempotencyKey : Option String

/-! ### Statements -/

def Resource.setRemaining (r : Resource) (n : ℤ) : Option Resource :=
  if h : 0 ≤ n ∧ n ≤ r.capacity then some { r with remaining := n, nonneg := h.1, within := h.2 }
  else none

def Store.setResource (s : Store) (key : String) (r : Resource) : Store :=
  { s with resource := Function.update s.resource key (some r) }

/-- `INSERT INTO forge_resource … ON CONFLICT (key) DO NOTHING`. -/
def Store.insertResource (s : Store) (key : String) (capacity : ℤ) : Option Store :=
  if h : 0 ≤ capacity then
    match s.resource key with
    | some _ => some s
    | none => some (s.setResource key ⟨capacity, capacity, h, le_refl capacity⟩)
  else none

/-- `SELECT remaining FROM forge_resource WHERE key = ?`. -/
def Store.remaining (s : Store) (key : String) : Option ℤ :=
  (s.resource key).map Resource.remaining

/-- `SELECT … FROM forge_reservation WHERE idempotency_key = ?`. -/
def Store.prior (s : Store) (key : String) : Option Reservation :=
  s.reservations.find? fun r => r.idempotencyKey = some key

/-- `SELECT … FROM forge_reservation WHERE id = ?`. -/
def Store.reservation (s : Store) (id : ℤ) : Option Reservation :=
  s.reservations.find? fun r => r.id = id

/-- `UPDATE … SET remaining = remaining - n WHERE key = ? AND remaining >= n RETURNING remaining`:
the row it returns, if there was one to update. -/
def Store.takeSupply (s : Store) (key : String) (n : ℤ) : Option (Option ℤ × Store) :=
  match s.resource key with
  | none => some (none, s)
  | some r =>
      if n ≤ r.remaining then
        (r.setRemaining (r.remaining - n)).map fun r => (some r.remaining, s.setResource key r)
      else some (none, s)

/-- `UPDATE … SET remaining = remaining + n WHERE key = ?`. -/
def Store.returnSupply (s : Store) (key : String) (n : ℤ) : Option Store :=
  match s.resource key with
  | none => some s
  | some r => (r.setRemaining (r.remaining + n)).map (s.setResource key)

/-- `DELETE FROM forge_reservation WHERE id = ?`. -/
def Store.deleteReservation (s : Store) (id : ℤ) : Store where
  resource := s.resource
  reservations := s.reservations.filter fun r => r.id ≠ id
  lastId := s.lastId
  ids := s.ids.filter _
  issued := fun r hr => s.issued r (List.mem_of_mem_filter hr)
  keys := s.keys.sublist (List.filter_sublist.filterMap _)

/-! ### Rows -/

theorem Store.reservation_some {s : Store} {id : ℤ} {r : Reservation}
    (h : s.reservation id = some r) : r ∈ s.reservations ∧ r.id = id :=
  ⟨List.mem_of_find?_eq_some h, by simpa using List.find?_some h⟩

theorem Store.prior_some {s : Store} {key : String} {r : Reservation}
    (h : s.prior key = some r) : r ∈ s.reservations ∧ r.idempotencyKey = some key :=
  ⟨List.mem_of_find?_eq_some h, by simpa using List.find?_some h⟩

theorem Store.prior_none {s : Store} {key : String} :
    s.prior key = none ↔ ∀ r ∈ s.reservations, r.idempotencyKey ≠ some key := by
  simp [Store.prior, List.find?_eq_none]

def Request.reservation (req : Request) (id : ℤ) (h : 0 < req.quantity) : Reservation :=
  ⟨id, req.resource, req.holder, req.quantity, req.idempotencyKey, h⟩

theorem Store.keys_append {s : Store} {r : Reservation}
    (h : ∀ key ∈ r.idempotencyKey, s.prior key = none) :
    ((s.reservations ++ [r]).filterMap Reservation.idempotencyKey).Nodup := by
  rw [List.filterMap_append]
  cases hkey : r.idempotencyKey with
  | none => simpa [List.filterMap_cons_none hkey] using s.keys
  | some key =>
      rw [List.filterMap_cons_some hkey, List.filterMap_nil]
      refine List.nodup_append.mpr ⟨s.keys, List.nodup_singleton key, fun k hk k' hk' heq => ?_⟩
      rw [List.mem_singleton] at hk'
      subst heq hk'
      obtain ⟨r', hr', hkey'⟩ := List.mem_filterMap.mp hk
      exact Store.prior_none.mp (h k hkey) r' hr' hkey'

/-- `INSERT INTO forge_reservation … RETURNING id`. -/
def Store.insertReservation (s : Store) (req : Request) : Option (ℤ × Store) :=
  if h : 0 < req.quantity ∧ ∀ key ∈ req.idempotencyKey, s.prior key = none then
    some (s.lastId + 1,
      { resource := s.resource
        reservations := s.reservations ++ [req.reservation (s.lastId + 1) h.1]
        lastId := s.lastId + 1
        ids := by
          refine List.pairwise_append.mpr ⟨s.ids, List.pairwise_singleton _ _, fun r hr r' hr' => ?_⟩
          rw [List.mem_singleton.mp hr']
          exact Int.lt_add_one_of_le (s.issued r hr)
        issued := by
          intro r hr
          rcases List.mem_append.mp hr with hr | hr
          · exact Int.le_trans (s.issued r hr) (Int.le_add_one (Int.le_refl _))
          · rw [List.mem_singleton.mp hr]
            exact Int.le_refl _
        keys := Store.keys_append h.2 })
  else none

end Albedo.Reserve
