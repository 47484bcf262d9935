import Albedo.Library.Interleave
import Albedo.Reserve.Store

/-!
# Claiming a bounded resource

`reserve` answers from lock-free reads where it can, and otherwise takes the supply and
records the claim in one transaction; `release` gives the supply back. What a call does on
its own, whichever way it goes, is `Store.answer`.
-/
namespace Albedo.Reserve
open Interleave

inductive ReserveOutcome where
  | reserved (reservationId remaining : ℤ)
  | replayed (reservationId remaining : ℤ)
  | exhausted (remaining : ℤ)

inductive ReleaseOutcome where
  | released (remaining : ℤ)
  | notFound

/-- What was stored and what was asked for, where a key is reused for another request. -/
structure IdempotencyConflict where
  key : String
  storedResource : String
  storedHolder : String
  storedQuantity : ℤ
  requestedResource : String
  requestedHolder : String
  requestedQuantity : ℤ
  deriving DecidableEq

/-- The errors that are the caller's. A failing store ends a call without an answer. -/
inductive ReserveError where
  | unknownResource (resource : String)
  | invalidQuantity (quantity : ℤ)
  | idempotencyConflict (conflict : IdempotencyConflict)
  deriving DecidableEq

/-- What the calls answer: `define`, `reserve` and `release`. -/
inductive Answer where
  | defined (result : Except ReserveError Unit)
  | reserve (result : Except ReserveError ReserveOutcome)
  | release (result : Except ReserveError ReleaseOutcome)

inductive Op where
  | define (resource : String) (capacity : ℤ)
  | reserve (req : Request)
  | release (reservationId : ℤ)

/-- Whether a replay asks for what the stored claim holds. -/
def ensureMatches (prior : Reservation) (req : Request) (key : String) :
    Except ReserveError Unit :=
  if (prior.resourceKey, prior.holder, prior.quantity) = (req.resource, req.holder, req.quantity)
  then .ok ()
  else .error (.idempotencyConflict ⟨key, prior.resourceKey, prior.holder, prior.quantity,
    req.resource, req.holder, req.quantity⟩)

/-! ### The calls -/

def define (resource : String) (capacity : ℤ) : Prog Store Answer :=
  if capacity < 0 then .done (.defined (.error (.invalidQuantity capacity)))
  else .execute (fun s => (s.insertResource resource capacity).map fun s => ((), s)) fun _ =>
    .done (.defined (.ok ()))

def replayed (prior : Reservation) (remaining : Option ℤ) : Except ReserveError ReserveOutcome :=
  match remaining with
  | none => .error (.unknownResource prior.resourceKey)
  | some remaining => .ok (.replayed prior.id remaining)

def lost (req : Request) (remaining : Option ℤ) : Except ReserveError ReserveOutcome :=
  match remaining with
  | none => .error (.unknownResource req.resource)
  | some remaining => .ok (.exhausted remaining)

def claim (req : Request) : Tx Store (Except ReserveError ReserveOutcome) :=
  .execute (fun s => s.takeSupply req.resource req.quantity) fun
    | none => .read (fun s => s.remaining req.resource) fun remaining =>
        .rollback (lost req remaining)
    | some remaining => .execute (fun s => s.insertReservation req) fun id =>
        .commit (.ok (.reserved id remaining))

def reserveTx (req : Request) : Tx Store (Except ReserveError ReserveOutcome) :=
  match req.idempotencyKey with
  | none => claim req
  | some key => .read (fun s => s.prior key) fun
      | none => claim req
      | some prior =>
          match ensureMatches prior req key with
          | .error err => .rollback (.error err)
          | .ok () => .read (fun s => s.remaining prior.resourceKey) fun remaining =>
              .rollback (replayed prior remaining)

def reserveLocked (req : Request) : Prog Store Answer :=
  .transaction (reserveTx req) fun result => .done (.reserve result)

/-- The second fast path: a claim the supply cannot cover takes no lock. -/
def reserveCovered (req : Request) : Prog Store Answer :=
  .read (fun s => s.remaining req.resource) fun
    | none => .done (.reserve (.error (.unknownResource req.resource)))
    | some remaining =>
        if remaining < req.quantity then .done (.reserve (.ok (.exhausted remaining)))
        else reserveLocked req

/-- A claim, with the first fast path: a replay takes no lock. -/
def reserve (req : Request) : Prog Store Answer :=
  if req.quantity ≤ 0 then .done (.reserve (.error (.invalidQuantity req.quantity)))
  else
    match req.idempotencyKey with
    | none => reserveCovered req
    | some key => .read (fun s => s.prior key) fun
        | none => reserveCovered req
        | some prior =>
            match ensureMatches prior req key with
            | .error err => .done (.reserve (.error err))
            | .ok () => .read (fun s => s.remaining prior.resourceKey) fun remaining =>
                .done (.reserve (replayed prior remaining))

def releaseTx (reservationId : ℤ) : Tx Store (Except ReserveError ReleaseOutcome) :=
  .read (fun s => s.reservation reservationId) fun
    | none => .rollback (.ok .notFound)
    | some r => .execute (fun s => some ((), s.deleteReservation reservationId)) fun _ =>
        .execute (fun s => (s.returnSupply r.resourceKey r.quantity).map fun s => ((), s)) fun _ =>
          .read (fun s => s.remaining r.resourceKey) fun
            | none => .rollback (.error (.unknownResource r.resourceKey))
            | some remaining => .commit (.ok (.released remaining))

def release (reservationId : ℤ) : Prog Store Answer :=
  .transaction (releaseTx reservationId) fun result => .done (.release result)

def program : Op → Prog Store Answer
  | .define resource capacity => define resource capacity
  | .reserve req => reserve req
  | .release reservationId => release reservationId

/-! ### What the transactions do -/

theorem Resource.setRemaining_some {r r' : Resource} {n : ℤ} (h : r.setRemaining n = some r') :
    r'.remaining = n ∧ r'.capacity = r.capacity := by
  unfold Resource.setRemaining at h
  split_ifs at h
  obtain rfl := Option.some.inj h
  exact ⟨rfl, rfl⟩

def Store.Unheld (s : Store) (req : Request) : Prop :=
  ∀ key ∈ req.idempotencyKey, s.prior key = none

structure Claims (s : Store) (req : Request) (s' : Store) : Prop where
  positive : 0 < req.quantity
  free : s.Unheld req
  supply : ∃ r r', s.resource req.resource = some r ∧ req.quantity ≤ r.remaining ∧
    r'.remaining = r.remaining - req.quantity ∧ r'.capacity = r.capacity ∧
    s'.resource = Function.update s.resource req.resource (some r')
  recorded : s'.reservations = s.reservations ++ [req.reservation (s.lastId + 1) positive]

structure Releases (s : Store) (claim : Reservation) (s' : Store) : Prop where
  found : s.reservation claim.id = some claim
  supply : ∃ r r', s.resource claim.resourceKey = some r ∧
    r'.remaining = r.remaining + claim.quantity ∧ r'.capacity = r.capacity ∧
    s'.resource = Function.update s.resource claim.resourceKey (some r')
  forgotten : s'.reservations = s.reservations.filter fun r => r.id ≠ claim.id

def Store.Short (s : Store) (req : Request) : Prop :=
  ∀ r, s.resource req.resource = some r → r.remaining < req.quantity

section
variable {s s' : Store} {req : Request}

theorem claim_run {result : Except ReserveError ReserveOutcome}
    (h : (claim req).run s = some (result, s')) :
    s' = s ∧ s.Short req ∧ result = lost req (s.remaining req.resource) ∨
      Claims s req s' ∧ ∃ remaining, result = .ok (.reserved (s.lastId + 1) remaining) := by
  unfold claim Tx.run Tx.finish Store.takeSupply at h
  cases hr : s.resource req.resource with
  | none =>
      simp only [hr, Tx.finish] at h
      cases h
      refine Or.inl ⟨rfl, fun r hsome => ?_, rfl⟩
      rw [hr] at hsome
      cases hsome
  | some r =>
      simp only [hr] at h
      split_ifs at h with hcovered
      · cases hset : r.setRemaining (r.remaining - req.quantity) with
        | none => simp [hset] at h
        | some r' =>
            obtain ⟨hremaining, hcapacity⟩ := Resource.setRemaining_some hset
            simp only [hset, Option.map_some, Tx.finish, Store.insertReservation] at h
            split_ifs at h with hfree
            cases h
            exact Or.inr ⟨⟨hfree.1, hfree.2, ⟨r, r', hr, hcovered, hremaining, hcapacity, rfl⟩,
              rfl⟩, _, rfl⟩
      · simp only [Tx.finish] at h
        cases h
        refine Or.inl ⟨rfl, fun r' hsome => ?_, rfl⟩
        obtain rfl := Option.some.inj (hr.symm.trans hsome)
        exact Int.lt_of_not_ge hcovered

theorem reserveTx_run {result : Except ReserveError ReserveOutcome}
    (h : (reserveTx req).run s = some (result, s')) :
    (s' = s ∧ ∃ key prior, req.idempotencyKey = some key ∧ s.prior key = some prior ∧
      result = (ensureMatches prior req key).bind fun _ =>
        replayed prior (s.remaining prior.resourceKey)) ∨
    (s.Unheld req ∧ (s' = s ∧ s.Short req ∧
      result = lost req (s.remaining req.resource) ∨
        Claims s req s' ∧ ∃ remaining, result = .ok (.reserved (s.lastId + 1) remaining))) := by
  unfold reserveTx at h
  cases hkey : req.idempotencyKey with
  | none =>
      simp only [hkey] at h
      exact Or.inr ⟨fun key hmem => (by rw [hkey] at hmem; cases hmem), claim_run h⟩
  | some key =>
      simp only [hkey, Tx.run, Tx.finish] at h
      cases hprior : s.prior key with
      | none =>
          simp only [hprior] at h
          refine Or.inr ⟨fun key' hmem => ?_, claim_run h⟩
          rw [hkey] at hmem
          obtain rfl := Option.some.inj hmem
          exact hprior
      | some prior =>
          simp only [hprior] at h
          refine Or.inl ?_
          cases hmatches : ensureMatches prior req key with
          | error err =>
              simp only [hmatches, Tx.finish] at h
              cases h
              exact ⟨rfl, key, prior, rfl, hprior, by rw [hmatches]; rfl⟩
          | ok u =>
              simp only [hmatches, Tx.finish] at h
              cases h
              exact ⟨rfl, key, prior, rfl, hprior, by rw [hmatches]; rfl⟩

theorem releaseTx_run {id : ℤ} {result : Except ReserveError ReleaseOutcome}
    (h : (releaseTx id).run s = some (result, s')) :
    (s' = s ∧ s.reservation id = none ∧ result = .ok .notFound) ∨
    (s' = s ∧ ∃ claim, s.reservation id = some claim ∧ s.resource claim.resourceKey = none) ∨
    ∃ claim, Releases s claim s' ∧ claim.id = id ∧ ∃ remaining, result = .ok (.released remaining) := by
  unfold releaseTx Tx.run Tx.finish at h
  cases hfound : s.reservation id with
  | none =>
      simp only [hfound, Tx.finish] at h
      cases h
      exact Or.inl ⟨rfl, rfl, rfl⟩
  | some claim =>
      have hid := (Store.reservation_some hfound).2
      simp only [hfound, Tx.finish, Store.returnSupply, Store.deleteReservation] at h
      cases hr : s.resource claim.resourceKey with
      | none =>
          simp only [hr, Option.map_some, Store.remaining, Option.map_none, Tx.finish] at h
          cases h
          exact Or.inr (Or.inl ⟨rfl, claim, rfl, hr⟩)
      | some r =>
          cases hset : r.setRemaining (r.remaining + claim.quantity) with
          | none => simp [hr, hset] at h
          | some r' =>
              obtain ⟨hremaining, hcapacity⟩ := Resource.setRemaining_some hset
              simp only [hr, hset, Option.map_some, Store.remaining, Store.setResource,
                Function.update_self, Tx.finish] at h
              cases h
              subst hid
              exact Or.inr (Or.inr ⟨claim, ⟨hfound, ⟨r, r', hr, hremaining, hcapacity, rfl⟩, rfl⟩,
                rfl, _, rfl⟩)

end

end Albedo.Reserve
