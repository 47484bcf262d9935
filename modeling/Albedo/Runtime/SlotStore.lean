import Albedo.Library.KeyedList
import Albedo.Library.Progress
import Mathlib.Algebra.Group.Nat.Defs

/-!
# The session slot store

A session's slots live in three concurrent maps: the values, the keys not shipped yet, and
when each session was last seen. Every operation touches them one after the other, each map
for one step, and the steps of many operations interleave.
-/
namespace Albedo.SessionSlots
open Interleave KeyedList

variable {Session Slot Value : Type}

structure Key (Session Slot : Type) where
  session : Session
  slot : Slot
  deriving DecidableEq

/-- The store, and what its clock shows: the milliseconds since it was born. -/
structure SlotStore (Session Slot Value : Type) where
  values : List ((Key Session Slot) × Value)
  dirty : List (Key Session Slot)
  lastSeen : List (Session × ℕ)
  now : ℕ

def SlotStore.new : SlotStore Session Slot Value := ⟨[], [], [], 0⟩

def u64Max : ℕ := 2 ^ 64 - 1

/-! ### Operations on one map -/

section
variable [DecidableEq Session] [DecidableEq Slot]

def SlotStore.insertValue (s : SlotStore Session Slot Value) (key : Key Session Slot) (value : Value) :
    SlotStore Session Slot Value :=
  { s with values := put key value s.values }

def SlotStore.stamp (s : SlotStore Session Slot Value) (session : Session) (seen : ℕ) :
    SlotStore Session Slot Value :=
  { s with lastSeen := put session seen s.lastSeen }

def SlotStore.markDirty (s : SlotStore Session Slot Value) (key : Key Session Slot) :
    SlotStore Session Slot Value :=
  { s with dirty := s.dirty.insert key }

def SlotStore.dirtyOf (s : SlotStore Session Slot Value) (session : Session) :
    List (Key Session Slot) :=
  s.dirty.filter fun key => key.session = session

def SlotStore.takeDirty (s : SlotStore Session Slot Value) (session : Session) :
    SlotStore Session Slot Value :=
  { s with dirty := s.dirty.filter fun key => key.session ≠ session }

def SlotStore.idle (s : SlotStore Session Slot Value) (cutoff : ℕ) : List Session :=
  keys (s.lastSeen.filter fun e => e.2 < cutoff)

def SlotStore.forgetIdle (s : SlotStore Session Slot Value) (cutoff : ℕ) :
    SlotStore Session Slot Value :=
  { s with lastSeen := s.lastSeen.filter fun e => ¬ e.2 < cutoff }

def SlotStore.forget (s : SlotStore Session Slot Value) (session : Session) :
    SlotStore Session Slot Value :=
  { s with lastSeen := remove session s.lastSeen }

def SlotStore.purge (s : SlotStore Session Slot Value) (gone : List Session) :
    SlotStore Session Slot Value :=
  { s with values := s.values.filter fun e => e.1.session ∉ gone }

def SlotStore.clean (s : SlotStore Session Slot Value) (gone : List Session) :
    SlotStore Session Slot Value :=
  { s with dirty := s.dirty.filter fun key => key.session ∉ gone }

def SlotStore.elapse (s : SlotStore Session Slot Value) (ms : ℕ) : SlotStore Session Slot Value :=
  { s with now := min (s.now + ms) u64Max }

end

/-! ### The operations -/

inductive Operation (Session Slot Value : Type) where
  | write (session : Session) (slot : Slot) (value : Value)
  | read (session : Session) (slot : Slot)
  | drain (session : Session)
  | evictIdle (idle : ℕ)
  | clearSession (session : Session)
  | elapse (ms : ℕ)

/-- What an operation returns: nothing, a value, the slots to set, or how many sessions went. -/
inductive Answer (Slot Value : Type) where
  | unit
  | value (found : Option Value)
  | setInstructions (out : List (Slot × Value))
  | evicted (count : ℕ)

structure HashOrder (κ : Type) where
  order : List κ → List κ
  perm : ∀ l, (order l).Perm l

section
variable [DecidableEq Session] [DecidableEq Slot]

def change (f : SlotStore Session Slot Value → SlotStore Session Slot Value) :
    SlotStore Session Slot Value → Option (Unit × SlotStore Session Slot Value) :=
  fun s => some ((), f s)

def touch (session : Session) : Prog (SlotStore Session Slot Value) Unit := do
  let now ← Prog.query SlotStore.now
  Prog.statement (change (·.stamp session now))

def read (key : Key Session Slot) : Prog (SlotStore Session Slot Value) (Option Value) := do
  let value ← Prog.query (·.values.lookup key)
  match value with
  | some value => do
      touch key.session
      return some value
  | none => return none

def write (session : Session) (slot : Slot) (value : Value) :
    Prog (SlotStore Session Slot Value) Unit := do
  Prog.statement (change (·.insertValue ⟨session, slot⟩ value))
  touch session
  Prog.statement (change (·.markDirty ⟨session, slot⟩))

def evictSeenBefore (cutoff : ℕ) : Prog (SlotStore Session Slot Value) ℕ := do
  let gone ← Prog.statement fun s => some (s.idle cutoff, s.forgetIdle cutoff)
  match gone with
  | [] => return 0
  | session :: rest => do
      Prog.statement (change (·.purge (session :: rest)))
      Prog.statement (change (·.clean (session :: rest)))
      return (session :: rest).length

def evictIdle (idle : ℕ) : Prog (SlotStore Session Slot Value) ℕ := do
  let now ← Prog.query SlotStore.now
  evictSeenBefore (now - min idle u64Max)

def drainKeys : List (Key Session Slot) → List (Slot × Value) →
    Prog (SlotStore Session Slot Value) (List (Slot × Value))
  | [], out => return out
  | key :: keys, out => do
      let value ← read key
      match value with
      | some value => drainKeys keys (out ++ [(key.slot, value)])
      | none => drainKeys keys out

def drainSetInstructions (hash : HashOrder (Key Session Slot)) (session : Session) :
    Prog (SlotStore Session Slot Value) (List (Slot × Value)) := do
  let keys ← Prog.statement fun s => some (s.dirtyOf session, s.takeDirty session)
  drainKeys (hash.order keys) []

def clearSession (session : Session) : Prog (SlotStore Session Slot Value) Unit := do
  Prog.statement (change (·.forget session))
  Prog.statement (change (·.purge [session]))
  Prog.statement (change (·.clean [session]))

def serve (hash : HashOrder (Key Session Slot)) :
    Operation Session Slot Value → Prog (SlotStore Session Slot Value) (Answer Slot Value)
  | .write session slot value => write session slot value >>= fun _ => return .unit
  | .read session slot => read ⟨session, slot⟩ >>= fun found => return .value found
  | .drain session => drainSetInstructions hash session >>= fun out => return .setInstructions out
  | .evictIdle idle => evictIdle idle >>= fun count => return .evicted count
  | .clearSession session => clearSession session >>= fun _ => return .unit
  | .elapse ms => Prog.statement (change (·.elapse ms)) >>= fun _ => return .unit

end

end Albedo.SessionSlots
