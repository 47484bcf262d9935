import Albedo.Library.Memory
import Mathlib.Data.Nat.Notation
import Mathlib.Tactic.SplitIfs

/-!
# The engine's allocator

Blocks are bumped off a region while the engine warms up, and come from the system's allocator
while it serves a request or when the region is full. Each has its usable size in a header before
it. A pointer is an address, and `none` stands for the null pointer; what the system's allocator
answers is an argument of the calls that may ask it.
-/
namespace Albedo.Runtime
open Memory

def wrap (n : ℕ) : ℕ := n % 2 ^ 64

theorem wrap_of_lt {n : ℕ} (h : n < 2 ^ 64) : wrap n = n := Nat.mod_eq_of_lt h

def headerSize : ℕ := 8

def roundUp (size : ℕ) : ℕ := wrap (size + 7) / 8 * 8

def usableFor (size : ℕ) : ℕ := max (roundUp size) 8

/-- A layout of eight-byte alignment is refused past the largest signed number. -/
def layoutOk (size : ℕ) : Bool := size ≤ 2 ^ 63 - 8

theorem le_usableFor {size : ℕ} (h : size + 7 < 2 ^ 64) : size ≤ usableFor size := by
  rw [usableFor, roundUp, wrap_of_lt h]
  omega

theorem eight_le_usableFor (size : ℕ) : 8 ≤ usableFor size := le_max_right _ _

theorem usableFor_lt {size : ℕ} (h : size + 16 ≤ 2 ^ 64) : usableFor size + 8 < 2 ^ 64 := by
  rw [usableFor, roundUp, wrap_of_lt (by omega)]
  omega

structure Region where
  base : ℕ
  cap : ℕ
  top : ℕ

def Region.new (cap base : ℕ) : Option Region :=
  let cap := roundUp (max cap 8)
  if layoutOk cap then some ⟨base, cap, 0⟩ else none

def Region.contains (r : Region) (addr : ℕ) : Bool := r.base ≤ addr ∧ addr < wrap (r.base + r.cap)

/-- Bytes off the front, or nothing where the region is exhausted. -/
def Region.bump (r : Region) (total : ℕ) : Option (ℕ × Region) :=
  let stop := r.top + total
  if stop < 2 ^ 64 ∧ stop ≤ r.cap then some (r.base + r.top, { r with top := stop }) else none

structure ArenaControl where
  persistent : Region
  inRequest : Bool
  allocCalls : ℕ
  reallocCalls : ℕ
  deallocCalls : ℕ
  fallbackAllocs : ℕ
  persistentGrewInRequest : ℕ
  systemLiveBytes : ℕ
  systemPeakBytes : ℕ

/-- The pointer a call returns, and what it leaves behind. -/
abbrev Answer := Option ℕ × ArenaControl × Bytes

namespace ArenaControl

def new (cap base : ℕ) : Option ArenaControl :=
  (Region.new cap base).map fun region => ⟨region, false, 0, 0, 0, 0, 0, 0, 0⟩

def beginRequest (c : ArenaControl) : ArenaControl := { c with inRequest := true }

def endRequest (c : ArenaControl) : ArenaControl := { c with inRequest := false }

def isPersistent (c : ArenaControl) (user : ℕ) : Bool := c.persistent.contains user

def readHeader (mem : Bytes) (user : ℕ) : ℕ := readWord mem (user - headerSize)

def systemAlloc (mem : Bytes) (usable : ℕ) (zero : Bool) (system : Option ℕ) :
    Option ℕ × Bytes :=
  let total := wrap (headerSize + usable)
  if layoutOk total then
    match system with
    | none => (none, mem)
    | some base =>
        let mem := if zero then fill mem base 0 total else mem
        (some (base + headerSize), writeWord mem base usable)
  else (none, mem)

def addLive (c : ArenaControl) (bytes : ℕ) : ArenaControl :=
  let live := wrap (c.systemLiveBytes + bytes)
  { c with systemLiveBytes := live, systemPeakBytes := max c.systemPeakBytes live }

def subLive (c : ArenaControl) (bytes : ℕ) : ArenaControl :=
  { c with systemLiveBytes := wrap (c.systemLiveBytes + 2 ^ 64 - bytes) }

def resizeLive (c : ArenaControl) (oldUsable newUsable : ℕ) : ArenaControl :=
  if oldUsable ≤ newUsable then c.addLive (newUsable - oldUsable)
  else c.subLive (oldUsable - newUsable)

def allocSystem (c : ArenaControl) (mem : Bytes) (usable : ℕ) (zero : Bool)
    (system : Option ℕ) : Answer :=
  match systemAlloc mem usable zero system with
  | (none, mem) => (none, c, mem)
  | (some user, mem) => (some user, c.addLive usable, mem)

def allocPersistent (c : ArenaControl) (mem : Bytes) (usable : ℕ) (zero : Bool)
    (system : Option ℕ) : Answer :=
  let total := wrap (headerSize + usable)
  match c.persistent.bump total with
  | some (base, region) =>
      let user := base + headerSize
      let mem := writeWord mem base usable
      (some user, { c with persistent := region }, if zero then fill mem user 0 usable else mem)
  | none =>
      let c := { c with fallbackAllocs := c.fallbackAllocs + 1 }
      c.allocSystem mem usable zero system

def alloc (c : ArenaControl) (mem : Bytes) (size : ℕ) (zero : Bool) (system : Option ℕ) :
    Answer :=
  let c := { c with allocCalls := c.allocCalls + 1 }
  let usable := usableFor size
  if c.inRequest then c.allocSystem mem usable zero system
  else c.allocPersistent mem usable zero system

def calloc (c : ArenaControl) (mem : Bytes) (count size : ℕ) (system : Option ℕ) : Answer :=
  let total := count * size
  if 2 ^ 64 ≤ total ∨ total = 0 then (none, c, mem) else c.alloc mem total true system

def dealloc (c : ArenaControl) (mem : Bytes) (user : ℕ) : ArenaControl :=
  let c := { c with deallocCalls := c.deallocCalls + 1 }
  if c.isPersistent user then c else c.subLive (readHeader mem user)

def systemRealloc (mem : Bytes) (user oldUsable newUsable : ℕ) (system : Option ℕ) :
    Option ℕ × Bytes :=
  match system with
  | none => (none, mem)
  | some fresh =>
      let kept := min (wrap (headerSize + oldUsable)) (wrap (headerSize + newUsable))
      let mem := copy mem (user - headerSize) fresh kept
      (some (fresh + headerSize), writeWord mem fresh newUsable)

def realloc (c : ArenaControl) (mem : Bytes) (user : Option ℕ) (newSize : ℕ)
    (system : Option ℕ) : Answer :=
  match user with
  | none => c.alloc mem newSize false system
  | some user =>
      let c := { c with reallocCalls := c.reallocCalls + 1 }
      let newUsable := usableFor newSize
      let oldUsable := readHeader mem user
      if !c.isPersistent user then
        match systemRealloc mem user oldUsable newUsable system with
        | (none, mem) => (none, c, mem)
        | (some fresh, mem) =>
            (some fresh, c.resizeLive oldUsable newUsable, mem)
      else
        let blockBase := user - headerSize
        let off := blockBase - c.persistent.base
        let oldTotal := wrap (headerSize + oldUsable)
        let newTotal := wrap (headerSize + newUsable)
        -- the block on top of the region grows and shrinks where it is
        if wrap (off + newTotal) ≤ c.persistent.cap ∧ c.persistent.top = wrap (off + oldTotal) then
          (some user, { c with persistent.top := wrap (off + newTotal) },
            writeWord mem blockBase newUsable)
        else
          let c := if c.inRequest then
            { c with persistentGrewInRequest := c.persistentGrewInRequest + 1 } else c
          match c.allocPersistent mem newUsable false system with
          | (none, c, mem) => (none, c, mem)
          | (some fresh, c, mem) => (some fresh, c, copy mem user fresh (min oldUsable newUsable))

/-! ### Live bytes -/

theorem wrap_sub {n k : ℕ} (hk : k ≤ n) (hn : n < 2 ^ 64) : wrap (n + 2 ^ 64 - k) = n - k := by
  rw [show n + 2 ^ 64 - k = n - k + 2 ^ 64 by omega, wrap, Nat.add_mod_right]
  exact Nat.mod_eq_of_lt (by omega)

@[simp] theorem resizeLive_persistent (c : ArenaControl) (oldUsable newUsable : ℕ) :
    (c.resizeLive oldUsable newUsable).persistent = c.persistent := by
  cases c
  unfold resizeLive
  split_ifs <;> rfl

theorem resizeLive_systemLiveBytes (c : ArenaControl) {oldUsable : ℕ} (newUsable : ℕ)
    (hold : oldUsable ≤ c.systemLiveBytes) (hlt : c.systemLiveBytes < 2 ^ 64) :
    (c.resizeLive oldUsable newUsable).systemLiveBytes =
      wrap (c.systemLiveBytes - oldUsable + newUsable) := by
  unfold resizeLive
  split_ifs with hgrows
  · have hsum : c.systemLiveBytes + (newUsable - oldUsable) =
        c.systemLiveBytes - oldUsable + newUsable := by omega
    rw [addLive, hsum]
  · have hdiff : c.systemLiveBytes - (oldUsable - newUsable) =
        c.systemLiveBytes - oldUsable + newUsable := by omega
    simp only [subLive]
    rw [wrap_sub (by omega) hlt, hdiff, wrap_of_lt (by omega)]

/-! ### Which way a call goes -/

theorem systemRealloc_apply (mem : Bytes) {user oldUsable newUsable fresh i : ℕ}
    (huser : headerSize ≤ user) (hold : oldUsable + 8 < 2 ^ 64) (hnew : newUsable + 8 < 2 ^ 64)
    (hi : i < min oldUsable newUsable) :
    (systemRealloc mem user oldUsable newUsable (some fresh)).2 (fresh + headerSize + i) =
      mem (user + i) := by
  simp only [systemRealloc]
  rw [writeWord_apply_of_not (.inr (by simp only [headerSize]; omega)), copy,
    wrap_of_lt (by simp only [headerSize]; omega), wrap_of_lt (by simp only [headerSize]; omega),
    if_pos (by omega)]
  congr 1
  omega

variable {c : ArenaControl} {mem : Bytes} {user newSize : ℕ} {system : Option ℕ}

theorem dealloc_persistent (h : c.isPersistent user = true) :
    c.dealloc mem user = { c with deallocCalls := c.deallocCalls + 1 } := if_pos h

theorem dealloc_system (h : c.isPersistent user = false) :
    c.dealloc mem user =
      { c with deallocCalls := c.deallocCalls + 1 }.subLive (readHeader mem user) :=
  if_neg (ne_true_of_eq_false h)

theorem realloc_refused (h : c.isPersistent user = false) :
    c.realloc mem (some user) newSize none =
      (none, { c with reallocCalls := c.reallocCalls + 1 }, mem) :=
  if_pos (by simpa [isPersistent] using h)

theorem realloc_system (h : c.isPersistent user = false) (fresh : ℕ) :
    c.realloc mem (some user) newSize (some fresh) =
      (some (fresh + headerSize),
        { c with reallocCalls := c.reallocCalls + 1 }.resizeLive (readHeader mem user)
          (usableFor newSize),
        (systemRealloc mem user (readHeader mem user) (usableFor newSize) (some fresh)).2) :=
  if_pos (by simpa [isPersistent] using h)

theorem realloc_top (h : c.isPersistent user = true)
    (htop : wrap (user - headerSize - c.persistent.base + wrap (headerSize + usableFor newSize)) ≤
        c.persistent.cap ∧
      c.persistent.top = wrap (user - headerSize - c.persistent.base +
        wrap (headerSize + readHeader mem user))) :
    c.realloc mem (some user) newSize system =
      (some user, { c with
          reallocCalls := c.reallocCalls + 1
          persistent.top :=
            wrap (user - headerSize - c.persistent.base + wrap (headerSize + usableFor newSize)) },
        writeWord mem (user - headerSize) (usableFor newSize)) :=
  (if_neg (by simpa [isPersistent] using h)).trans (if_pos htop)

/-- The allocator as a block of the region is copied. -/
def growing (c : ArenaControl) : ArenaControl :=
  let c := { c with reallocCalls := c.reallocCalls + 1 }
  if c.inRequest then { c with persistentGrewInRequest := c.persistentGrewInRequest + 1 } else c

@[simp] theorem growing_persistent (c : ArenaControl) : c.growing.persistent = c.persistent := by
  simp only [growing]
  split_ifs <;> rfl

@[simp] theorem growing_systemLiveBytes (c : ArenaControl) :
    c.growing.systemLiveBytes = c.systemLiveBytes := by
  simp only [growing]
  split_ifs <;> rfl

theorem realloc_copied (h : c.isPersistent user = true)
    (htop : ¬ (wrap (user - headerSize - c.persistent.base +
        wrap (headerSize + usableFor newSize)) ≤ c.persistent.cap ∧
      c.persistent.top = wrap (user - headerSize - c.persistent.base +
        wrap (headerSize + readHeader mem user)))) :
    c.realloc mem (some user) newSize system =
      match c.growing.allocPersistent mem (usableFor newSize) false system with
      | (none, c, mem) => (none, c, mem)
      | (some fresh, c, mem') =>
          (some fresh, c, copy mem' user fresh (min (readHeader mem user) (usableFor newSize))) :=
  (if_neg (by simpa [isPersistent] using h)).trans (if_neg htop)

end ArenaControl

end Albedo.Runtime
