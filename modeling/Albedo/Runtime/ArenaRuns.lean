import Albedo.Runtime.ArenaBlocks

/-!
# Runs of the engine's allocator

Any calls in any order, between which memory is written. The blocks stay disjoint and honest as
long as no size is so close to the largest number that a sum goes round.
-/
namespace Albedo.Runtime
open Memory

structure Heap where
  control : ArenaControl
  mem : Bytes
  live : List Block

/-! ### Calls -/

/-- What is asked of the allocator, with what the system's allocator answers; between two calls
memory is written. -/
inductive Call where
  | alloc (size : ℕ) (system : Option ℕ)
  | calloc (count size : ℕ) (system : Option ℕ)
  | realloc (user : Option ℕ) (newSize : ℕ) (system : Option ℕ)
  | dealloc (user : ℕ)
  | beginRequest
  | endRequest
  | write (mem : Bytes)

namespace Heap

def step (h : Heap) : Call → Heap
  | .alloc size system =>
      let (user, control, mem) := h.control.alloc h.mem size false system
      ⟨control, mem, Block.hold h.live size user⟩
  | .calloc count size system =>
      let (user, control, mem) := h.control.calloc h.mem count size system
      ⟨control, mem, Block.hold h.live (count * size) user⟩
  | .realloc none newSize system =>
      let (user, control, mem) := h.control.realloc h.mem none newSize system
      ⟨control, mem, Block.hold h.live newSize user⟩
  | .realloc (some old) newSize system =>
      let (user, control, mem) := h.control.realloc h.mem (some old) newSize system
      ⟨control, mem,
        if user.isSome then Block.hold (Block.release h.live old) newSize user else h.live⟩
  | .dealloc user => ⟨h.control.dealloc h.mem user, h.mem, Block.release h.live user⟩
  | .beginRequest => { h with control := h.control.beginRequest }
  | .endRequest => { h with control := h.control.endRequest }
  | .write mem => { h with mem }

def run (h : Heap) (calls : List Call) : Heap := calls.foldl step h

def new (cap base : ℕ) (mem : Bytes) : Option Heap :=
  (ArenaControl.new cap base).map fun control => ⟨control, mem, []⟩

def Fresh (h : Heap) (others : List Block) (size : ℕ) (system : Option ℕ) : Prop :=
  Block.Fresh h.control.persistent h.mem others (wrap (headerSize + usableFor size)) system

/-- What the callers and the system's allocator keep to: pointers are those of live blocks, memory
is not written where the headers are, and sizes are numbers the machine has. -/
def Allowed (h : Heap) : Call → Prop
  | .alloc size system =>
      size < 2 ^ 64 ∧ h.Fresh h.live size system
  | .calloc count size system =>
      count < 2 ^ 64 ∧ size < 2 ^ 64 ∧ h.Fresh h.live (count * size) system
  | .realloc none newSize system =>
      newSize < 2 ^ 64 ∧ h.Fresh h.live newSize system
  | .realloc (some user) newSize system =>
      newSize < 2 ^ 64 ∧ (∃ b ∈ h.live, b.user = user) ∧
        h.Fresh (if h.control.isPersistent user then h.live else Block.release h.live user) newSize
          system
  | .dealloc user => ∃ b ∈ h.live, b.user = user
  | .beginRequest => True
  | .endRequest => True
  | .write mem => ∀ b ∈ h.live, ∀ i < headerSize, mem (b.base + i) = h.mem (b.base + i)

/-- No sum of the call goes round: the size with its header and its rounding, and where the block
on top of the region grows in place, its place in the region too. -/
def Fits (h : Heap) : Call → Prop
  | .alloc size _ => size + 16 ≤ 2 ^ 64
  | .calloc count size _ => count * size < 2 ^ 64 → count * size + 16 ≤ 2 ^ 64
  | .realloc none newSize _ => newSize + 16 ≤ 2 ^ 64
  | .realloc (some user) newSize _ =>
      newSize + 16 ≤ 2 ^ 64 ∧
        (h.control.isPersistent user →
          user + ArenaControl.readHeader h.mem user =
            h.control.persistent.base + h.control.persistent.top →
          user - h.control.persistent.base + usableFor newSize < 2 ^ 64)
  | _ => True

def Along (p : Heap → Call → Prop) : Heap → List Call → Prop
  | _, [] => True
  | h, call :: calls => p h call ∧ Along p (h.step call) calls

/-! ### What is said of a heap -/

/-- The blocks are disjoint and honest, and the gauge counts those of the system's allocator. -/
structure Sound (h : Heap) : Prop where
  honest : ∀ b ∈ h.live, b.requested ≤ b.usable h.mem
  apart : h.live.Pairwise fun b b' => (b.span h.mem).Apart (b'.span h.mem)
  persistent : ∀ b ∈ h.live,
    if h.control.isPersistent b.user then Block.Carved h.control.persistent (b.span h.mem)
    else Block.Outside h.control.persistent (b.span h.mem)
  counted : h.control.systemLiveBytes = Block.gauge h.control.persistent h.mem h.live

/-- A block that is given another size keeps its bytes, and one of the region leaves it only where
the region is full. -/
def Preserves (h : Heap) (user newSize : ℕ) (system : Option ℕ) : Prop :=
  ∀ fresh, (h.control.realloc h.mem (some user) newSize system).1 = some fresh →
    (∀ i < min (ArenaControl.readHeader h.mem user) (usableFor newSize),
      (h.control.realloc h.mem (some user) newSize system).2.2 (fresh + i) = h.mem (user + i)) ∧
    (h.control.isPersistent user → ¬ h.control.isPersistent fresh →
      h.control.persistent.cap < h.control.persistent.top + (headerSize + usableFor newSize))

end Heap

/-! ### Every call keeps them -/

namespace Heap

variable {h : Heap} {call : Call}

def Inv (h : Heap) : Prop :=
  Block.Inv h.control.persistent h.control.systemLiveBytes h.mem h.live

theorem Inv.sound (hi : h.Inv) : h.Sound where
  honest b hb := (hi.placed b hb).honest
  apart := hi.apart
  persistent b hb := by
    cases hcontains : h.control.isPersistent b.user with
    | true =>
        rw [if_pos rfl]
        exact (hi.contains_iff (hi.placed b hb)).mp hcontains
    | false =>
        rw [if_neg Bool.false_ne_true]
        exact hi.contains_false (hi.placed b hb) hcontains
  counted := hi.counted

theorem Inv.alloc (hi : h.Inv) (size : ℕ) (zero : Bool) (system : Option ℕ)
    (hsize : size + 16 ≤ 2 ^ 64) (hfresh : h.Fresh h.live size system) :
    Block.Inv (h.control.alloc h.mem size zero system).2.1.persistent
      (h.control.alloc h.mem size zero system).2.1.systemLiveBytes
      (h.control.alloc h.mem size zero system).2.2
      (Block.hold h.live size (h.control.alloc h.mem size zero system).1) := by
  have hregion := Block.Inv.region_lt hi
  exact (Block.alloc_served h.control zero hsize (Block.Inv.top_le hi) (by omega)).inv hi hsize
    hfresh

theorem Inv.resized (hi : h.Inv) {user newSize : ℕ} {system : Option ℕ}
    (hallowed : h.Allowed (.realloc (some user) newSize system))
    (hfits : h.Fits (.realloc (some user) newSize system)) :
    Block.Resized h.control h.mem h.live user newSize
      (h.control.realloc h.mem (some user) newSize system) := by
  obtain ⟨-, hb, hfresh⟩ := hallowed
  obtain ⟨hsize, hgrown⟩ := hfits
  cases hcontains : h.control.isPersistent user with
  | false =>
      rw [hcontains, if_neg Bool.false_ne_true] at hfresh
      exact Block.resized_system hi hb hsize hcontains hfresh
  | true =>
      rw [hcontains, if_pos rfl] at hfresh
      by_cases htop : wrap (user - headerSize - h.control.persistent.base +
            wrap (headerSize + usableFor newSize)) ≤ h.control.persistent.cap ∧
          h.control.persistent.top = wrap (user - headerSize - h.control.persistent.base +
            wrap (headerSize + ArenaControl.readHeader h.mem user))
      · obtain ⟨b, hbmem, rfl⟩ := hb
        have hplaced := Block.Inv.placed hi b hbmem
        obtain ⟨hstart, hstop⟩ := (Block.Inv.contains_iff hi hplaced).mp hcontains
        have hregion := Block.Inv.region_lt hi
        have htopcap := Block.Inv.top_le hi
        have hread : ArenaControl.readHeader h.mem (b.base + 8) = b.usable h.mem := rfl
        have hlt := usableFor_lt hsize
        simp only [Block.span, headerSize] at hstart hstop
        simp only [Block.user, headerSize, Nat.add_sub_cancel, hread] at htop hgrown
        -- neither sum about the block as it is goes round, so it ends where the region's part does
        have hold : wrap (b.base - h.control.persistent.base + wrap (8 + b.usable h.mem)) =
            b.base - h.control.persistent.base + (8 + b.usable h.mem) := by
          rw [wrap_of_lt (n := 8 + b.usable h.mem) (by omega), wrap_of_lt (by omega)]
        rw [hold] at htop
        have hend : b.base + 8 + b.usable h.mem =
            h.control.persistent.base + h.control.persistent.top := by omega
        have hgrow := hgrown hcontains hend
        have hnew : wrap (b.base - h.control.persistent.base + wrap (8 + usableFor newSize)) =
            b.base - h.control.persistent.base + (8 + usableFor newSize) := by
          rw [wrap_of_lt (n := 8 + usableFor newSize) (by omega), wrap_of_lt (by omega)]
        rw [hnew] at htop
        exact Block.resized_top hi ⟨b, hbmem, rfl⟩ hsize hcontains hgrow hend
          (by simp only [Block.user, headerSize]; omega)
      · exact Block.resized_copied hi hb hsize hcontains hfresh htop

theorem Inv.step (hi : h.Inv) (hallowed : h.Allowed call) (hfits : h.Fits call) :
    (h.step call).Inv := by
  cases call with
  | alloc size system => exact hi.alloc size false system hfits hallowed.2
  | calloc count size system =>
      unfold Heap.Inv
      simp only [Heap.step, ArenaControl.calloc]
      by_cases hnull : 2 ^ 64 ≤ count * size ∨ count * size = 0
      · rw [if_pos hnull]
        exact hi
      · rw [if_neg hnull]
        exact hi.alloc (count * size) true system (hfits (by omega)) hallowed.2.2
  | realloc old newSize system =>
      cases old with
      | none => exact hi.alloc newSize false system hfits hallowed.2
      | some user => exact (hi.resized hallowed hfits).inv
  | dealloc user => exact Block.dealloc_inv hi hallowed
  | beginRequest => exact hi
  | endRequest => exact hi
  | write mem => exact Block.Inv.frame hi hallowed

theorem Inv.run {calls : List Call} (hi : h.Inv) (hallowed : Along Allowed h calls)
    (hfits : Along Fits h calls) : (h.run calls).Inv := by
  induction calls generalizing h with
  | nil => exact hi
  | cons call calls ih => exact ih (hi.step hallowed.1 hfits.1) hallowed.2 hfits.2

theorem new_inv {cap base : ℕ} {mem : Bytes} (hnew : new cap base mem = some h)
    (hregion : base + h.control.persistent.cap < 2 ^ 64) : h.Inv := by
  obtain ⟨control, hcontrol, rfl⟩ := Option.map_eq_some_iff.mp hnew
  obtain ⟨region, hr, rfl⟩ := Option.map_eq_some_iff.mp hcontrol
  simp only [Region.new] at hr
  split_ifs at hr
  obtain rfl := Option.some.inj hr
  exact ⟨Nat.zero_le _, hregion, fun b hb => absurd hb List.not_mem_nil, List.Pairwise.nil, rfl⟩

/-- In every run whose calls fit, the blocks are disjoint and honest in every state that is
reached, and every block that is given another size keeps its bytes and its place. -/
theorem run_sound {cap base : ℕ} {mem : Bytes} {calls : List Call}
    (hnew : new cap base mem = some h) (hregion : base + h.control.persistent.cap < 2 ^ 64)
    (hallowed : Along Allowed h calls) (hfits : Along Fits h calls) :
    (h.run calls).Sound ∧
      ∀ user newSize system, (h.run calls).Allowed (.realloc (some user) newSize system) →
        (h.run calls).Fits (.realloc (some user) newSize system) →
          (h.run calls).Preserves user newSize system := by
  have hinv := (new_inv hnew hregion).run hallowed hfits
  refine ⟨hinv.sound, fun user newSize system hallowed' hfits' fresh hfresh => ?_⟩
  have hresized := hinv.resized hallowed' hfits'
  exact ⟨hresized.bytes fresh hfresh, hresized.stays fresh hfresh⟩

def small : Heap := ⟨⟨⟨4096, 64, 0⟩, false, 0, 0, 0, 0, 0, 0, 0⟩, fun _ => 0, []⟩

/-- Two blocks, of which the first is copied behind the second. -/
theorem run_sound_small : (small.run [.alloc 8 none, .alloc 16 none]).Sound ∧
    ∀ user newSize system,
      (small.run [.alloc 8 none, .alloc 16 none]).Allowed (.realloc (some user) newSize system) →
        (small.run [.alloc 8 none, .alloc 16 none]).Fits (.realloc (some user) newSize system) →
          (small.run [.alloc 8 none, .alloc 16 none]).Preserves user newSize system :=
  run_sound (show new 64 4096 (fun _ => 0) = some small from rfl) (by decide)
    ⟨⟨by decide, fun _ h => nomatch h⟩, ⟨by decide, fun _ h => nomatch h⟩, trivial⟩
    ⟨show 8 + 16 ≤ 2 ^ 64 by decide, show 16 + 16 ≤ 2 ^ 64 by decide, trivial⟩

/-- A request for the largest number of bytes is answered with a block of eight. -/
theorem largest_dishonest : ∃ calls, Along Allowed small calls ∧ ¬ (small.run calls).Sound := by
  refine ⟨[.alloc (2 ^ 64 - 1) none], ⟨⟨by decide, fun _ h => nomatch h⟩, trivial⟩, fun h => ?_⟩
  have hhonest := h.honest ⟨4096, 2 ^ 64 - 1⟩ List.mem_cons_self
  revert hhonest
  decide

end Heap

end Albedo.Runtime
