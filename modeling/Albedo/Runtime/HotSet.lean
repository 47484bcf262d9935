import Mathlib.Data.List.Sort
import Mathlib.Data.List.Lex
import Mathlib.Order.Lattice
import Albedo.Library.KeyedList
import Albedo.Runtime.DirtyBitmap

/-!
# The hot set

The components that are rendered ahead of all others, at most 32, and one bit for each of them
that tells whether it is dirty.
-/
namespace Albedo.Scheduler
open KeyedList Dirty

abbrev ComponentId := UInt64

def hotSetMax : ℕ := 32

inductive RenderPriority where
  | low
  | normal
  | high
  | critical

inductive HotSetError where
  | capacityExceeded (max : ℕ)

/-! ### Members -/

structure HotSetRegistry where
  entries : List (ComponentId × RenderPriority)
  nodup : (keys entries).Nodup
  bounded : entries.length ≤ hotSetMax

namespace HotSetRegistry

def empty : HotSetRegistry := ⟨[], List.nodup_nil, Nat.zero_le _⟩

def contains (registry : HotSetRegistry) (id : ComponentId) : Bool := id ∈ keys registry.entries

theorem length_put {id : ComponentId} {priority : RenderPriority}
    {entries : List (ComponentId × RenderPriority)} :
    (put id priority entries).length ≤ entries.length + 1 ∧
      (id ∈ keys entries → (put id priority entries).length = entries.length) := by
  have hlength : (put id priority entries).length = (keys (put id priority entries)).length :=
    (List.length_map _).symm
  have hkeys : entries.length = (keys entries).length := (List.length_map _).symm
  rw [hlength, hkeys, keys_put]
  split_ifs with h
  · exact ⟨Nat.le_succ _, fun _ => rfl⟩
  · exact ⟨by simp, fun hin => absurd hin h⟩

/-- A member gets another priority. Anyone else becomes a member, if there is room. -/
def register (registry : HotSetRegistry) (id : ComponentId) (priority : RenderPriority) :
    Except HotSetError (Bool × HotSetRegistry) :=
  if h : id ∈ keys registry.entries then
    .ok (false, ⟨put id priority registry.entries, nodup_put id priority registry.nodup,
      (length_put.2 h).trans_le registry.bounded⟩)
  else if hfull : registry.entries.length ≥ hotSetMax then
    .error (.capacityExceeded hotSetMax)
  else
    .ok (true, ⟨put id priority registry.entries, nodup_put id priority registry.nodup,
      length_put.1.trans (Nat.lt_of_not_le hfull)⟩)

theorem nodup_remove {id : ComponentId} {entries : List (ComponentId × RenderPriority)}
    (h : (keys entries).Nodup) : (keys (remove id entries)).Nodup := by
  rw [keys_remove]
  exact h.filter _

def deregister (registry : HotSetRegistry) (id : ComponentId) : Bool × HotSetRegistry :=
  (registry.contains id, ⟨remove id registry.entries, nodup_remove registry.nodup,
    (List.length_filter_le _ _).trans registry.bounded⟩)

/-- One after the other, until one finds no room. -/
def registerAll (registry : HotSetRegistry) :
    List (ComponentId × RenderPriority) → Except HotSetError HotSetRegistry
  | [] => .ok registry
  | (id, priority) :: entries =>
      match registry.register id priority with
      | .ok (_, registry) => registry.registerAll entries
      | .error e => .error e

def snapshotIdsSorted (registry : HotSetRegistry) : List ComponentId :=
  (keys registry.entries).insertionSort (· ≤ ·)

variable {registry registry' : HotSetRegistry} {id other : ComponentId} {priority : RenderPriority}

theorem contains_iff : registry.contains id = true ↔ id ∈ keys registry.entries := by
  simp [contains]

theorem mem_snapshot : id ∈ registry.snapshotIdsSorted ↔ registry.contains id = true := by
  rw [snapshotIdsSorted, List.mem_insertionSort, contains_iff]

theorem nodup_snapshot : registry.snapshotIdsSorted.Nodup :=
  (List.perm_insertionSort _ _).nodup_iff.mpr registry.nodup

theorem length_snapshot : registry.snapshotIdsSorted.length ≤ hotSetMax := by
  rw [snapshotIdsSorted, List.length_insertionSort, keys, List.length_map]
  exact registry.bounded

end HotSetRegistry

/-! ### Marks -/

structure SentinelRing where
  idFor : List ComponentId
  nodup : idFor.Nodup
  bounded : idFor.length ≤ hotSetMax
  bitmap : DirtyBitmap
  capacity_eq : bitmap.capacity = idFor.length

namespace SentinelRing

/-- `from_registry`, and `rebuild_from_registry` too, which puts a new ring in place of the old. -/
def fromRegistry (registry : HotSetRegistry) : SentinelRing where
  idFor := registry.snapshotIdsSorted
  nodup := registry.nodup_snapshot
  bounded := registry.length_snapshot
  bitmap := withCapacity registry.snapshotIdsSorted.length
    (registry.length_snapshot.trans_lt (by decide))
  capacity_eq := rfl

def markDirty (ring : SentinelRing) (id : ComponentId) : Bool × SentinelRing :=
  if id ∈ ring.idFor then
    let marked := ring.bitmap.mark (ring.idFor.idxOf id)
    (marked.2, { ring with
      bitmap := marked.1
      capacity_eq := DirtyBitmap.capacity_mark.trans ring.capacity_eq })
  else (false, ring)

def dirtyIds (ring : SentinelRing) : List ComponentId :=
  (ring.bitmap.slotsOf 0).filterMap fun slot => ring.idFor[slot]?

def taken (ring : SentinelRing) : SentinelRing :=
  { ring with bitmap := ring.bitmap.takeWord 0 }

variable {ring : SentinelRing} {id other : ComponentId}

theorem mem_dirtyIds :
    id ∈ ring.dirtyIds ↔ id ∈ ring.idFor ∧ ring.bitmap.isSet (ring.idFor.idxOf id) = true := by
  have hword : ∀ {slot : ℕ}, slot < ring.idFor.length → slot / bitsPerWord = 0 := by
    intro slot hslot
    have hbound := ring.bounded
    unfold hotSetMax at hbound
    exact Nat.div_eq_of_lt (by unfold bitsPerWord; omega)
  simp only [dirtyIds, List.mem_filterMap, DirtyBitmap.mem_slotsOf, ring.capacity_eq]
  constructor
  · rintro ⟨slot, ⟨hlt, -, hset⟩, hid⟩
    obtain ⟨_, rfl⟩ := List.getElem?_eq_some_iff.mp hid
    exact ⟨List.getElem_mem hlt, by rwa [ring.nodup.idxOf_getElem]⟩
  · rintro ⟨hin, hset⟩
    have hlt := List.idxOf_lt_length_of_mem hin
    exact ⟨ring.idFor.idxOf id, ⟨hlt, hword hlt, hset⟩, List.getElem?_idxOf hin⟩

theorem nodup_dirtyIds : ring.dirtyIds.Nodup := by
  refine List.Nodup.filterMap ?_ DirtyBitmap.nodup_slotsOf
  intro slot slot' id hslot hslot'
  obtain ⟨hlt, _⟩ := List.getElem?_eq_some_iff.mp hslot
  exact (List.getElem?_inj hlt ring.nodup).mp (hslot.trans hslot'.symm)

@[simp] theorem dirtyIds_fromRegistry (registry : HotSetRegistry) :
    (fromRegistry registry).dirtyIds = [] := by
  refine List.eq_nil_iff_forall_not_mem.mpr fun id hid => ?_
  have hset := (mem_dirtyIds.mp hid).2
  simp [fromRegistry, withCapacity, DirtyBitmap.isSet] at hset

@[simp] theorem dirtyIds_taken (ring : SentinelRing) : ring.taken.dirtyIds = [] := by
  refine List.eq_nil_iff_forall_not_mem.mpr fun id hid => ?_
  obtain ⟨slot, hslot, -⟩ := List.mem_filterMap.mp hid
  obtain ⟨-, hword, hset⟩ := DirtyBitmap.mem_slotsOf.mp hslot
  rw [taken, DirtyBitmap.isSet_takeWord, hword] at hset
  simp at hset

@[simp] theorem idFor_markDirty : (ring.markDirty id).2.idFor = ring.idFor := by
  unfold markDirty
  split_ifs <;> rfl

theorem markDirty_eq_true :
    (ring.markDirty id).1 = true ↔ id ∈ ring.idFor ∧ id ∉ ring.dirtyIds := by
  by_cases hin : id ∈ ring.idFor
  · have hlt : ring.idFor.idxOf id < ring.bitmap.capacity :=
      ring.capacity_eq ▸ List.idxOf_lt_length_of_mem hin
    rw [mem_dirtyIds, markDirty, if_pos hin]
    simp only [hin, true_and]
    exact DirtyBitmap.mark_fresh hlt
  · rw [markDirty, if_neg hin]
    simp [hin]

theorem mem_dirtyIds_markDirty (hin : id ∈ ring.idFor) :
    other ∈ (ring.markDirty id).2.dirtyIds ↔ other = id ∨ other ∈ ring.dirtyIds := by
  have hlt : ring.idFor.idxOf id < ring.bitmap.capacity :=
    ring.capacity_eq ▸ List.idxOf_lt_length_of_mem hin
  have hring : (ring.markDirty id).2.bitmap = (ring.bitmap.mark (ring.idFor.idxOf id)).1 := by
    rw [markDirty, if_pos hin]
  rw [mem_dirtyIds, mem_dirtyIds, idFor_markDirty, hring, DirtyBitmap.isSet_mark hlt]
  simp only [Bool.or_eq_true, decide_eq_true_eq]
  constructor
  · rintro ⟨hother, hset | hslot⟩
    · exact Or.inr ⟨hother, hset⟩
    · exact Or.inl ((List.idxOf_inj hother).mp hslot)
  · rintro (rfl | ⟨hother, hset⟩)
    · exact ⟨hin, Or.inr rfl⟩
    · exact ⟨hother, Or.inl hset⟩

theorem dirtyIds_marked (h : (ring.markDirty id).1 = true) :
    (ring.markDirty id).2.dirtyIds.Perm (id :: ring.dirtyIds) := by
  obtain ⟨hin, hclean⟩ := markDirty_eq_true.mp h
  refine (List.perm_ext_iff_of_nodup nodup_dirtyIds (List.nodup_cons.mpr ⟨hclean, nodup_dirtyIds⟩)).mpr ?_
  intro other
  rw [mem_dirtyIds_markDirty hin, List.mem_cons]

theorem dirtyIds_unmarked (h : (ring.markDirty id).1 = false) :
    (ring.markDirty id).2.dirtyIds.Perm ring.dirtyIds := by
  by_cases hin : id ∈ ring.idFor
  · refine (List.perm_ext_iff_of_nodup nodup_dirtyIds nodup_dirtyIds).mpr ?_
    intro other
    have hdirty : id ∈ ring.dirtyIds := by
      by_contra hclean
      rw [markDirty_eq_true.mpr ⟨hin, hclean⟩] at h
      cases h
    rw [mem_dirtyIds_markDirty hin]
    constructor
    · rintro (rfl | hother)
      · exact hdirty
      · exact hother
    · exact Or.inr
  · rw [markDirty, if_neg hin]

end SentinelRing
end Albedo.Scheduler
