import Albedo.Ir.LaneSort
import Albedo.Runtime.FrameTick

/-!
# Lanes of the column store

However often the columns are sorted, the document is the one they were built from, and a tick
finds the lane of a position by its offsets. Positions are numbers of 32 bits, so this takes
fewer components than there are such numbers.
-/
namespace Albedo.Ir
open Dirty

namespace IrColumns

variable {c : IrColumns} {d : CanonicalIrDocument} {lanes : List ℕ}

/-- What a sort must leave of a store that was built from a document, and what it does. -/
structure Keeps (d : CanonicalIrDocument) (c : IrColumns) : Prop where
  /-- The document is the same. -/
  document : ∀ now, c.toCanonical now = (fromCanonical d).toCanonical now
  /-- The offsets run from the first position to the last, and tell the lane of each position. -/
  offsets : ∃ offsets : LaneOffsets, offsets.starts = c.laneOffsets ∧
    (offsets.start laneCount).toNat = c.len ∧
    ∀ i < c.len, ∃ lane, c.laneIds[i]? = some lane ∧ laneForIndex (toU32 i) offsets = lane.toNat
  /-- The range of a lane holds positions of that lane. -/
  ranges : ∀ lane < laneCount, ∃ start stop, c.laneRange lane = some (start, stop) ∧
    ∀ i, start ≤ i → i < stop → c.laneIds[i]? = some (UInt8.ofNat lane)
  /-- A sort moves all columns by one stable permutation. -/
  sorts : ∀ laneFor, ∃ order, StableOrder (c.assignments laneFor) order ∧
    c.Rearranged order (c.sortByLane laneFor)

theorem Laned.starts_get (h : c.Laned lanes) {b : ℕ} (hb : b ≤ laneCount) :
    ∃ offset, c.laneOffsets[b]? = some offset ∧ offset.toNat = lanes.countP (· < b) := by
  have hcell := congrArg (·[b]?) h.offsets
  simp only [List.getElem?_map, List.getElem?_range (Nat.lt_succ_of_le hb), Option.map_some]
    at hcell
  exact Option.map_eq_some_iff.mp hcell

def Laned.laneOffsets (h : c.Laned lanes) : LaneOffsets where
  starts := c.laneOffsets
  length_eq := by
    have hlength := congrArg List.length h.offsets
    rwa [List.length_map, List.length_map, List.length_range] at hlength
  starts_zero := by
    obtain ⟨offset, hat, hoffset⟩ := h.starts_get (Nat.zero_le laneCount)
    rw [hat]
    refine congrArg some (UInt32.toNat_inj.mp ?_)
    simpa using hoffset
  sorted := by
    have hpairs : (c.laneOffsets.map UInt32.toNat).Pairwise (· ≤ ·) := by
      rw [h.offsets]
      exact (List.pairwise_lt_range.imp fun hlt => countP_lt_mono hlt.le).map _ fun _ _ h => h
    exact (List.pairwise_map.mp hpairs).imp UInt32.le_iff_toNat_le.mpr

theorem Laned.start_toNat (h : c.Laned lanes) {b : ℕ} (hb : b ≤ laneCount) :
    (h.laneOffsets.start b).toNat = lanes.countP (· < b) := h.offset hb

theorem Laned.laneForIndex (h : c.Laned lanes) (hlen : c.len < 2 ^ 32) {i : ℕ} (hi : i < c.len) :
    ∃ lane, c.laneIds[i]? = some lane ∧
      Dirty.laneForIndex (toU32 i) h.laneOffsets = lane.toNat := by
  obtain ⟨b, hb, hlane, hlow, hhigh⟩ := h.lane hi
  have hfour : b < 4 := hb
  refine ⟨UInt8.ofNat b, hlane, ?_⟩
  have howns : h.laneOffsets.Owns ⟨b, hfour⟩ (toU32 i) := by
    have hidx := toU32_toNat (hi.trans hlen)
    refine ⟨UInt32.le_iff_toNat_le.mpr ?_, ?_⟩
    · rw [hidx, h.start_toNat hb.le]
      exact hlow
    · by_cases hlast : b = 3
      · exact Or.inr (Fin.ext hlast)
      · refine Or.inl (UInt32.lt_iff_toNat_lt.mpr ?_)
        rw [hidx]
        change i < (h.laneOffsets.start (b + 1)).toNat
        rw [h.start_toNat hb]
        exact hhigh
  rw [laneForIndex_eq.mpr howns]
  exact (UInt8.toNat_ofNat_of_lt' (hfour.trans (by decide))).symm

structure Sound (d : CanonicalIrDocument) (c : IrColumns) : Prop where
  aligned : c.Aligned
  len_eq : c.len = d.components.length
  laned : ∃ lanes, c.Laned lanes
  document : ∀ now, c.toCanonical now = (fromCanonical d).toCanonical now

theorem fromCanonical_sound (hlen : d.components.length < 2 ^ 32) : Sound d (fromCanonical d) :=
  ⟨(fromCanonical_aligned d).1, (fromCanonical_aligned d).2, ⟨_, fromCanonical_laned d hlen⟩,
    fun _ => rfl⟩

theorem Sound.sortByLane (h : Sound d c) (hlen : d.components.length < 2 ^ 32)
    (laneFor : UInt64 → ℕ) : Sound d (c.sortByLane laneFor) := by
  have hlen' : c.len < 2 ^ 32 := h.len_eq ▸ hlen
  have hmoved := sortByLane_rearranged h.aligned hlen' laneFor
  have hperm := Buckets.order_perm (assignments_lt c laneFor)
  rw [length_assignments] at hperm
  exact ⟨hmoved.aligned, (hmoved.len_eq hperm).trans h.len_eq,
    ⟨_, sortByLane_laned h.aligned hlen' laneFor⟩, fun now =>
      (toCanonical_sortByLane h.aligned hlen' laneFor now).trans (h.document now)⟩

theorem Sound.sorts (h : Sound d c) (hlen : d.components.length < 2 ^ 32)
    (laneFors : List (UInt64 → ℕ)) : Sound d (laneFors.foldl IrColumns.sortByLane c) := by
  induction laneFors generalizing c with
  | nil => exact h
  | cons laneFor laneFors ih => exact ih (h.sortByLane hlen laneFor)

theorem Sound.keeps (h : Sound d c) (hlen : d.components.length < 2 ^ 32) : Keeps d c := by
  have hlen' : c.len < 2 ^ 32 := h.len_eq ▸ hlen
  obtain ⟨lanes, hlaned⟩ := h.laned
  refine ⟨h.document, ⟨hlaned.laneOffsets, rfl, ?_, fun i hi => hlaned.laneForIndex hlen' hi⟩,
    fun lane hlane => hlaned.laneRange hlane, fun laneFor =>
      ⟨_, stableOrder_order (assignments_lt c laneFor),
        sortByLane_rearranged h.aligned hlen' laneFor⟩⟩
  rw [hlaned.start_toNat le_rfl, countP_all hlaned.lanes_lt, hlaned.length_eq]

/-- Any number of sorts, by any lanes, keep the document and its lanes. -/
theorem sorts_keep (d : CanonicalIrDocument) (hlen : d.components.length < 2 ^ 32)
    (laneFors : List (UInt64 → ℕ)) :
    Keeps d (laneFors.foldl IrColumns.sortByLane (fromCanonical d)) :=
  ((fromCanonical_sound hlen).sorts hlen laneFors).keeps hlen

def button (id : UInt64) (symbol : String) : CanonicalIrComponent where
  id := id
  symbol := symbol
  modulePath := "src/ui.tsx"
  exportKind := .named
  lineNumber := 12
  estimatedSizeBytes := 340
  effects := ⟨true, false, false, false⟩
  sourceHash := 7
  legacyPriority := none
  legacyPhase := none

def twins : CanonicalIrDocument where
  schemaVersion := canonicalIrSchemaVersion
  generatedAt := "2026-01-01T00:00:00Z"
  modules := [⟨"src/ui.tsx", 7, ["react"]⟩]
  components := [button 2 "Save", button 1 "Menu", button 2 "Save"]
  edges := [⟨2, 1⟩, ⟨1, 9⟩]

theorem sorts_keep_twins :
    Keeps twins ([fun id => id.toNat, fun id => 9 - id.toNat].foldl IrColumns.sortByLane
      (fromCanonical twins)) :=
  sorts_keep twins (by decide) _

def crowd : CanonicalIrDocument where
  schemaVersion := canonicalIrSchemaVersion
  generatedAt := "2026-01-01T00:00:00Z"
  modules := []
  components := List.replicate (2 ^ 32) (button 1 "Menu")
  edges := []

/-- The last offset cannot say how many components there are. -/
theorem offsets_end_early :
    ¬ ∀ (d : CanonicalIrDocument) (laneFors : List (UInt64 → ℕ)),
      Keeps d (laneFors.foldl IrColumns.sortByLane (fromCanonical d)) := by
  intro h
  obtain ⟨offsets, -, hend, -⟩ := (h crowd []).offsets
  have hlen : (fromCanonical crowd).len = 2 ^ 32 :=
    (fromCanonical_aligned crowd).2.trans List.length_replicate
  have hlt := (offsets.start laneCount).toNat_lt
  rw [List.foldl_nil, hlen] at hend
  omega

end IrColumns

end Albedo.Ir
