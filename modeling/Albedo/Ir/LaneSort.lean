import Albedo.Ir.Columns

/-!
# What a sort by lane does

One stable permutation of the positions, applied to every column; the endpoints of the edges
follow their components. Lanes only depend on ids, so components that a document's order cannot
tell apart stay in their order, and the document is the same.
-/
namespace Albedo.Ir
open Buckets IrColumns

/-! ### Counting and placing -/

section Counting

variable {lanes : List ℕ} {lane j b : ℕ} {counter : ℕ → UInt32}

theorem update_toNat (h : (counter lane).toNat + 1 < 2 ^ 32) (b : ℕ) :
    (Function.update counter lane (saturatingAdd (counter lane) 1) b).toNat =
      (counter b).toNat + if lane = b then 1 else 0 := by
  by_cases hb : b = lane
  · subst hb
    rw [Function.update_self, saturatingAdd_toNat h, if_pos rfl]
    rfl
  · rw [Function.update_of_ne hb, if_neg (Ne.symm hb), Nat.add_zero]

def Room (counter : ℕ → UInt32) (lanes : List ℕ) : Prop :=
  ∀ b, (counter b).toNat + lanes.count b < 2 ^ 32

theorem Room.step (h : Room counter (lane :: lanes)) :
    (counter lane).toNat + 1 < 2 ^ 32 ∧
      Room (Function.update counter lane (saturatingAdd (counter lane) 1)) lanes := by
  have hlane := h lane
  rw [List.count_cons_self] at hlane
  refine ⟨by omega, fun b => ?_⟩
  have hb := h b
  rw [List.count_cons] at hb
  rw [update_toNat (by omega)]
  by_cases heq : lane = b
  · simp only [heq, beq_self_eq_true, if_true] at hb ⊢
    omega
  · simp only [heq, beq_iff_eq, if_false] at hb ⊢
    omega

theorem counts_foldl (h : Room counter lanes) (b : ℕ) :
    (lanes.foldl (fun counts lane =>
      Function.update counts lane (saturatingAdd (counts lane) 1)) counter b).toNat =
        (counter b).toNat + lanes.count b := by
  induction lanes generalizing counter with
  | nil => simp
  | cons lane lanes ih =>
      obtain ⟨hone, hrest⟩ := h.step
      rw [List.foldl_cons, ih hrest, update_toNat hone, List.count_cons]
      by_cases heq : lane = b
      · simp [heq]
        omega
      · simp [heq]

theorem room_counts (hlen : lanes.length < 2 ^ 32) : Room (fun _ => 0) lanes := by
  intro b
  have hcount : lanes.count b ≤ lanes.length := List.count_le_length
  simpa using hcount.trans_lt hlen

theorem counts_toNat (hlen : lanes.length < 2 ^ 32) (b : ℕ) :
    (counts lanes b).toNat = lanes.count b := by
  rw [counts, counts_foldl (room_counts hlen)]
  simp

theorem running_toNat (hlen : lanes.length < 2 ^ 32) (b : ℕ) :
    (running (counts lanes) b).toNat = lanes.countP (· < b) := by
  induction b with
  | zero => simp [running]
  | succ b ih =>
      have hle : lanes.countP (· < b + 1) ≤ lanes.length := List.countP_le_length
      rw [countP_lt_succ] at hle ⊢
      rw [running, saturatingAdd_toNat, ih, counts_toNat hlen]
      rw [ih, counts_toNat hlen]
      omega

theorem room_running (hlen : lanes.length < 2 ^ 32) : Room (running (counts lanes)) lanes := by
  intro b
  have hle : lanes.countP (· < b + 1) ≤ lanes.length := List.countP_le_length
  rw [countP_lt_succ] at hle
  rw [running_toNat hlen]
  omega

@[simp] theorem length_newIdxOfOld (lanes : List ℕ) (counter : ℕ → UInt32) :
    (newIdxOfOld lanes counter).length = lanes.length := by
  induction lanes generalizing counter with
  | nil => rfl
  | cons lane lanes ih => rw [newIdxOfOld, List.length_cons, ih, List.length_cons]

theorem newIdxOfOld_get (h : Room counter lanes) (hj : lanes[j]? = some b) :
    ((newIdxOfOld lanes counter).map UInt32.toNat)[j]? =
      some ((counter b).toNat + (lanes.take j).count b) := by
  induction lanes generalizing counter j with
  | nil => cases hj
  | cons lane lanes ih =>
      obtain ⟨hone, hrest⟩ := h.step
      cases j with
      | zero =>
          obtain rfl := Option.some.inj hj
          simp [newIdxOfOld]
      | succ j =>
          rw [newIdxOfOld, List.map_cons, List.getElem?_cons_succ, ih hrest hj,
            update_toNat hone, List.take_succ_cons, List.count_cons]
          by_cases heq : lane = b
          · simp [heq]
            omega
          · simp [heq]

def placed (lanes : List ℕ) : List UInt32 := newIdxOfOld lanes (running (counts lanes))

theorem placed_get (hlen : lanes.length < 2 ^ 32) (hj : lanes[j]? = some b) :
    ((placed lanes).map UInt32.toNat)[j]? = some (rank lanes b j) := by
  rw [placed, newIdxOfOld_get (room_running hlen) hj, running_toNat hlen, rank]

theorem placed_nodup (hlen : lanes.length < 2 ^ 32) (hlanes : ∀ b ∈ lanes, b < laneCount) :
    ((placed lanes).map UInt32.toNat).Nodup := by
  refine List.nodup_iff_pairwise_ne.mpr (List.pairwise_iff_getElem.mpr fun i j hi hj hij heq => ?_)
  have hlane : ∀ {p}, p < ((placed lanes).map UInt32.toNat).length →
      ∃ c < laneCount, lanes[p]? = some c := by
    intro p hp
    rw [List.length_map, placed, length_newIdxOfOld] at hp
    exact ⟨lanes[p], hlanes _ (List.getElem_mem hp), List.getElem?_eq_getElem hp⟩
  obtain ⟨a, ha, hia⟩ := hlane hi
  obtain ⟨c, hc, hjc⟩ := hlane hj
  have hrank : rank lanes a i = rank lanes c j := by
    have hi' := placed_get hlen hia
    have hj' := placed_get hlen hjc
    rw [List.getElem?_eq_getElem hi] at hi'
    rw [List.getElem?_eq_getElem hj] at hj'
    rw [← Option.some.inj hi', ← Option.some.inj hj', heq]
  have hsame := (getElem?_order ha hia).symm.trans (hrank ▸ getElem?_order hc hjc)
  exact hij.ne (Option.some.inj hsame)

theorem oldIdxAtNew_placed (hlen : lanes.length < 2 ^ 32) (hlanes : ∀ b ∈ lanes, b < laneCount) :
    oldIdxAtNew (placed lanes) = (order laneCount lanes).map toU32 := by
  have hlength : (placed lanes).length = lanes.length := length_newIdxOfOld lanes _
  refine List.ext_getElem? fun i => ?_
  rcases Nat.lt_or_ge i (order laneCount lanes).length with hi | hi
  · have hj := List.getElem?_eq_getElem hi
    obtain ⟨b, hb, hlane⟩ := mem_order.mp (List.getElem_mem hi)
    have hrank : rank lanes b (order laneCount lanes)[i] = i := by
      have hat := getElem?_order hb hlane
      obtain ⟨hlt, heq⟩ := List.getElem?_eq_some_iff.mp hat
      exact (List.Nodup.getElem_inj_iff (nodup_order laneCount lanes)).mp heq
    have hplace := placed_get hlen hlane
    rw [hrank] at hplace
    have hin : i < lanes.length := by
      have hperm := (order_perm hlanes).length_eq
      rw [List.length_range] at hperm
      omega
    rw [oldIdxAtNew, scatter_at (placed_nodup hlen hlanes) (by simpa [hlength] using hin) hplace,
      List.getElem?_map, hj, Nat.zero_add]
    rfl
  · have hperm := (order_perm hlanes).length_eq
    rw [List.length_range] at hperm
    rw [List.getElem?_eq_none (by simp [oldIdxAtNew, hlength]; omega),
      List.getElem?_eq_none (by simpa using hi)]

end Counting

/-! ### Columns -/

def Permuted {α : Type} (order : List ℕ) (old new : List α) : Prop :=
  new.map some = order.map (old[·]?)

theorem Permuted.getElem? {α : Type} {order : List ℕ} {old new : List α} {i j : ℕ}
    (h : Permuted order old new) (hi : order[i]? = some j) (hj : j < old.length) :
    new[i]? = old[j]? := by
  have hcell := congrArg (·[i]?) h
  simp only [List.getElem?_map, hi, Option.map_some, List.getElem?_eq_getElem hj] at hcell ⊢
  cases hnew : new[i]? with
  | none => rw [hnew] at hcell; cases hcell
  | some a => rw [hnew] at hcell; exact Option.some.inj hcell

theorem Permuted.length_eq {α : Type} {order : List ℕ} {old new : List α}
    (h : Permuted order old new) : new.length = order.length := by
  have hlength := congrArg List.length h
  simpa using hlength

theorem permuted_permute {α : Type} [Inhabited α] {order : List ℕ} {col : List α}
    (hin : ∀ j ∈ order, j < col.length) (hlen : col.length < 2 ^ 32) :
    Permuted order col (permute col (order.map toU32)) := by
  unfold Permuted permute
  rw [List.map_map, List.map_map]
  refine List.map_congr_left fun j hj => ?_
  have hlt := hin j hj
  simp only [Function.comp_apply, toU32_toNat (hlt.trans hlen), List.getD_eq_getElem?_getD,
    List.getElem?_eq_getElem hlt, Option.getD_some]

structure IrColumns.Aligned (c : IrColumns) : Prop where
  sourceHashes : c.sourceHashes.length = c.len
  estimatedSizes : c.estimatedSizes.length = c.len
  lineNumbers : c.lineNumbers.length = c.len
  effects : c.effects.length = c.len
  exportKinds : c.exportKinds.length = c.len
  priorities : c.priorities.length = c.len
  phases : c.phases.length = c.len
  presence : c.presence.length = c.len
  symbols : c.symbols.length = c.len
  modulePaths : c.modulePaths.length = c.len

/-- The columns of the components are those of another store in one order, the text and the
modules are the same, and edges lead to the same components. -/
structure IrColumns.Rearranged (order : List ℕ) (c c' : IrColumns) : Prop where
  ids : Permuted order c.ids c'.ids
  sourceHashes : Permuted order c.sourceHashes c'.sourceHashes
  estimatedSizes : Permuted order c.estimatedSizes c'.estimatedSizes
  lineNumbers : Permuted order c.lineNumbers c'.lineNumbers
  effects : Permuted order c.effects c'.effects
  exportKinds : Permuted order c.exportKinds c'.exportKinds
  priorities : Permuted order c.priorities c'.priorities
  phases : Permuted order c.phases c'.phases
  presence : Permuted order c.presence c'.presence
  symbols : Permuted order c.symbols c'.symbols
  modulePaths : Permuted order c.modulePaths c'.modulePaths
  strings : c'.strings = c.strings
  modules : c'.modules = c.modules
  edges : c'.edges = c.edges

/-- Each position once, the lanes one after the other, and each lane's in their order. -/
structure StableOrder (lanes order : List ℕ) : Prop where
  perm : order.Perm (List.range lanes.length)
  stable : order.Pairwise fun i j => ∃ b c, lanes[i]? = some b ∧ lanes[j]? = some c ∧
    (b < c ∨ b = c ∧ i < j)

theorem stableOrder_order {lanes : List ℕ} (h : ∀ b ∈ lanes, b < laneCount) :
    StableOrder lanes (order laneCount lanes) :=
  ⟨order_perm h, pairwise_order laneCount lanes⟩

namespace IrColumns

variable {c c' : IrColumns} {laneFor : UInt64 → ℕ} {order : List ℕ}

theorem Rearranged.aligned (h : c.Rearranged order c') : c'.Aligned := by
  have hlen : c'.len = order.length := h.ids.length_eq
  constructor <;> rw [hlen]
  · exact h.sourceHashes.length_eq
  · exact h.estimatedSizes.length_eq
  · exact h.lineNumbers.length_eq
  · exact h.effects.length_eq
  · exact h.exportKinds.length_eq
  · exact h.priorities.length_eq
  · exact h.phases.length_eq
  · exact h.presence.length_eq
  · exact h.symbols.length_eq
  · exact h.modulePaths.length_eq

theorem Rearranged.len_eq (h : c.Rearranged order c') (hperm : order.Perm (List.range c.len)) :
    c'.len = c.len := by
  have hlen : c'.len = order.length := h.ids.length_eq
  rw [hlen, hperm.length_eq, List.length_range]

@[simp] theorem length_assignments (c : IrColumns) (laneFor : UInt64 → ℕ) :
    (c.assignments laneFor).length = c.len := List.length_map _

theorem assignments_lt (c : IrColumns) (laneFor : UInt64 → ℕ) :
    ∀ b ∈ c.assignments laneFor, b < laneCount := by
  intro b hb
  obtain ⟨id, -, rfl⟩ := List.mem_map.mp hb
  unfold laneCount
  omega

theorem endpoint_remap (hlen : c.len < 2 ^ 32)
    (hids : Permuted (Buckets.order laneCount (c.assignments laneFor)) c.ids c'.ids)
    (slot : UInt32) :
    c'.endpoint (remap (placed (c.assignments laneFor)) slot) = c.endpoint slot := by
  have hlanes := assignments_lt c laneFor
  have hlength : (c.assignments laneFor).length < 2 ^ 32 := by rwa [length_assignments]
  have hids' : c'.ids.length = c.ids.length := by
    rw [hids.length_eq, (order_perm hlanes).length_eq, List.length_range, length_assignments]
    rfl
  unfold remap endpoint
  rcases Nat.lt_or_ge slot.toNat c.len with hslot | hslot
  · obtain ⟨b, hb⟩ : ∃ b, (c.assignments laneFor)[slot.toNat]? = some b :=
      ⟨_, List.getElem?_eq_getElem (by rwa [length_assignments])⟩
    have hplace := placed_get hlength hb
    rw [List.getElem?_map] at hplace
    obtain ⟨place, hat, hrank⟩ := Option.map_eq_some_iff.mp hplace
    have horder := getElem?_order (hlanes b (List.mem_of_getElem? hb)) hb
    simp only [List.getD_eq_getElem?_getD, hat, Option.getD_some, hrank,
      hids.getElem? horder hslot]
  · have hnone : (placed (c.assignments laneFor))[slot.toNat]? = none :=
      List.getElem?_eq_none (by rw [placed, length_newIdxOfOld, length_assignments]; exact hslot)
    have hout : c'.ids[slot.toNat]? = none := List.getElem?_eq_none (by rw [hids']; exact hslot)
    have hin : c.ids[slot.toNat]? = none := List.getElem?_eq_none hslot
    simp only [List.getD_eq_getElem?_getD, hnone, Option.getD_none, hout, hin]

theorem sortByLane_rearranged (haligned : c.Aligned) (hlen : c.len < 2 ^ 32)
    (laneFor : UInt64 → ℕ) :
    c.Rearranged (Buckets.order laneCount (c.assignments laneFor)) (c.sortByLane laneFor) := by
  have hlanes := assignments_lt c laneFor
  have hlength : (c.assignments laneFor).length < 2 ^ 32 := by rwa [length_assignments]
  have hcol : ∀ {α : Type} [Inhabited α] {col : List α}, col.length = c.len →
      Permuted (Buckets.order laneCount (c.assignments laneFor)) col
        (permute col ((Buckets.order laneCount (c.assignments laneFor)).map toU32)) := by
    intro α _ col hcol
    refine permuted_permute (fun j hj => ?_) (by rwa [hcol])
    have hrange := (order_perm hlanes).mem_iff.mp hj
    rwa [List.mem_range, length_assignments, ← hcol] at hrange
  have hempty : ∀ {α : Type} {col : List α}, col.length = c.len → c.ids.length = 0 →
      Permuted (Buckets.order laneCount (c.assignments laneFor)) col col := by
    intro α col hcol hzero
    have hnil : c.assignments laneFor = [] := by
      rw [assignments, List.length_eq_zero_iff.mp hzero, List.map_nil]
    obtain rfl : col = [] := List.length_eq_zero_iff.mp (hcol.trans hzero)
    rw [hnil]
    rfl
  unfold sortByLane
  split_ifs with hzero
  · exact ⟨hempty rfl hzero, hempty haligned.sourceHashes hzero,
      hempty haligned.estimatedSizes hzero, hempty haligned.lineNumbers hzero,
      hempty haligned.effects hzero, hempty haligned.exportKinds hzero,
      hempty haligned.priorities hzero, hempty haligned.phases hzero,
      hempty haligned.presence hzero, hempty haligned.symbols hzero,
      hempty haligned.modulePaths hzero, rfl, rfl, rfl⟩
  · have hold : oldIdxAtNew (newIdxOfOld (c.assignments laneFor)
        (running (counts (c.assignments laneFor)))) =
          (Buckets.order laneCount (c.assignments laneFor)).map toU32 :=
      oldIdxAtNew_placed hlength hlanes
    dsimp only
    rw [hold]
    refine ⟨hcol rfl, hcol haligned.sourceHashes, hcol haligned.estimatedSizes,
      hcol haligned.lineNumbers, hcol haligned.effects, hcol haligned.exportKinds,
      hcol haligned.priorities, hcol haligned.phases, hcol haligned.presence,
      hcol haligned.symbols, hcol haligned.modulePaths, rfl, rfl, ?_⟩
    unfold edges
    dsimp only
    rw [List.zip_map, List.map_map]
    refine List.map_congr_left fun e _ => ?_
    exact congrArg₂ CanonicalIrEdge.mk (endpoint_remap hlen (hcol rfl) e.1)
      (endpoint_remap hlen (hcol rfl) e.2)

/-! ### The document -/

theorem Aligned.componentAt (h : c.Aligned) (hlen : c.len < 2 ^ 32) {j : ℕ} (hj : j < c.len) :
    ∃ component, c.componentAt (toU32 j) = some component ∧ c.ids[j]? = some component.id := by
  unfold IrColumns.componentAt
  simp only [toU32_toNat (hj.trans hlen)]
  rw [List.getElem?_eq_getElem (show j < c.ids.length from hj),
    List.getElem?_eq_getElem (h.presence ▸ hj), List.getElem?_eq_getElem (h.symbols ▸ hj),
    List.getElem?_eq_getElem (h.modulePaths ▸ hj), List.getElem?_eq_getElem (h.exportKinds ▸ hj),
    List.getElem?_eq_getElem (h.lineNumbers ▸ hj),
    List.getElem?_eq_getElem (h.estimatedSizes ▸ hj), List.getElem?_eq_getElem (h.effects ▸ hj),
    List.getElem?_eq_getElem (h.sourceHashes ▸ hj)]
  exact ⟨_, rfl, rfl⟩

theorem Rearranged.componentAt (h : c.Rearranged order c') (haligned : c.Aligned)
    (hlen : c.len < 2 ^ 32) (hperm : order.Perm (List.range c.len)) {i j : ℕ}
    (hij : order[i]? = some j) : c'.componentAt (toU32 i) = c.componentAt (toU32 j) := by
  have hj : j < c.len := List.mem_range.mp (hperm.mem_iff.mp (List.mem_of_getElem? hij))
  have hi : i < c.len := by
    have hlt := (List.getElem?_eq_some_iff.mp hij).choose
    rwa [hperm.length_eq, List.length_range] at hlt
  unfold IrColumns.componentAt
  simp only [toU32_toNat (hi.trans hlen), toU32_toNat (hj.trans hlen), h.strings,
    h.ids.getElem? hij hj, h.presence.getElem? hij (haligned.presence ▸ hj),
    h.priorities.getElem? hij (haligned.priorities ▸ hj),
    h.phases.getElem? hij (haligned.phases ▸ hj), h.symbols.getElem? hij (haligned.symbols ▸ hj),
    h.modulePaths.getElem? hij (haligned.modulePaths ▸ hj),
    h.exportKinds.getElem? hij (haligned.exportKinds ▸ hj),
    h.lineNumbers.getElem? hij (haligned.lineNumbers ▸ hj),
    h.estimatedSizes.getElem? hij (haligned.estimatedSizes ▸ hj),
    h.effects.getElem? hij (haligned.effects ▸ hj),
    h.sourceHashes.getElem? hij (haligned.sourceHashes ▸ hj)]

theorem filterMap_range {α β : Type} (order : List β) (g : β → Option α) :
    ((List.range order.length).filterMap fun i => order[i]?.bind g) = order.filterMap g := by
  have hlist : (List.range order.length).map (order[·]?) = order.map some := by
    refine List.ext_getElem? fun i => ?_
    rcases Nat.lt_or_ge i order.length with hi | hi
    · simp [hi]
    · simp [hi]
  calc ((List.range order.length).filterMap fun i => order[i]?.bind g)
      = ((List.range order.length).map (order[·]?)).filterMap (·.bind g) := by
        rw [List.filterMap_map]
        rfl
    _ = order.filterMap g := by
        rw [hlist, List.filterMap_map]
        rfl

theorem filterMap_range_get {α : Type} {n j : ℕ} {g : ℕ → Option α}
    (h : ∀ i < n, (g i).isSome = true) (hj : j < n) : ((List.range n).filterMap g)[j]? = g j := by
  have hcells : ((List.range n).filterMap g).map some = (List.range n).map g := by
    rw [List.map_filterMap_some_eq_filter_map_isSome]
    refine List.filter_eq_self.mpr fun a ha => ?_
    obtain ⟨i, hi, rfl⟩ := List.mem_map.mp ha
    exact h i (List.mem_range.mp hi)
  have hcell := congrArg (·[j]?) hcells
  simp only [List.getElem?_map, List.getElem?_range hj, Option.map_some] at hcell
  cases hat : ((List.range n).filterMap g)[j]? with
  | none => rw [hat] at hcell; cases hcell
  | some a => rw [hat] at hcell; exact Option.some.inj hcell

theorem Aligned.components_get (h : c.Aligned) (hlen : c.len < 2 ^ 32) {j : ℕ} (hj : j < c.len) :
    c.components[j]? = c.componentAt (toU32 j) := by
  refine filterMap_range_get (fun i hi => ?_) hj
  obtain ⟨component, hcomponent, -⟩ := h.componentAt hlen hi
  rw [hcomponent]
  rfl

theorem Aligned.length_components (h : c.Aligned) (hlen : c.len < 2 ^ 32) :
    c.components.length = c.len := by
  refine le_antisymm ((List.length_filterMap_le _ _).trans List.length_range.le) ?_
  by_contra hlt
  have hlast := h.components_get hlen (Nat.lt_of_not_le hlt)
  obtain ⟨component, hcomponent, -⟩ := h.componentAt hlen (Nat.lt_of_not_le hlt)
  rw [hcomponent, List.getElem?_eq_none le_rfl] at hlast
  cases hlast

theorem Aligned.assignments_eq (h : c.Aligned) (hlen : c.len < 2 ^ 32) (laneFor : UInt64 → ℕ) :
    c.assignments laneFor =
      c.components.map fun component => min (laneFor component.id) (laneCount - 1) := by
  refine List.ext_getElem? fun j => ?_
  rcases Nat.lt_or_ge j c.len with hj | hj
  · obtain ⟨component, hcomponent, hid⟩ := h.componentAt hlen hj
    rw [assignments, List.getElem?_map, List.getElem?_map, hid, h.components_get hlen hj,
      hcomponent]
    rfl
  · rw [List.getElem?_eq_none (by rwa [length_assignments]),
      List.getElem?_eq_none (by rwa [List.length_map, h.length_components hlen])]

theorem Rearranged.components (h : c.Rearranged order c') (haligned : c.Aligned)
    (hlen : c.len < 2 ^ 32) (hperm : order.Perm (List.range c.len)) :
    c'.components = order.filterMap (c.components[·]?) := by
  have hlength : c'.ids.length = order.length := h.ids.length_eq
  calc c'.components
      = (List.range order.length).filterMap fun i => order[i]?.bind (c.components[·]?) := by
        rw [IrColumns.components, hlength]
        refine List.filterMap_congr fun i hi => ?_
        have hat := List.getElem?_eq_getElem (List.mem_range.mp hi)
        have hbound := List.mem_range.mp hi
        have hj : order[i] < c.len :=
          List.mem_range.mp (hperm.mem_iff.mp (List.getElem_mem _))
        rw [h.componentAt haligned hlen hperm hat, hat, Option.bind_some,
          haligned.components_get hlen hj]
    _ = order.filterMap (c.components[·]?) := filterMap_range order _

theorem toCanonical_sortByLane (haligned : c.Aligned) (hlen : c.len < 2 ^ 32)
    (laneFor : UInt64 → ℕ) (now : String) :
    (c.sortByLane laneFor).toCanonical now = c.toCanonical now := by
  have h := sortByLane_rearranged haligned hlen laneFor
  have hlanes := assignments_lt c laneFor
  have hperm := order_perm hlanes
  rw [length_assignments] at hperm
  have hmodule : (c.sortByLane laneFor).moduleOf = c.moduleOf := by
    funext m
    rw [moduleOf, moduleOf, h.strings]
  have hcomponents : StableSort.sortBy CanonicalIrComponent.key (c.sortByLane laneFor).components =
      StableSort.sortBy CanonicalIrComponent.key c.components := by
    refine StableSort.sortBy_congr fun k => ?_
    rw [h.components haligned hlen hperm, haligned.assignments_eq hlen, filterMap_order]
    refine filter_buckets (fun component _ => ?_) fun a _ b _ ha hb => ?_
    · unfold laneCount
      omega
    · rw [decide_eq_true_eq] at ha hb
      have hid : a.id = b.id := UInt64.toNat_inj.mp (congrArg (fun k => (ofLex k).1) (ha.trans hb.symm))
      rw [hid]
  unfold toCanonical newCanonicalDocument CanonicalIrDocument.normalize
  dsimp only
  rw [h.modules, hmodule, h.edges, hcomponents]

/-! ### The stores a document gives -/

theorem Aligned.pushComponent (h : c.Aligned) (component : CanonicalIrComponent) :
    (c.pushComponent component).Aligned ∧ (c.pushComponent component).len = c.len + 1 := by
  have hlen : (c.pushComponent component).len = c.len + 1 := by
    unfold IrColumns.pushComponent len
    exact List.length_append
  refine ⟨?_, hlen⟩
  constructor <;> rw [hlen] <;> unfold IrColumns.pushComponent <;>
    dsimp only <;> rw [List.length_append, List.length_singleton]
  · rw [h.sourceHashes]
  · rw [h.estimatedSizes]
  · rw [h.lineNumbers]
  · rw [h.effects]
  · rw [h.exportKinds]
  · rw [h.priorities]
  · rw [h.phases]
  · rw [h.presence]
  · rw [h.symbols]
  · rw [h.modulePaths]

theorem Aligned.pushComponents (h : c.Aligned) (components : List CanonicalIrComponent) :
    (components.foldl IrColumns.pushComponent c).Aligned ∧
      (components.foldl IrColumns.pushComponent c).len = c.len + components.length := by
  induction components generalizing c with
  | nil => exact ⟨h, rfl⟩
  | cons component components ih =>
      obtain ⟨haligned, hlen⟩ := h.pushComponent component
      obtain ⟨hrest, hlen'⟩ := ih haligned
      refine ⟨hrest, ?_⟩
      rw [List.foldl_cons, hlen', hlen, List.length_cons]
      omega

theorem Aligned.pushModules (h : c.Aligned) (modules : List CanonicalIrModule) :
    (modules.foldl IrColumns.pushModule c).Aligned ∧
      (modules.foldl IrColumns.pushModule c).len = c.len := by
  induction modules generalizing c with
  | nil => exact ⟨h, rfl⟩
  | cons m modules ih =>
      have hstep : (c.pushModule m).Aligned := by
        obtain ⟨h₁, h₂, h₃, h₄, h₅, h₆, h₇, h₈, h₉, h₁₀⟩ := h
        exact ⟨h₁, h₂, h₃, h₄, h₅, h₆, h₇, h₈, h₉, h₁₀⟩
      exact ih hstep

theorem Aligned.pushEdges (h : c.Aligned) (edges : List CanonicalIrEdge) :
    (edges.foldl IrColumns.pushEdge c).Aligned ∧
      (edges.foldl IrColumns.pushEdge c).len = c.len := by
  induction edges generalizing c with
  | nil => exact ⟨h, rfl⟩
  | cons e edges ih =>
      have hstep : (c.pushEdge e).Aligned := by
        obtain ⟨h₁, h₂, h₃, h₄, h₅, h₆, h₇, h₈, h₉, h₁₀⟩ := h
        exact ⟨h₁, h₂, h₃, h₄, h₅, h₆, h₇, h₈, h₉, h₁₀⟩
      exact ih hstep

theorem fromCanonical_aligned (d : CanonicalIrDocument) :
    (fromCanonical d).Aligned ∧ (fromCanonical d).len = d.components.length := by
  have hempty : empty.Aligned := ⟨rfl, rfl, rfl, rfl, rfl, rfl, rfl, rfl, rfl, rfl⟩
  obtain ⟨hmodules, hlen₁⟩ := hempty.pushModules d.modules
  obtain ⟨hcomponents, hlen₂⟩ := hmodules.pushComponents d.components
  obtain ⟨hedges, hlen₃⟩ := hcomponents.pushEdges d.edges
  have hlen : (fromCanonical d).len = d.components.length := by
    refine hlen₃.trans (hlen₂.trans ?_)
    rw [hlen₁]
    exact Nat.zero_add _
  refine ⟨?_, hlen⟩
  obtain ⟨h₁, h₂, h₃, h₄, h₅, h₆, h₇, h₈, h₉, h₁₀⟩ := hedges
  exact ⟨h₁, h₂, h₃, h₄, h₅, h₆, h₇, h₈, h₉, h₁₀⟩

/-! ### Lanes -/

/-- The lane columns say which lane each position has, `lanes` being those of the components in
the order they had before. -/
structure Laned (c : IrColumns) (lanes : List ℕ) : Prop where
  length_eq : lanes.length = c.len
  lanes_lt : ∀ b ∈ lanes, b < laneCount
  offsets : c.laneOffsets.map UInt32.toNat =
    (List.range (laneCount + 1)).map fun b => lanes.countP (· < b)
  laneIds : Permuted (Buckets.order laneCount lanes) (lanes.map UInt8.ofNat) c.laneIds

theorem countP_all {lanes : List ℕ} (h : ∀ b ∈ lanes, b < laneCount) :
    lanes.countP (· < laneCount) = lanes.length :=
  List.countP_eq_length.mpr fun b hb => decide_eq_true (h b hb)

theorem fromCanonical_laned (d : CanonicalIrDocument) (hlen : d.components.length < 2 ^ 32) :
    (fromCanonical d).Laned (List.replicate (fromCanonical d).len 0) := by
  obtain ⟨-, hlength⟩ := fromCanonical_aligned d
  have hlanes : ∀ b ∈ List.replicate (fromCanonical d).len 0, b < laneCount := by
    intro b hb
    rw [List.eq_of_mem_replicate hb]
    decide
  refine ⟨List.length_replicate, hlanes, ?_, ?_⟩
  · have htotal : (toU32 (fromCanonical d).len).toNat = (fromCanonical d).len :=
      toU32_toNat (hlength ▸ hlen)
    change (0 :: List.replicate laneCount (toU32 (fromCanonical d).len)).map UInt32.toNat = _
    simp [laneCount, List.range_succ, htotal, List.countP_replicate]
  · have hids : (fromCanonical d).laneIds = List.replicate (fromCanonical d).len 0 := rfl
    have hlen' : (Buckets.order laneCount (List.replicate (fromCanonical d).len 0)).length =
        (fromCanonical d).len := by
      rw [(order_perm hlanes).length_eq, List.length_range, List.length_replicate]
    unfold Permuted
    rw [hids, List.map_replicate, List.map_replicate]
    refine (List.eq_replicate_iff.mpr ⟨by rw [List.length_map, hlen'], fun cell hcell => ?_⟩).symm
    obtain ⟨j, hj, rfl⟩ := List.mem_map.mp hcell
    have hrange := (order_perm hlanes).mem_iff.mp hj
    rw [List.mem_range, List.length_replicate] at hrange
    simp [hrange]

theorem sortByLane_laned (haligned : c.Aligned) (hlen : c.len < 2 ^ 32) (laneFor : UInt64 → ℕ) :
    (c.sortByLane laneFor).Laned (c.assignments laneFor) := by
  have hlanes := assignments_lt c laneFor
  have hlength : (c.assignments laneFor).length < 2 ^ 32 := by rwa [length_assignments]
  have hperm := order_perm hlanes
  rw [length_assignments] at hperm
  have hsame := (sortByLane_rearranged haligned hlen laneFor).len_eq hperm
  refine ⟨by rw [hsame, length_assignments], hlanes, ?_, ?_⟩
  · unfold sortByLane
    split_ifs with hzero
    · have hnil : c.assignments laneFor = [] := by
        rw [assignments, List.length_eq_zero_iff.mp hzero, List.map_nil]
      rw [hnil]
      rfl
    · have hlast : (toU32 (c.assignments laneFor).length).toNat =
          (c.assignments laneFor).countP (· < laneCount) := by
        rw [toU32_toNat hlength, countP_all hlanes]
      dsimp only [IrColumns.offsets]
      rw [List.map_append, List.map_map, List.range_succ, List.map_append, List.map_singleton,
        List.map_singleton, hlast]
      congr 1
      exact List.map_congr_left fun b _ => running_toNat hlength b
  · unfold sortByLane
    split_ifs with hzero
    · have hnil : c.assignments laneFor = [] := by
        rw [assignments, List.length_eq_zero_iff.mp hzero, List.map_nil]
      rw [hnil]
      rfl
    · have hold : oldIdxAtNew (newIdxOfOld (c.assignments laneFor)
          (running (counts (c.assignments laneFor)))) =
            (Buckets.order laneCount (c.assignments laneFor)).map toU32 :=
        oldIdxAtNew_placed hlength hlanes
      dsimp only
      rw [hold]
      refine permuted_permute (fun j hj => ?_) (by rwa [List.length_map])
      have hrange := (order_perm hlanes).mem_iff.mp hj
      rwa [List.mem_range, ← List.length_map (f := UInt8.ofNat)] at hrange

section Laned

variable {lanes : List ℕ} {i b : ℕ}

theorem Laned.lane (h : c.Laned lanes) (hi : i < c.len) :
    ∃ b < laneCount, c.laneIds[i]? = some (UInt8.ofNat b) ∧
      lanes.countP (· < b) ≤ i ∧ i < lanes.countP (· < b + 1) := by
  have hlength := (order_perm h.lanes_lt).length_eq
  rw [List.length_range, h.length_eq] at hlength
  have hat := List.getElem?_eq_getElem (hlength ▸ hi)
  obtain ⟨b, hb, hlane⟩ := mem_order.mp (List.mem_of_getElem? hat)
  have hrank : rank lanes b _ = i :=
    (nodup_order laneCount lanes).getElem_inj_iff.mp
      (List.getElem?_eq_some_iff.mp (getElem?_order hb hlane)).choose_spec
  obtain ⟨hlow, hhigh⟩ := rank_bounds hlane
  rw [hrank] at hlow hhigh
  refine ⟨b, hb, ?_, hlow, hhigh⟩
  have hj := (List.getElem?_eq_some_iff.mp hlane).choose
  rw [h.laneIds.getElem? hat (by rwa [List.length_map]), List.getElem?_map, hlane]
  rfl

theorem countP_lt_mono {a b : ℕ} (h : a ≤ b) : lanes.countP (· < a) ≤ lanes.countP (· < b) :=
  List.countP_mono_left fun _ _ hx => decide_eq_true ((of_decide_eq_true hx).trans_le h)

theorem lane_unique {a b : ℕ} (ha : lanes.countP (· < a) ≤ i ∧ i < lanes.countP (· < a + 1))
    (hb : lanes.countP (· < b) ≤ i ∧ i < lanes.countP (· < b + 1)) : a = b := by
  rcases Nat.lt_trichotomy a b with hlt | heq | hlt
  · have hmono : lanes.countP (· < a + 1) ≤ lanes.countP (· < b) := countP_lt_mono hlt
    omega
  · exact heq
  · have hmono : lanes.countP (· < b + 1) ≤ lanes.countP (· < a) := countP_lt_mono hlt
    omega

theorem Laned.offset (h : c.Laned lanes) (hb : b ≤ laneCount) :
    (c.laneOffsets.getD b 0).toNat = lanes.countP (· < b) := by
  have hcell := congrArg (·[b]?) h.offsets
  simp only [List.getElem?_map, List.getElem?_range (Nat.lt_succ_of_le hb), Option.map_some]
    at hcell
  obtain ⟨offset, hat, hoffset⟩ := Option.map_eq_some_iff.mp hcell
  rw [List.getD_eq_getElem?_getD, hat, Option.getD_some, hoffset]

theorem Laned.laneRange (h : c.Laned lanes) (hb : b < laneCount) :
    ∃ start stop, c.laneRange b = some (start, stop) ∧
      ∀ i, start ≤ i → i < stop → c.laneIds[i]? = some (UInt8.ofNat b) := by
  have hstart := h.offset hb.le
  have hstop := h.offset hb
  have hmono : lanes.countP (· < b) ≤ lanes.countP (· < b + 1) := countP_lt_mono (Nat.le_succ b)
  have hall : lanes.countP (· < b + 1) ≤ c.len := h.length_eq ▸ List.countP_le_length
  refine ⟨lanes.countP (· < b), lanes.countP (· < b + 1), ?_, fun i hlow hhigh => ?_⟩
  · unfold IrColumns.laneRange
    dsimp only
    rw [if_neg (Nat.not_le_of_lt hb), hstart, hstop, if_neg]
    rintro (hlt | hlt)
    · exact absurd hlt (Nat.not_lt.mpr hmono)
    · exact absurd hlt (Nat.not_lt.mpr hall)
  · obtain ⟨a, -, hlane, hrange⟩ := h.lane (hhigh.trans_le hall)
    rw [hlane, lane_unique hrange ⟨hlow, hhigh⟩]

end Laned

end IrColumns

end Albedo.Ir
