import Albedo.Ir.Opcode
import Albedo.Runtime.DirtyBitmap
import Mathlib.Order.Fin.Basic

/-!
# Ticks of the frame loop

A tick drains the bitmap word by word while others mark, parts the slots by their lanes and has
each lane's slots encoded. Beside the runs of the code stands what a tick owes: every slot that
was marked, to its own lane and once, when the first tick after the mark succeeds.
-/
namespace Albedo.Dirty

/-! ### Lanes -/

abbrev Lane := Fin 4

structure LaneOffsets where
  starts : List UInt32
  length_eq : starts.length = 5
  starts_zero : starts[0]? = some 0
  sorted : starts.Pairwise (· ≤ ·)

/-- The position of `x`, or where it would stand. Of several positions any may be found. -/
def binarySearch (xs : List UInt32) (x : UInt32) : Except ℕ ℕ :=
  match xs.findIdx? (· = x) with
  | some hit => .ok hit
  | none => .error (xs.countP (· < x))

def lastHit (xs : List UInt32) (x : UInt32) : ℕ → ℕ → ℕ
  | 0, hit => hit
  | fuel + 1, hit => if xs[hit + 1]? = some x then lastHit xs x fuel (hit + 1) else hit

def laneForIndex (idx : UInt32) (offsets : LaneOffsets) : ℕ :=
  match binarySearch offsets.starts idx with
  | .ok hit => min (lastHit offsets.starts idx offsets.starts.length hit) 3
  | .error insert => min (insert - 1) 3

/-- The last position whose value is not above `x`. -/
def LastAt (xs : List UInt32) (x : UInt32) (p : ℕ) : Prop :=
  (∃ a, xs[p]? = some a ∧ a ≤ x) ∧ ∀ j b, p < j → xs[j]? = some b → x < b

theorem le_of_sorted {xs : List UInt32} (hsorted : xs.Pairwise (· ≤ ·)) {i j : ℕ} {a b : UInt32}
    (hij : i < j) (ha : xs[i]? = some a) (hb : xs[j]? = some b) : a ≤ b := by
  obtain ⟨hi, rfl⟩ := List.getElem?_eq_some_iff.mp ha
  obtain ⟨hj, rfl⟩ := List.getElem?_eq_some_iff.mp hb
  exact List.pairwise_iff_getElem.mp hsorted i j hi hj hij

theorem lastAt_lastHit {xs : List UInt32} {x : UInt32} (hsorted : xs.Pairwise (· ≤ ·)) {fuel hit : ℕ}
    (hfuel : xs.length ≤ hit + fuel) (hhit : xs[hit]? = some x) :
    LastAt xs x (lastHit xs x fuel hit) := by
  induction fuel generalizing hit with
  | zero =>
      have hlt := (List.getElem?_eq_some_iff.mp hhit).choose
      omega
  | succ fuel ih =>
      rw [lastHit]
      split_ifs with hnext
      · exact ih (by omega) hnext
      · refine ⟨⟨x, hhit, UInt32.le_refl x⟩, fun j b hj hb => ?_⟩
        obtain ⟨c, hc⟩ : ∃ c, xs[hit + 1]? = some c := by
          have hlt := (List.getElem?_eq_some_iff.mp hb).choose
          exact ⟨_, List.getElem?_eq_getElem (by omega)⟩
        have hxc : x ≤ c := le_of_sorted hsorted (Nat.lt_succ_self hit) hhit hc
        have hne : x ≠ c := fun h => hnext (h ▸ hc)
        have hlt : x < c := UInt32.lt_of_le_of_ne hxc hne
        rcases Nat.lt_or_ge (hit + 1) j with h | h
        · exact UInt32.lt_of_lt_of_le hlt (le_of_sorted hsorted h hc hb)
        · obtain rfl : j = hit + 1 := by omega
          obtain rfl := Option.some.inj (hb.symm.trans hc)
          exact hlt

theorem LastAt.cons {xs : List UInt32} {x a : UInt32} {p : ℕ} (h : LastAt xs x p) :
    LastAt (a :: xs) x (p + 1) := by
  refine ⟨h.1, fun j b hj hb => ?_⟩
  cases j with
  | zero => omega
  | succ j => exact h.2 j b (by omega) hb

theorem lastAt_countP {xs : List UInt32} {x a : UInt32} (hsorted : (a :: xs).Pairwise (· ≤ ·))
    (hfirst : a < x) (hnone : ∀ b ∈ xs, b ≠ x) :
    LastAt (a :: xs) x ((a :: xs).countP (· < x) - 1) := by
  induction xs generalizing a with
  | nil =>
      refine ⟨⟨a, by simp [hfirst], UInt32.le_of_lt hfirst⟩, fun j b hj hb => ?_⟩
      have hlt := (List.getElem?_eq_some_iff.mp hb).choose
      simp [hfirst] at hj hlt
      omega
  | cons c xs ih =>
      rw [List.countP_cons_of_pos (by simpa using hfirst), Nat.add_sub_cancel]
      have hrest := (List.pairwise_cons.mp hsorted).2
      by_cases hc : c < x
      · have hlast := (ih hrest hc fun b hb => hnone b (List.mem_cons_of_mem _ hb)).cons (a := a)
        have hpos : 0 < (c :: xs).countP (· < x) :=
          List.countP_pos_iff.mpr ⟨c, List.mem_cons_self, by simpa using hc⟩
        rwa [Nat.sub_add_cancel hpos] at hlast
      · have hxc : x < c :=
          UInt32.lt_of_le_of_ne (UInt32.not_lt.mp hc) (hnone c List.mem_cons_self).symm
        have hall : ∀ b ∈ c :: xs, x < b := by
          intro b hb
          rcases List.mem_cons.mp hb with rfl | hb
          · exact hxc
          · exact UInt32.lt_of_lt_of_le hxc ((List.pairwise_cons.mp hrest).1 b hb)
        have hzero : (c :: xs).countP (· < x) = 0 :=
          List.countP_eq_zero.mpr fun b hb => by simpa using UInt32.le_of_lt (hall b hb)
        rw [hzero]
        refine ⟨⟨a, rfl, UInt32.le_of_lt hfirst⟩, fun j b hj hb => ?_⟩
        cases j with
        | zero => omega
        | succ j => exact hall b (List.mem_of_getElem? hb)
def LaneOffsets.start (offsets : LaneOffsets) (i : ℕ) : UInt32 := offsets.starts.getD i 0

/-- A slot is in the range of a lane; past all ranges it counts as the last lane's. -/
def LaneOffsets.Owns (offsets : LaneOffsets) (lane : Lane) (idx : UInt32) : Prop :=
  offsets.start lane ≤ idx ∧ (idx < offsets.start (lane + 1) ∨ lane = 3)

instance (offsets : LaneOffsets) (lane : Lane) (idx : UInt32) :
    Decidable (offsets.Owns lane idx) := inferInstanceAs (Decidable (_ ∧ _))

theorem LaneOffsets.start_eq (offsets : LaneOffsets) {i : ℕ} (h : i < 5) :
    offsets.starts[i]? = some (offsets.start i) := by
  have hi : i < offsets.starts.length := offsets.length_eq ▸ h
  rw [LaneOffsets.start, List.getD_eq_getElem?_getD, List.getElem?_eq_getElem hi, Option.getD_some]

theorem laneForIndex_lastAt (idx : UInt32) (offsets : LaneOffsets) :
    ∃ p, LastAt offsets.starts idx p ∧ laneForIndex idx offsets = min p 3 := by
  unfold laneForIndex binarySearch
  cases hfind : offsets.starts.findIdx? (· = idx) with
  | some hit =>
      obtain ⟨hlt, hhit, -⟩ := List.findIdx?_eq_some_iff_getElem.mp hfind
      have hat : offsets.starts[hit]? = some idx := by
        rw [List.getElem?_eq_getElem hlt, of_decide_eq_true hhit]
      exact ⟨_, lastAt_lastHit offsets.sorted (by omega) hat, rfl⟩
  | none =>
      have hnone : ∀ a ∈ offsets.starts, a ≠ idx := fun a ha h =>
        absurd (List.findIdx?_eq_none_iff.mp hfind a ha) (by simpa using h)
      have hsorted := offsets.sorted
      have hzero := offsets.starts_zero
      refine ⟨_, ?_, rfl⟩
      cases hstarts : offsets.starts with
      | nil => rw [hstarts] at hzero; cases hzero
      | cons a xs =>
          rw [hstarts] at hsorted hzero hnone
          obtain rfl : a = 0 := Option.some.inj hzero
          have hpos : 0 < idx := UInt32.lt_of_le_of_ne UInt32.zero_le (hnone 0 List.mem_cons_self)
          exact lastAt_countP hsorted hpos fun b hb => hnone b (List.mem_cons_of_mem _ hb)

theorem laneForIndex_eq {offsets : LaneOffsets} {lane : Lane} {idx : UInt32} :
    laneForIndex idx offsets = lane.val ↔ offsets.Owns lane idx := by
  obtain ⟨p, ⟨⟨a, ha, hle⟩, habove⟩, hlane⟩ := laneForIndex_lastAt idx offsets
  have hp : p < 5 := offsets.length_eq ▸ (List.getElem?_eq_some_iff.mp ha).choose
  obtain rfl : offsets.start p = a := Option.some.inj ((offsets.start_eq hp).symm.trans ha)
  have hmono {i j : ℕ} (hij : i ≤ j) (hj : j < 5) : offsets.start i ≤ offsets.start j := by
    rcases Nat.lt_or_eq_of_le hij with h | rfl
    · exact le_of_sorted offsets.sorted h (offsets.start_eq (by omega)) (offsets.start_eq hj)
    · exact UInt32.le_refl _
  have hbelow : ∀ j < 5, p < j → idx < offsets.start j := fun j hj hpj =>
    habove j _ hpj (offsets.start_eq hj)
  have hlt := lane.isLt
  rw [hlane]
  constructor
  · intro h
    refine ⟨UInt32.le_trans (hmono (by omega) hp) hle, ?_⟩
    by_cases hlast : p = 4
    · exact .inr (Fin.ext (by omega))
    · exact .inl (hbelow _ (by omega) (by omega))
  · rintro ⟨hstart, hend⟩
    have hlep : lane.val ≤ p := by
      by_contra h
      exact absurd (hbelow _ (by omega) (by omega)) (UInt32.not_lt.mpr hstart)
    rcases hend with hend | hend
    · have hpl : p < lane.val + 1 := by
        by_contra h
        have hge := UInt32.le_trans (hmono (Nat.not_lt.mp h) hp) hle
        exact absurd hend (UInt32.not_lt.mpr hge)
      omega
    · have hthree : lane.val = 3 := congrArg Fin.val hend
      omega

/-! ### A tick -/

structure Columns where
  offsets : LaneOffsets
  sourceHashes : List UInt64
  effects : List UInt8

structure EmitResult where
  lane : Lane
  instructions : List Ir.Instruction

def emitLaneInstructions (indices : List UInt32) (hashes : List UInt64) (effects : List UInt8) :
    List Ir.Instruction :=
  indices.map fun columnIdx =>
    let hash := hashes.getD columnIdx.toNat 0
    let effectByte := effects.getD columnIdx.toNat 0
    .slotSet columnIdx ⟨Bincode.leBytes 8 hash.toNat ++ [effectByte], by simp⟩

def partitionDirtyByLane (scratch : List UInt32) (offsets : LaneOffsets) (lane : Lane) :
    List UInt32 := scratch.filter fun idx => laneForIndex idx offsets = lane.val

/-- The lanes one after the other; one that cannot be encoded is the end of all. -/
def emitLanes (columns : Columns) (buckets : Lane → List UInt32) (encodes : Lane → Bool) :
    List Lane → Option (List EmitResult)
  | [] => some []
  | lane :: lanes =>
      if (buckets lane).isEmpty then emitLanes columns buckets encodes lanes
      else if encodes lane then
        (emitLanes columns buckets encodes lanes).map
          (⟨lane, emitLaneInstructions (buckets lane) columns.sourceHashes columns.effects⟩ :: ·)
      else none

def emitLaneFrames (columns : Columns) (buckets : Lane → List UInt32) (encodes : Lane → Bool) :
    Option (List EmitResult) := emitLanes columns buckets encodes (List.finRange 4)

/-- A tick under way: the next word to drain, the slots drained, and how many were counted. -/
structure Tick where
  position : ℕ
  scratch : List UInt32
  dirtyCount : ℕ

/-- A drained slot as a number of 32 bits, where it is one. -/
def asU32 (idx : ℕ) : Option UInt32 := if idx < 2 ^ 32 then some (UInt32.ofNat idx) else none

/-- What callers see of a tick, after what it owed. -/
structure Report where
  due : ℕ → Bool
  offsets : LaneOffsets
  results : List EmitResult
  failed : Bool

def Tick.finish (t : Tick) (due : ℕ → Bool) (columns : Columns) (encodes : Lane → Bool) : Report :=
  if t.dirtyCount = 0 then ⟨due, columns.offsets, [], false⟩
  else
    match emitLaneFrames columns (partitionDirtyByLane t.scratch columns.offsets) encodes with
    | some results => ⟨due, columns.offsets, results, false⟩
    | none => ⟨due, columns.offsets, [], true⟩

def EmitResult.slots (r : EmitResult) : List UInt32 :=
  r.instructions.filterMap fun
    | .slotSet slotId _ => some slotId
    | _ => none

def Report.handed (r : Report) (lane : Lane) (idx : UInt32) : ℕ :=
  ((r.results.filter (·.lane = lane)).flatMap EmitResult.slots).count idx

/-- A tick hands on what it owes: each slot once and to its own lane, nothing else, and no slot
that there is not. -/
structure Report.Right (r : Report) (capacity : ℕ) : Prop where
  handed : ∀ lane idx, r.handed lane idx =
    if r.due idx.toNat = true ∧ r.offsets.Owns lane idx then 1 else 0
  within : ∀ i, r.due i = true → i < capacity ∧ i < 2 ^ 32

/-! ### Runs -/

/-- The bitmap with the comparisons and the tick under way and the ticks so far. Beside them, what
is owed: slots marked since their word was last drained, and slots drained since and not yet
handed on. -/
structure World where
  bitmap : DirtyBitmap
  calls : List (List (ℕ × Word))
  tick : Option Tick
  reports : List Report
  fresh : ℕ → Bool
  due : ℕ → Bool

def World.init (capacity : ℕ) (h : capacity < 2 ^ 64) : World :=
  ⟨withCapacity capacity h, [], none, [], fun _ => false, fun _ => false⟩

inductive Event
  | mark (idx : ℕ)
  | orWord (wordIdx : ℕ) (mask : Word)
  /-- A comparison begins; what it writes is written by its own steps. -/
  | compare (old new : List UInt64) (startIdx : ℕ)
  | write (call : ℕ)
  | tick
  | drain
  | emit (columns : Columns) (encodes : Lane → Bool)

def World.marked (w : World) (idx : ℕ) : World :=
  { w with
    bitmap := (w.bitmap.mark idx).1
    fresh := fun i => w.fresh i || (decide (i < w.bitmap.capacity) && decide (i = idx)) }

def World.written (w : World) (wordIdx : ℕ) (mask : Word) : World :=
  { w with
    bitmap := w.bitmap.orWord wordIdx mask
    fresh := fun i => w.fresh i || (decide (i < w.bitmap.capacity) &&
      (decide (i / bitsPerWord = wordIdx) && mask.getLsbD (i % bitsPerWord))) }

def World.drained (w : World) (t : Tick) : World :=
  let slots := w.bitmap.slotsOf t.position
  { w with
    bitmap := w.bitmap.takeWord t.position
    tick := some ⟨t.position + 1, t.scratch ++ slots.filterMap asU32, t.dirtyCount + slots.length⟩
    fresh := fun i => w.fresh i && decide (i / bitsPerWord ≠ t.position)
    due := fun i => w.due i || (w.fresh i && decide (i / bitsPerWord = t.position)) }

def World.emitted (w : World) (t : Tick) (columns : Columns) (encodes : Lane → Bool) : World :=
  let report := t.finish w.due columns encodes
  { w with
    tick := none
    reports := w.reports ++ [report]
    due := fun i => report.failed && w.due i }

def World.writes (w : World) (call : ℕ) : World :=
  match w.calls[call]? with
  | some ((wordIdx, mask) :: rest) =>
      { w.written wordIdx mask with calls := w.calls.set call rest }
  | _ => w

def World.handle (w : World) : Event → World
  | .mark idx => w.marked idx
  | .orWord wordIdx mask => w.written wordIdx mask
  | .compare old new startIdx => { w with calls := w.calls ++ [(hashDiff old new startIdx).1] }
  | .write call => w.writes call
  | .tick => if w.tick.isNone then { w with tick := some ⟨0, [], 0⟩ } else w
  | .drain =>
      match w.tick with
      | some t => if t.position < w.bitmap.wordCount then w.drained t else w
      | none => w
  | .emit columns encodes =>
      match w.tick with
      | some t => if t.position < w.bitmap.wordCount then w else w.emitted t columns encodes
      | none => w

def run (capacity : ℕ) (h : capacity < 2 ^ 64) (events : List Event) : World :=
  events.foldl World.handle (World.init capacity h)

/-! ### What a tick hands on -/

theorem slots_emitLaneInstructions (lane : Lane) (indices : List UInt32) (hashes : List UInt64)
    (effects : List UInt8) :
    EmitResult.slots ⟨lane, emitLaneInstructions indices hashes effects⟩ = indices := by
  unfold EmitResult.slots emitLaneInstructions
  rw [List.filterMap_map]
  exact List.filterMap_some

theorem emitLanes_all (columns : Columns) (buckets : Lane → List UInt32) {encodes : Lane → Bool}
    (h : ∀ lane, encodes lane = true) {lanes : List Lane} (hlanes : lanes.Nodup) :
    ∃ results, emitLanes columns buckets encodes lanes = some results ∧
      ∀ lane, (results.filter (·.lane = lane)).flatMap EmitResult.slots =
        if lane ∈ lanes then buckets lane else [] := by
  induction lanes with
  | nil => exact ⟨[], rfl, fun lane => rfl⟩
  | cons first lanes ih =>
      obtain ⟨hfirst, hrest⟩ := List.nodup_cons.mp hlanes
      obtain ⟨results, hresults, hslots⟩ := ih hrest
      rw [emitLanes, if_pos (h first), hresults, Option.map_some]
      by_cases hempty : (buckets first).isEmpty = true
      · rw [if_pos hempty]
        refine ⟨results, rfl, fun lane => ?_⟩
        rw [hslots]
        by_cases hlane : lane = first
        · subst hlane
          simp [hfirst, List.isEmpty_iff.mp hempty]
        · simp [hlane]
      · rw [if_neg hempty]
        refine ⟨_, rfl, fun lane => ?_⟩
        by_cases hlane : lane = first
        · subst hlane
          rw [List.filter_cons_of_pos (by simp), List.flatMap_cons, slots_emitLaneInstructions,
            hslots, if_neg hfirst, if_pos List.mem_cons_self, List.append_nil]
        · have hne : first ≠ lane := fun h => hlane h.symm
          rw [List.filter_cons_of_neg (by simpa using hne), hslots]
          simp [hlane]

theorem mem_asU32 {slots : List ℕ} {idx : UInt32} :
    idx ∈ slots.filterMap asU32 ↔ idx.toNat ∈ slots := by
  rw [List.mem_filterMap]
  constructor
  · rintro ⟨i, hi, hidx⟩
    unfold asU32 at hidx
    split_ifs at hidx with hlt
    obtain rfl := Option.some.inj hidx
    rwa [UInt32.toNat_ofNat', Nat.mod_eq_of_lt hlt]
  · intro hidx
    refine ⟨idx.toNat, hidx, ?_⟩
    rw [asU32, if_pos idx.toNat_lt, UInt32.ofNat_toNat]

theorem nodup_asU32 {slots : List ℕ} (h : slots.Nodup) : (slots.filterMap asU32).Nodup := by
  refine h.filterMap fun i j idx hi hj => ?_
  simp only [asU32, Option.mem_def, Option.ite_none_right_eq_some, Option.some.injEq] at hi hj
  have hij := congrArg UInt32.toNat (hi.2.trans hj.2.symm)
  rwa [UInt32.toNat_ofNat', UInt32.toNat_ofNat', Nat.mod_eq_of_lt hi.1,
    Nat.mod_eq_of_lt hj.1] at hij

structure Tick.Owes (t : Tick) (due : ℕ → Bool) (capacity : ℕ) : Prop where
  due_iff : ∀ i, due i = true ↔ ∃ idx ∈ t.scratch, idx.toNat = i
  nodup : t.scratch.Nodup
  behind : ∀ idx ∈ t.scratch, idx.toNat / bitsPerWord < t.position
  within : ∀ idx ∈ t.scratch, idx.toNat < capacity
  counted : t.scratch.length ≤ t.dirtyCount

theorem Tick.Owes.finish {t : Tick} {due : ℕ → Bool} {capacity : ℕ} (ht : t.Owes due capacity)
    (columns : Columns) {encodes : Lane → Bool} (h : ∀ lane, encodes lane = true) :
    (t.finish due columns encodes).Right capacity ∧
      (t.finish due columns encodes).failed = false := by
  have hmem (idx : UInt32) : due idx.toNat = true ↔ idx ∈ t.scratch := by
    rw [ht.due_iff]
    constructor
    · rintro ⟨idx', hidx', heq⟩
      rwa [← UInt32.toNat_inj.mp heq]
    · exact fun hidx => ⟨idx, hidx, rfl⟩
  have hwithin : ∀ i, due i = true → i < capacity ∧ i < 2 ^ 32 := by
    intro i hi
    obtain ⟨idx, hidx, rfl⟩ := (ht.due_iff i).mp hi
    exact ⟨ht.within idx hidx, idx.toNat_lt⟩
  unfold Tick.finish
  split_ifs with hzero
  · have hnone : t.scratch = [] := List.length_eq_zero_iff.mp (by have := ht.counted; omega)
    refine ⟨⟨fun lane idx => ?_, hwithin⟩, rfl⟩
    have hdue : ¬ due idx.toNat = true := by
      rw [hmem, hnone]
      exact List.not_mem_nil
    exact (if_neg fun hd => hdue hd.1).symm
  · obtain ⟨results, hresults, hslots⟩ := emitLanes_all columns
      (partitionDirtyByLane t.scratch columns.offsets) h (List.nodup_finRange 4)
    rw [emitLaneFrames, hresults]
    refine ⟨⟨fun lane idx => ?_, hwithin⟩, rfl⟩
    rw [Report.handed, hslots, if_pos (List.mem_finRange lane), partitionDirtyByLane]
    have hbucket := ht.nodup.filter fun i => decide (laneForIndex i columns.offsets = lane.val)
    rw [hbucket.count]
    simp only [List.mem_filter, decide_eq_true_eq, laneForIndex_eq, hmem]

/-! ### What holds in every run -/

structure Inv (capacity : ℕ) (w : World) : Prop where
  capacity_eq : w.bitmap.capacity = capacity
  fresh : ∀ i, w.fresh i = (decide (i < capacity) && w.bitmap.isSet i)
  owes : match w.tick with
    | none => ∀ i, w.due i = false
    | some t => t.Owes w.due capacity
  right : ∀ r ∈ w.reports, r.Right capacity

variable {capacity : ℕ} {w : World}

theorem inv_init (h : capacity < 2 ^ 64) : Inv capacity (World.init capacity h) where
  capacity_eq := rfl
  fresh i := by simp [World.init, withCapacity, DirtyBitmap.isSet]
  owes _ := rfl
  right r hr := absurd hr List.not_mem_nil

theorem Inv.marked (h : Inv capacity w) (idx : ℕ) : Inv capacity (w.marked idx) where
  capacity_eq := DirtyBitmap.capacity_mark.trans h.capacity_eq
  owes := h.owes
  right := h.right
  fresh i := by
    simp only [World.marked, h.fresh, h.capacity_eq]
    by_cases hidx : idx < capacity
    · rw [DirtyBitmap.isSet_mark (h.capacity_eq.symm ▸ hidx), ← Bool.and_or_distrib_left]
    · rw [DirtyBitmap.mark_of_le (h.capacity_eq.symm ▸ Nat.not_lt.mp hidx)]
      by_cases hi : i = idx
      · subst hi
        simp [hidx]
      · simp [hi]

theorem Inv.written (h : Inv capacity w) (wordIdx : ℕ) (mask : Word) :
    Inv capacity (w.written wordIdx mask) where
  capacity_eq := DirtyBitmap.capacity_orWord.trans h.capacity_eq
  owes := h.owes
  right := h.right
  fresh i := by
    simp only [World.written, h.fresh, h.capacity_eq]
    by_cases hi : i < capacity
    · rw [DirtyBitmap.isSet_orWord (h.capacity_eq.symm ▸ hi), ← Bool.and_or_distrib_left]
    · simp [hi]

theorem Tick.Owes.drain {t : Tick} (hcap : capacity ≤ 2 ^ 32) (h : Inv capacity w)
    (ht : t.Owes w.due capacity) :
    Tick.Owes ⟨t.position + 1, t.scratch ++ (w.bitmap.slotsOf t.position).filterMap asU32,
        t.dirtyCount + (w.bitmap.slotsOf t.position).length⟩
      (fun i => w.due i || (w.fresh i && decide (i / bitsPerWord = t.position))) capacity where
  due_iff i := by
    have hslots : (w.fresh i && decide (i / bitsPerWord = t.position)) = true ↔
        i ∈ w.bitmap.slotsOf t.position := by
      rw [DirtyBitmap.mem_slotsOf, h.fresh, h.capacity_eq]
      simp only [Bool.and_eq_true, decide_eq_true_eq]
      tauto
    rw [Bool.or_eq_true, hslots, ht.due_iff]
    constructor
    · rintro (⟨idx, hidx, rfl⟩ | hi)
      · exact ⟨idx, List.mem_append_left _ hidx, rfl⟩
      · have hlt : i < capacity := h.capacity_eq ▸ (DirtyBitmap.mem_slotsOf.mp hi).1
        have htoNat : (UInt32.ofNat i).toNat = i := by
          rw [UInt32.toNat_ofNat', Nat.mod_eq_of_lt (by omega)]
        exact ⟨UInt32.ofNat i, List.mem_append_right _ (mem_asU32.mpr (htoNat.symm ▸ hi)), htoNat⟩
    · rintro ⟨idx, hidx, rfl⟩
      rcases List.mem_append.mp hidx with hidx | hidx
      · exact .inl ⟨idx, hidx, rfl⟩
      · exact .inr (mem_asU32.mp hidx)
  nodup := by
    refine ht.nodup.append (nodup_asU32 DirtyBitmap.nodup_slotsOf) fun idx hold hnew => ?_
    have hbehind := ht.behind idx hold
    have hhere := (DirtyBitmap.mem_slotsOf.mp (mem_asU32.mp hnew)).2.1
    omega
  behind idx hidx := by
    rcases List.mem_append.mp hidx with hidx | hidx
    · exact Nat.lt_succ_of_lt (ht.behind idx hidx)
    · have hhere := (DirtyBitmap.mem_slotsOf.mp (mem_asU32.mp hidx)).2.1
      exact Nat.lt_succ_of_le (Nat.le_of_eq hhere)
  within idx hidx := by
    rcases List.mem_append.mp hidx with hidx | hidx
    · exact ht.within idx hidx
    · exact h.capacity_eq ▸ (DirtyBitmap.mem_slotsOf.mp (mem_asU32.mp hidx)).1
  counted := by
    have hlength := List.length_filterMap_le asU32 (w.bitmap.slotsOf t.position)
    rw [List.length_append]
    exact Nat.add_le_add ht.counted hlength

theorem Inv.drained {t : Tick} (hcap : capacity ≤ 2 ^ 32) (h : Inv capacity w)
    (htick : w.tick = some t) : Inv capacity (w.drained t) where
  capacity_eq := h.capacity_eq
  fresh i := by
    simp only [World.drained, h.fresh, DirtyBitmap.isSet_takeWord, Bool.and_assoc]
  owes := by
    have howes := h.owes
    rw [htick] at howes
    exact howes.drain hcap h
  right := h.right

theorem Inv.emitted {t : Tick} {columns : Columns} {encodes : Lane → Bool} (h : Inv capacity w)
    (htick : w.tick = some t) (hencodes : ∀ lane, encodes lane = true) :
    Inv capacity (w.emitted t columns encodes) := by
  have howes := h.owes
  rw [htick] at howes
  obtain ⟨hright, hok⟩ := howes.finish columns hencodes
  refine ⟨h.capacity_eq, h.fresh, fun i => ?_, fun r hr => ?_⟩
  · simp [World.emitted, hok]
  · rcases List.mem_append.mp hr with hr | hr
    · exact h.right r hr
    · obtain rfl := List.mem_singleton.mp hr
      exact hright

def AllEncode (events : List Event) : Prop :=
  ∀ columns encodes, .emit columns encodes ∈ events → ∀ lane, encodes lane = true

theorem Inv.handle (hcap : capacity ≤ 2 ^ 32) (h : Inv capacity w) {event : Event}
    (hevent : AllEncode [event]) : Inv capacity (w.handle event) := by
  cases event with
  | mark idx => exact h.marked idx
  | orWord wordIdx mask => exact h.written wordIdx mask
  | compare old new startIdx => exact ⟨h.capacity_eq, h.fresh, h.owes, h.right⟩
  | write call =>
      change Inv capacity (w.writes call)
      unfold World.writes
      split
      · rename_i wordIdx mask rest _
        have hwritten := h.written wordIdx mask
        exact ⟨hwritten.capacity_eq, hwritten.fresh, hwritten.owes, hwritten.right⟩
      · exact h
  | tick =>
      unfold World.handle
      split_ifs with hnone
      · have howes := h.owes
        rw [Option.isNone_iff_eq_none.mp hnone] at howes
        refine ⟨h.capacity_eq, h.fresh, ⟨fun i => ?_, List.nodup_nil, ?_, ?_, Nat.le_refl _⟩, h.right⟩
        · simp [howes i]
        · exact fun idx hidx => absurd hidx List.not_mem_nil
        · exact fun idx hidx => absurd hidx List.not_mem_nil
      · exact h
  | drain =>
      unfold World.handle
      cases htick : w.tick with
      | none => exact h
      | some t =>
          dsimp only
          split_ifs
          · exact h.drained hcap htick
          · exact h
  | emit columns encodes =>
      unfold World.handle
      cases htick : w.tick with
      | none => exact h
      | some t =>
          dsimp only
          split_ifs
          · exact h
          · exact h.emitted htick (hevent columns encodes List.mem_cons_self)

theorem inv_run (hcap : capacity ≤ 2 ^ 32) (hlt : capacity < 2 ^ 64) {events : List Event}
    (hevents : AllEncode events) : Inv capacity (run capacity hlt events) := by
  suffices h : ∀ w, Inv capacity w → Inv capacity (events.foldl World.handle w) from
    h _ (inv_init hlt)
  induction events with
  | nil => exact fun w hw => hw
  | cons event events ih =>
      intro w hw
      have hfirst : AllEncode [event] := fun columns encodes hmem =>
        hevents columns encodes (List.mem_singleton.mp hmem ▸ List.mem_cons_self)
      have hrest : AllEncode events := fun columns encodes hmem =>
        hevents columns encodes (List.mem_cons_of_mem _ hmem)
      exact ih hrest _ (hw.handle hcap hfirst)

/-- Ten slots in four lanes, the first two in the first lane. -/
def fewColumns : Columns := ⟨⟨[0, 2, 2, 5, 10], rfl, rfl, by decide⟩, [], []⟩

def failedThenRight (first : Lane → Bool) : List Event :=
  [.mark 3, .tick, .drain, .emit fewColumns first, .tick, .drain, .emit fewColumns fun _ => true]

end Albedo.Dirty
