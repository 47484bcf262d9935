import Albedo.Runtime.Arena
import Mathlib.Algebra.Order.BigOperators.Group.List

/-!
# The blocks of the engine's allocator

Beside the allocator stand the blocks that are live: where each begins, and what was asked for it
last. Every call keeps them apart from each other and as large as they were asked to be, as long as
no size is so close to the largest number that a sum goes round.
-/
namespace Albedo.Runtime
open Memory

/-- A live block: the address of its header, and the size last asked for it. -/
structure Block where
  base : ℕ
  requested : ℕ

namespace Block

def user (b : Block) : ℕ := b.base + headerSize

def usable (mem : Bytes) (b : Block) : ℕ := ArenaControl.readHeader mem b.user

def span (mem : Bytes) (b : Block) : Span := ⟨b.base, b.base + headerSize + b.usable mem⟩

def Carved (r : Region) (s : Span) : Prop := r.base ≤ s.start ∧ s.stop ≤ r.base + r.top

def Outside (r : Region) (s : Span) : Prop := s.Apart ⟨r.base, r.base + r.cap⟩

instance (r : Region) (s : Span) : Decidable (Carved r s) := inferInstanceAs (Decidable (_ ∧ _))

instance (r : Region) (s : Span) : Decidable (Outside r s) :=
  inferInstanceAs (Decidable (Span.Apart _ _))

def gauge (r : Region) (mem : Bytes) (live : List Block) : ℕ :=
  ((live.filter fun b => Outside r (b.span mem)).map (usable mem)).sum

/-- The system's allocator answers with a block that is apart from the region and from all others
that it has given and not taken back, or not at all. -/
def Fresh (r : Region) (mem : Bytes) (others : List Block) (total : ℕ) (system : Option ℕ) : Prop :=
  ∀ base, system = some base → 0 < base ∧ base + total < 2 ^ 64 ∧
    Outside r ⟨base, base + total⟩ ∧
      ∀ b ∈ others, Outside r (b.span mem) → (⟨base, base + total⟩ : Span).Apart (b.span mem)

def hold (live : List Block) (size : ℕ) : Option ℕ → List Block
  | none => live
  | some user => ⟨user - headerSize, size⟩ :: live

def release (live : List Block) (user : ℕ) : List Block := live.eraseP fun b => b.user = user

/-! ### What every call keeps -/

variable {r r' : Region} {mem mem' : Bytes} {live rest : List Block} {b : Block} {bytes : ℕ}

theorem gauge_cons (b : Block) (rest : List Block) :
    gauge r mem (b :: rest) =
      (if Outside r (b.span mem) then b.usable mem else 0) + gauge r mem rest := by
  unfold gauge
  rw [List.filter_cons]
  split_ifs with h h' h'
  · rw [List.map_cons, List.sum_cons]
  · exact absurd (of_decide_eq_true h) h'
  · exact absurd (decide_eq_true h') h
  · rw [Nat.zero_add]

/-- A live block is as large as it was asked to be, and in the region or apart from it. -/
structure Placed (r : Region) (mem : Bytes) (b : Block) : Prop where
  honest : b.requested ≤ b.usable mem
  eight : 8 ≤ b.usable mem
  fits : (b.span mem).stop < 2 ^ 64
  located : Carved r (b.span mem) ∨ Outside r (b.span mem)

structure Inv (r : Region) (bytes : ℕ) (mem : Bytes) (live : List Block) : Prop where
  top_le : r.top ≤ r.cap
  region_lt : r.base + r.cap < 2 ^ 64
  placed : ∀ b ∈ live, Placed r mem b
  apart : live.Pairwise fun b b' => (b.span mem).Apart (b'.span mem)
  counted : bytes = gauge r mem live

structure Writes (mem mem' : Bytes) (base usable : ℕ) : Prop where
  header : readWord mem' base = usable
  rest : ∀ x, x < base ∨ base + headerSize + usable ≤ x → mem' x = mem x

theorem usable_eq (b : Block) : b.usable mem = readWord mem b.base := by
  rw [usable, ArenaControl.readHeader, user, Nat.add_sub_cancel]

theorem usable_congr (h : ∀ i < headerSize, mem' (b.base + i) = mem (b.base + i)) :
    b.usable mem' = b.usable mem := by
  rw [usable_eq, usable_eq]
  exact readWord_congr h

theorem span_congr (h : b.usable mem' = b.usable mem) : b.span mem' = b.span mem := by
  rw [span, span, h]

theorem Inv.not_outside (hi : Inv r bytes mem live) (hb : 8 ≤ b.usable mem)
    (h : Carved r (b.span mem)) : ¬ Outside r (b.span mem) := by
  have htop := hi.top_le
  obtain ⟨hstart, hstop⟩ := h
  simp only [span] at hstart hstop
  rintro (hout | hout) <;> simp only [span] at hout <;> omega

theorem Inv.contains_iff (hi : Inv r bytes mem live) (hb : Placed r mem b) :
    r.contains b.user = true ↔ Carved r (b.span mem) := by
  have htop := hi.top_le
  have height := hb.eight
  rw [Region.contains, decide_eq_true_iff, wrap_of_lt hi.region_lt]
  constructor
  · rintro ⟨hlow, hhigh⟩
    refine hb.located.resolve_right ?_
    rintro (hout | hout) <;> simp only [span, user, headerSize] at hlow hhigh hout <;> omega
  · rintro ⟨hstart, hstop⟩
    simp only [span, user, headerSize] at hstart hstop ⊢
    omega

theorem Inv.contains_false (hi : Inv r bytes mem live) (hb : Placed r mem b)
    (h : r.contains b.user = false) : Outside r (b.span mem) :=
  hb.located.resolve_left fun hcarved => by
    rw [(hi.contains_iff hb).mpr hcarved] at h
    cases h

theorem gauge_lt (hplaced : ∀ b ∈ live, Placed r mem b)
    (hapart : live.Pairwise fun b b' => (b.span mem).Apart (b'.span mem)) :
    gauge r mem live < 2 ^ 64 := by
  have hsum : ((live.map (span mem)).map fun s => s.stop - s.start).sum ≤ 2 ^ 64 - 1 := by
    refine Span.sum_le_of_pairwise (List.pairwise_map.mpr hapart) fun s hs => ?_
    obtain ⟨b, hb, rfl⟩ := List.mem_map.mp hs
    have hfits := (hplaced b hb).fits
    omega
  have hle : gauge r mem live ≤ ((live.map (span mem)).map fun s => s.stop - s.start).sum := by
    clear hplaced hapart hsum
    induction live with
    | nil => exact le_rfl
    | cons b rest ih =>
        rw [gauge_cons, List.map_cons, List.map_cons, List.sum_cons]
        refine Nat.add_le_add ?_ ih
        have hsize : (b.span mem).stop - (b.span mem).start = headerSize + b.usable mem := by
          simp only [span]
          omega
        rw [hsize]
        split_ifs <;> omega
  omega

theorem Inv.perm (h : Inv r bytes mem live) (hp : live.Perm rest) : Inv r bytes mem rest where
  top_le := h.top_le
  region_lt := h.region_lt
  placed b hb := h.placed b (hp.mem_iff.mpr hb)
  apart := (hp.pairwise_iff fun hs => hs.symm).mp h.apart
  counted := by
    rw [h.counted, gauge, gauge]
    exact ((hp.filter _).map _).sum_eq

theorem Inv.frame (h : Inv r bytes mem live)
    (hmem : ∀ b ∈ live, ∀ i < headerSize, mem' (b.base + i) = mem (b.base + i)) :
    Inv r bytes mem' live := by
  have husable : ∀ b ∈ live, b.usable mem' = b.usable mem := fun b hb => usable_congr (hmem b hb)
  have hspan : ∀ b ∈ live, b.span mem' = b.span mem := fun b hb => span_congr (husable b hb)
  refine ⟨h.top_le, h.region_lt, fun b hb => ?_, ?_, ?_⟩
  · obtain ⟨honest, height, hfits, hlocated⟩ := h.placed b hb
    rw [← husable b hb] at honest height
    rw [← hspan b hb] at hfits hlocated
    exact ⟨honest, height, hfits, hlocated⟩
  · refine h.apart.imp_of_mem fun hb hb' hapart => ?_
    rwa [hspan _ hb, hspan _ hb']
  · rw [h.counted, gauge, gauge]
    have hfilter : live.filter (fun b => Outside r (b.span mem')) =
        live.filter fun b => Outside r (b.span mem) :=
      List.filter_congr fun b hb => by rw [hspan b hb]
    rw [hfilter]
    exact congrArg List.sum (List.map_congr_left fun b hb =>
      (husable b (List.mem_of_mem_filter hb)).symm)

theorem Inv.remove (h : Inv r bytes mem (b :: rest)) :
    Inv r (bytes - if Outside r (b.span mem) then b.usable mem else 0) mem rest where
  top_le := h.top_le
  region_lt := h.region_lt
  placed b' hb' := h.placed b' (List.mem_cons_of_mem b hb')
  apart := (List.pairwise_cons.mp h.apart).2
  counted := by
    rw [h.counted, gauge_cons]
    omega

theorem Inv.add_le (h : Inv r bytes mem (b :: rest)) :
    (if Outside r (b.span mem) then b.usable mem else 0) ≤ bytes := by
  rw [h.counted, gauge_cons]
  omega

theorem Inv.add (h : Inv r bytes mem live) (hb : Placed r mem b)
    (hapart : ∀ b' ∈ live, (b.span mem).Apart (b'.span mem)) :
    Inv r (wrap (bytes + if Outside r (b.span mem) then b.usable mem else 0)) mem (b :: live) := by
  have hplaced : ∀ b' ∈ b :: live, Placed r mem b' := List.forall_mem_cons.mpr ⟨hb, h.placed⟩
  have hpairwise := List.pairwise_cons.mpr ⟨hapart, h.apart⟩
  have hsum : bytes + (if Outside r (b.span mem) then b.usable mem else 0) =
      gauge r mem (b :: live) := by
    rw [gauge_cons, h.counted, Nat.add_comm]
  refine ⟨h.top_le, h.region_lt, hplaced, hpairwise, ?_⟩
  rw [hsum, wrap_of_lt (gauge_lt hplaced hpairwise)]

theorem Inv.retop (h : Inv r bytes mem live) {top : ℕ} (htop : top ≤ r.cap)
    (hcarved : ∀ b ∈ live, Carved r (b.span mem) → Carved { r with top } (b.span mem)) :
    Inv { r with top } bytes mem live where
  top_le := htop
  region_lt := h.region_lt
  placed b hb := by
    obtain ⟨honest, height, hfits, hlocated⟩ := h.placed b hb
    exact ⟨honest, height, hfits, hlocated.imp_left (hcarved b hb)⟩
  apart := h.apart
  counted := h.counted

/-! ### Allocation -/

variable {usable size : ℕ} {system user : Option ℕ} {full : Prop}

/-- What a call for a new block leaves: nothing, a block off the front of the region, or one of the
system's allocator, for which there is a reason. -/
inductive Served (r : Region) (bytes : ℕ) (mem : Bytes) (usable : ℕ) (system : Option ℕ)
    (full : Prop) : Option ℕ → Region → ℕ → Bytes → Prop
  | refused : Served r bytes mem usable system full none r bytes mem
  | carved {mem' : Bytes} : r.top + (headerSize + usable) ≤ r.cap →
      Writes mem mem' (r.base + r.top) usable →
      Served r bytes mem usable system full (some (r.base + r.top + headerSize))
        { r with top := r.top + (headerSize + usable) } bytes mem'
  | system {mem' : Bytes} {base : ℕ} : system = some base → full → Writes mem mem' base usable →
      Served r bytes mem usable system full (some (base + headerSize)) r (wrap (bytes + usable))
        mem'

theorem writes_zeroed {base : ℕ} (h : usable < 2 ^ 64) (zero : Bool) :
    Writes mem (writeWord (if zero then fill mem base 0 (headerSize + usable) else mem) base usable)
      base usable where
  header := readWord_writeWord h
  rest x hx := by
    rw [writeWord_apply_of_not (by simp only [headerSize] at hx; omega)]
    cases zero
    · rfl
    · exact if_neg (by omega)

theorem writes_then_zeroed {base : ℕ} (h : usable < 2 ^ 64) (zero : Bool) :
    Writes mem (if zero then fill (writeWord mem base usable) (base + headerSize) 0 usable
      else writeWord mem base usable) base usable where
  header := by
    cases zero
    · exact readWord_writeWord h
    · refine (readWord_congr fun i hi => ?_).trans (readWord_writeWord (m := mem) h)
      exact if_neg (by simp only [headerSize]; omega)
  rest x hx := by
    have hword : writeWord mem base usable x = mem x :=
      writeWord_apply_of_not (by simp only [headerSize] at hx; omega)
    cases zero
    · exact hword
    · exact (if_neg (by omega)).trans hword

theorem allocSystem_served (c : ArenaControl) (zero : Bool) (h : usable + 8 < 2 ^ 64)
    (hfull : full) :
    Served c.persistent c.systemLiveBytes mem usable system full
      (c.allocSystem mem usable zero system).1 (c.allocSystem mem usable zero system).2.1.persistent
      (c.allocSystem mem usable zero system).2.1.systemLiveBytes
      (c.allocSystem mem usable zero system).2.2 := by
  have htotal : wrap (headerSize + usable) = headerSize + usable :=
    wrap_of_lt (by simp only [headerSize]; omega)
  simp only [ArenaControl.allocSystem, ArenaControl.systemAlloc, htotal]
  cases layoutOk (headerSize + usable) with
  | false => exact .refused
  | true =>
      cases system with
      | none => exact .refused
      | some base => exact .system rfl hfull (writes_zeroed (by omega) zero)

variable (mem system) in
theorem allocPersistent_served (c : ArenaControl) (zero : Bool) (h : usable + 8 < 2 ^ 64)
    (htop : c.persistent.top ≤ c.persistent.cap) (hcap : c.persistent.cap < 2 ^ 64) :
    Served c.persistent c.systemLiveBytes mem usable system
      (c.persistent.cap < c.persistent.top + (headerSize + usable))
      (c.allocPersistent mem usable zero system).1
      (c.allocPersistent mem usable zero system).2.1.persistent
      (c.allocPersistent mem usable zero system).2.1.systemLiveBytes
      (c.allocPersistent mem usable zero system).2.2 := by
  have htotal : wrap (headerSize + usable) = headerSize + usable :=
    wrap_of_lt (by simp only [headerSize]; omega)
  simp only [ArenaControl.allocPersistent, htotal, Region.bump]
  by_cases hroom : c.persistent.top + (headerSize + usable) ≤ c.persistent.cap
  · rw [if_pos ⟨by omega, hroom⟩]
    exact .carved hroom (writes_then_zeroed (by omega) zero)
  · rw [if_neg fun hstop => hroom hstop.2]
    exact allocSystem_served { c with fallbackAllocs := c.fallbackAllocs + 1 } zero h (by omega)

theorem Served.mono {full' : Prop} {r'' : Region} {bytes' : ℕ}
    (h : Served r bytes mem usable system full user r'' bytes' mem') (hfull : full → full') :
    Served r bytes mem usable system full' user r'' bytes' mem' := by
  cases h with
  | refused => exact .refused
  | carved hroom hw => exact .carved hroom hw
  | system hs hf hw => exact .system hs (hfull hf) hw

theorem alloc_served (c : ArenaControl) (zero : Bool) (h : size + 16 ≤ 2 ^ 64)
    (htop : c.persistent.top ≤ c.persistent.cap) (hcap : c.persistent.cap < 2 ^ 64) :
    Served c.persistent c.systemLiveBytes mem (usableFor size) system True
      (c.alloc mem size zero system).1 (c.alloc mem size zero system).2.1.persistent
      (c.alloc mem size zero system).2.1.systemLiveBytes (c.alloc mem size zero system).2.2 := by
  have hlt := usableFor_lt h
  simp only [ArenaControl.alloc]
  by_cases hrequest : c.inRequest = true
  · rw [if_pos hrequest]
    exact allocSystem_served { c with allocCalls := c.allocCalls + 1 } zero hlt trivial
  · rw [if_neg hrequest]
    exact (allocPersistent_served mem system { c with allocCalls := c.allocCalls + 1 } zero hlt htop
      hcap).mono fun _ => trivial

theorem Writes.placed {base : ℕ} (hw : Writes mem mem' base usable) (hsize : size ≤ usable)
    (height : 8 ≤ usable) (hlt : base + (headerSize + usable) < 2 ^ 64)
    (hlocated : Carved r ⟨base, base + (headerSize + usable)⟩ ∨
      Outside r ⟨base, base + (headerSize + usable)⟩) :
    Placed r mem' ⟨base, size⟩ := by
  have husable : Block.usable mem' ⟨base, size⟩ = usable := (usable_eq _).trans hw.header
  have hspan : span mem' ⟨base, size⟩ = ⟨base, base + (headerSize + usable)⟩ := by
    rw [span, husable, Nat.add_assoc]
  refine ⟨husable ▸ hsize, husable ▸ height, ?_, ?_⟩
  · rw [hspan]
    exact hlt
  · rw [hspan]
    exact hlocated

theorem Writes.header_of_apart {base : ℕ} (hw : Writes mem mem' base usable)
    (hapart : (⟨base, base + (headerSize + usable)⟩ : Span).Apart (b.span mem)) :
    ∀ i < headerSize, mem' (b.base + i) = mem (b.base + i) := by
  intro i hi
  refine hw.rest _ ?_
  rcases hapart with h | h <;> simp only [span] at h <;> omega

theorem Inv.write {base : ℕ} (hi : Inv r bytes mem live) (hw : Writes mem mem' base usable)
    (hsize : size ≤ usable) (height : 8 ≤ usable) (hlt : base + (headerSize + usable) < 2 ^ 64)
    (hlocated : Carved r ⟨base, base + (headerSize + usable)⟩ ∨
      Outside r ⟨base, base + (headerSize + usable)⟩)
    (hapart : ∀ b ∈ live, (⟨base, base + (headerSize + usable)⟩ : Span).Apart (b.span mem)) :
    Inv r (wrap (bytes + if Outside r ⟨base, base + (headerSize + usable)⟩ then usable else 0)) mem'
      (⟨base, size⟩ :: live) := by
  have hheaders := fun b hb => hw.header_of_apart (hapart b hb)
  have husable : Block.usable mem' ⟨base, size⟩ = usable := (usable_eq _).trans hw.header
  have hspan : span mem' ⟨base, size⟩ = ⟨base, base + (headerSize + usable)⟩ := by
    rw [span, husable, Nat.add_assoc]
  have hadd := (hi.frame hheaders).add (hw.placed hsize height hlt hlocated) fun b hb => by
    rw [hspan, span_congr (usable_congr (hheaders b hb))]
    exact hapart b hb
  rwa [hspan, husable] at hadd

theorem Inv.wrap_bytes (hi : Inv r bytes mem live) : wrap bytes = bytes :=
  wrap_of_lt (hi.counted ▸ gauge_lt hi.placed hi.apart)

theorem Inv.apart_front (hi : Inv r bytes mem live) (h : r.top + (headerSize + usable) ≤ r.cap)
    (hb : b ∈ live) :
    (⟨r.base + r.top, r.base + r.top + (headerSize + usable)⟩ : Span).Apart (b.span mem) := by
  rcases (hi.placed b hb).located with hcarved | hout
  · exact .inr hcarved.2
  · rcases hout with hout | hout
    · exact .inr (hout.trans (Nat.le_add_right _ _))
    · refine .inl (le_trans ?_ hout)
      simp only
      omega

theorem Inv.apart_of_outside (hi : Inv r bytes mem live) {s : Span} (hs : Outside r s)
    (hothers : Outside r (b.span mem) → s.Apart (b.span mem)) (hb : b ∈ live) :
    s.Apart (b.span mem) := by
  rcases (hi.placed b hb).located with hcarved | hout
  · have htop := hi.top_le
    rcases hs with hs | hs
    · exact .inl (le_trans hs hcarved.1)
    · exact .inr (hcarved.2.trans (le_trans (by simp only; omega) hs))
  · exact hothers hout

theorem Inv.carve (hi : Inv r bytes mem live) (hroom : r.top + (headerSize + usable) ≤ r.cap)
    (hw : Writes mem mem' (r.base + r.top) usable) (hsize : size ≤ usable) (height : 8 ≤ usable) :
    Inv { r with top := r.top + (headerSize + usable) } bytes mem'
      (⟨r.base + r.top, size⟩ :: live) := by
  have hlt := hi.region_lt
  have hretop : Inv { r with top := r.top + (headerSize + usable) } bytes mem live :=
    hi.retop hroom fun b _ hcarved => ⟨hcarved.1, hcarved.2.trans (by simp only; omega)⟩
  have hcarved : Carved { r with top := r.top + (headerSize + usable) }
      ⟨r.base + r.top, r.base + r.top + (headerSize + usable)⟩ :=
    ⟨Nat.le_add_right _ _, by simp only; omega⟩
  have hinside : ¬ Outside { r with top := r.top + (headerSize + usable) }
      ⟨r.base + r.top, r.base + r.top + (headerSize + usable)⟩ := by
    rintro (hout | hout) <;> simp only at hout <;> omega
  have hwrite := hretop.write hw hsize height (by omega) (.inl hcarved)
    fun b hb => hi.apart_front hroom hb
  rwa [if_neg hinside, Nat.add_zero, hi.wrap_bytes] at hwrite

theorem Inv.spill {base : ℕ} (hi : Inv r bytes mem live) (hw : Writes mem mem' base usable)
    (hsize : size ≤ usable) (height : 8 ≤ usable)
    (hfresh : Fresh r mem live (headerSize + usable) (some base)) :
    Inv r (wrap (bytes + usable)) mem' (⟨base, size⟩ :: live) := by
  obtain ⟨-, hlt, hout, hothers⟩ := hfresh base rfl
  have hwrite := hi.write hw hsize height hlt (.inr hout)
    fun b hb => hi.apart_of_outside hout (hothers b hb) hb
  rwa [if_pos hout] at hwrite

theorem Served.inv {bytes' : ℕ} (hi : Inv r bytes mem live)
    (h : Served r bytes mem (usableFor size) system full user r' bytes' mem')
    (hsize : size + 16 ≤ 2 ^ 64)
    (hfresh : Fresh r mem live (wrap (headerSize + usableFor size)) system) :
    Inv r' bytes' mem' (hold live size user) := by
  have hle := le_usableFor (show size + 7 < 2 ^ 64 by omega)
  have height := eight_le_usableFor size
  have hlt := usableFor_lt hsize
  rw [wrap_of_lt (by simp only [headerSize]; omega)] at hfresh
  cases h with
  | refused => exact hi
  | carved hroom hw =>
      rw [hold, Nat.add_sub_cancel]
      exact hi.carve hroom hw hle height
  | system hs _ hw =>
      subst hs
      rw [hold, Nat.add_sub_cancel]
      exact hi.spill hw hle height hfresh

/-! ### Release -/

theorem perm_release {pointer : ℕ} (h : ∃ b ∈ live, b.user = pointer) :
    ∃ b, b.user = pointer ∧ live.Perm (b :: release live pointer) := by
  obtain ⟨b, hb, hpointer⟩ := h
  obtain ⟨found, before, after, -, hfound, hlive, hrelease⟩ :=
    List.exists_of_eraseP (p := fun b : Block => decide (b.user = pointer)) hb
      (decide_eq_true hpointer)
  refine ⟨found, of_decide_eq_true hfound, ?_⟩
  rw [release, hrelease, hlive]
  exact List.perm_middle

theorem dealloc_inv {c : ArenaControl} {pointer : ℕ}
    (hi : Inv c.persistent c.systemLiveBytes mem live) (h : ∃ b ∈ live, b.user = pointer) :
    Inv (c.dealloc mem pointer).persistent (c.dealloc mem pointer).systemLiveBytes mem
      (release live pointer) := by
  obtain ⟨b, rfl, hperm⟩ := perm_release h
  have hcons := hi.perm hperm
  have hb := hcons.placed b List.mem_cons_self
  have hremove := hcons.remove
  cases hcontains : c.isPersistent b.user with
  | true =>
      have hcarved := (hcons.contains_iff hb).mp hcontains
      rw [if_neg (hcons.not_outside hb.eight hcarved)] at hremove
      rw [ArenaControl.dealloc_persistent hcontains]
      exact hremove
  | false =>
      have hout := hcons.contains_false hb hcontains
      have hle := hcons.add_le
      rw [if_pos hout] at hremove hle
      have hlt : c.systemLiveBytes < 2 ^ 64 := hi.counted ▸ gauge_lt hi.placed hi.apart
      rw [← ArenaControl.wrap_sub hle hlt] at hremove
      rw [ArenaControl.dealloc_system hcontains]
      exact hremove

/-! ### Another size -/

variable {c : ArenaControl} {pointer : ℕ}

/-- What a block that gets another size leaves: the blocks as they should be, and its bytes. -/
structure Resized (c : ArenaControl) (mem : Bytes) (live : List Block) (pointer size : ℕ)
    (answer : Answer) : Prop where
  inv : Inv answer.2.1.persistent answer.2.1.systemLiveBytes answer.2.2
    (if answer.1.isSome then hold (release live pointer) size answer.1 else live)
  bytes : ∀ fresh, answer.1 = some fresh →
    ∀ i < min (ArenaControl.readHeader mem pointer) (usableFor size),
      answer.2.2 (fresh + i) = mem (pointer + i)
  stays : ∀ fresh, answer.1 = some fresh → c.isPersistent pointer → ¬ c.isPersistent fresh →
    c.persistent.cap < c.persistent.top + (headerSize + usableFor size)

theorem writes_systemRealloc (pointer old : ℕ) {fresh : ℕ} (h : usable + 8 < 2 ^ 64) :
    Writes mem (ArenaControl.systemRealloc mem pointer old usable (some fresh)).2 fresh usable where
  header := readWord_writeWord (by omega)
  rest x hx := by
    have htotal : wrap (headerSize + usable) = headerSize + usable :=
      wrap_of_lt (by simp only [headerSize]; omega)
    refine (writeWord_apply_of_not (by simp only [headerSize] at hx; omega)).trans ?_
    exact if_neg (by rw [htotal]; omega)

theorem resized_system (hi : Inv c.persistent c.systemLiveBytes mem live)
    (hb : ∃ b ∈ live, b.user = pointer) (hsize : size + 16 ≤ 2 ^ 64)
    (hcontains : c.isPersistent pointer = false)
    (hfresh : Fresh c.persistent mem (release live pointer)
      (wrap (headerSize + usableFor size)) system) :
    Resized c mem live pointer size (c.realloc mem (some pointer) size system) := by
  have hlt := usableFor_lt hsize
  rw [wrap_of_lt (by simp only [headerSize]; omega)] at hfresh
  cases system with
  | none =>
      rw [ArenaControl.realloc_refused hcontains]
      exact ⟨hi, fun _ h => absurd h (by simp), fun _ h => absurd h (by simp)⟩
  | some fresh =>
      obtain ⟨b, rfl, hperm⟩ := perm_release hb
      have hcons := hi.perm hperm
      have hplaced := hcons.placed b List.mem_cons_self
      have hout := hcons.contains_false hplaced hcontains
      have hremove := hcons.remove
      have hle := hcons.add_le
      rw [if_pos hout] at hremove hle
      have hbytes : c.systemLiveBytes < 2 ^ 64 := hi.counted ▸ gauge_lt hi.placed hi.apart
      have hspill := hremove.spill (writes_systemRealloc b.user (b.usable mem) hlt)
        (le_usableFor (by omega)) (eight_le_usableFor size) hfresh
      rw [ArenaControl.realloc_system hcontains]
      refine ⟨?_, ?_, fun _ _ hpersistent => ?_⟩
      · rw [Option.isSome_some, if_pos rfl, hold, Nat.add_sub_cancel]
        have hgauge := ArenaControl.resizeLive_systemLiveBytes
          { c with reallocCalls := c.reallocCalls + 1 } (usableFor size) hle hbytes
        rw [← hgauge] at hspill
        rw [ArenaControl.resizeLive_persistent]
        exact hspill
      · intro _ hsome i hmin
        obtain rfl := Option.some.inj hsome
        have hfits := hplaced.fits
        simp only [span, headerSize] at hfits
        exact ArenaControl.systemRealloc_apply mem (Nat.le_add_left _ _)
          (by change b.usable mem + 8 < 2 ^ 64; omega) hlt hmin
      · rw [hcontains] at hpersistent
        cases hpersistent

theorem resized_top (hi : Inv c.persistent c.systemLiveBytes mem live)
    (hb : ∃ b ∈ live, b.user = pointer) (hsize : size + 16 ≤ 2 ^ 64)
    (hcontains : c.isPersistent pointer = true)
    (hgrown : pointer - c.persistent.base + usableFor size < 2 ^ 64)
    (htop : pointer + ArenaControl.readHeader mem pointer = c.persistent.base + c.persistent.top)
    (hroom : pointer - c.persistent.base + usableFor size ≤ c.persistent.cap) :
    Resized c mem live pointer size (c.realloc mem (some pointer) size system) := by
  obtain ⟨b, rfl, hperm⟩ := perm_release hb
  have hcons := hi.perm hperm
  have hplaced := hcons.placed b List.mem_cons_self
  have hcarved := (hcons.contains_iff hplaced).mp hcontains
  have hregion := hi.region_lt
  have htopcap := hi.top_le
  have hlt := usableFor_lt hsize
  obtain ⟨hstart, hstop⟩ := hcarved
  simp only [span] at hstart hstop
  simp only [user, headerSize] at hgrown htop hroom
  have hheader : ArenaControl.readHeader mem b.user = b.usable mem := rfl
  rw [show b.base + 8 = b.user from rfl, hheader] at htop
  -- the region as it was before the block was carved
  have hretop : Inv { c.persistent with top := b.base - c.persistent.base } c.systemLiveBytes mem
      (release live b.user) := by
    have hremove := hcons.remove
    rw [if_neg (hcons.not_outside hplaced.eight ⟨hstart, hstop⟩)] at hremove
    refine hremove.retop (by omega) fun b' hb' hcarved' => ⟨hcarved'.1, ?_⟩
    have hapart := (List.pairwise_cons.mp hcons.apart).1 b' hb'
    have height := (hremove.placed b' hb').eight
    have hstop' := hcarved'.2
    simp only [span, user, headerSize] at htop hapart hstop' ⊢
    rcases hapart with hapart | hapart <;> simp only at hapart <;> omega
  have hwrites : Writes mem (writeWord mem b.base (usableFor size))
      (c.persistent.base + (b.base - c.persistent.base)) (usableFor size) := by
    rw [Nat.add_sub_cancel' hstart]
    exact writes_then_zeroed (by omega) false
  have hcarve := hretop.carve (by simp only [headerSize]; omega) hwrites
    (show size ≤ usableFor size from le_usableFor (by omega)) (eight_le_usableFor size)
  have hnew : wrap (b.user - headerSize - c.persistent.base + wrap (headerSize + usableFor size)) =
      b.base - c.persistent.base + (headerSize + usableFor size) := by
    simp only [user, headerSize, Nat.add_sub_cancel]
    rw [wrap_of_lt (n := 8 + usableFor size) (by omega), wrap_of_lt (by omega)]
  have hcurrent : c.persistent.top = wrap (b.user - headerSize - c.persistent.base +
      wrap (headerSize + ArenaControl.readHeader mem b.user)) := by
    simp only [user, headerSize, Nat.add_sub_cancel] at htop ⊢
    rw [show ArenaControl.readHeader mem (b.base + 8) = b.usable mem from rfl,
      wrap_of_lt (n := 8 + b.usable mem) (by omega), wrap_of_lt (by omega)]
    omega
  rw [ArenaControl.realloc_top hcontains
    ⟨by rw [hnew]; simp only [headerSize]; omega, hcurrent⟩, hnew]
  refine ⟨?_, ?_, fun _ hsome _ hleft => ?_⟩
  · rw [Nat.add_sub_cancel' hstart] at hcarve
    rw [Option.isSome_some, if_pos rfl, hold, user, Nat.add_sub_cancel]
    exact hcarve
  · intro _ hsome i _
    obtain rfl := Option.some.inj hsome
    rw [user, Nat.add_sub_cancel]
    exact writeWord_apply_of_not (.inr (by simp only [headerSize]; omega))
  · obtain rfl := Option.some.inj hsome
    exact absurd hcontains hleft

theorem Served.region {bytes' : ℕ}
    (h : Served r bytes mem usable system full user r' bytes' mem') :
    r'.base = r.base ∧ r'.cap = r.cap := by
  cases h <;> exact ⟨rfl, rfl⟩

theorem Served.writes {bytes' fresh : ℕ}
    (h : Served r bytes mem usable system full (some fresh) r' bytes' mem') :
    ∃ base, fresh = base + headerSize ∧ Writes mem mem' base usable := by
  cases h with
  | carved _ hw => exact ⟨_, rfl, hw⟩
  | system _ _ hw => exact ⟨_, rfl, hw⟩

theorem Served.full_of_not_contains {bytes' fresh : ℕ} (hregion : r.base + r.cap < 2 ^ 64)
    (h : Served r bytes mem usable system full (some fresh) r' bytes' mem') (hpos : 0 < usable)
    (hout : ¬ r.contains fresh = true) : full := by
  cases h with
  | carved hroom _ =>
      refine absurd ?_ hout
      rw [Region.contains, decide_eq_true_iff, wrap_of_lt hregion]
      omega
  | system _ hfull _ => exact hfull

theorem Writes.same_of_apart {base x : ℕ} (hw : Writes mem mem' base usable)
    (hapart : (⟨base, base + headerSize + usable⟩ : Span).Apart (b.span mem'))
    (hlow : b.base ≤ x) (hhigh : x < b.base + headerSize + b.usable mem) : mem' x = mem x := by
  refine hw.rest x ?_
  rcases hapart with h | h
  · exact .inr (le_trans h hlow)
  · -- the header is before the new block, so it says what it said
    have husable : b.usable mem' = b.usable mem := by
      refine usable_congr fun i hi => hw.rest _ (.inl ?_)
      simp only [span] at h
      omega
    simp only [span, husable] at h
    exact .inl (lt_of_lt_of_le hhigh h)

theorem resized_copied (hi : Inv c.persistent c.systemLiveBytes mem live)
    (hb : ∃ b ∈ live, b.user = pointer) (hsize : size + 16 ≤ 2 ^ 64)
    (hcontains : c.isPersistent pointer = true)
    (hfresh : Fresh c.persistent mem live (wrap (headerSize + usableFor size)) system)
    (htop : ¬ (wrap (pointer - headerSize - c.persistent.base +
        wrap (headerSize + usableFor size)) ≤ c.persistent.cap ∧
      c.persistent.top = wrap (pointer - headerSize - c.persistent.base +
        wrap (headerSize + ArenaControl.readHeader mem pointer)))) :
    Resized c mem live pointer size (c.realloc mem (some pointer) size system) := by
  have hregion := hi.region_lt
  have hserved := allocPersistent_served mem system c.growing false
    (usableFor_lt hsize) (by rw [ArenaControl.growing_persistent]; exact hi.top_le)
    (by rw [ArenaControl.growing_persistent]; omega)
  rw [ArenaControl.growing_persistent, ArenaControl.growing_systemLiveBytes] at hserved
  rw [ArenaControl.realloc_copied hcontains htop]
  have hinv := hserved.inv hi hsize hfresh
  generalize c.growing.allocPersistent mem (usableFor size) false system = answer at hserved hinv ⊢
  obtain ⟨fresh, c', mem'⟩ := answer
  cases fresh with
  | none => exact ⟨hinv, fun _ h => absurd h (by simp), fun _ h => absurd h (by simp)⟩
  | some fresh =>
      obtain ⟨base, rfl, hw⟩ := hserved.writes
      obtain ⟨b, rfl, hperm⟩ := perm_release hb
      simp only [hold, Nat.add_sub_cancel] at hinv
      have husable : Block.usable mem' ⟨base, size⟩ = usableFor size :=
        (usable_eq _).trans hw.header
      have hapart : ∀ b' ∈ live,
          (⟨base, base + headerSize + usableFor size⟩ : Span).Apart (b'.span mem') := by
        intro b' hb'
        have hpair := (List.pairwise_cons.mp hinv.apart).1 b' hb'
        rwa [span, husable] at hpair
      -- the copy goes into the new payload, so it meets no header
      have hframe : ∀ b' ∈ (⟨base, size⟩ : Block) :: live, ∀ i < headerSize,
          copy mem' b.user (base + headerSize)
            (min (ArenaControl.readHeader mem b.user) (usableFor size)) (b'.base + i) =
          mem' (b'.base + i) := by
        intro b' hb' i hi'
        refine if_neg fun hin => ?_
        rcases List.mem_cons.mp hb' with rfl | hb'
        · simp only at hin
          omega
        · rcases hapart b' hb' with h | h <;> simp only [span] at h <;> omega
      have hcopied := (hinv.frame hframe).perm
        ((hperm.cons _).trans (List.Perm.swap b ⟨base, size⟩ _))
      have hplaced := hcopied.placed b List.mem_cons_self
      have hcarved := (hcopied.contains_iff hplaced).mp (by
        have hsame := hserved.region
        rw [Region.contains, hsame.1, hsame.2]
        exact hcontains)
      have hremove := hcopied.remove
      rw [if_neg (hcopied.not_outside hplaced.eight hcarved)] at hremove
      have hbmem : b ∈ live := hperm.mem_iff.mpr List.mem_cons_self
      refine ⟨?_, ?_, fun _ hsome _ hleft => ?_⟩
      · simp only [Option.isSome_some, if_true, hold, Nat.add_sub_cancel]
        exact hremove
      · intro _ hsome i hmin
        obtain rfl := Option.some.inj hsome
        have hread : ArenaControl.readHeader mem b.user = b.usable mem := rfl
        rw [hread] at hmin
        simp only [copy, hread]
        rw [if_pos (by omega), Nat.add_sub_cancel_left]
        exact hw.same_of_apart (hapart b hbmem) (by rw [user]; omega) (by rw [user]; omega)
      · obtain rfl := Option.some.inj hsome
        exact hserved.full_of_not_contains hregion
          (lt_of_lt_of_le (by decide) (eight_le_usableFor size)) hleft

end Block

end Albedo.Runtime
