import Mathlib.Algebra.Order.Floor.Div
import Mathlib.Data.Rat.Floor
import Mathlib.Tactic.NormNum
import Albedo.Library.TokenBucket
import Albedo.Shutter.Gcra

/-!
# The cell is a token bucket

What a token bucket lacks is the debt of the cell: both are the time until the whole burst is
there again. A weight of zero is charged as one.
-/
namespace Albedo.RateLimit
open TokenBucket

def Quota.rate (q : Quota) : Rate ℚ :=
  ⟨q.burst, q.emissionInterval, Nat.cast_pos.mpr q.emission_pos⟩

/-- No operation of this charge saturates. The sum with the later of the two instants is only
formed for a charge that is admitted. -/
def Cell.Exact (q : Quota) (c : Cell) (x : Charge) : Prop :=
  q.emissionInterval * q.burst ≤ u64Max ∧ q.emissionInterval * max x.weight 1 ≤ u64Max ∧
    c.tat - x.now + q.emissionInterval * max x.weight 1 ≤ u64Max ∧
    (c.tat - x.now + q.emissionInterval * max x.weight 1 ≤ q.tolerance →
      max c.tat x.now + q.emissionInterval * max x.weight 1 ≤ u64Max)

instance (q : Quota) (c : Cell) (x : Charge) : Decidable (c.Exact q x) :=
  inferInstanceAs (Decidable (_ ∧ _ ∧ _ ∧ (_ → _)))

/-- No operation of any of these charges saturates, one after the other. -/
def Cell.ExactAll (q : Quota) : Cell → List Charge → Prop
  | _, [] => True
  | c, x :: xs => c.Exact q x ∧ Cell.ExactAll q (c.charge q x.now x.weight).2 xs

def Cell.charges (q : Quota) : Cell → List Charge → List (Cell × Decision × Cell)
  | _, [] => []
  | c, x :: xs =>
      let charged := c.charge q x.now x.weight
      (c, charged) :: Cell.charges q charged.2 xs

def Charge.request (x : Charge) : ℚ × ℚ := (x.now, x.weight)

def Charge.atLeastOne (x : Charge) : Charge := { x with weight := max x.weight 1 }

/-- The cell and the bucket decide alike, a refusal leaves the cell as it was, and what is
reported to remain are the whole tokens that do. -/
def SameDecision (charged : Cell × Decision × Cell) (taken : Bool × Bucket ℚ) : Prop :=
  charged.2.1.isAdmitted = taken.1 ∧
    (charged.2.1.isAdmitted = false → charged.2.2 = charged.1) ∧
    (charged.2.1.isAdmitted = true → (charged.2.1.remaining : ℤ) = ⌊taken.2.tokens⌋)

structure Owes (q : Quota) (c : Cell) (instant : ℕ) (b : Bucket ℚ) : Prop where
  since : b.since = instant
  lack : b.lack q.rate = (c.tat - instant : ℕ)

variable {q : Quota} {c : Cell} {b : Bucket ℚ} {instant now weight : ℕ} {x : Charge}

theorem owes_new (q : Quota) : Owes q Cell.new 0 (full q.rate 0) :=
  ⟨Nat.cast_zero.symm, by simp [Cell.new]⟩

theorem Owes.refill (h : Owes q c instant b) (hnow : instant ≤ now) :
    Owes q c now (b.refill q.rate now) := by
  refine ⟨rfl, ?_⟩
  rw [lack_refill, h.lack, h.since, ← Nat.cast_sub hnow]
  have hdebt : c.tat - now = c.tat - instant - (now - instant) := by omega
  rw [hdebt]
  rcases le_total (now - instant) (c.tat - instant) with hle | hle
  · rw [Nat.cast_sub hle]
    exact max_eq_left (sub_nonneg.mpr (Nat.cast_le.mpr hle))
  · rw [Nat.sub_eq_zero_of_le hle, Nat.cast_zero]
    exact max_eq_right (sub_nonpos.mpr (Nat.cast_le.mpr hle))

theorem Owes.le_tokens_iff (h : Owes q c instant b) : (weight : ℚ) ≤ b.tokens ↔
    c.tat - instant + q.emissionInterval * weight ≤ q.emissionInterval * q.burst := by
  rw [TokenBucket.le_tokens_iff (r := q.rate), h.lack]
  simp only [Quota.rate]
  exact_mod_cast Iff.rfl

theorem Owes.spend {c' : Cell} (h : Owes q c instant b)
    (hc : c'.tat - instant = c.tat - instant + q.emissionInterval * weight) :
    Owes q c' instant ⟨b.tokens - weight, b.since⟩ := by
  refine ⟨h.since, ?_⟩
  rw [lack_spent, h.lack, hc]
  simp only [Quota.rate]
  push_cast
  rfl

theorem Owes.floor_tokens (h : Owes q c instant b)
    (hdebt : c.tat - instant ≤ q.emissionInterval * q.burst) :
    ⌊b.tokens⌋ = ((q.emissionInterval * q.burst - (c.tat - instant)) / q.emissionInterval : ℕ) := by
  rw [tokens_eq (r := q.rate), h.lack]
  simp only [Quota.rate]
  rw [← Nat.cast_mul, ← Nat.cast_sub hdebt, Rat.floor_natCast_div_natCast]
  exact_mod_cast rfl

theorem Cell.Exact.tolerance (h : c.Exact q x) : q.tolerance = q.emissionInterval * q.burst := by
  rw [q.tolerance_eq, saturatingMul_of_le h.1]

theorem Cell.Exact.charge_eq (h : c.Exact q x) : c.charge q x.now x.weight =
    let increment := q.emissionInterval * max x.weight 1
    let debt := c.tat - x.now
    if debt + increment > q.emissionInterval * q.burst then
      (.refused (debt + increment - q.emissionInterval * q.burst) debt, c)
    else
      let charged := saturatingAdd (max c.tat x.now) increment
      (.admitted (min ((q.emissionInterval * q.burst - (charged - x.now)) / q.emissionInterval) u32Max)
        (charged - x.now), ⟨charged, saturatingAdd_le_max _ _⟩) := by
  have htolerance := h.tolerance
  obtain ⟨-, hincrement, hdebt, -⟩ := h
  simp only [Cell.charge, saturatingMul_of_le hincrement, saturatingAdd_of_le hdebt, htolerance]

theorem Owes.charge (h : Owes q c instant b) (hburst : q.burst ≤ u32Max) (hnow : instant ≤ x.now)
    (hexact : c.Exact q x) :
    let taken := b.take q.rate x.now (max x.weight 1 : ℕ)
    SameDecision (c, c.charge q x.now x.weight) taken ∧
      Owes q (c.charge q x.now x.weight).2 x.now taken.2 := by
  have hfilled := h.refill hnow
  have hafford : ((max x.weight 1 : ℕ) : ℚ) ≤ (b.refill q.rate x.now).tokens ↔
      c.tat - x.now + q.emissionInterval * (max x.weight 1 : ℕ) ≤ q.emissionInterval * q.burst :=
    hfilled.le_tokens_iff
  have htolerance := hexact.tolerance
  have hcharge := hexact.charge_eq
  dsimp only at hcharge ⊢
  unfold Bucket.take
  dsimp only
  by_cases hover : c.tat - x.now + q.emissionInterval * max x.weight 1 > q.emissionInterval * q.burst
  · rw [if_pos hover] at hcharge
    rw [hcharge, if_neg (fun hle => absurd (hafford.mp hle) (by omega))]
    exact ⟨⟨rfl, fun _ => rfl, fun hadmitted => absurd hadmitted Bool.false_ne_true⟩, hfilled⟩
  · have hsum := hexact.2.2.2 (by omega)
    rw [if_neg hover] at hcharge
    rw [hcharge, if_pos (hafford.mpr (by omega))]
    have htat : saturatingAdd (max c.tat x.now) (q.emissionInterval * max x.weight 1) - x.now =
        c.tat - x.now + q.emissionInterval * max x.weight 1 := by
      rw [saturatingAdd_of_le hsum]
      omega
    have hspent : Owes q ⟨_, saturatingAdd_le_max _ _⟩ x.now _ := hfilled.spend htat
    refine ⟨⟨rfl, fun hrefused => absurd hrefused.symm Bool.false_ne_true, fun _ => ?_⟩, hspent⟩
    have hwithin : c.tat - x.now + q.emissionInterval * max x.weight 1 ≤
        q.emissionInterval * q.burst := by omega
    refine Eq.trans ?_ (hspent.floor_tokens (htat.trans_le hwithin)).symm
    have hremaining : (q.emissionInterval * q.burst -
        (saturatingAdd (max c.tat x.now) (q.emissionInterval * max x.weight 1) - x.now)) /
          q.emissionInterval ≤ u32Max :=
      calc _ ≤ q.emissionInterval * q.burst / q.emissionInterval :=
            Nat.div_le_div_right (Nat.sub_le _ _)
        _ = q.burst := Nat.mul_div_cancel_left _ q.emission_pos
        _ ≤ u32Max := hburst
    exact_mod_cast min_eq_left hremaining

theorem Owes.charges (xs : List Charge) (h : Owes q c instant b) (hburst : q.burst ≤ u32Max)
    (hnow : ∀ x ∈ xs, instant ≤ x.now) (horder : xs.Pairwise fun x y => x.now ≤ y.now)
    (hexact : c.ExactAll q xs) :
    List.Forall₂ SameDecision (c.charges q xs)
      (b.takes q.rate (xs.map fun x => x.atLeastOne.request)) := by
  induction xs generalizing c b instant with
  | nil => exact List.Forall₂.nil
  | cons x xs ih =>
      obtain ⟨hsame, howes⟩ := h.charge hburst (hnow x List.mem_cons_self) hexact.1
      exact List.Forall₂.cons hsame
        (ih howes (fun y hy => List.rel_of_pairwise_cons horder hy) horder.of_cons hexact.2)

theorem Quota.burst_withBurst {rate period burst : ℕ} (h : Quota.withBurst rate period burst = .ok q) :
    q.burst = burst := by
  unfold Quota.withBurst at h
  dsimp only at h
  split_ifs at h
  exact (congrArg Quota.burst (Except.ok.inj h)).symm

/-- A fresh cell decides as a full bucket does. -/
theorem charges_are_a_token_bucket {rate period burst : ℕ} (hburst : burst ≤ u32Max)
    (hquota : Quota.withBurst rate period burst = .ok q) (xs : List Charge)
    (horder : xs.Pairwise fun x y => x.now ≤ y.now) (hexact : Cell.new.ExactAll q xs) :
    List.Forall₂ SameDecision (Cell.new.charges q xs)
      ((full q.rate 0).takes q.rate (xs.map fun x => x.atLeastOne.request)) :=
  (owes_new q).charges xs ((Quota.burst_withBurst hquota).trans_le hburst)
    (fun x _ => Nat.zero_le x.now) horder hexact

theorem charges_are_a_token_bucket_four :
    List.Forall₂ SameDecision (Cell.new.charges fourPerSecond [⟨5, 1⟩, ⟨7, 0⟩, ⟨7, 3⟩, ⟨600000000, 2⟩])
      ((full fourPerSecond.rate 0).takes fourPerSecond.rate
        ([⟨5, 1⟩, ⟨7, 0⟩, ⟨7, 3⟩, ⟨600000000, 2⟩].map fun x : Charge => x.atLeastOne.request)) :=
  charges_are_a_token_bucket (by decide : 4 ≤ u32Max)
    (by decide : Quota.withBurst 4 1000000000 4 = .ok fourPerSecond)
    [⟨5, 1⟩, ⟨7, 0⟩, ⟨7, 3⟩, ⟨600000000, 2⟩] (by decide)
    ⟨by decide, by decide, by decide, by decide, trivial⟩

/-- A spent cell refuses a charge that weighs nothing. A bucket always has no tokens to give. -/
theorem weightless_charge_is_refused :
    Quota.withBurst 4 1000000000 4 = .ok fourPerSecond ∧
      Cell.new.ExactAll fourPerSecond [⟨0, 4⟩, ⟨0, 0⟩] ∧
      ¬ List.Forall₂ SameDecision (Cell.new.charges fourPerSecond [⟨0, 4⟩, ⟨0, 0⟩])
        ((full fourPerSecond.rate 0).takes fourPerSecond.rate
          ([⟨0, 4⟩, ⟨0, 0⟩].map Charge.request)) := by
  refine ⟨by decide, ⟨by decide, by decide, trivial⟩, ?_⟩
  intro h
  have hsecond : SameDecision _ _ := (List.forall₂_cons.mp (List.forall₂_cons.mp h).2).1
  have hrefused : ((Cell.new.charge fourPerSecond 0 4).2.charge fourPerSecond 0 0).1.isAdmitted =
      false := by decide
  have hgiven := hrefused.symm.trans hsecond.1
  norm_num [Bucket.take, Bucket.refill, full, Quota.rate, fourPerSecond, Charge.request] at hgiven

end Albedo.RateLimit
