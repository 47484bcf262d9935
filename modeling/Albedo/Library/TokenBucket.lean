import Mathlib.Algebra.Order.Field.Basic
import Mathlib.Tactic.FieldSimp
import Mathlib.Tactic.Linarith
import Mathlib.Tactic.Ring

/-!
# Token buckets over an ordered field

A bucket holds at most its capacity and earns one token in each interval, in every fraction of
the interval that fraction of a token. What it lacks is counted in the time it takes to earn it,
so that waiting pays it off one for one (`lack_refill`).
-/
namespace Albedo.TokenBucket

/-- How much a bucket holds, and how long it takes to earn one token. -/
structure Rate (K : Type*) [Field K] [LinearOrder K] where
  capacity : K
  interval : K
  interval_pos : 0 < interval

structure Bucket (K : Type*) where
  tokens : K
  since : K

variable {K : Type*} [Field K] [LinearOrder K] {r : Rate K} {b : Bucket K} {now weight : K}

def full (r : Rate K) (since : K) : Bucket K := ⟨r.capacity, since⟩

def Bucket.refill (r : Rate K) (b : Bucket K) (now : K) : Bucket K :=
  ⟨min r.capacity (b.tokens + (now - b.since) / r.interval), now⟩

def Bucket.take (r : Rate K) (b : Bucket K) (now weight : K) : Bool × Bucket K :=
  let b := b.refill r now
  if weight ≤ b.tokens then (true, ⟨b.tokens - weight, b.since⟩) else (false, b)

/-- The verdicts on a list of requests, each with its time and its weight, and what is left. -/
def Bucket.takes (r : Rate K) : Bucket K → List (K × K) → List (Bool × Bucket K)
  | _, [] => []
  | b, (now, weight) :: requests =>
      let taken := b.take r now weight
      taken :: takes r taken.2 requests

def Bucket.lack (r : Rate K) (b : Bucket K) : K := (r.capacity - b.tokens) * r.interval

@[simp] theorem lack_full (since : K) : (full r since).lack r = 0 := by
  simp [Bucket.lack, full]

variable [IsStrictOrderedRing K]

theorem lack_refill : (b.refill r now).lack r = max (b.lack r - (now - b.since)) 0 := by
  have hinterval : r.interval ≠ 0 := r.interval_pos.ne'
  have hpaid : (r.capacity - (b.tokens + (now - b.since) / r.interval)) * r.interval =
      b.lack r - (now - b.since) := by
    unfold Bucket.lack
    field_simp
    ring
  rcases le_total (b.tokens + (now - b.since) / r.interval) r.capacity with h | h
  · have hnonneg : 0 ≤ b.lack r - (now - b.since) := by
      rw [← hpaid]
      exact mul_nonneg (sub_nonneg.mpr h) r.interval_pos.le
    rw [max_eq_left hnonneg, ← hpaid, Bucket.lack, Bucket.refill, min_eq_right h]
  · have hnonpos : b.lack r - (now - b.since) ≤ 0 := by
      rw [← hpaid]
      exact mul_nonpos_of_nonpos_of_nonneg (sub_nonpos.mpr h) r.interval_pos.le
    rw [max_eq_right hnonpos, Bucket.lack, Bucket.refill, min_eq_left h, sub_self, zero_mul]

/-- The tokens are there just when what is lacking afterwards is no more than the whole. -/
theorem le_tokens_iff :
    weight ≤ b.tokens ↔ b.lack r + r.interval * weight ≤ r.interval * r.capacity := by
  have hscaled : weight ≤ b.tokens ↔ weight * r.interval ≤ b.tokens * r.interval :=
    (mul_le_mul_iff_left₀ r.interval_pos).symm
  rw [hscaled, Bucket.lack, sub_mul]
  constructor
  · intro h
    linarith
  · intro h
    linarith

omit [IsStrictOrderedRing K] in
theorem lack_spent : (⟨b.tokens - weight, b.since⟩ : Bucket K).lack r =
    b.lack r + r.interval * weight := by
  unfold Bucket.lack
  ring

theorem tokens_eq : b.tokens = (r.interval * r.capacity - b.lack r) / r.interval := by
  have hinterval : r.interval ≠ 0 := r.interval_pos.ne'
  unfold Bucket.lack
  field_simp
  ring

end Albedo.TokenBucket
