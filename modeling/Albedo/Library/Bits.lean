import Mathlib.Algebra.GroupWithZero.Nat
import Mathlib.Data.List.Basic
import Mathlib.Tactic.SplitIfs

/-!
# The bits of a word

The bits that are set can be taken one by one from the lowest on: where the lowest is, and the
word without it. Each comes once.
-/
namespace Albedo.Bits

theorem testBit_sub_one_of_odd {q : ℕ} (hq : q % 2 = 1) (i : ℕ) :
    (q - 1).testBit i = (q.testBit i && decide (i ≠ 0)) := by
  cases i with
  | zero =>
      have heven : (q - 1) % 2 = 0 := by omega
      simp [Nat.testBit_zero, heven]
  | succ i =>
      have hhalf : (q - 1) / 2 = q / 2 := by omega
      simp [Nat.testBit_add_one, hhalf]

theorem testBit_and_sub_one {n t : ℕ} (hlow : ∀ i < t, n.testBit i = false)
    (hbit : n.testBit t = true) (i : ℕ) :
    (n &&& (n - 1)).testBit i = (n.testBit i && decide (i ≠ t)) := by
  have hmod : n % 2 ^ t = 0 := by
    apply Nat.eq_of_testBit_eq
    intro j
    rw [Nat.testBit_mod_two_pow, Nat.zero_testBit]
    by_cases hj : j < t
    · rw [hlow j hj, Bool.and_false]
    · rw [decide_eq_false hj, Bool.false_and]
  obtain ⟨q, rfl⟩ := Nat.dvd_of_mod_eq_zero hmod
  have hodd : q % 2 = 1 := by
    rw [Nat.testBit_two_pow_mul, Nat.sub_self, Nat.testBit_zero] at hbit
    simpa using hbit
  have hpos : 0 < 2 ^ t := Nat.two_pow_pos t
  have hpred : 2 ^ t * q - 1 = 2 ^ t * (q - 1) + (2 ^ t - 1) := by
    obtain ⟨m, rfl⟩ : ∃ m, q = m + 1 := ⟨q - 1, by omega⟩
    rw [Nat.add_sub_cancel, Nat.mul_succ]
    omega
  rw [Nat.testBit_and, hpred, Nat.testBit_two_pow_mul_add _ (by omega), Nat.testBit_two_pow_mul]
  by_cases hi : i < t
  · have hge : ¬ i ≥ t := by omega
    simp [hge]
  · have hge : i ≥ t := by omega
    have hne : i - t ≠ 0 ↔ i ≠ t := by omega
    rw [if_neg hi, testBit_sub_one_of_odd hodd]
    simp only [hge, decide_true, Bool.true_and, hne]
    cases q.testBit (i - t) <;> simp

variable {w : ℕ}

theorem getLsbD_and_sub_one {x : BitVec w} (hx : x ≠ 0#w) (i : ℕ) :
    (x &&& (x - 1#w)).getLsbD i = (x.getLsbD i && decide (i ≠ x.ctz.toNat)) := by
  have hpos : 0 < x.toNat := by
    rw [Nat.pos_iff_ne_zero]
    exact fun h => hx (BitVec.eq_of_toNat_eq (by simpa using h))
  have hw : w ≠ 0 := by
    rintro rfl
    exact hx (BitVec.eq_nil x)
  have hone : (1#w).toNat = 1 := by
    simp [Nat.pos_iff_ne_zero.mpr hw]
  have hsub : (x - 1#w).toNat = x.toNat - 1 := by
    rw [BitVec.toNat_sub_of_le (by rw [BitVec.le_def, hone]; omega), hone]
  have hlow : ∀ j < x.ctz.toNat, x.toNat.testBit j = false :=
    fun j hj => BitVec.getLsbD_false_of_lt_ctz hj
  have hbit : x.toNat.testBit x.ctz.toNat = true := BitVec.getLsbD_true_ctz_of_ne_zero hx
  have htest := testBit_and_sub_one hlow hbit i
  rwa [← hsub, ← BitVec.toNat_and] at htest

/-- The places of the bits that are set, lowest first, as many as there is fuel for. -/
def popBits : ℕ → BitVec w → List ℕ
  | 0, _ => []
  | fuel + 1, x => if x = 0#w then [] else x.ctz.toNat :: popBits fuel (x &&& (x - 1#w))

theorem popBits_spec (fuel : ℕ) {x : BitVec w} (hlow : ∀ i < w - fuel, x.getLsbD i = false) :
    (∀ i, i ∈ popBits fuel x ↔ x.getLsbD i = true) ∧ (popBits fuel x).Pairwise (· < ·) := by
  induction fuel generalizing x with
  | zero =>
      have hnone : ∀ i, x.getLsbD i = false := by
        intro i
        by_cases hi : i < w
        · exact hlow i (by omega)
        · exact BitVec.getLsbD_of_ge x i (by omega)
      simp [popBits, hnone]
  | succ fuel ih =>
      rw [popBits]
      split_ifs with hzero
      · subst hzero
        simp
      · have hlowest : ∀ i < x.ctz.toNat, x.getLsbD i = false :=
          fun i hi => BitVec.getLsbD_false_of_lt_ctz hi
        have hset : x.getLsbD x.ctz.toNat = true := BitVec.getLsbD_true_ctz_of_ne_zero hzero
        have hge : w - (fuel + 1) ≤ x.ctz.toNat := by
          by_contra hlt
          have hunset := hlow x.ctz.toNat (by omega)
          rw [hset] at hunset
          cases hunset
        have hrest : ∀ i < w - fuel, (x &&& (x - 1#w)).getLsbD i = false := by
          intro i hi
          rw [getLsbD_and_sub_one hzero]
          by_cases hlt : i < w - (fuel + 1)
          · rw [hlow i hlt, Bool.false_and]
          · by_cases heq : i = x.ctz.toNat
            · simp [heq]
            · rw [hlowest i (by omega), Bool.false_and]
        obtain ⟨hmem, hpairwise⟩ := ih hrest
        simp only [getLsbD_and_sub_one hzero, Bool.and_eq_true, decide_eq_true_eq] at hmem
        refine ⟨fun i => ?_, List.pairwise_cons.mpr ⟨fun i hi => ?_, hpairwise⟩⟩
        · rw [List.mem_cons, hmem]
          by_cases heq : i = x.ctz.toNat
          · simp [heq, hset]
          · simp [heq]
        · obtain ⟨hbit, hne⟩ := (hmem i).mp hi
          by_contra hle
          have hunset := hlowest i (by omega)
          rw [hbit] at hunset
          cases hunset

end Albedo.Bits
