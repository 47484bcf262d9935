import Mathlib.Data.Nat.Notation
import Mathlib.Tactic.Common

/-!
# Letters and digits

Where the letters and digits of ASCII lie. What holds of all characters up to a bound is decided
by going through them.
-/
namespace Albedo.Ascii

variable {c : Char}

theorem isAlpha_iff : c.isAlpha = true ↔
    65 ≤ c.toNat ∧ c.toNat ≤ 90 ∨ 97 ≤ c.toNat ∧ c.toNat ≤ 122 := by
  change (decide ('A'.val ≤ c.val ∧ c.val ≤ 'Z'.val) ||
    (decide ('a'.val ≤ c.val) && decide (c.val ≤ 'z'.val))) = true ↔ _
  simp only [Bool.or_eq_true, Bool.and_eq_true, decide_eq_true_eq, UInt32.le_iff_toNat_le]
  exact Iff.rfl

theorem isDigit_iff : c.isDigit = true ↔ 48 ≤ c.toNat ∧ c.toNat ≤ 57 := by
  change (decide ('0'.val ≤ c.val) && decide (c.val ≤ '9'.val)) = true ↔ _
  simp only [Bool.and_eq_true, decide_eq_true_eq, UInt32.le_iff_toNat_le]
  exact Iff.rfl

theorem isAlphanum_iff : c.isAlphanum = true ↔ c.isAlpha = true ∨ c.isDigit = true :=
  Iff.of_eq (Bool.or_eq_true c.isAlpha c.isDigit)

theorem lt_of_isAlphanum (h : c.isAlphanum = true) : c.toNat < 128 := by
  rw [isAlphanum_iff, isAlpha_iff, isDigit_iff] at h
  omega

theorem eq_of_toLower {d : Char} (h : d.toLower = c) (hc : c.toNat < 97) : d = c := by
  subst h
  unfold Char.toLower at hc ⊢
  split_ifs at hc ⊢ with hupper
  · exfalso
    have hle : d.val.toNat ≤ 90 := UInt32.le_iff_toNat_le.mp hupper.2
    have hge : 65 ≤ d.val.toNat := UInt32.le_iff_toNat_le.mp hupper.1
    change (d.val + ('a'.val - 'A'.val)).toNat < 97 at hc
    rw [UInt32.toNat_add, show ('a'.val - 'A'.val).toNat = 32 from rfl] at hc
    omega
  · rfl

theorem forall_lt {p : Char → Prop} (h : ∀ n < 128, p (Char.ofNat n)) (hc : c.toNat < 128) : p c := by
  have hp := h c.toNat hc
  rwa [Char.ofNat_toNat] at hp

theorem forall_mem_of_all {p : Char → Prop} [DecidablePred p] {text : List Char}
    (h : (text.all fun c => p c) = true) : ∀ c ∈ text, p c := fun c hc =>
  of_decide_eq_true (List.all_eq_true.mp h c hc)

theorem isAlphanum_toUpper (h : c.isAlphanum = true) : c.toUpper.isAlphanum = true :=
  forall_lt (p := fun c => c.isAlphanum = true → c.toUpper.isAlphanum = true) (by decide +kernel)
    (lt_of_isAlphanum h) h

end Albedo.Ascii
