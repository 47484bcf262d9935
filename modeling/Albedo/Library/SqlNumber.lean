import Mathlib.Algebra.GroupWithZero.Nat
import Mathlib.Algebra.Order.Group.Int
import Mathlib.Tactic.Common

/-!
# Numbers of an SQL engine

Arithmetic on 64-bit integers that goes over to floats where a result does not fit. A float that
far out is a whole number, so both kinds are integers here, with the kind beside them.
-/
namespace Albedo.SqlNumber

inductive Number where
  | integer (n : ℤ)
  | real (n : ℤ)
  deriving DecidableEq

def Number.value : Number → ℤ
  | .integer n => n
  | .real n => n

def Fits (n : ℤ) : Prop := -2 ^ 63 ≤ n ∧ n < 2 ^ 63

instance (n : ℤ) : Decidable (Fits n) := inferInstanceAs (Decidable (_ ∧ _))

/-- The nearest whole number with a significand of 53 bits, the even one of two that are as near. -/
def roundF64 (n : ℤ) : ℤ :=
  let unit := 2 ^ (n.natAbs.log2 - 52)
  let quotient := n.natAbs / unit
  let rest := n.natAbs % unit
  let rounded :=
    if unit < 2 * rest ∨ 2 * rest = unit ∧ quotient % 2 = 1 then quotient + 1 else quotient
  n.sign * (unit * rounded : ℕ)

def Number.toF64 : Number → ℤ
  | .integer n => roundF64 n
  | .real n => n

/-- An operation on two numbers: on integers where both are and the result fits. -/
def Number.combine (op : ℤ → ℤ → ℤ) : Number → Number → Number
  | .integer m, .integer n =>
      if Fits (op m n) then .integer (op m n) else .real (roundF64 (op (roundF64 m) (roundF64 n)))
  | a, b => .real (roundF64 (op a.toF64 b.toF64))

def Number.add (a b : Number) : Number := a.combine (· + ·) b

def Number.sub (a b : Number) : Number := a.combine (· - ·) b

def Number.max (a b : Number) : Number := if a.value < b.value then b else a

/-- What an integer column stores: a float that is an integer of 64 bits becomes one. -/
def Number.stored : Number → Number
  | .integer n => .integer n
  | .real n => if Fits n then .integer n else .real n

variable {m n : ℤ}

theorem add_integer (h : Fits (m + n)) :
    (Number.integer m).add (.integer n) = .integer (m + n) := if_pos h

theorem sub_integer (h : Fits (m - n)) :
    (Number.integer m).sub (.integer n) = .integer (m - n) := if_pos h

theorem max_integer (m n : ℤ) :
    (Number.integer m).max (.integer n) = .integer (Max.max m n) := by
  unfold Number.max Number.value
  dsimp only
  split_ifs with h
  · rw [max_eq_right (le_of_lt h)]
  · rw [max_eq_left (not_lt.mp h)]

end Albedo.SqlNumber
