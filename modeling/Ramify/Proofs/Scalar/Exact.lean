import Mathlib.Algebra.Order.Field.Basic
import Ramify.Scalar

/-!
Numbers without rounding. An exact field calculates with the operations of a field, and no sum other
than zero is taken for rounding error; this is all that the algebra of symbols needs. An exact type
of numbers is an ordered field of this kind in which the root of a power is its base. The rational
and the real numbers are exact in this sense.
-/

namespace Ramify

/-- A field as a type of numbers. -/
class ExactField (K : Type) extends Scalar K, Field K where
  beq_iff (a b : K) : (a == b) = true ↔ a = b
  eq_zero_of_isNoise {sum size : K} : Scalar.isNoise sum size = true → sum = 0

instance ExactField.lawfulBEq {K : Type} [ExactField K] : LawfulBEq K where
  eq_of_beq h := (beq_iff _ _).1 h
  rfl := (beq_iff _ _).2 rfl

/-- An exact field in which integers stand for themselves, and different ones are different
numbers. -/
class ExactIntegers (K : Type) [ExactField K] : Prop extends CharZero K where
  ofInt_eq (n : Int) : (Scalar.ofInt n : K) = n

/-- An ordered field as a type of numbers. -/
class ExactScalar (K : Type) extends Scalar K, Field K, LinearOrder K, IsStrictOrderedRing K where
  beq_iff (a b : K) : (a == b) = true ↔ a = b
  abs_eq (a : K) : Scalar.abs a = |a|
  power_eq (a : K) (n : Int) : Scalar.power a n = a ^ n
  /-- Where a root exists it is found. -/
  root_pow (a : K) (n : Nat) : 0 ≤ a → 0 < n → Scalar.root (a ^ n) n = a
  copySign_eq (a b : K) : Scalar.copySign a b = if b < 0 then -|a| else |a|
  isNaN_eq (a : K) : Scalar.isNaN a = false
  noise_eq : (Scalar.noise : K) = 0
  resolution_le_one : (Scalar.resolution : K) ≤ 1

namespace ExactScalar

variable {K : Type} [ExactScalar K]

instance : LawfulBEq K where
  eq_of_beq h := (beq_iff _ _).1 h
  rfl := (beq_iff _ _).2 rfl

@[simp] theorem scalar_abs (a : K) : Scalar.abs a = |a| := abs_eq a

@[simp] theorem scalar_power (a : K) (n : Int) : Scalar.power a n = a ^ n := power_eq a n

@[simp] theorem scalar_noise : (Scalar.noise : K) = 0 := noise_eq

@[simp] theorem scalar_isNaN (a : K) : Scalar.isNaN a = false := isNaN_eq a

@[simp] theorem scalar_max (a b : K) : Scalar.max a b = max a b := by
  unfold Scalar.max
  split
  · rename_i h
    rw [max_eq_right h.le]
  · rename_i h
    rw [max_eq_left (not_lt.1 h)]

/-- No sum other than zero is taken for rounding error. -/
theorem isNoise_iff (sum size : K) : Scalar.isNoise sum size = true ↔ sum = 0 := by
  unfold Scalar.isNoise
  simp only [scalar_abs, scalar_noise, zero_mul, decide_eq_true_eq]
  exact abs_nonpos_iff

instance : ExactField K where
  __ := (inferInstance : Scalar K)
  __ := (inferInstance : Field K)
  beq_iff := beq_iff
  eq_zero_of_isNoise h := (isNoise_iff _ _).1 h

/-- Whether every number that is not negative has a root of each degree, as among the real
numbers. -/
def HasRoots (K : Type) [ExactScalar K] : Prop :=
  ∀ (a : K) (n : Nat), 0 ≤ a → 0 < n → Scalar.root a n ^ n = a

end ExactScalar

end Ramify
