import Mathlib.Analysis.SpecialFunctions.Pow.Real
import Ramify.Proofs.Scalar.Rational

/-!
The real numbers as an exact type of numbers. They cannot be calculated with, but every number that
is not negative has a root of each degree.
-/

namespace Ramify.RealNumbers

open scoped Classical in
/-- The operations on real numbers. A number is written by its decimals, as many as asked for. -/
noncomputable instance : Scalar ℝ where
  zero := 0
  one := 1
  add := (· + ·)
  sub := (· - ·)
  mul := (· * ·)
  div := (· / ·)
  neg := (- ·)
  beq a b := decide (a = b)
  lt := (· < ·)
  le := (· ≤ ·)
  ofScientific := OfScientific.ofScientific
  decideLT := inferInstance
  decideLE := inferInstance
  abs a := |a|
  ofInt n := n
  power a n := a ^ n
  root a n := a ^ (n : ℝ)⁻¹
  sqrt := Real.sqrt
  copySign a b := if b < 0 then -|a| else |a|
  round a := if a < 0 then -(⌊-a + 1 / 2⌋ : ℝ) else (⌊a + 1 / 2⌋ : ℝ)
  isNaN _ := false
  isFinite _ := true
  nan := 0
  noise := 0
  resolution := 1 / 4503599627370496
  fraction low high := ((low.toNat : ℝ) + (high.toNat : ℝ) * 4294967296) / 18446744073709551616
  text count a := Rational.text count ((⌊a * 10 ^ count⌋ : ℚ) / 10 ^ count)

noncomputable instance : ExactScalar ℝ where
  __ := (inferInstance : Scalar ℝ)
  __ := (inferInstance : Field ℝ)
  __ := (inferInstance : LinearOrder ℝ)
  __ := (inferInstance : IsStrictOrderedRing ℝ)
  beq_iff a b := by
    change decide (a = b) = true ↔ a = b
    exact decide_eq_true_iff
  abs_eq _ := rfl
  power_eq _ _ := rfl
  root_pow a n ha hn := Real.pow_rpow_inv_natCast ha (Nat.ne_of_gt hn)
  copySign_eq _ _ := rfl
  isNaN_eq _ := rfl
  noise_eq := rfl
  resolution_le_one := by
    change (1 / 4503599627370496 : ℝ) ≤ 1
    norm_num

theorem hasRoots : ExactScalar.HasRoots ℝ :=
  fun _ _ ha hn => Real.rpow_inv_natCast_pow ha (Nat.ne_of_gt hn)

/-- A solver without tolerances, which searches for nothing by chance. -/
noncomputable def settings : SolverSettings ℝ where
  zeroTolerance := 0
  realTolerance := 0
  mergeTolerance := 0
  residualTolerance := 0
  polishSteps := 20
  newtonStarts := 0
  seed := 42
  verbose := false

end Ramify.RealNumbers
