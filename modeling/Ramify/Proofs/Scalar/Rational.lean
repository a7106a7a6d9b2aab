import Mathlib.Algebra.Order.Field.Rat
import Mathlib.Analysis.SpecialFunctions.Pow.NthRootLemmas
import Mathlib.Data.Rat.Lemmas
import Mathlib.Tactic.Linarith
import Mathlib.Tactic.Positivity
import Ramify.Proofs.Scalar.Exact
import Ramify.Scalar.Decimal
import Ramify.Solver.Settings

/-!
The rational numbers as an exact type of numbers. They can be calculated with, so that whole runs of
a worksheet can be evaluated.
-/

namespace Ramify.Rational

/-- The number whose `degree`-th power is a natural number, or zero if there is none. -/
def natRoot (n degree : Nat) : Nat :=
  let candidate := Nat.nthRoot degree n
  if Nat.pow candidate degree = n then candidate else 0

/-- The root of a rational number that is the power of another one. -/
def root (q : Rat) (degree : Nat) : Rat :=
  (natRoot q.num.natAbs degree : Rat) / (natRoot q.den degree : Rat)

/-- The integer nearest to a rational number; halves go away from zero. -/
def round (q : Rat) : Rat :=
  if q < 0 then -((-q + 1 / 2).floor : Rat) else ((q + 1 / 2).floor : Rat)

def text (count : Nat) (q : Rat) : String :=
  if q = 0 then "0"
  else (if q < 0 then "-" else "") ++ Decimal.general count q.num.natAbs q.den

theorem natRoot_pow (n degree : Nat) (hdegree : 0 < degree) : natRoot (n ^ degree) degree = n := by
  unfold natRoot
  rw [Nat.nthRoot_pow (Nat.ne_of_gt hdegree)]
  exact if_pos rfl

theorem root_pow (q : Rat) (degree : Nat) (hq : 0 ≤ q) (hdegree : 0 < degree) :
    root (q ^ degree) degree = q := by
  unfold root
  rw [Rat.num_pow, Rat.den_pow, Int.natAbs_pow, natRoot_pow _ _ hdegree, natRoot_pow _ _ hdegree]
  have hnum : ((q.num.natAbs : Int) : Rat) = q.num := by
    rw [Int.natAbs_of_nonneg (Rat.num_nonneg.2 hq)]
  rw [← Int.cast_natCast, hnum]
  exact Rat.num_div_den q

/-- Calculation with rational numbers. -/
instance : Scalar Rat where
  zero := 0
  one := 1
  add := (· + ·)
  sub := (· - ·)
  mul := (· * ·)
  div := (· / ·)
  neg := (- ·)
  beq a b := decide (a = b)
  lt := (· < ·)
  le := (· ≤ ·)
  ofScientific := OfScientific.ofScientific
  decideLT := inferInstance
  decideLE := inferInstance
  abs a := if a < 0 then -a else a
  ofInt n := n
  power a n := a ^ n
  root := root
  sqrt a := root a 2
  copySign a b := if b < 0 then -|a| else |a|
  round := round
  isNaN _ := false
  isFinite _ := true
  nan := 0
  noise := 0
  resolution := 1 / 4503599627370496
  fraction low high := ((low.toNat : Rat) + (high.toNat : Rat) * 4294967296) / 18446744073709551616
  text := text

instance : ExactScalar Rat where
  __ := (inferInstance : Scalar Rat)
  __ := (inferInstance : Field Rat)
  __ := (inferInstance : LinearOrder Rat)
  __ := (inferInstance : IsStrictOrderedRing Rat)
  beq_iff a b := by
    change decide (a = b) = true ↔ a = b
    exact decide_eq_true_iff
  abs_eq a := by
    change (if a < 0 then -a else a) = |a|
    split
    · rename_i h
      rw [abs_of_neg h]
    · rename_i h
      rw [abs_of_nonneg (not_lt.1 h)]
  power_eq _ _ := rfl
  root_pow := root_pow
  copySign_eq _ _ := rfl
  isNaN_eq _ := rfl
  noise_eq := rfl
  resolution_le_one := by
    change (1 / 4503599627370496 : Rat) ≤ 1
    norm_num

instance : ExactIntegers Rat where
  ofInt_eq _ := rfl

theorem fraction_nonneg (low high : UInt32) : 0 ≤ (Scalar.fraction low high : Rat) := by
  change (0 : Rat) ≤ ((low.toNat : Rat) + (high.toNat : Rat) * 4294967296) / 18446744073709551616
  positivity

/-- A solver without tolerances, which searches for nothing by chance. -/
def settings : SolverSettings Rat where
  zeroTolerance := 0
  realTolerance := 0
  mergeTolerance := 0
  residualTolerance := 0
  polishSteps := 20
  newtonStarts := 0
  seed := 42
  verbose := false

end Ramify.Rational
