import Mathlib.Algebra.BigOperators.Fin
import Ramify.Proofs.Scalar.Rational
import Ramify.Proofs.Solver.RealRoots

/-!
Refining a root over exact numbers. Nested multiplication gives the value of a polynomial and its
derivative. Newton steps may go astray, but the best point so far is carried along with its
residual, so that the point that is returned is no worse than the start, nor than the point after
the first step.
-/

namespace Ramify.RealRoots

variable {K : Type} [ExactScalar K] {coeffs : List K} {x best residual : K} {steps : Int}

section Sums

/-- The value of the polynomial `c₀ + c₁ x + c₂ x² + …` with the given coefficients. -/
def valueSum (coeffs : List K) (x : K) : K := ∑ i : Fin coeffs.length, coeffs[i] * x ^ (i : ℕ)

/-- The value of its derivative `c₁ + 2 c₂ x + 3 c₃ x² + …`. -/
def slopeSum (coeffs : List K) (x : K) : K :=
  ∑ i : Fin coeffs.length, (i : ℕ) * coeffs[i] * x ^ ((i : ℕ) - 1)

@[simp] theorem valueSum_nil (x : K) : valueSum [] x = 0 := Fin.sum_univ_zero _

@[simp] theorem slopeSum_nil (x : K) : slopeSum [] x = 0 := Fin.sum_univ_zero _

theorem valueSum_cons (c : K) (coeffs : List K) (x : K) :
    valueSum (c :: coeffs) x = valueSum coeffs x * x + c := by
  have hsplit : valueSum (c :: coeffs) x =
      c * x ^ 0 + ∑ i : Fin coeffs.length, coeffs[i] * x ^ ((i : ℕ) + 1) := Fin.sum_univ_succ _
  rw [hsplit, pow_zero, mul_one, add_comm, valueSum, Finset.sum_mul]
  simp only [pow_succ, mul_assoc]

/-- The derivative of `c + x p` is that of `p` times `x`, and `p`. -/
theorem slopeSum_cons (c : K) (coeffs : List K) (x : K) :
    slopeSum (c :: coeffs) x = slopeSum coeffs x * x + valueSum coeffs x := by
  have hsplit : slopeSum (c :: coeffs) x = ((0 : ℕ) : K) * c * x ^ (0 - 1) +
      ∑ i : Fin coeffs.length, (((i : ℕ) + 1 : ℕ) : K) * coeffs[i] * x ^ (i : ℕ) :=
    Fin.sum_univ_succ _
  rw [hsplit, Nat.cast_zero, zero_mul, zero_mul, zero_add, slopeSum, valueSum, Finset.sum_mul,
    ← Finset.sum_add_distrib]
  refine Finset.sum_congr rfl fun i _ => ?_
  -- the first power is lowered to a power that does not matter, as its factor is zero
  generalize coeffs[i] = d
  cases (i : ℕ) with
  | zero => simp
  | succ n =>
      rw [Nat.add_sub_cancel, pow_succ]
      push_cast
      ring

/-- Nested multiplication gives the value and the derivative. -/
theorem valueAndSlope_eq (coeffs : List K) (x : K) :
    valueAndSlope coeffs x = (valueSum coeffs x, slopeSum coeffs x) := by
  unfold valueAndSlope
  rw [List.foldl_reverse]
  induction coeffs with
  | nil => rw [List.foldr_nil, valueSum_nil, slopeSum_nil]
  | cons c rest ih => rw [List.foldr_cons, ih, valueSum_cons, slopeSum_cons]

end Sums

section Steps

/-- The better one of the best point so far and a new one, with its residual. -/
def better (coeffs : List K) (best residual x : K) : K × K :=
  if |valueSum coeffs x| < residual then (x, |valueSum coeffs x|) else (best, residual)

/-- The best residual is that of the best point, and only decreases. -/
theorem residual_better (h : |valueSum coeffs best| = residual) (x : K) :
    |valueSum coeffs (better coeffs best residual x).1| = (better coeffs best residual x).2 ∧
      (better coeffs best residual x).2 ≤ residual ∧
      (better coeffs best residual x).2 ≤ |valueSum coeffs x| := by
  unfold better
  split
  · rename_i hless
    exact ⟨rfl, hless.le, le_rfl⟩
  · rename_i hless
    exact ⟨h, le_rfl, not_lt.1 hless⟩

/-- What becomes of a Newton step: there is a reason to stop before it, or it is made, and the
better point is carried along for the steps that are still made, which may be none. -/
theorem newtonSteps_succ (coeffs : List K) (steps : Nat) (x value slope best residual : K) :
    let y := x - value / slope
    let next := better coeffs best residual y
    (newtonSteps coeffs (steps + 1) x value slope best residual = best ∧
      (residual ≤ 0 ∨ slope = 0 ∨ Scalar.isFinite (valueSum coeffs y) = false)) ∨
    ∃ rest ≤ steps, newtonSteps coeffs (steps + 1) x value slope best residual =
      newtonSteps coeffs rest y (valueSum coeffs y) (slopeSum coeffs y) next.1 next.2 := by
  intro y next
  rw [newtonSteps]
  split
  · rename_i hstop
    have hreason : residual ≤ 0 ∨ slope = 0 := by simpa using hstop
    exact Or.inl ⟨rfl, hreason.imp_right Or.inl⟩
  · simp only [valueAndSlope_eq, ExactScalar.scalar_abs]
    split
    · rename_i hfinite
      exact Or.inl ⟨rfl, Or.inr (Or.inr (by simpa using hfinite))⟩
    · right
      split
      · exact ⟨0, Nat.zero_le steps, rfl⟩
      · exact ⟨steps, le_rfl, rfl⟩

/-- Newton steps never lead to a worse point than the best one so far. -/
theorem value_newtonSteps_le (steps : Nat) {x value slope best residual : K}
    (h : |valueSum coeffs best| = residual) :
    |valueSum coeffs (newtonSteps coeffs steps x value slope best residual)| ≤ residual := by
  induction steps using Nat.strong_induction_on generalizing x value slope best residual with
  | _ steps ih =>
    cases steps with
    | zero => exact h.le
    | succ steps =>
        rcases newtonSteps_succ coeffs steps x value slope best residual with
          ⟨hstop, _⟩ | ⟨rest, hrest, hstep⟩
        · rw [hstop]
          exact h.le
        · obtain ⟨hbest, hle, _⟩ := residual_better h (x - value / slope)
          rw [hstep]
          exact (ih rest (Nat.lt_succ_of_le hrest) hbest).trans hle

end Steps

section Refinement

theorem refine_eq (coeffs : List K) (x : K) (steps : Int) :
    refine coeffs x steps =
      newtonSteps coeffs steps.toNat x (valueSum coeffs x) (slopeSum coeffs x) x
        |valueSum coeffs x| := by
  unfold refine
  simp only [valueAndSlope_eq, ExactScalar.scalar_abs]

/-- Nothing is refined at a root, where the derivative vanishes, or if no step is allowed. -/
theorem refine_eq_self (h : valueSum coeffs x = 0 ∨ slopeSum coeffs x = 0 ∨ steps ≤ 0) :
    refine coeffs x steps = x := by
  rw [refine_eq]
  cases hsteps : steps.toNat with
  | zero => rfl
  | succ n =>
      have hstop : |valueSum coeffs x| ≤ 0 ∨ slopeSum coeffs x = 0 := by
        rcases h with hvalue | hslope | hnone
        · exact Or.inl (abs_nonpos_iff.2 hvalue)
        · exact Or.inr hslope
        · omega
      rw [newtonSteps, if_pos]
      simpa using hstop

/-- The refined point is no worse than the point after the first step, if that is made. -/
theorem value_refine_le_step (hsteps : 0 < steps) (hslope : slopeSum coeffs x ≠ 0)
    (hfinite : Scalar.isFinite
      (valueSum coeffs (x - valueSum coeffs x / slopeSum coeffs x)) = true) :
    |valueSum coeffs (refine coeffs x steps)| ≤
      |valueSum coeffs (x - valueSum coeffs x / slopeSum coeffs x)| := by
  obtain ⟨n, hn⟩ : ∃ n, steps.toNat = n + 1 := ⟨steps.toNat - 1, by omega⟩
  rw [refine_eq, hn]
  rcases newtonSteps_succ coeffs n x (valueSum coeffs x) (slopeSum coeffs x) x
    |valueSum coeffs x| with ⟨hbest, hroot | hflat | hinfinite⟩ | ⟨rest, _, hstep⟩
  · rw [hbest]
    exact hroot.trans (abs_nonneg _)
  · exact absurd hflat hslope
  · rw [hfinite] at hinfinite
    cases hinfinite
  · have hstart : |valueSum coeffs x| = |valueSum coeffs x| := rfl
    obtain ⟨hbest, _, hle⟩ := residual_better hstart (x - valueSum coeffs x / slopeSum coeffs x)
    rw [hstep]
    exact (value_newtonSteps_le rest hbest).trans hle

/-- Nested multiplication gives the value of a polynomial and its derivative. Refining never makes a
root worse: the result has no larger residual than the start, whatever the start and the number of
steps that is allowed, and is the start if that is a root already, the derivative vanishes there, or
no step is allowed. If a step is made, the result is no worse than the point it leads to. -/
theorem refinement_never_worsens (coeffs : List K) (x : K) (steps : Int) :
    valueAndSlope coeffs x = (valueSum coeffs x, slopeSum coeffs x) ∧
      |valueSum coeffs (refine coeffs x steps)| ≤ |valueSum coeffs x| ∧
      (valueSum coeffs x = 0 ∨ slopeSum coeffs x = 0 ∨ steps ≤ 0 → refine coeffs x steps = x) ∧
      (0 < steps → slopeSum coeffs x ≠ 0 →
        Scalar.isFinite (valueSum coeffs (x - valueSum coeffs x / slopeSum coeffs x)) = true →
        |valueSum coeffs (refine coeffs x steps)| ≤
          |valueSum coeffs (x - valueSum coeffs x / slopeSum coeffs x)|) := by
  refine ⟨valueAndSlope_eq coeffs x, ?_, refine_eq_self, value_refine_le_step⟩
  rw [refine_eq]
  exact value_newtonSteps_le _ rfl

/-- Refining towards a square root of four: from three, where one step leads to `13 / 6`, from the
root itself, from zero, where the derivative vanishes, and without a step. -/
theorem square_root_of_four_is_refined :
    let square : List Rat := [-4, 0, 1]
    valueSum square 3 = 5 ∧ slopeSum square 3 = 6 ∧ valueAndSlope square 3 = (5, 6) ∧
      |valueSum square (refine square 3 5)| ≤ |valueSum square (13 / 6)| ∧
      |valueSum square (refine square (-7) 5)| ≤ |valueSum square (-7)| ∧
      refine square 2 5 = 2 ∧ refine square 0 5 = 0 ∧ refine square 3 (-1) = 3 := by
  intro square
  have hvalue (x : Rat) : valueSum square x = x ^ 2 - 4 := by
    simp only [square, valueSum_cons, valueSum_nil]
    ring
  have hslope (x : Rat) : slopeSum square x = 2 * x := by
    simp only [square, slopeSum_cons, valueSum_cons, slopeSum_nil, valueSum_nil]
    ring
  have hthree : valueSum square 3 = 5 := by rw [hvalue]; norm_num
  have hsix : slopeSum square 3 = 6 := by rw [hslope]; norm_num
  obtain ⟨hnested, _, _, hstep⟩ := refinement_never_worsens square 3 5
  rw [hthree, hsix] at hnested hstep
  rw [show (3 : Rat) - 5 / 6 = 13 / 6 by norm_num] at hstep
  refine ⟨hthree, hsix, hnested, hstep (by decide) (by decide) rfl,
    (refinement_never_worsens square (-7) 5).2.1, ?_, ?_, ?_⟩
  · exact (refinement_never_worsens square 2 5).2.2.1 (Or.inl (by rw [hvalue]; norm_num))
  · exact (refinement_never_worsens square 0 5).2.2.1 (Or.inr (Or.inl (by rw [hslope]; norm_num)))
  · exact (refinement_never_worsens square 3 (-1)).2.2.1 (Or.inr (Or.inr (by decide)))

end Refinement

end Ramify.RealRoots
