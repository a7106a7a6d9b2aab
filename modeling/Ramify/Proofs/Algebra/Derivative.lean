import Mathlib.Algebra.MonoidAlgebra.Lift
import Mathlib.Tactic.Abel
import Mathlib.Tactic.Ring
import Ramify.Proofs.Algebra.Coefficients
import Ramify.Proofs.Algebra.Laurent
import Ramify.Proofs.Scalar.Rational

/-!
Partial derivatives. Taking the derivative of a polynomial term by term, where terms without the
symbol are left out, is a derivation of the algebra that the polynomials stand for, so that the
rules for sums and products need no look at the terms. Where different integers are different
numbers, no term with the symbol is lost, so the derivative also tells whether the symbol occurs.
-/

namespace Ramify

namespace Laurent

variable {K : Type} [CommRing K]

noncomputable def derivative (symbol : Symbol) : Laurent K →+ Laurent K :=
  AddMonoidAlgebra.liftNC (AddMonoidAlgebra.singleAddHom 0) fun family =>
    .single (family.toAdd - Finsupp.single symbol 1) (family.toAdd symbol : K)

@[simp] theorem derivative_single (symbol : Symbol) (family : Symbol →₀ Int) (c : K) :
    derivative symbol (.single family c) =
      .single (family - Finsupp.single symbol 1) (c * family symbol) := by
  unfold derivative
  rw [AddMonoidAlgebra.liftNC_single]
  change AddMonoidAlgebra.single 0 c * AddMonoidAlgebra.single _ _ = _
  rw [AddMonoidAlgebra.single_mul_single, zero_add]
  rfl

/-- The product rule. -/
theorem derivative_mul (symbol : Symbol) (f g : Laurent K) :
    derivative symbol (f * g) = derivative symbol f * g + f * derivative symbol g := by
  induction f using AddMonoidAlgebra.induction_linear with
  | zero => simp
  | add f₁ f₂ h₁ h₂ =>
      rw [add_mul, map_add, map_add, h₁, h₂, add_mul, add_mul]
      abel
  | single left c =>
      induction g using AddMonoidAlgebra.induction_linear with
      | zero => simp
      | add g₁ g₂ h₁ h₂ =>
          rw [mul_add, map_add, map_add, h₁, h₂, mul_add, mul_add]
          abel
      | single right d =>
          have hleft : left - Finsupp.single symbol 1 + right =
              left + right - Finsupp.single symbol 1 := by abel
          have hright : left + (right - Finsupp.single symbol 1) =
              left + right - Finsupp.single symbol 1 := by abel
          simp only [derivative_single, AddMonoidAlgebra.single_mul_single, hleft, hright,
            ← AddMonoidAlgebra.single_add, Finsupp.add_apply, Int.cast_add]
          congr 1
          ring

/-- Derivatives with respect to two symbols can be taken in any order. -/
theorem derivative_comm (symbol other : Symbol) (f : Laurent K) :
    derivative symbol (derivative other f) = derivative other (derivative symbol f) := by
  induction f using AddMonoidAlgebra.induction_linear with
  | zero => simp
  | add f₁ f₂ h₁ h₂ => rw [map_add, map_add, map_add, map_add, h₁, h₂]
  | single family c =>
      by_cases hsame : symbol = other
      · rw [hsame]
      · simp only [derivative_single, Finsupp.sub_apply, Finsupp.single_eq_of_ne hsame,
          Finsupp.single_eq_of_ne (Ne.symm hsame), sub_zero, sub_right_comm]
        congr 1
        ring

/-- The coefficients of a derivative. -/
theorem coeff_derivative (symbol : Symbol) (f : Laurent K) (family : Symbol →₀ Int) :
    (derivative symbol f).coeff (family - Finsupp.single symbol 1) =
      f.coeff family * family symbol := by
  induction f using AddMonoidAlgebra.induction_linear with
  | zero => simp
  | add f₁ f₂ h₁ h₂ =>
      rw [map_add, AddMonoidAlgebra.coeff_add, Finsupp.add_apply, h₁, h₂,
        AddMonoidAlgebra.coeff_add, Finsupp.add_apply, add_mul]
  | single other c =>
      rw [derivative_single, AddMonoidAlgebra.coeff_single, AddMonoidAlgebra.coeff_single,
        Finsupp.single_apply, Finsupp.single_apply]
      by_cases hsame : other = family
      · rw [hsame, if_pos rfl, if_pos rfl]
      · rw [if_neg hsame, if_neg fun heq => hsame (sub_left_injective heq), zero_mul]

end Laurent

namespace Polynomial

variable {K : Type} [ExactField K]

theorem proper_derivative (p : Polynomial K) (symbol : Symbol) : (p.derivative symbol).Proper :=
  proper_ofTerms _

variable [ExactIntegers K] {p : Polynomial K}

/-- The derivative of a polynomial stands for the derivative of what the polynomial stands for. -/
@[simp] theorem laurent_derivative (p : Polynomial K) (symbol : Symbol) :
    (p.derivative symbol).laurent = Laurent.derivative symbol p.laurent := by
  unfold derivative
  rw [laurent_ofTerms]
  unfold laurent
  induction p.terms with
  | nil => simp
  | cons m rest ih =>
      have hterm : Laurent.derivative symbol m.laurent =
          .single (m.exponents.toFinsupp - Finsupp.single symbol 1)
            (m.coeff * (m.degree symbol : K)) := Laurent.derivative_single _ _ _
      rw [List.map_cons, List.sum_cons, map_add, ← ih, hterm, List.filter_cons]
      split
      · rw [List.map_cons, List.map_cons, List.sum_cons]
        congr 1
        rw [Monomial.laurent, Powers.toFinsupp_raise, ExactIntegers.ofInt_eq, sub_eq_add_neg,
          Finsupp.single_neg]
      · -- a term without the symbol is left out, and has the derivative zero
        rename_i hzero
        have hdegree : m.degree symbol = 0 := by simpa using hzero
        rw [hdegree, Int.cast_zero, mul_zero, AddMonoidAlgebra.single_zero, zero_add]

/-- The derivative is zero exactly if the symbol does not occur. -/
theorem derivative_eq_zero_iff (hp : p.Proper) (symbol : Symbol) :
    p.derivative symbol = 0 ↔ symbol ∉ p.symbols := by
  rw [mem_symbols]
  constructor
  · rintro hzero ⟨m, hm, hne⟩
    have hcoeff := Laurent.coeff_derivative symbol p.laurent m.exponents.toFinsupp
    rw [← laurent_derivative, hzero, coeff_of_mem hm] at hcoeff
    exact mul_ne_zero (hp m hm) (Int.cast_ne_zero.mpr hne) hcoeff.symm
  · intro hnone
    have hterms : p.terms.filter (fun m => m.degree symbol != 0) = [] := by
      rw [List.filter_eq_nil_iff]
      intro m hm hdegree
      have hne : m.degree symbol ≠ 0 := by simpa using hdegree
      exact hnone ⟨m, hm, hne⟩
    unfold derivative
    rw [hterms]
    rfl

/-- The laws of a derivation for two polynomials, up to the test of equality. -/
structure DerivationLaws (p q : Polynomial K) (symbol other : Symbol) : Prop where
  proper : (p.derivative symbol).Proper
  add : ((p + q).derivative symbol == p.derivative symbol + q.derivative symbol) = true
  mul : ((p * q).derivative symbol ==
    p.derivative symbol * q + p * q.derivative symbol) = true
  comm : ((p.derivative other).derivative symbol ==
    (p.derivative symbol).derivative other) = true
  eq_zero_iff : (p.derivative symbol == 0) = true ↔ symbol ∉ p.symbols

/-- The partial derivative is a derivation of the polynomials without zero coefficients: it respects
sums and follows the product rule, derivatives with respect to two symbols can be taken in any
order, and the derivative is zero exactly if the symbol does not occur. Powers may be negative. -/
theorem derivative_is_a_derivation (hp : p.Proper) (q : Polynomial K) (symbol other : Symbol) :
    DerivationLaws p q symbol other := by
  -- both sides of each law stand for the same element of the algebra
  have law {a b : Polynomial K} (ha : a.Proper) (hb : b.Proper) (h : a.laurent = b.laurent) :
      (a == b) = true := beq_iff_eq.2 (eq_of_laurent_eq ha hb h)
  exact {
    proper := proper_derivative p symbol
    add := law (proper_derivative _ _) (proper_ofTerms _) (by simp)
    mul := law (proper_derivative _ _) (proper_ofTerms _) (by simp [Laurent.derivative_mul])
    comm := law (proper_derivative _ _) (proper_derivative _ _)
      (by simp [Laurent.derivative_comm symbol other])
    eq_zero_iff := beq_iff_eq.trans (derivative_eq_zero_iff hp symbol) }

/-- Two polynomials with negative powers, whose product has fewer terms than there are pairs. -/
theorem negative_powers_are_differentiated :
    let x : Symbol := ⟨"x", false⟩
    let y : Symbol := ⟨"y", false⟩
    let p : Polynomial Rat := ofTerms [.ofList 2 [(x, -1), (y, 1)], .single 3 x 1]
    let q : Polynomial Rat := ofTerms [.ofList (-2) [(x, -1), (y, 1)], .single 3 x 1]
    p.Proper ∧ q.Proper ∧ DerivationLaws p q x y ∧
      (p.derivative x == ofTerms [.ofList (-2) [(x, -2), (y, 1)], .const 3]) = true := by
  intro x y p q
  have hp : p.Proper := by decide +kernel
  have hq : q.Proper := by decide +kernel
  exact ⟨hp, hq, derivative_is_a_derivation hp q x y, by decide +kernel⟩

end Polynomial

end Ramify
