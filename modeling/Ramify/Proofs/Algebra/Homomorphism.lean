import Ramify.Proofs.Algebra.Evaluation

/-!
Evaluation as a homomorphism. Between the operands of an operation and its result lie products of
polynomials, the collection of terms, and the cancellation of shared powers and of the leading
coefficient. None of this changes a value: multiplied by the denominator that a quotient was formed
with, the value of the quotient is that of the numerator, also where the denominator vanishes
because a symbol that was cancelled is zero.
-/

namespace Ramify.Fraction

section Cross

variable {K : Type} [ExactField K] {num den : Polynomial K} {a : Fraction K}

/-- A quotient is equal to its parts, multiplied crosswise. -/
theorem num_mul_eq_of_make (h : make num den = .ok a) : a.num * den = num * a.den := by
  have hcross : a.num.laurent * den.laurent = num.laurent * a.den.laurent := by
    by_cases hzero : num.laurent = 0
    · rw [make_of_laurent_eq_zero hzero] at h
      cases h
      rw [hzero, zero_mul]
      exact zero_mul _
    · obtain ⟨u, _, hleft, hright⟩ := extended_make h hzero
      rw [hleft, hright]
      ring
  have hproducts : (a.num * den).laurent = (num * a.den).laurent := by
    rw [Polynomial.laurent_mul, Polynomial.laurent_mul, hcross]
  exact Polynomial.eq_of_laurent_eq (Polynomial.proper_ofTerms _) (Polynomial.proper_ofTerms _)
    hproducts

end Cross

variable {K : Type} [ExactScalar K]

section Values

variable {z : Symbol → K} {num den : Polynomial K} {a b c : Fraction K} {u v w : K}

/-- The value of a quotient times that of its denominator is that of its numerator, also where the
denominator vanishes. -/
theorem HasValue.value_of_make (h : make num den = .ok a) (ha : a.HasValue z v)
    (hnum : num.All (Powers.DefinedAt z)) (hden : den.All (Powers.DefinedAt z)) :
    num.value z = v * den.value z := by
  have hcross := congrArg (Polynomial.value z) (num_mul_eq_of_make h)
  rw [Polynomial.value_mul ha.num_defined hden, Polynomial.value_mul hnum ha.den_defined, ha.eq]
    at hcross
  apply mul_right_cancel₀ ha.den_ne
  rw [← hcross]
  ring

theorem HasValue.value_of_div (ha : a.HasValue z v) (hb : b.HasValue z w) (h : a.div b = .ok c)
    (hc : c.HasValue z u) : u * w = v := by
  unfold div at h
  split at h
  · cases h
  · have hproduct {p q : Polynomial K} (hp : p.All (Powers.DefinedAt z))
        (hq : q.All (Powers.DefinedAt z)) : (p * q).All (Powers.DefinedAt z) :=
      Polynomial.all_mul (fun _ _ hx hy => hx.mul hy) hp hq
    have hvalue := hc.value_of_make h (hproduct ha.num_defined hb.den_defined)
      (hproduct ha.den_defined hb.num_defined)
    rw [Polynomial.value_mul ha.num_defined hb.den_defined,
      Polynomial.value_mul ha.den_defined hb.num_defined, ha.eq, hb.eq] at hvalue
    apply mul_right_cancel₀ (mul_ne_zero ha.den_ne hb.den_ne)
    linear_combination -hvalue

end Values

section Evaluation

variable {point : SortedMap Symbol K}

/-- A calculation succeeds, and what it gives evaluates to no other number than a given one. -/
def Evaluates (point : SortedMap Symbol K) (result : Except AlgebraError (Fraction K)) (x : K) :
    Prop :=
  ∃ a, result = .ok a ∧ ∀ u, a.eval point = .ok (some u) → u = x

theorem evaluates_of_hasValue (hresolution : 0 < (Scalar.resolution : K))
    {result : Except AlgebraError (Fraction K)} {x : K}
    (h : ∃ a, result = .ok a ∧ a.HasValue (assignment point) x) : Evaluates point result x := by
  obtain ⟨a, ha, hvalue⟩ := h
  exact ⟨a, ha, fun u hu => (hasValue_of_eval hresolution hu).unique hvalue⟩

/-- A quotient is evaluated as the numerator and the denominator that it is formed from. -/
theorem eval_make {num den : Polynomial K} {n d : K} (hnum : num.eval point = .ok n)
    (hden : den.eval point = .ok d) (hd : d ≠ 0) :
    ∃ a, make num den = .ok a ∧ ∃ n' d', a.num.eval point = .ok n' ∧
      a.den.eval point = .ok d' ∧ d' ≠ 0 ∧ n' / d' = n / d := by
  obtain ⟨hnumCovered, hnumDefined, rfl⟩ := Polynomial.eval_eq_ok_iff.1 hnum
  obtain ⟨hdenCovered, hdenDefined, rfl⟩ := Polynomial.eval_eq_ok_iff.1 hden
  obtain ⟨a, ha, hvalue⟩ := hasValue_make hnumDefined hdenDefined hd (div_mul_cancel₀ _ hd).symm
  have hwithin := within_make ha hnumCovered hdenCovered
  refine ⟨a, ha, _, _, Polynomial.eval_eq hwithin.num_over hvalue.num_defined,
    Polynomial.eval_eq hwithin.den_over hvalue.den_defined, hvalue.den_ne, ?_⟩
  rw [div_eq_iff hvalue.den_ne]
  exact hvalue.eq

/-- Sums, differences, products and opposites evaluate to those of the values, and a quotient times
the value of the divisor is the value of the dividend. A quotient of polynomials has the value of
its parts, divided, with a denominator other than zero. -/
theorem evaluation_is_a_homomorphism (hresolution : 0 < (Scalar.resolution : K))
    (point : SortedMap Symbol K) :
    (∀ (a b : Fraction K) (v w : K), a.eval point = .ok (some v) → b.eval point = .ok (some w) →
      Evaluates point (a.add b) (v + w) ∧ Evaluates point (a.sub b) (v - w) ∧
      Evaluates point (a.mul b) (v * w) ∧ Evaluates point a.neg (-v) ∧
      (w ≠ 0 → Evaluates point (a.div b) (v / w)) ∧
      ∀ c u, a.div b = .ok c → c.eval point = .ok (some u) → u * w = v) ∧
    ∀ (num den : Polynomial K) (n d : K), num.eval point = .ok n → den.eval point = .ok d →
      d ≠ 0 → ∃ a, make num den = .ok a ∧ ∃ n' d', a.num.eval point = .ok n' ∧
        a.den.eval point = .ok d' ∧ d' ≠ 0 ∧ n' / d' = n / d := by
  refine ⟨?_, fun _ _ _ _ => eval_make⟩
  intro a b v w hv hw
  have ha := hasValue_of_eval hresolution hv
  have hb := hasValue_of_eval hresolution hw
  refine ⟨?_, ?_, ?_, ?_, ?_, ?_⟩
  · exact evaluates_of_hasValue hresolution (hasValue_add ha hb)
  · exact evaluates_of_hasValue hresolution (hasValue_sub ha hb)
  · exact evaluates_of_hasValue hresolution (hasValue_mul ha hb)
  · exact evaluates_of_hasValue hresolution (hasValue_neg ha)
  · exact fun hne => evaluates_of_hasValue hresolution (hasValue_div ha hb hne)
  · exact fun c u hc hu => ha.value_of_div hb hc (hasValue_of_eval hresolution hu)

/-- Two fractions at a point where one of them vanishes, and a quotient that is formed from
polynomials with negative exponents. -/
theorem values_where_a_symbol_vanishes :
    let x : Monomial Rat := .ofSymbol ⟨"x", false⟩
    let reciprocal : Monomial Rat := .single 2 ⟨"y", false⟩ (-1)
    let point : SortedMap Symbol Rat := .ofList [(⟨"x", false⟩, 0), (⟨"y", false⟩, 3)]
    let a : Fraction Rat := ⟨.ofTerms [x, .const 2], .ofTerms [x, .const 1]⟩
    let b : Fraction Rat := ⟨.ofMonomial x, .ofTerms [x, .const 3]⟩
    let num : Polynomial Rat := .ofTerms [x * reciprocal, .const 5]
    let den : Polynomial Rat := .ofMonomial reciprocal
    (a.eval point = .ok (some 2) ∧ b.eval point = .ok (some 0) ∧
      Evaluates point (a.add b) 2 ∧ Evaluates point (a.mul b) 0) ∧
    num.eval point = .ok 5 ∧ den.eval point = .ok (2 / 3) ∧
      ∃ c, make num den = .ok c ∧ ∃ n d, c.num.eval point = .ok n ∧ c.den.eval point = .ok d ∧
        d ≠ 0 ∧ n / d = 15 / 2 := by
  intro x reciprocal point a b num den
  have hresolution : 0 < (Scalar.resolution : Rat) := by decide +kernel
  obtain ⟨hoperations, hquotients⟩ := evaluation_is_a_homomorphism hresolution point
  have ha : a.eval point = .ok (some 2) := by decide +kernel
  have hb : b.eval point = .ok (some 0) := by decide +kernel
  have hnum : num.eval point = .ok 5 := by decide +kernel
  have hden : den.eval point = .ok (2 / 3) := by decide +kernel
  obtain ⟨hadd, _, hmul, _⟩ := hoperations a b 2 0 ha hb
  rw [add_zero] at hadd
  rw [mul_zero] at hmul
  obtain ⟨c, hc, n, d, hn, hd, hne, hvalue⟩ := hquotients num den 5 (2 / 3) hnum hden (by norm_num)
  refine ⟨⟨ha, hb, hadd, hmul⟩, hnum, hden, c, hc, n, d, hn, hd, hne, ?_⟩
  rw [hvalue]
  norm_num

/-- Where a symbol is zero, its quotient by itself is one, and not the quotient of two zeros. -/
theorem quotient_of_zeros_has_a_value :
    let x : Fraction Rat := .ofSymbol ⟨"x", false⟩
    let point : SortedMap Symbol Rat := .single ⟨"x", false⟩ 0
    x.eval point = .ok (some 0) ∧ x.div x = .ok (const 1) ∧
      (const 1 : Fraction Rat).eval point = .ok (some 1) ∧ (1 : Rat) ≠ 0 / 0 := by
  decide +kernel

end Evaluation

end Ramify.Fraction
