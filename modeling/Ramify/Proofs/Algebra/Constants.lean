import Ramify.Proofs.Algebra.Promotion

/-!
Substitution of numbers. Numbers can be put for symbols as they are, which multiplies them into the
coefficients, or as fractions, which adds and multiplies fractions. Over an exact field the two ways
go in step, term by term, up to the last step: there a quotient is formed from two polynomials in
the one way, and a fraction is divided by another in the other. These differ where the numerator
and the denominator both become zero.
-/

namespace Ramify

/-- The results of two calculations: both succeed, and their results are related, or both fail for a
wrong argument. -/
inductive Alike {α β : Type} (R : α → β → Prop) :
    Except AlgebraError α → Except AlgebraError β → Prop
  | results {x : α} {y : β} (h : R x y) : Alike R (.ok x) (.ok y)
  | failures {cause cause' : AlgebraError} (h : cause.kind = .invalidArgument)
      (h' : cause'.kind = .invalidArgument) : Alike R (.error cause) (.error cause')

namespace Alike

variable {α β γ δ : Type} {R : α → β → Prop} {S : γ → δ → Prop}

theorem exists_of_ok {first : Except AlgebraError α} {y : β} (h : Alike R first (.ok y)) :
    ∃ x, first = .ok x ∧ R x y := by
  cases h with
  | results h => exact ⟨_, rfl, h⟩

theorem bind_of_eq {first : Except AlgebraError α} {first' : Except AlgebraError β}
    {next : α → Except AlgebraError γ} {next' : β → Except AlgebraError δ}
    (hfirst : Alike R first first')
    (hnext : ∀ x y, first' = .ok y → R x y → Alike S (next x) (next' y)) :
    Alike S (first >>= next) (first' >>= next') := by
  cases hfirst with
  | results h => exact hnext _ _ rfl h
  | failures h h' => exact .failures h h'

theorem bind {first : Except AlgebraError α} {first' : Except AlgebraError β}
    {next : α → Except AlgebraError γ} {next' : β → Except AlgebraError δ}
    (hfirst : Alike R first first') (hnext : ∀ x y, R x y → Alike S (next x) (next' y)) :
    Alike S (first >>= next) (first' >>= next') :=
  hfirst.bind_of_eq (fun x y _ => hnext x y)

theorem foldlM {ι : Type} {f : α → ι → Except AlgebraError α} {f' : β → ι → Except AlgebraError β}
    (hstep : ∀ x y i, R x y → Alike R (f x i) (f' y i)) (indices : List ι) {x : α} {y : β}
    (h : R x y) : Alike R (indices.foldlM f x) (indices.foldlM f' y) := by
  induction indices generalizing x y with
  | nil => exact .results h
  | cons i rest ih =>
      rw [List.foldlM_cons, List.foldlM_cons]
      exact bind (hstep x y i h) (fun _ _ => ih)

end Alike

namespace Fraction

variable {K : Type} [ExactField K]

section Numbers

open Operand (scalar monomial polynomial make_one extended_of_eq)

variable (c d : K)

theorem make_const : make (Polynomial.const c) 1 = .ok (const c) := (canonical_const c).canonical_eq

theorem ofPolynomial_const : ofPolynomial (Polynomial.const c) = const c :=
  Except.ok.inj ((make_one _).symm.trans (make_const c))

theorem const_mul_const : (const c).mul (const d) = .ok (const (c * d)) := by
  rw [← make_const]
  apply Operand.mul_eq_make (x := scalar c) (y := scalar d) rfl rfl
  simp [Operand.numerator, AddMonoidAlgebra.single_mul_single]

theorem const_div_const_zero : (const c).div (const 0) = .error (.zeroDivisor .fraction) := by
  unfold div const Polynomial.const Polynomial.ofMonomial Monomial.const
  rw [if_pos (beq_self_eq_true 0)]
  rfl

theorem const_div_const (hd : d ≠ 0) : (const c).div (const d) = .ok (const (c / d)) := by
  rw [← make_const]
  apply Operand.div_toFraction (x := scalar c) (y := scalar d)
  · rw [Operand.isZero_scalar]
    exact beq_false_of_ne hd
  · refine ⟨.single 0 d⁻¹, ⟨_, _, inv_ne_zero hd, rfl⟩, ?_, ?_⟩
    · simp [Operand.numerator, Operand.denominator, AddMonoidAlgebra.single_mul_single,
        div_eq_mul_inv]
    · simp [Operand.numerator, Operand.denominator, AddMonoidAlgebra.single_mul_single, hd,
        AddMonoidAlgebra.one_def]

theorem powNat_const (n : Nat) : (const c).powNat n = .ok (const (c ^ n)) := by
  induction n with
  | zero =>
      rw [pow_zero]
      rfl
  | succ n ih =>
      rw [powNat, ih, except_ok_bind, const_mul_const, pow_succ]

/-- A power of a number is multiplied in, unless it is a negative power of zero. -/
theorem mulPower_const (exponent : Int) :
    (const c).mulPower (const d) exponent =
      if exponent < 0 && d == 0 then .error (.zeroDivisor .fraction)
      else .ok (const (c * d ^ exponent)) := by
  unfold mulPower
  rw [powNat_const, except_ok_bind]
  by_cases hneg : exponent < 0
  · have hnatAbs : (exponent.natAbs : Int) = -exponent := by omega
    rw [if_pos hneg, decide_eq_true hneg, Bool.true_and]
    by_cases hzero : d = 0
    · rw [if_pos (beq_iff_eq.2 hzero), hzero, zero_pow (by omega), const_div_const_zero]
    · rw [if_neg (fun h => hzero (beq_iff_eq.1 h)), const_div_const _ _ (pow_ne_zero _ hzero),
        ← zpow_natCast, hnatAbs, zpow_neg, div_inv_eq_mul]
  · have hnatAbs : (exponent.natAbs : Int) = exponent := by omega
    rw [if_neg hneg, decide_eq_false hneg, Bool.false_and, if_neg Bool.false_ne_true,
      const_mul_const, ← zpow_natCast, hnatAbs]

/-- A number times a term. -/
theorem const_mul_ofMonomial (m : Monomial K) :
    (const c).mul (ofMonomial m) =
      .ok (ofPolynomial (.ofMonomial ⟨m.coeff * c, m.exponents⟩)) := by
  rw [← make_one]
  apply Operand.mul_eq_make (x := scalar c) (y := monomial m) rfl rfl
  simp [Operand.numerator, Monomial.laurent, AddMonoidAlgebra.single_mul_single, mul_comm]

theorem ofPolynomial_add (p q : Polynomial K) :
    (ofPolynomial p).add (ofPolynomial q) = .ok (ofPolynomial (p + q)) := by
  rw [← make_one]
  apply Operand.add_toFraction (x := polynomial p) (y := polynomial q)
  apply extended_of_eq
  · simp [Operand.numerator, Operand.denominator]
  · simp [Operand.denominator]

/-- A polynomial as a fraction is determined by its Laurent polynomial. -/
theorem ofPolynomial_congr {p q : Polynomial K} (h : p.laurent = q.laurent) :
    ofPolynomial p = ofPolynomial q := by
  unfold ofPolynomial
  rw [Polynomial.eq_of_laurent_eq (proper_collected p) (proper_collected q)
    (by rw [Polynomial.laurent_collected, Polynomial.laurent_collected, h])]

end Numbers

section Substitution

variable (values : SortedMap Symbol K)

def wrapped : SortedMap Symbol (Fraction K) := values.mapValues const

theorem find?_wrapped (symbol : Symbol) :
    (wrapped values).find? symbol = (values.find? symbol).map const := by
  unfold wrapped SortedMap.mapValues SortedMap.find?
  rw [List.find?_map, Option.map_map, Option.map_map]
  rfl

/-- A term that is split into the part that stays and a product of numbers, and the same term with
the numbers multiplied in. -/
def SplitTerm (split : Monomial K × Fraction K) (m : Monomial K) : Prop :=
  ∃ c, split.2 = const c ∧ m = ⟨split.1.coeff * c, split.1.exponents⟩

variable (hpower : ∀ (c : K) (n : Int), Scalar.power c n = c ^ n)

include hpower in
theorem alike_substTerm (m : Monomial K) :
    Alike SplitTerm (substTerm m (wrapped values)) (Polynomial.substTerm m values) := by
  -- both folds go over the powers of the term, and the product of the numbers is always a number
  apply Alike.foldlM
  · rintro ⟨kept, replaced⟩ _ entry ⟨c, rfl, rfl⟩
    unfold substPower
    rw [find?_wrapped]
    cases values.find? entry.1 with
    | none => exact .results ⟨c, rfl, rfl⟩
    | some value =>
        dsimp only [Option.map_some]
        rw [mulPower_const, hpower]
        split
        · exact .failures rfl rfl
        · exact .results ⟨_, rfl, by rw [mul_assoc]⟩
  · exact ⟨1, rfl, by rw [mul_one]⟩

include hpower in
theorem alike_addSubst (start : Polynomial K) (m : Monomial K) :
    Alike (fun a m' => a = ofPolynomial (start + .ofMonomial m'))
      (addSubst (wrapped values) (ofPolynomial start) m) (Polynomial.substTerm m values) := by
  unfold addSubst
  rw [← bind_pure (Polynomial.substTerm m values)]
  apply (alike_substTerm values hpower m).bind
  rintro ⟨kept, replaced⟩ _ ⟨c, rfl, rfl⟩
  dsimp only
  rw [const_mul_ofMonomial, except_ok_bind, ofPolynomial_add]
  exact .results rfl

include hpower in
/-- The terms are added up as fractions, and collected as terms. -/
theorem alike_terms (start : Polynomial K) (terms : List (Monomial K)) :
    Alike (fun a found => a = ofPolynomial (start + .ofTerms found))
      (terms.foldlM (addSubst (wrapped values)) (ofPolynomial start))
      (terms.mapM (fun m => Polynomial.substTerm m values)) := by
  induction terms generalizing start with
  | nil =>
      refine .results (ofPolynomial_congr ?_)
      simp [Polynomial.laurent_ofTerms]
  | cons m rest ih =>
      rw [List.foldlM_cons, List.mapM_cons]
      apply (alike_addSubst values hpower start m).bind
      rintro _ m' rfl
      rw [← bind_pure (List.foldlM _ _ rest)]
      apply (ih (start + .ofMonomial m')).bind
      rintro _ found rfl
      refine .results (ofPolynomial_congr ?_)
      simp [Polynomial.laurent_ofTerms, add_assoc]

include hpower in
theorem alike_substPolynomial (p : Polynomial K) :
    Alike (fun a q => a = ofPolynomial q ∧ q.Proper) (substPolynomial p (wrapped values))
      (p.substValues values) := by
  unfold substPolynomial Polynomial.substValues
  rw [← ofPolynomial_const, ← bind_pure (List.foldlM _ _ p.terms)]
  apply (alike_terms values hpower (.const 0) p.terms).bind
  rintro _ found rfl
  refine .results ⟨ofPolynomial_congr ?_, Polynomial.proper_ofTerms _⟩
  simp

variable {values}

/-- Whether the numerator and the denominator both become zero. -/
def VanishesUnder (values : SortedMap Symbol K) (a : Fraction K) : Prop :=
  a.num.substValues values = .ok 0 ∧ a.den.substValues values = .ok 0

theorem ofPolynomial_div_zero (a : Fraction K) :
    a.div (ofPolynomial 0) = .error (.zeroDivisor .fraction) := rfl

/-- Polynomials as fractions are divided as their quotient is formed, unless both are zero. -/
theorem alike_div {p q : Polynomial K} (hp : p.Proper) (hq : q.Proper) (h : ¬ (p = 0 ∧ q = 0)) :
    Alike (· = ·) ((ofPolynomial p).div (ofPolynomial q)) (make p q) := by
  cases hzero : q.isZero with
  | true =>
      obtain rfl : q = 0 := Polynomial.ext (List.isEmpty_iff.1 hzero)
      have hne : p.isZero = false := by
        rw [Bool.eq_false_iff]
        intro hpzero
        exact h ⟨Polynomial.ext (List.isEmpty_iff.1 hpzero), rfl⟩
      have hmake : make p 0 = .error .zeroDenominator := by
        unfold make
        rw [collected_eq hp, collected_eq hq]
        dsimp only
        rw [hzero, hne]
        rfl
      rw [ofPolynomial_div_zero, hmake]
      exact .failures rfl rfl
  | false =>
      have hdiv : (ofPolynomial p).div (ofPolynomial q) = make p q := by
        apply Operand.div_toFraction (x := .polynomial p) (y := .polynomial q)
        · exact (Operand.isZero_ofPolynomial hq).trans hzero
        · apply Operand.extended_of_eq
          · exact (mul_one _).symm
          · exact (one_mul _).symm
      rw [hdiv]
      cases hmake : make p q with
      | ok a => exact .results rfl
      | error cause =>
          have hkind := Operand.argues_make p q cause hmake
          exact .failures hkind hkind

/-- Numbers as they are and numbers as fractions give the same when they are put for symbols, or
both fail for a wrong argument. The only exception are numbers for which the numerator and the
denominator both become zero: as they are they give zero, and as fractions they are a division by
zero. -/
theorem substitutions_of_numbers_agree (hpower : ∀ (c : K) (n : Int), Scalar.power c n = c ^ n)
    (a : Fraction K) (values : SortedMap Symbol K) :
    (a.VanishesUnder values → a.substValues values = .ok zero ∧
      a.subst (wrapped values) = .error (.zeroDivisor .fraction)) ∧
    (¬ a.VanishesUnder values →
      Alike (· = ·) (a.subst (wrapped values)) (a.substValues values)) := by
  have hnum := alike_substPolynomial values hpower a.num
  have hden := alike_substPolynomial values hpower a.den
  unfold subst substValues
  constructor
  · rintro ⟨hnumZero, hdenZero⟩
    rw [hnumZero] at hnum
    rw [hdenZero] at hden
    obtain ⟨num, hnumRun, _⟩ := hnum.exists_of_ok
    obtain ⟨den, hdenRun, rfl, _⟩ := hden.exists_of_ok
    rw [hnumZero, hdenZero, hnumRun, hdenRun]
    exact ⟨rfl, ofPolynomial_div_zero num⟩
  · intro hdefined
    apply hnum.bind_of_eq
    rintro _ p hp ⟨rfl, hpProper⟩
    apply hden.bind_of_eq
    rintro _ q hq ⟨rfl, hqProper⟩
    apply alike_div hpProper hqProper
    rintro ⟨rfl, rfl⟩
    exact hdefined ⟨hp, hq⟩

/-- Two put for `x` in `x / (x + y)`, as a number and as a fraction. -/
theorem two_is_put_for_x :
    let x : Monomial Rat := .ofSymbol ⟨"x", false⟩
    let y : Monomial Rat := .ofSymbol ⟨"y", false⟩
    let share : Fraction Rat := ⟨.ofMonomial x, .ofTerms [x, y]⟩
    let result : Fraction Rat := ⟨.const 2, .ofTerms [.const 2, y]⟩
    let values : SortedMap Symbol Rat := .single ⟨"x", false⟩ 2
    share.substValues values = .ok result ∧ share.subst (wrapped values) = .ok result := by
  intro x y share result values
  have hvalues : share.substValues values = .ok result := by decide +kernel
  have hdefined : ¬ share.VanishesUnder values := by
    rintro ⟨hnum, _⟩
    have hnonzero : (share.num.substValues values).map Polynomial.isZero = .ok false := by
      decide +kernel
    rw [hnum] at hnonzero
    cases hnonzero
  have halike := (substitutions_of_numbers_agree (fun _ _ => rfl) share values).2 hdefined
  rw [hvalues] at halike
  obtain ⟨found, hfound, rfl⟩ := halike.exists_of_ok
  exact ⟨hvalues, hfound⟩

/-- Zeros put for `x` and `y` in `x / y` give zero as numbers, and nothing as fractions. -/
theorem zeros_are_put_for_both_sides :
    let quotient : Fraction Rat := ⟨.ofSymbol ⟨"x", false⟩, .ofSymbol ⟨"y", false⟩⟩
    let values : SortedMap Symbol Rat := .ofList [(⟨"x", false⟩, 0), (⟨"y", false⟩, 0)]
    quotient.substValues values = .ok zero ∧
      quotient.subst (wrapped values) = .error (.zeroDivisor .fraction) := by
  decide +kernel

end Substitution

end Fraction

end Ramify
