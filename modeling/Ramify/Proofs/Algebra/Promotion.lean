import Ramify.Proofs.Algebra.Canonical

/-!
Mixed arithmetic and promotion. The kinds of the operands alone decide whether there is an operation
for them, and of which kind its result is. An operation that exists takes shortcuts: it leaves out
factors of one, divides a coefficient at once or does not collect terms. Over an exact field it
still gives what the operation on fractions gives for the operands as fractions, and it fails
exactly if that one does. Each operand is read as a quotient of Laurent polynomials; a shortcut then
only changes by which term the quotient is extended.
-/

namespace Ramify

namespace Operand

open Laurent (Extended)

variable {K : Type} [ExactField K]

section Quotient

noncomputable def numerator : Operand K → Laurent K
  | scalar c => .single 0 c
  | symbol s => .single (Finsupp.single s 1) 1
  | monomial m => m.laurent
  | polynomial p => p.laurent
  | fraction a => a.num.laurent

noncomputable def denominator : Operand K → Laurent K
  | fraction a => a.den.laurent
  | _ => 1

/-- A polynomial as a fraction is the quotient by one. -/
theorem make_one (p : Polynomial K) : Fraction.make p 1 = .ok (.ofPolynomial p) := by
  unfold Fraction.make
  rw [Fraction.collected_eq (p := 1) Fraction.proper_one]
  rfl

theorem extended_self (num den : Laurent K) : Extended num den num den :=
  ⟨1, Laurent.isTerm_one, (mul_one num).symm, (mul_one den).symm⟩

theorem extended_ofPolynomial (p : Polynomial K) :
    Extended p.laurent 1 (Fraction.ofPolynomial p).num.laurent
      (Fraction.ofPolynomial p).den.laurent := by
  cases hzero : p.collected.isZero with
  | true =>
      have hresult : Fraction.ofPolynomial p = .zero := if_pos hzero
      have hlaurent : p.laurent = 0 := by
        rw [← Polynomial.laurent_collected]
        exact (Polynomial.isZero_iff (Fraction.proper_collected p)).1 hzero
      rw [hresult, hlaurent]
      change Extended 0 1 (0 : Polynomial K).laurent (1 : Polynomial K).laurent
      rw [Polynomial.laurent_zero, Polynomial.laurent_one]
      exact extended_self 0 1
  | false =>
      have hextended := Fraction.extended_lowestTerms hzero Fraction.proper_one
      rw [Polynomial.laurent_collected, Polynomial.laurent_one] at hextended
      exact hextended

/-- An operand as a fraction is its quotient, extended by a term. -/
theorem extended_toFraction (x : Operand K) :
    Extended x.numerator x.denominator x.toFraction.num.laurent x.toFraction.den.laurent := by
  cases x with
  | scalar c =>
      change Extended _ _ (Polynomial.const c).laurent (1 : Polynomial K).laurent
      rw [Polynomial.laurent_const, Polynomial.laurent_one]
      exact extended_self _ _
  | symbol s =>
      change Extended _ _ (Polynomial.ofSymbol s).laurent (1 : Polynomial K).laurent
      rw [Polynomial.laurent_ofSymbol, Polynomial.laurent_one]
      exact extended_self _ _
  | monomial m =>
      change Extended m.laurent 1 _ _
      rw [← Polynomial.laurent_ofMonomial]
      exact extended_ofPolynomial _
  | polynomial p => exact extended_ofPolynomial p
  | fraction a => exact extended_self _ _

end Quotient

section Direct

variable {x y : Operand K} {num den : Polynomial K}

/-- The sum of the operands as fractions, from any pair of polynomials that stands for it. -/
theorem add_toFraction
    (h : Extended (x.numerator * y.denominator + y.numerator * x.denominator)
      (x.denominator * y.denominator) num.laurent den.laurent) :
    x.toFraction.add y.toFraction = Fraction.make num den := by
  obtain ⟨u, hu, hxn, hxd⟩ := extended_toFraction x
  obtain ⟨v, hv, hyn, hyd⟩ := extended_toFraction y
  apply Fraction.make_congr
  refine Extended.trans (Extended.symm ⟨u * v, hu.mul hv, ?_, ?_⟩) h
  · rw [Polynomial.laurent_add, Polynomial.laurent_mul, Polynomial.laurent_mul, hxn, hxd, hyn, hyd]
    ring
  · rw [Polynomial.laurent_mul, hxd, hyd]
    ring

theorem sub_toFraction
    (h : Extended (x.numerator * y.denominator - y.numerator * x.denominator)
      (x.denominator * y.denominator) num.laurent den.laurent) :
    x.toFraction.sub y.toFraction = Fraction.make num den := by
  obtain ⟨u, hu, hxn, hxd⟩ := extended_toFraction x
  obtain ⟨v, hv, hyn, hyd⟩ := extended_toFraction y
  apply Fraction.make_congr
  refine Extended.trans (Extended.symm ⟨u * v, hu.mul hv, ?_, ?_⟩) h
  · rw [Polynomial.laurent_sub, Polynomial.laurent_mul, Polynomial.laurent_mul, hxn, hxd, hyn, hyd]
    ring
  · rw [Polynomial.laurent_mul, hxd, hyd]
    ring

theorem mul_toFraction
    (h : Extended (x.numerator * y.numerator) (x.denominator * y.denominator) num.laurent
      den.laurent) :
    x.toFraction.mul y.toFraction = Fraction.make num den := by
  obtain ⟨u, hu, hxn, hxd⟩ := extended_toFraction x
  obtain ⟨v, hv, hyn, hyd⟩ := extended_toFraction y
  apply Fraction.make_congr
  refine Extended.trans (Extended.symm ⟨u * v, hu.mul hv, ?_, ?_⟩) h
  · rw [Polynomial.laurent_mul, hxn, hyn]
    ring
  · rw [Polynomial.laurent_mul, hxd, hyd]
    ring

theorem div_toFraction (hy : y.toFraction.num.isZero = false)
    (h : Extended (x.numerator * y.denominator) (x.denominator * y.numerator) num.laurent
      den.laurent) :
    x.toFraction.div y.toFraction = Fraction.make num den := by
  obtain ⟨u, hu, hxn, hxd⟩ := extended_toFraction x
  obtain ⟨v, hv, hyn, hyd⟩ := extended_toFraction y
  unfold Fraction.div
  rw [hy, if_neg Bool.false_ne_true]
  apply Fraction.make_congr
  refine Extended.trans (Extended.symm ⟨u * v, hu.mul hv, ?_, ?_⟩) h
  · rw [Polynomial.laurent_mul, hxn, hyd]
    ring
  · rw [Polynomial.laurent_mul, hxd, hyn]
    ring

theorem neg_toFraction (h : Extended (-x.numerator) x.denominator num.laurent den.laurent) :
    x.toFraction.neg = Fraction.make num den := by
  obtain ⟨u, hu, hxn, hxd⟩ := extended_toFraction x
  apply Fraction.make_congr
  refine Extended.trans (Extended.symm ⟨u, hu, ?_, hxd⟩) h
  rw [Polynomial.laurent_neg, hxn, neg_mul]

end Direct

section Kinds

inductive Kind
  | scalar
  | symbol
  | monomial
  | polynomial
  | fraction
  deriving DecidableEq

omit [ExactField K] in
def kind : Operand K → Kind
  | scalar _ => .scalar
  | symbol _ => .symbol
  | monomial _ => .monomial
  | polynomial _ => .polynomial
  | fraction _ => .fraction

/-- The kind of a sum and of a difference. Two numbers are not added here, and a symbol has no sum
with a monomial. -/
def Kind.sum : Kind → Kind → Option Kind
  | .scalar, .scalar | .symbol, .monomial | .monomial, .symbol => none
  | .fraction, _ | _, .fraction | .scalar, .monomial | .monomial, .scalar => some .fraction
  | _, _ => some .polynomial

def Kind.product : Kind → Kind → Option Kind
  | .scalar, .scalar => none
  | .fraction, _ | _, .fraction | .scalar, .monomial | .monomial, .scalar => some .fraction
  | .symbol, .monomial | .monomial, .symbol | .monomial, .monomial => some .monomial
  | _, _ => some .polynomial

def Kind.quotient : Kind → Kind → Option Kind
  | .scalar, .scalar => none
  | _, _ => some .fraction

def Kind.opposite : Kind → Option Kind
  | .scalar | .monomial => none
  | .symbol | .polynomial => some .polynomial
  | .fraction => some .fraction

def Kind.power : Kind → Option Kind
  | .scalar | .monomial => none
  | .symbol | .polynomial | .fraction => some .fraction

end Kinds

section Agreement

/-- A polynomial among the operands is collected: none of its coefficients is zero. -/
def Simplified : Operand K → Prop
  | polynomial p => p.Proper
  | _ => True

/-- The outcome of an operation on operands is that of an operation on fractions. There is none
where the kinds have no such operation. Where they have one, with a result of the given kind, either
both have the same result, which is simplified, or both fail for a wrong argument. -/
inductive Agrees : Option Kind → Outcome (Operand K) → Except AlgebraError (Fraction K) → Prop
  | unsupported {direct : Except AlgebraError (Fraction K)} : Agrees none unsupported direct
  | result {z : Operand K} (h : z.Simplified) : Agrees (some z.kind) (pure z) (.ok z.toFraction)
  | failure {kind : Kind} {cause other : AlgebraError} (h : cause.kind = .invalidArgument)
      (hother : other.kind = .invalidArgument) : Agrees (some kind) (throw cause) (.error other)

theorem Agrees.exists_result {kind : Kind} {mixed : Outcome (Operand K)}
    {direct : Except AlgebraError (Fraction K)} (h : Agrees (some kind) mixed direct)
    (hok : direct.isOk = true) :
    ∃ z : Operand K, z.kind = kind ∧ mixed = pure z ∧ direct = .ok z.toFraction := by
  cases h with
  | result h => exact ⟨_, rfl, rfl, rfl⟩
  | failure _ _ => cases hok

/-- A calculation that fails for a wrong argument only. -/
def Argues (result : Except AlgebraError (Fraction K)) : Prop :=
  ErrsWith (fun cause => cause.kind = .invalidArgument) result

theorem argues_make (num den : Polynomial K) : Argues (Fraction.make num den) := by
  unfold Fraction.make
  dsimp only
  split
  · exact ErrsWith.throw rfl
  · exact ErrsWith.pure _

theorem argues_div (a b : Fraction K) : Argues (a.div b) := by
  unfold Fraction.div
  split
  · exact ErrsWith.throw rfl
  · exact argues_make _ _

theorem argues_powNat (a : Fraction K) (n : Nat) : Argues (a.powNat n) := by
  induction n with
  | zero => exact ErrsWith.pure _
  | succ n ih => exact ErrsWith.bind ih (fun _ => argues_make _ _)

theorem argues_pow (a : Fraction K) (n : Int) : Argues (a.pow n) := by
  unfold Fraction.pow
  split
  · exact ErrsWith.bind (argues_powNat a _) (fun _ => argues_div _ _)
  · exact argues_powNat a _

variable {direct result : Except AlgebraError (Fraction K)}

theorem agrees_ofFraction (hargues : Argues result) (h : direct = result) :
    Agrees (some .fraction) (ofFraction result) direct := by
  subst h
  cases direct with
  | ok a => exact .result (z := fraction a) trivial
  | error cause => exact .failure (hargues cause rfl) (hargues cause rfl)

theorem agrees_make {num den : Polynomial K} (h : direct = Fraction.make num den) :
    Agrees (some .fraction) (ofFraction (Fraction.make num den)) direct :=
  agrees_ofFraction (argues_make num den) h

theorem agrees_ofPolynomial {p : Polynomial K} (hp : p.Proper)
    (h : direct = Fraction.make p 1) : Agrees (some .polynomial) (ofPolynomial p) direct := by
  rw [h, make_one]
  exact .result (z := polynomial p) hp

theorem agrees_ofMonomial {m : Monomial K} (h : direct = Fraction.make (.ofMonomial m) 1) :
    Agrees (some .monomial) (ofMonomial m) direct := by
  rw [h, make_one]
  exact .result (z := monomial m) trivial

end Agreement

section Mixed

theorem extended_of_eq {num den : Laurent K} {p q : Polynomial K} (hnum : p.laurent = num)
    (hden : q.laurent = den) : Extended num den p.laurent q.laurent := by
  rw [hnum, hden]
  exact extended_self num den

/-- Where the operation is that on the fractions. -/
theorem agrees_same {result : Except AlgebraError (Fraction K)} (h : Argues result) :
    Agrees (some .fraction) (ofFraction result) result := agrees_ofFraction h rfl

theorem add_comm_toFraction (a b : Fraction K) : a.add b = b.add a := by
  apply Fraction.make_congr
  apply extended_of_eq
  · rw [Polynomial.laurent_add, Polynomial.laurent_add, add_comm]
  · rw [Polynomial.laurent_mul, Polynomial.laurent_mul, mul_comm]

theorem mul_comm_toFraction (a b : Fraction K) : a.mul b = b.mul a := by
  apply Fraction.make_congr
  apply extended_of_eq <;> rw [Polynomial.laurent_mul, Polynomial.laurent_mul, mul_comm]

/-- A sum of operands without denominators is a polynomial. -/
theorem agrees_sum {x y : Operand K} {p : Polynomial K} (hp : p.Proper) (hx : x.denominator = 1)
    (hy : y.denominator = 1) (h : p.laurent = x.numerator + y.numerator) :
    Agrees (some .polynomial) (ofPolynomial p) (x.toFraction.add y.toFraction) := by
  apply agrees_ofPolynomial hp
  apply add_toFraction
  rw [hx, hy]
  apply extended_of_eq
  · rw [h, mul_one, mul_one]
  · rw [Polynomial.laurent_one, mul_one]

theorem agrees_add : ∀ x y : Operand K,
    Agrees (x.kind.sum y.kind) (x.add y) (x.toFraction.add y.toFraction)
  | scalar _, scalar _ | symbol _, monomial _ | monomial _, symbol _ => .unsupported
  | scalar _, monomial _ | scalar _, fraction _ | monomial _, scalar _ | fraction _, scalar _
  | fraction _, symbol _ | fraction _, monomial _ | fraction _, fraction _ =>
    agrees_same (argues_make _ _)
  | symbol _, fraction _ | monomial _, fraction _ =>
    agrees_ofFraction (argues_make _ _) (add_comm_toFraction _ _)
  | polynomial _, fraction _ | fraction _, polynomial _ =>
    agrees_make (add_toFraction (extended_of_eq (by simp [numerator, denominator, add_comm])
      (by simp [denominator])))
  | scalar _, symbol _ | scalar _, polynomial _ | symbol _, scalar _ | symbol _, symbol _
  | polynomial _, scalar _ | polynomial _, symbol _ | polynomial _, monomial _
  | polynomial _, polynomial _ =>
    agrees_sum (Polynomial.proper_ofTerms _) rfl rfl (by simp [numerator])
  | symbol _, polynomial _ | monomial _, polynomial _ =>
    agrees_sum (Polynomial.proper_ofTerms _) rfl rfl (by simp [numerator, add_comm])
  | monomial _, monomial _ =>
    agrees_sum (Polynomial.proper_ofTerms _) rfl rfl
      (by simp [numerator, Polynomial.laurent_ofTerms])

/-- A difference of operands without denominators is a polynomial. -/
theorem agrees_difference {x y : Operand K} {p : Polynomial K} (hp : p.Proper)
    (hx : x.denominator = 1) (hy : y.denominator = 1)
    (h : p.laurent = x.numerator - y.numerator) :
    Agrees (some .polynomial) (ofPolynomial p) (x.toFraction.sub y.toFraction) := by
  apply agrees_ofPolynomial hp
  apply sub_toFraction
  rw [hx, hy]
  apply extended_of_eq
  · rw [h, mul_one, mul_one]
  · rw [Polynomial.laurent_one, mul_one]

theorem agrees_sub : ∀ x y : Operand K,
    Agrees (x.kind.sum y.kind) (x.sub y) (x.toFraction.sub y.toFraction)
  | scalar _, scalar _ | symbol _, monomial _ | monomial _, symbol _ => .unsupported
  | scalar _, monomial _ | scalar _, fraction _ | symbol _, fraction _ | monomial _, scalar _
  | monomial _, fraction _ | fraction _, scalar _ | fraction _, symbol _ | fraction _, monomial _
  | fraction _, fraction _ => agrees_same (argues_make _ _)
  | polynomial _, fraction _ | fraction _, polynomial _ =>
    agrees_make (sub_toFraction (extended_of_eq (by simp [numerator, denominator])
      (by simp [denominator])))
  | scalar _, symbol _ | scalar _, polynomial _ | symbol _, scalar _ | symbol _, symbol _
  | symbol _, polynomial _ | monomial _, polynomial _ | polynomial _, scalar _
  | polynomial _, symbol _ | polynomial _, monomial _ | polynomial _, polynomial _ =>
    agrees_difference (Polynomial.proper_ofTerms _) rfl rfl (by simp [numerator])
  | monomial _, monomial _ =>
    agrees_difference (Polynomial.proper_ofTerms _) rfl rfl
      (by simp [numerator, Polynomial.laurent_ofTerms, sub_eq_add_neg])

/-- A product of operands without denominators is a polynomial. -/
theorem mul_eq_make {x y : Operand K} {p : Polynomial K} (hx : x.denominator = 1)
    (hy : y.denominator = 1) (h : p.laurent = x.numerator * y.numerator) :
    x.toFraction.mul y.toFraction = Fraction.make p 1 := by
  apply mul_toFraction
  rw [hx, hy]
  apply extended_of_eq h
  rw [Polynomial.laurent_one, mul_one]

theorem proper_scale {p : Polynomial K} (h : p.Proper) (c : K) : (p.scale c).Proper := by
  unfold Polynomial.scale
  split
  · nofun
  · rename_i hc
    exact Fraction.proper_mapCoeffs_mul h (fun hzero => hc (beq_iff_eq.2 hzero))

theorem proper_mulTerm (p : Polynomial K) (m : Monomial K) : (p.mulTerm m).Proper := by
  unfold Polynomial.mulTerm
  split
  · nofun
  · exact Polynomial.proper_ofTerms _

theorem laurent_two_symbols (s t : Symbol) :
    (Monomial.ofList 1 [(s, 1), (t, 1)] : Monomial K).laurent =
      .single (Finsupp.single s 1) 1 * .single (Finsupp.single t 1) 1 := by
  have hpowers : (Powers.ofList [(s, 1), (t, 1)]).toFinsupp =
      Finsupp.single s 1 + Finsupp.single t 1 := by
    change (((∅ : Exponents).raise s 1).raise t 1).toFinsupp = _
    simp
  unfold Monomial.laurent Monomial.ofList
  rw [hpowers, AddMonoidAlgebra.single_mul_single, mul_one]

theorem agrees_mul : ∀ x y : Operand K, x.Simplified → y.Simplified →
    Agrees (x.kind.product y.kind) (x.mul y) (x.toFraction.mul y.toFraction)
  | scalar _, scalar _, _, _ => .unsupported
  | scalar _, monomial _, _, _ | scalar _, fraction _, _, _ | monomial _, scalar _, _, _
  | fraction _, scalar _, _, _ | fraction _, symbol _, _, _ | fraction _, monomial _, _, _
  | fraction _, fraction _, _, _ => agrees_same (argues_make _ _)
  | symbol _, fraction _, _, _ | monomial _, fraction _, _, _ =>
    agrees_ofFraction (argues_make _ _) (mul_comm_toFraction _ _)
  | polynomial _, fraction _, _, _ | fraction _, polynomial _, _, _ =>
    agrees_make (mul_toFraction (extended_of_eq (by simp [numerator, mul_comm])
      (by simp [denominator])))
  | scalar _, symbol _, _, _ | symbol _, scalar _, _, _ =>
    agrees_ofPolynomial (Fraction.proper_ofMonomial _) (mul_eq_make rfl rfl
      (by simp [numerator, AddMonoidAlgebra.single_mul_single]))
  | symbol s, symbol t, _, _ =>
    agrees_ofPolynomial (Fraction.proper_ofMonomial _) (mul_eq_make rfl rfl
      (by simp [numerator, laurent_two_symbols]))
  | scalar c, polynomial _, _, hp | polynomial _, scalar c, hp, _ =>
    agrees_ofPolynomial (proper_scale hp c) (mul_eq_make rfl rfl (by simp [numerator, mul_comm]))
  | symbol _, polynomial _, _, _ | monomial _, polynomial _, _, _ | polynomial _, symbol _, _, _
  | polynomial _, monomial _, _, _ =>
    agrees_ofPolynomial (proper_mulTerm _ _) (mul_eq_make rfl rfl (by simp [numerator, mul_comm]))
  | polynomial _, polynomial _, _, _ =>
    agrees_ofPolynomial (Polynomial.proper_ofTerms _) (mul_eq_make rfl rfl (by simp [numerator]))
  | symbol _, monomial _, _, _ | monomial _, symbol _, _, _ | monomial _, monomial _, _, _ =>
    agrees_ofMonomial (mul_eq_make rfl rfl (by simp [numerator, mul_comm]))

theorem agrees_neg : ∀ x : Operand K, x.Simplified →
    Agrees x.kind.opposite x.neg x.toFraction.neg
  | scalar _, _ | monomial _, _ => .unsupported
  | fraction _, _ => agrees_same (argues_make _ _)
  | symbol _, _ =>
    agrees_ofPolynomial (Fraction.proper_ofMonomial _) (neg_toFraction (extended_of_eq
      (by simp [numerator]) (by simp [denominator])))
  | polynomial _, hp =>
    agrees_ofPolynomial (Polynomial.proper_neg hp) (neg_toFraction (extended_of_eq
      (by simp [numerator]) (by simp [denominator])))

end Mixed

section Quotients

theorem isZero_ofMonomial (m : Monomial K) : (Polynomial.ofMonomial m).isZero = (m.coeff == 0) := by
  unfold Polynomial.ofMonomial
  split
  · rename_i hzero
    rw [hzero]
    rfl
  · rename_i hne
    rw [Bool.not_eq_true] at hne
    rw [hne]
    rfl

/-- A polynomial is zero exactly if it is as a fraction. -/
theorem isZero_ofPolynomial {p : Polynomial K} (h : p.Proper) :
    (Fraction.ofPolynomial p).num.isZero = p.isZero := by
  obtain ⟨u, hu, hnum, _⟩ := extended_ofPolynomial p
  exact Fraction.isZero_of_extended h (Fraction.canonical_ofPolynomial p).num_proper hu hnum

theorem isZero_scalar (c : K) : (scalar c).toFraction.num.isZero = (c == 0) :=
  isZero_ofMonomial (Monomial.const c)

theorem isZero_symbol (s : Symbol) : (symbol s : Operand K).toFraction.num.isZero = false := rfl

theorem isZero_monomial (m : Monomial K) :
    (monomial m).toFraction.num.isZero = (m.coeff == 0) :=
  (isZero_ofPolynomial (Fraction.proper_ofMonomial m)).trans (isZero_ofMonomial m)

variable {x y : Operand K}

/-- A quotient of operands that is formed at once. -/
theorem agrees_quotient {num den : Polynomial K} (hy : y.toFraction.num.isZero = false)
    (hnum : num.laurent = x.numerator * y.denominator)
    (hden : den.laurent = x.denominator * y.numerator) :
    Agrees (some .fraction) (ofFraction (Fraction.make num den))
      (x.toFraction.div y.toFraction) :=
  agrees_make (div_toFraction hy (extended_of_eq hnum hden))

/-- A check of the divisor finds what the division of fractions finds. -/
theorem agrees_check {condition : Bool} {divisor : ZeroDivisor}
    {result : Except AlgebraError (Fraction K)} (hcondition : y.toFraction.num.isZero = condition)
    (h : y.toFraction.num.isZero = false →
      Agrees (some .fraction) (ofFraction result) (x.toFraction.div y.toFraction)) :
    Agrees (some .fraction)
      (ofFraction (if condition then throw (.zeroDivisor divisor) else result))
      (x.toFraction.div y.toFraction) := by
  cases condition with
  | true =>
      have hdirect : x.toFraction.div y.toFraction = .error (.zeroDivisor .fraction) := by
        unfold Fraction.div
        rw [hcondition, if_pos rfl]
        rfl
      rw [hdirect]
      exact .failure rfl rfl
  | false => exact h hcondition

theorem agrees_divPolynomial {p q : Polynomial K} {divisor : ZeroDivisor}
    (hx : x.denominator = 1) (hy : y.denominator = 1) (hp : p.laurent = x.numerator)
    (hq : q.laurent = y.numerator) (hzero : y.toFraction.num.isZero = q.isZero) :
    Agrees (some .fraction) (ofFraction (divPolynomial divisor p q))
      (x.toFraction.div y.toFraction) := by
  apply agrees_check hzero
  intro hne
  apply agrees_quotient hne
  · rw [hp, hy, mul_one]
  · rw [hq, hx, one_mul]

/-- A number may be divided by as the coefficient of the numerator. -/
theorem agrees_symbolDivScalar (s : Symbol) (c : K) :
    Agrees (some .fraction) (ofFraction (symbolDivScalar s c))
      ((symbol s).toFraction.div (scalar c).toFraction) := by
  apply agrees_check (isZero_scalar c)
  intro hne
  have hc : c ≠ 0 := ne_of_beq_false ((isZero_scalar c).symm.trans hne)
  have hdirect : (symbol s).toFraction.div (scalar c).toFraction =
      Fraction.make (.ofMonomial (.single (1 / c) s 1)) 1 := by
    apply div_toFraction hne
    refine ⟨.single 0 c⁻¹, ⟨0, c⁻¹, inv_ne_zero hc, rfl⟩, ?_, ?_⟩
    · simp [numerator, denominator, AddMonoidAlgebra.single_mul_single]
    · simp [numerator, denominator, AddMonoidAlgebra.single_mul_single, hc,
        AddMonoidAlgebra.one_def]
  rw [hdirect, make_one]
  exact .result (z := fraction _) trivial

theorem agrees_div : ∀ x y : Operand K, y.Simplified →
    Agrees (x.kind.quotient y.kind) (x.div y) (x.toFraction.div y.toFraction)
  | scalar _, scalar _, _ => .unsupported
  | scalar _, monomial _, _ | scalar _, polynomial _, _ | scalar _, fraction _, _
  | symbol _, fraction _, _ | monomial _, fraction _, _ | polynomial _, symbol _, _
  | polynomial _, fraction _, _ | fraction _, symbol _, _ | fraction _, monomial _, _
  | fraction _, fraction _, _ => agrees_same (argues_div _ _)
  | monomial _, scalar c, _ | polynomial _, scalar c, _ | fraction _, scalar c, _ =>
    agrees_check (isZero_scalar c) (fun _ => agrees_same (argues_div _ _))
  | symbol s, scalar c, _ => agrees_symbolDivScalar s c
  | scalar _, symbol s, _ | symbol _, symbol s, _ =>
    agrees_quotient (isZero_symbol s) (by simp [numerator, denominator])
      (by simp [numerator, denominator])
  | symbol _, monomial m, _ | monomial _, monomial m, _ =>
    agrees_divPolynomial rfl rfl (by simp [numerator]) (by simp [numerator])
      (isZero_ofPolynomial (Fraction.proper_ofMonomial m))
  | monomial _, symbol _, _ =>
    agrees_divPolynomial rfl rfl (by simp [numerator]) (by simp [numerator]) rfl
  | symbol _, polynomial _, hy | monomial _, polynomial _, hy | polynomial _, polynomial _, hy =>
    agrees_divPolynomial rfl rfl (by simp [numerator]) (by simp [numerator])
      (isZero_ofPolynomial hy)
  | polynomial _, monomial m, _ =>
    agrees_check (isZero_monomial m) (fun hne => agrees_quotient hne
      (by simp [numerator, denominator]) (by simp [numerator, denominator]))
  | fraction _, polynomial _, hy =>
    agrees_check (isZero_ofPolynomial hy) (fun hne => agrees_quotient hne
      (by simp [numerator, denominator]) (by simp [numerator, denominator]))

end Quotients

section Powers

/-- A power of a symbol by repeated multiplication. -/
theorem powNat_ofSymbol (s : Symbol) (n : Nat) :
    (Fraction.ofSymbol s : Fraction K).powNat n = .ok (monomial (.single 1 s n)).toFraction := by
  induction n with
  | zero =>
      have hone := (Fraction.canonical_const (1 : K)).canonical_eq
      change Except.ok (Fraction.const 1) = .ok (Fraction.ofPolynomial _)
      rw [← hone, ← make_one]
      apply Fraction.make_congr
      apply extended_of_eq
      · simp [Fraction.const]
      · rfl
  | succ n ih =>
      change ((Fraction.ofSymbol s).powNat n >>= fun power => power.mul (.ofSymbol s)) = _
      rw [ih, except_ok_bind]
      change (monomial (.single 1 s n)).toFraction.mul (symbol s).toFraction = _
      rw [mul_eq_make rfl rfl]
      · exact make_one (.ofMonomial (.single 1 s (n + 1 : Nat)))
      · simp [numerator, AddMonoidAlgebra.single_mul_single, ← Finsupp.single_add]

theorem agrees_symbolPow (s : Symbol) (n : Int) :
    Agrees (some .fraction) (ofFraction (symbolPow s n))
      ((symbol s : Operand K).toFraction.pow n) := by
  have hpower : (symbol s : Operand K).toFraction.powNat n.natAbs =
      .ok (monomial (.single 1 s n.natAbs)).toFraction := powNat_ofSymbol s n.natAbs
  unfold symbolPow Fraction.pow
  rcases lt_trichotomy n 0 with hneg | rfl | hpos
  · have habs : (n.natAbs : Int) = -n := by omega
    have hne : (monomial (.single 1 s (-n)) : Operand K).toFraction.num.isZero = false := by
      rw [isZero_monomial]
      exact beq_false_of_ne one_ne_zero
    rw [if_neg (by omega), if_pos hneg, if_pos hneg, hpower, except_ok_bind, habs]
    exact agrees_quotient (x := scalar 1) hne (by simp [numerator, denominator])
      (by simp [numerator, denominator])
  · rw [if_pos rfl, if_neg (by omega)]
    exact .result (z := fraction (.const 1)) trivial
  · have habs : (n.natAbs : Int) = n := by omega
    rw [if_neg (by omega), if_neg (by omega), if_neg (by omega), hpower, habs]
    exact .result (z := fraction _) trivial

theorem agrees_pow (x : Operand K) (n : Int) :
    Agrees x.kind.power (x.pow n) (x.toFraction.pow n) := by
  cases x with
  | scalar c => exact .unsupported
  | symbol s => exact agrees_symbolPow s n
  | monomial m => exact .unsupported
  | polynomial p => exact agrees_same (argues_pow _ n)
  | fraction a => exact agrees_same (argues_pow a n)

end Powers

/-- The operations on operands agree with those on fractions. There is a sum, a difference, a
product, a quotient, an opposite and a power exactly for the kinds that have one; it is of the kind
that these determine, and it is what the operation on fractions gives, or both fail. -/
theorem mixed_operations_agree_with_promotion {x y : Operand K} (hx : x.Simplified)
    (hy : y.Simplified) (n : Int) :
    Agrees (x.kind.sum y.kind) (x.add y) (x.toFraction.add y.toFraction) ∧
      Agrees (x.kind.sum y.kind) (x.sub y) (x.toFraction.sub y.toFraction) ∧
      Agrees (x.kind.product y.kind) (x.mul y) (x.toFraction.mul y.toFraction) ∧
      Agrees (x.kind.quotient y.kind) (x.div y) (x.toFraction.div y.toFraction) ∧
      Agrees x.kind.opposite x.neg x.toFraction.neg ∧
      Agrees x.kind.power (x.pow n) (x.toFraction.pow n) :=
  ⟨agrees_add x y, agrees_sub x y, agrees_mul x y hx hy, agrees_div x y hy, agrees_neg x hx,
    agrees_pow x n⟩

/-- A polynomial and a monomial, both with a negative exponent. -/
theorem negative_powers_are_promoted :
    let x : Operand Rat := .polynomial (.ofTerms [.single 2 ⟨"x", false⟩ (-1), .const 3])
    let y : Operand Rat := .monomial (.single 5 ⟨"y", false⟩ (-2))
    (∃ z : Operand Rat, z.kind = .polynomial ∧ x.add y = pure z ∧
      x.toFraction.add y.toFraction = .ok z.toFraction) ∧
    (∃ z : Operand Rat, z.kind = .polynomial ∧ x.sub y = pure z ∧
      x.toFraction.sub y.toFraction = .ok z.toFraction) ∧
    (∃ z : Operand Rat, z.kind = .polynomial ∧ x.mul y = pure z ∧
      x.toFraction.mul y.toFraction = .ok z.toFraction) ∧
    (∃ z : Operand Rat, z.kind = .fraction ∧ x.div y = pure z ∧
      x.toFraction.div y.toFraction = .ok z.toFraction) ∧
    (∃ z : Operand Rat, z.kind = .polynomial ∧ x.neg = pure z ∧
      x.toFraction.neg = .ok z.toFraction) ∧
    ∃ z : Operand Rat, z.kind = .fraction ∧ x.pow (-2) = pure z ∧
      x.toFraction.pow (-2) = .ok z.toFraction := by
  intro x y
  have hx : x.Simplified := Polynomial.proper_ofTerms _
  have hy : y.Simplified := trivial
  obtain ⟨hadd, hsub, hmul, hdiv, hneg, hpow⟩ := mixed_operations_agree_with_promotion hx hy (-2)
  exact ⟨hadd.exists_result (by decide +kernel), hsub.exists_result (by decide +kernel),
    hmul.exists_result (by decide +kernel), hdiv.exists_result (by decide +kernel),
    hneg.exists_result (by decide +kernel), hpow.exists_result (by decide +kernel)⟩

end Operand

namespace Mixed

open Operand (Agrees)

variable {K : Type} [ExactField K]

/-- The calculation in which every operand is a fraction from the start. -/
def promoted : Mixed K → Except AlgebraError (Fraction K)
  | operand x => pure x.toFraction
  | promote a => a.promoted
  | neg a => do (← a.promoted).neg
  | pow a exponent => do (← a.promoted).pow exponent
  | add a b => do
    let left ← a.promoted
    let right ← b.promoted
    left.add right
  | sub a b => do
    let left ← a.promoted
    let right ← b.promoted
    left.sub right
  | mul a b => do
    let left ← a.promoted
    let right ← b.promoted
    left.mul right
  | div a b => do
    let left ← a.promoted
    let right ← b.promoted
    left.div right

/-- Whether all operands of a calculation are simplified. -/
def Simplified : Mixed K → Prop
  | operand x => x.Simplified
  | promote a | neg a | pow a _ => a.Simplified
  | add a b | sub a b | mul a b | div a b => a.Simplified ∧ b.Simplified

/-- The kind of the value of a calculation, by the kinds of its operands alone, if all its
operations exist. -/
def kind : Mixed K → Option Operand.Kind
  | operand x => some x.kind
  | promote a => do
    let _ ← a.kind
    some .fraction
  | neg a => do (← a.kind).opposite
  | pow a _ => do (← a.kind).power
  | add a b | sub a b => do
    let left ← a.kind
    let right ← b.kind
    left.sum right
  | mul a b => do
    let left ← a.kind
    let right ← b.kind
    left.product right
  | div a b => do
    let left ← a.kind
    let right ← b.kind
    left.quotient right

section Steps

variable {a b : Mixed K} {before kind : Operand.Kind}

/-- What follows an outcome agrees if it does on every simplified result. -/
theorem agrees_bind {first : Operand.Outcome (Operand K)}
    {direct : Except AlgebraError (Fraction K)} {next : Operand K → Operand.Outcome (Operand K)}
    {onward : Fraction K → Except AlgebraError (Fraction K)}
    (hfirst : Agrees (some before) first direct)
    (hnext : ∀ z : Operand K, z.Simplified → z.kind = before →
      Agrees (some kind) (next z) (onward z.toFraction)) :
    Agrees (some kind) (first >>= next) (direct >>= onward) := by
  cases hfirst with
  | result h => exact hnext _ h rfl
  | failure h hother => exact .failure h hother

/-- A calculation whose kind is known agrees with the one on fractions. -/
def Promotes (a : Mixed K) : Prop :=
  ∀ kind, a.kind = some kind → Agrees (some kind) a.eval a.promoted

theorem Promotes.apply (table : Operand.Kind → Option Operand.Kind)
    {operation : Operand K → Operand.Outcome (Operand K)}
    {direct : Fraction K → Except AlgebraError (Fraction K)} (ha : a.Promotes)
    (hoperation : ∀ x : Operand K, x.Simplified →
      Agrees (table x.kind) (operation x) (direct x.toFraction))
    (hkind : a.kind >>= table = some kind) :
    Agrees (some kind) (a.eval >>= operation) (a.promoted >>= direct) := by
  obtain ⟨before, hbefore, hkind⟩ := Option.bind_eq_some_iff.1 hkind
  refine agrees_bind (ha before hbefore) (fun x hx hxkind => ?_)
  rw [← hkind, ← hxkind]
  exact hoperation x hx

theorem Promotes.combine {table : Operand.Kind → Operand.Kind → Option Operand.Kind}
    {operation : Operand K → Operand K → Operand.Outcome (Operand K)}
    {direct : Fraction K → Fraction K → Except AlgebraError (Fraction K)} (ha : a.Promotes)
    (hb : b.Promotes)
    (hoperation : ∀ x y : Operand K, x.Simplified → y.Simplified →
      Agrees (table x.kind y.kind) (operation x y) (direct x.toFraction y.toFraction))
    (hkind : (a.kind >>= fun left => b.kind >>= table left) = some kind) :
    Agrees (some kind) (a.eval >>= fun left => b.eval >>= operation left)
      (a.promoted >>= fun left => b.promoted >>= direct left) := by
  obtain ⟨before, hbefore, hkind⟩ := Option.bind_eq_some_iff.1 hkind
  refine agrees_bind (ha before hbefore) (fun x hx hxkind => ?_)
  refine hb.apply (table before) (fun y hy => ?_) hkind
  rw [← hxkind]
  exact hoperation x y hx hy

end Steps

/-- A calculation on operands of any kinds, all of whose operations exist, agrees with the one on
fractions. -/
theorem promotes (e : Mixed K) (h : e.Simplified) : e.Promotes := by
  induction e with
  | operand x =>
      intro kind hkind
      cases hkind
      exact .result h
  | promote a ih =>
      intro kind hkind
      have hpromoted : a.promoted = a.promoted >>= pure := (bind_pure _).symm
      change Agrees (some kind) (a.eval >>= fun z => pure (.fraction z.toFraction)) a.promoted
      rw [hpromoted]
      exact (ih h).apply (fun _ => some .fraction)
        (fun z _ => .result (z := .fraction z.toFraction) trivial) hkind
  | neg a ih => exact fun kind => (ih h).apply Operand.Kind.opposite Operand.agrees_neg
  | pow a exponent ih =>
      exact fun kind => (ih h).apply Operand.Kind.power (fun x _ => Operand.agrees_pow x exponent)
  | add a b iha ihb =>
      exact fun kind => (iha h.1).combine (ihb h.2) (fun x y _ _ => Operand.agrees_add x y)
  | sub a b iha ihb =>
      exact fun kind => (iha h.1).combine (ihb h.2) (fun x y _ _ => Operand.agrees_sub x y)
  | mul a b iha ihb => exact fun kind => (iha h.1).combine (ihb h.2) Operand.agrees_mul
  | div a b iha ihb =>
      exact fun kind => (iha h.1).combine (ihb h.2) (fun x y _ => Operand.agrees_div x y)

end Mixed

end Ramify
