import Ramify.Algebra.Fraction

/-!
Arithmetic between operands of different kinds. Numbers, symbols, monomials, polynomials and
fractions can be combined directly; the result is of the simplest kind that always holds it. Some
pairs of kinds have no operation of their own.
-/

namespace Ramify

inductive Operand (K : Type)
  | scalar (c : K)
  | symbol (s : Symbol)
  | monomial (m : Monomial K)
  | polynomial (p : Polynomial K)
  | fraction (a : Fraction K)

namespace Operand

variable {K : Type} [Scalar K]

/-- The outcome of an operation: absent if the kinds cannot be combined, and otherwise a result or a
failure. -/
abbrev Outcome := ExceptT AlgebraError Option

def unsupported : Outcome (Operand K) := ExceptT.mk none

def ofPolynomial (p : Polynomial K) : Outcome (Operand K) := pure (polynomial p)

def ofMonomial (m : Monomial K) : Outcome (Operand K) := pure (monomial m)

def ofFraction (a : Except AlgebraError (Fraction K)) : Outcome (Operand K) :=
  ExceptT.mk (some (fraction <$> a))

def toFraction : Operand K → Fraction K
  | scalar c => .const c
  | symbol s => .ofSymbol s
  | monomial m => .ofMonomial m
  | polynomial p => .ofPolynomial p
  | fraction a => a

def add : Operand K → Operand K → Outcome (Operand K)
  | scalar _, scalar _ => unsupported
  | scalar c, symbol s => ofPolynomial (.const c + .ofSymbol s)
  | scalar c, monomial m => ofFraction ((Fraction.const c).add (.ofMonomial m))
  | scalar c, polynomial p => ofPolynomial (.const c + p)
  | scalar c, fraction a => ofFraction ((Fraction.const c).add a)
  | symbol s, scalar c => ofPolynomial (.ofSymbol s + .const c)
  | symbol s, symbol t => ofPolynomial (.ofSymbol s + .ofSymbol t)
  | symbol _, monomial _ => unsupported
  | symbol s, polynomial p => ofPolynomial (p.addTerm (.ofSymbol s))
  | symbol s, fraction a => ofFraction (a.add (.ofSymbol s))
  | monomial m, scalar c => ofFraction ((Fraction.ofMonomial m).add (.const c))
  | monomial _, symbol _ => unsupported
  | monomial m, monomial n => ofPolynomial (.ofTerms [m, n])
  | monomial m, polynomial p => ofPolynomial (p.addTerm m)
  | monomial m, fraction a => ofFraction (a.add (.ofMonomial m))
  | polynomial p, scalar c => ofPolynomial (p + .const c)
  | polynomial p, symbol s => ofPolynomial (p.addTerm (.ofSymbol s))
  | polynomial p, monomial m => ofPolynomial (p.addTerm m)
  | polynomial p, polynomial q => ofPolynomial (p + q)
  | polynomial p, fraction a => ofFraction (Fraction.make (a.num + p * a.den) a.den)
  | fraction a, scalar c => ofFraction (a.add (.const c))
  | fraction a, symbol s => ofFraction (a.add (.ofSymbol s))
  | fraction a, monomial m => ofFraction (a.add (.ofMonomial m))
  | fraction a, polynomial p => ofFraction (Fraction.make (a.num + p * a.den) a.den)
  | fraction a, fraction b => ofFraction (a.add b)

def sub : Operand K → Operand K → Outcome (Operand K)
  | scalar _, scalar _ => unsupported
  | scalar c, symbol s => ofPolynomial (.const c - .ofSymbol s)
  | scalar c, monomial m => ofFraction ((Fraction.const c).sub (.ofMonomial m))
  | scalar c, polynomial p => ofPolynomial (.const c - p)
  | scalar c, fraction a => ofFraction ((Fraction.const c).sub a)
  | symbol s, scalar c => ofPolynomial (.ofSymbol s - .const c)
  | symbol s, symbol t => ofPolynomial (.ofSymbol s - .ofSymbol t)
  | symbol _, monomial _ => unsupported
  | symbol s, polynomial p => ofPolynomial (.ofSymbol s - p)
  | symbol s, fraction a => ofFraction ((Fraction.ofSymbol s).sub a)
  | monomial m, scalar c => ofFraction ((Fraction.ofMonomial m).sub (.const c))
  | monomial _, symbol _ => unsupported
  | monomial m, monomial n => ofPolynomial (.ofTerms [m, -n])
  | monomial m, polynomial p => ofPolynomial (.ofMonomial m - p)
  | monomial m, fraction a => ofFraction ((Fraction.ofMonomial m).sub a)
  | polynomial p, scalar c => ofPolynomial (p - .const c)
  | polynomial p, symbol s => ofPolynomial (p.subTerm (.ofSymbol s))
  | polynomial p, monomial m => ofPolynomial (p.subTerm m)
  | polynomial p, polynomial q => ofPolynomial (p - q)
  | polynomial p, fraction a => ofFraction (Fraction.make (p * a.den - a.num) a.den)
  | fraction a, scalar c => ofFraction (a.sub (.const c))
  | fraction a, symbol s => ofFraction (a.sub (.ofSymbol s))
  | fraction a, monomial m => ofFraction (a.sub (.ofMonomial m))
  | fraction a, polynomial p => ofFraction (Fraction.make (a.num - p * a.den) a.den)
  | fraction a, fraction b => ofFraction (a.sub b)

def mul : Operand K → Operand K → Outcome (Operand K)
  | scalar _, scalar _ => unsupported
  | scalar c, symbol s => ofPolynomial (.ofMonomial (.single c s 1))
  | scalar c, monomial m => ofFraction ((Fraction.const c).mul (.ofMonomial m))
  | scalar c, polynomial p => ofPolynomial (p.scale c)
  | scalar c, fraction a => ofFraction ((Fraction.const c).mul a)
  | symbol s, scalar c => ofPolynomial (.ofMonomial (.single c s 1))
  | symbol s, symbol t => ofPolynomial (.ofMonomial (.ofList 1 [(s, 1), (t, 1)]))
  | symbol s, monomial m => ofMonomial (m.mulSymbol s)
  | symbol s, polynomial p => ofPolynomial (p.mulTerm (.ofSymbol s))
  | symbol s, fraction a => ofFraction (a.mul (.ofSymbol s))
  | monomial m, scalar c => ofFraction ((Fraction.ofMonomial m).mul (.const c))
  | monomial m, symbol s => ofMonomial (m.mulSymbol s)
  | monomial m, monomial n => ofMonomial (m * n)
  | monomial m, polynomial p => ofPolynomial (p.mulTerm m)
  | monomial m, fraction a => ofFraction (a.mul (.ofMonomial m))
  | polynomial p, scalar c => ofPolynomial (p.scale c)
  | polynomial p, symbol s => ofPolynomial (p.mulTerm (.ofSymbol s))
  | polynomial p, monomial m => ofPolynomial (p.mulTerm m)
  | polynomial p, polynomial q => ofPolynomial (p * q)
  | polynomial p, fraction a => ofFraction (Fraction.make (a.num * p) a.den)
  | fraction a, scalar c => ofFraction (a.mul (.const c))
  | fraction a, symbol s => ofFraction (a.mul (.ofSymbol s))
  | fraction a, monomial m => ofFraction (a.mul (.ofMonomial m))
  | fraction a, polynomial p => ofFraction (Fraction.make (a.num * p) a.den)
  | fraction a, fraction b => ofFraction (a.mul b)

def divScalar (a : Fraction K) (c : K) : Except AlgebraError (Fraction K) :=
  if c == 0 then throw (.zeroDivisor .scalar) else a.div (.const c)

def symbolDivScalar (s : Symbol) (c : K) : Except AlgebraError (Fraction K) :=
  if c == 0 then throw (.zeroDivisor .scalarUnderSymbol)
  else pure (.ofPolynomial (.ofMonomial (.single (1 / c) s 1)))

/-- A polynomial divided by a polynomial, where a zero divisor is reported as the given one. -/
def divPolynomial (divisor : ZeroDivisor) (p q : Polynomial K) :
    Except AlgebraError (Fraction K) :=
  if q.isZero then throw (.zeroDivisor divisor) else Fraction.make p q

def polynomialDivMonomial (p : Polynomial K) (m : Monomial K) : Except AlgebraError (Fraction K) :=
  if m.coeff == 0 then throw (.zeroDivisor .monomialUnderPolynomial)
  else Fraction.make p (.ofMonomial m)

def fractionDivPolynomial (a : Fraction K) (p : Polynomial K) : Except AlgebraError (Fraction K) :=
  if p.isZero then throw (.zeroDivisor .polynomialUnderFraction)
  else Fraction.make a.num (a.den * p)

def div : Operand K → Operand K → Outcome (Operand K)
  | scalar _, scalar _ => unsupported
  | scalar c, symbol s => ofFraction (Fraction.make (.const c) (.ofSymbol s))
  | scalar c, monomial m => ofFraction ((Fraction.const c).div (.ofMonomial m))
  | scalar c, polynomial p => ofFraction ((Fraction.const c).div (.ofPolynomial p))
  | scalar c, fraction a => ofFraction ((Fraction.const c).div a)
  | symbol s, scalar c => ofFraction (symbolDivScalar s c)
  | symbol s, symbol t => ofFraction (Fraction.make (.ofSymbol s) (.ofSymbol t))
  | symbol s, monomial m => ofFraction (divPolynomial .polynomial (.ofSymbol s) (.ofMonomial m))
  | symbol s, polynomial p => ofFraction (divPolynomial .polynomialUnderSymbol (.ofSymbol s) p)
  | symbol s, fraction a => ofFraction ((Fraction.ofSymbol s).div a)
  | monomial m, scalar c => ofFraction (divScalar (.ofMonomial m) c)
  | monomial m, symbol s => ofFraction (divPolynomial .polynomial (.ofMonomial m) (.ofSymbol s))
  | monomial m, monomial n => ofFraction (divPolynomial .polynomial (.ofMonomial m) (.ofMonomial n))
  | monomial m, polynomial p => ofFraction (divPolynomial .polynomial (.ofMonomial m) p)
  | monomial m, fraction a => ofFraction ((Fraction.ofMonomial m).div a)
  | polynomial p, scalar c => ofFraction (divScalar (.ofPolynomial p) c)
  | polynomial p, symbol s => ofFraction ((Fraction.ofPolynomial p).div (.ofSymbol s))
  | polynomial p, monomial m => ofFraction (polynomialDivMonomial p m)
  | polynomial p, polynomial q => ofFraction (divPolynomial .polynomial p q)
  | polynomial p, fraction a => ofFraction ((Fraction.ofPolynomial p).div a)
  | fraction a, scalar c => ofFraction (divScalar a c)
  | fraction a, symbol s => ofFraction (a.div (.ofSymbol s))
  | fraction a, monomial m => ofFraction (a.div (.ofMonomial m))
  | fraction a, polynomial p => ofFraction (fractionDivPolynomial a p)
  | fraction a, fraction b => ofFraction (a.div b)

def neg : Operand K → Outcome (Operand K)
  | symbol s => ofPolynomial (.ofMonomial (.single (-1) s 1))
  | polynomial p => ofPolynomial (-p)
  | fraction a => ofFraction a.neg
  | _ => unsupported

def symbolPow (s : Symbol) (exponent : Int) : Except AlgebraError (Fraction K) :=
  if exponent = 0 then pure (.const 1)
  else if exponent < 0 then Fraction.make (.const 1) (.ofMonomial (.single 1 s (-exponent)))
  else pure (.ofPolynomial (.ofMonomial (.single 1 s exponent)))

def pow : Operand K → Int → Outcome (Operand K)
  | symbol s, exponent => ofFraction (symbolPow s exponent)
  | polynomial p, exponent => ofFraction ((Fraction.ofPolynomial p).pow exponent)
  | fraction a, exponent => ofFraction (a.pow exponent)
  | _, _ => unsupported

def text (count : Nat) : Operand K → String
  | scalar c => Scalar.text count c
  | symbol s => s.name
  | monomial m => m.text count
  | polynomial p => p.text count
  | fraction a => a.text count

end Operand

/-- A calculation on operands of any kinds. -/
inductive Mixed (K : Type)
  | operand (x : Operand K)
  /-- The value as a fraction. -/
  | promote (a : Mixed K)
  | neg (a : Mixed K)
  | pow (a : Mixed K) (exponent : Int)
  | add (a b : Mixed K)
  | sub (a b : Mixed K)
  | mul (a b : Mixed K)
  | div (a b : Mixed K)

/-- The outcome of a calculation; the first operand is calculated first. -/
def Mixed.eval {K : Type} [Scalar K] : Mixed K → Operand.Outcome (Operand K)
  | operand x => pure x
  | promote a => do pure (.fraction (← a.eval).toFraction)
  | neg a => do (← a.eval).neg
  | pow a exponent => do (← a.eval).pow exponent
  | add a b => do
    let left ← a.eval
    let right ← b.eval
    left.add right
  | sub a b => do
    let left ← a.eval
    let right ← b.eval
    left.sub right
  | mul a b => do
    let left ← a.eval
    let right ← b.eval
    left.mul right
  | div a b => do
    let left ← a.eval
    let right ← b.eval
    left.div right

end Ramify
