import Ramify.Algebra.Symbol

/-!
What can go wrong in arithmetic on symbols, and how it is reported.
-/

namespace Ramify

/-- The broad kinds into which all failures of the library fall. -/
inductive FailureKind
  /-- A system was declared wrongly. -/
  | configuration
  /-- The equations contradict each other. -/
  | unsolvable
  /-- A number was asked for while unknowns are left. -/
  | unresolved
  /-- A position does not exist. -/
  | outOfRange
  /-- An argument has no meaning for the operation. -/
  | invalidArgument
  /-- The operation is not allowed in the present state. -/
  | logic
  /-- The calculation itself failed. -/
  | runtime
deriving DecidableEq

/-- Whether a failure is about an argument; a wrong declaration is one as well. -/
def FailureKind.isInvalidArgument : FailureKind → Bool
  | configuration | invalidArgument => true
  | _ => false

/-- Which operand of a quotient was found to be zero. -/
inductive ZeroDivisor
  | fraction
  | scalar
  | scalarUnderSymbol
  | polynomial
  | polynomialUnderSymbol
  | polynomialUnderFraction
  | monomialUnderPolynomial
deriving DecidableEq

/-- The causes for which arithmetic on symbols fails. -/
inductive AlgebraError
  | missingValue (symbol : Symbol)
  | zeroBase
  /-- Zero is to replace a symbol with a negative exponent. -/
  | zeroReplacement
  /-- A negative power of the symbol stands where only coefficients of its powers are wanted. -/
  | negativePower (symbol : Symbol)
  | zeroDenominator
  /-- A quotient of two operands whose second one is zero. -/
  | zeroDivisor (divisor : ZeroDivisor)
  /-- The denominator vanishes at the point of evaluation. -/
  | vanishingDenominator
  /-- A fraction with symbols was taken for a number. -/
  | notConstant
deriving DecidableEq

namespace ZeroDivisor

def wording : ZeroDivisor → String
  | fraction => "Division by zero RationalFunction (numerator is zero polynomial)."
  | scalar => "Division by zero scalar."
  | scalarUnderSymbol => "Div by 0 in Var/double"
  | polynomial => "Division by zero Polynomial."
  | polynomialUnderSymbol => "Division by zero Polynomial in Var/Polynomial."
  | polynomialUnderFraction => "Division by zero Polynomial in RationalFunction/Polynomial."
  | monomialUnderPolynomial => "Division by zero Monomial in Polynomial/Monomial."

end ZeroDivisor

namespace AlgebraError

/-- The kind of an arithmetic failure. Evaluation at a point fails at run time; everything else is a
wrong argument. -/
def kind : AlgebraError → FailureKind
  | missingValue _ | zeroBase => .runtime
  | _ => .invalidArgument

def wording : AlgebraError → String
  | missingValue symbol =>
    "Variable '" ++ symbol.name ++ "' not found in values map during evaluation."
  | zeroBase => "Division by zero in Monomial::evaluate with negative exponent."
  | zeroReplacement => "Substituting zero into a negative power."
  | negativePower symbol =>
    "Negative power of '" ++ symbol.name ++ "' cannot be split into coefficients."
  | zeroDenominator => "RationalFunction denominator cannot be the zero polynomial."
  | zeroDivisor divisor => divisor.wording
  | vanishingDenominator => "Division by zero in RationalFunction::evaluate."
  | notConstant => "RationalFunction is not a constant."

end AlgebraError

end Ramify
