import Ramify.Units.Quantity

/-!
Formulas: the right to read the variables of a worksheet, and to calculate with what was read. The
sides of an equation and the values that a procedure writes are formulas.
-/

namespace Ramify

/-- A calculation over the bound values of named variables. -/
inductive Formula (K : Type)
  | number (c : K)
  /-- A symbol that stands for itself. -/
  | symbol (s : Symbol)
  | value (name : String)
  | add (a b : Formula K)
  | sub (a b : Formula K)
  | mul (a b : Formula K)
  | div (a b : Formula K)
  | neg (a : Formula K)
  | pow (a : Formula K) (exponent : Int)
  /-- The number that a resolved value stands for. -/
  | numeric (a : Formula K)
  /-- The product of two numbers, of which the second is a resolved value. -/
  | scaled (c : K) (a : Formula K)
  /-- The integer nearest to a resolved value. -/
  | rounded (a : Formula K)
  /-- How many times the second quantity goes into the first. -/
  | magnitude (quantity target : Formula K)

namespace Fraction

variable {K : Type} [Scalar K]

/-- The number that a fraction without symbols stands for. -/
def toNumber (a : Fraction K) : Except (Failure K) K :=
  match a.unknowns with
  | symbol :: _ => throw (.unresolvedValue a symbol)
  | [] =>
    if a.mentionsUnit then throw (.valueWithUnits a) else Failure.liftAlgebra a.toConstant

end Fraction

namespace Formula

variable {K : Type} [Scalar K]

/-- The number of a measurement, or its stand-in if there is none. -/
def measured (quantity target : Fraction K) : Except (Failure K) K := do
  pure ((← Units.measureIn quantity target).getD Scalar.nan)

/-- The value of a formula, its operands from left to right; `read` gives the values of the
variables. -/
def eval (read : String → Except (Failure K) (Fraction K)) :
    Formula K → Except (Failure K) (Fraction K)
  | number c => pure (.const c)
  | symbol s => pure (.ofSymbol s)
  | value name => read name
  | add a b => do
    let left ← a.eval read
    let right ← b.eval read
    Failure.liftAlgebra (left.add right)
  | sub a b => do
    let left ← a.eval read
    let right ← b.eval read
    Failure.liftAlgebra (left.sub right)
  | mul a b => do
    let left ← a.eval read
    let right ← b.eval read
    Failure.liftAlgebra (left.mul right)
  | div a b => do
    let left ← a.eval read
    let right ← b.eval read
    Failure.liftAlgebra (left.div right)
  | neg a => do Failure.liftAlgebra (← a.eval read).neg
  | pow a exponent => do Failure.liftAlgebra ((← a.eval read).pow exponent)
  | numeric a => do pure (.const (← (← a.eval read).toNumber))
  | scaled c a => do pure (.const (c * (← (← a.eval read).toNumber)))
  | rounded a => do pure (.const (Scalar.round (← (← a.eval read).toNumber)))
  | magnitude quantity target => do
    let measuredQuantity ← quantity.eval read
    let unit ← target.eval read
    pure (.const (← measured measuredQuantity unit))

end Formula

end Ramify
