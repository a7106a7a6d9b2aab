import Ramify.Failure
import Ramify.Units.Catalogue

/-!
Quantities: fractions in which only unit tags occur. A quantity has a dimension if all terms of its
numerator agree in theirs, and likewise those of its denominator; its value in base units is found
by putting the size of each unit for its tag.
-/

namespace Ramify.Units

variable {K : Type} [Scalar K]

def termDimension (m : Monomial K) : Except (Failure K) Dimension :=
  m.exponents.entries.foldlM (fun (acc : Dimension) (entry : Symbol × Int) =>
    if entry.1.isUnit then
      pure (acc.mul ((measure (K := K) entry.1.name).dimension.pow entry.2))
    else throw (.unknownInQuantity entry.1)) ∅

/-- The common dimension of the terms of a polynomial. -/
def polynomialDimension (p : Polynomial K) : Except (Failure K) Dimension :=
  match p.terms with
  | [] => pure ∅
  | first :: rest => do
    let dimension ← termDimension first
    rest.forM (fun m => do
      if (← termDimension m) ≠ dimension then throw (.mixedDimensions p))
    pure dimension

/-- The dimension of a quantity. Zero counts as a plain number. -/
def dimension (a : Fraction K) : Except (Failure K) Dimension :=
  if a.isZero then pure ∅
  else do
    let num ← polynomialDimension a.num
    let den ← polynomialDimension a.den
    pure (num.div den)

/-- The sizes of the unit tags of a quantity in base units. -/
def scales (a : Fraction K) : Except (Failure K) (SortedMap Symbol K) :=
  a.symbols.foldlM (fun (acc : SortedMap Symbol K) (symbol : Symbol) =>
    if symbol.isUnit then pure (acc.insert symbol (measure symbol.name).scale)
    else throw (.unknownInValue a symbol)) ∅

/-- The value of a quantity in base units, if it has one. -/
def baseValue (a : Fraction K) : Except (Failure K) (Option K) := do
  let point ← scales a
  Failure.liftAlgebra (a.eval point)

/-- How many times `target` goes into `quantity`; both must have the same dimension. -/
def measureIn (quantity target : Fraction K) : Except (Failure K) (Option K) := do
  if target.isZero then throw .zeroUnit
  if (← dimension quantity) ≠ (← dimension target) then
    throw (.dimensionMismatch quantity target)
  let size ← baseValue quantity
  let unit ← baseValue target
  pure (do pure ((← size) / (← unit)))

end Ramify.Units
