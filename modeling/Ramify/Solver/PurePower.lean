import Ramify.Algebra.Fraction
import Ramify.Units.Catalogue

/-!
Equations of the form `a * x^n + b = 0` in which `a` and `b` are single terms in unit tags. Their
roots exist in closed form if the unit part of `b / a` has an `n`-th root, after it has been written
over the base dimensions where necessary.
-/

namespace Ramify.PurePower

variable {K : Type} [Scalar K]

/-- A product of powers of unit tags over the base dimensions, with the number that it is a multiple
by. -/
def overBase (exponents : Exponents) : K × Exponents :=
  exponents.entries.foldl (fun (acc : K × Exponents) (entry : Symbol × Int) =>
    match Units.find? (K := K) entry.1.name with
    | none => (acc.1, acc.2.raise entry.1 entry.2)
    | some measure =>
      (acc.1 * Scalar.power measure.scale entry.2,
        measure.dimension.entries.foldl
          (fun (powers : Exponents) (base : String × Int) =>
            powers.raise (.unit base.1) (base.2 * entry.2)) acc.2)) (1, ∅)

/-- Whether every exponent is a multiple of the degree. -/
def divisible (degree : Nat) (exponents : Exponents) : Bool :=
  exponents.entries.all (fun entry => entry.2 % degree == 0)

/-- The product of the powers with the exponents divided by the degree, those of one sign only. -/
def rootPart (degree : Nat) (exponents : Exponents) (positive : Bool) : Monomial K :=
  ⟨1, exponents.entries.foldl (fun (acc : Exponents) (entry : Symbol × Int) =>
    if decide (0 < entry.2) == positive then acc.set entry.1 ((entry.2.natAbs : Int) / degree)
    else acc) ∅⟩

/-- The `degree`-th roots of `ratio` times a product of powers that has a root: none, one or two. -/
def rootsOf (degree : Nat) (ratio : K) (exponents : Exponents) :
    Except AlgebraError (List (Fraction K)) := do
  let unit ← Fraction.make (.ofMonomial (rootPart degree exponents true))
    (.ofMonomial (rootPart degree exponents false))
  if degree % 2 = 0 then
    if ratio < 0 then pure []
    else
      let root := Scalar.root ratio degree
      pure [← (Fraction.const (-root)).mul unit, ← (Fraction.const root).mul unit]
  else
    let root := Scalar.copySign (Scalar.root (Scalar.abs ratio) degree) ratio
    pure [← (Fraction.const root).mul unit]

/-- The two terms of `a * symbol^n + b` and the degree `n`, if a polynomial has this form with `n`
at least one. The second term may be missing. -/
def split (p : Polynomial K) (symbol : Symbol) :
    Except AlgebraError (Option (Nat × Monomial K × Option (Monomial K))) := do
  let coeffs ← p.splitBy symbol
  match coeffs with
  | [] | [_] => pure none
  | offset :: higher =>
    let middle := higher.dropLast
    let leading := higher.getLastD 0
    if middle.all Polynomial.isZero && leading.isQuantity && offset.isQuantity then
      match leading.terms, offset.terms with
      | [a], [] => pure (some (higher.length, a, none))
      | [a], [b] => pure (some (higher.length, a, some b))
      | _, _ => pure none
    else pure none

/-- The roots of a polynomial in a symbol, if it is a pure power whose unit part has a root. -/
def roots (p : Polynomial K) (symbol : Symbol) :
    Except AlgebraError (Option (List (Fraction K))) := do
  match ← split p symbol with
  | none => pure none
  | some (_, _, none) => pure (some [.const 0])
  | some (degree, a, some b) =>
    let ratio := -b.coeff / a.coeff
    let exponents := b.exponents.div a.exponents
    let (ratio, exponents) :=
      if divisible degree exponents then (ratio, exponents)
      else
        let (scale, based) := overBase exponents
        (ratio * scale, based)
    if divisible degree exponents then some <$> rootsOf degree ratio exponents else pure none

end Ramify.PurePower
