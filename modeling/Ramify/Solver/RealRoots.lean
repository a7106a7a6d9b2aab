import Ramify.Solver.Settings

/-!
Real roots of polynomials in one variable, given by their coefficients from the constant term up.
Roots are refined by Newton's method, which never moves to a point with a larger residual, then
sorted and merged.
-/

namespace Ramify.RealRoots

variable {K : Type} [Scalar K]

/-- Drops leading coefficients of at most the given size, highest first; one coefficient always
stays. -/
def dropNegligible (bound : K) : List K → List K
  | c :: next :: rest =>
    if Scalar.abs c ≤ bound then dropNegligible bound (next :: rest) else c :: next :: rest
  | short => short

/-- Drops leading coefficients that are negligible relative to the largest one. The zero polynomial
has no coefficients at all. -/
def dropLeading (tolerance : K) (coeffs : List K) : List K :=
  let largest := coeffs.foldl (fun acc c => Scalar.max acc (Scalar.abs c)) 0
  if largest == 0 then []
  else (dropNegligible (tolerance * largest) coeffs.reverse).reverse

/-- The value and the derivative at a point, by nested multiplication. -/
def valueAndSlope (coeffs : List K) (x : K) : K × K :=
  coeffs.reverse.foldl (fun acc c => (acc.1 * x + c, acc.2 * x + acc.1)) (0, 0)

/-- Newton steps from `x`, where the polynomial has the given value and slope. The best point so far
and its residual are carried along. -/
def newtonSteps (coeffs : List K) : Nat → (x value slope best residual : K) → K
  | 0, _, _, _, best, _ => best
  | steps + 1, x, value, slope, best, residual =>
    if !decide (0 < residual) || slope == 0 then best
    else
      let step := value / slope
      let x := x - step
      let (value, slope) := valueAndSlope coeffs x
      if !Scalar.isFinite value then best
      else
        let (best, residual) :=
          if Scalar.abs value < residual then (x, Scalar.abs value) else (best, residual)
        if Scalar.abs step ≤ Scalar.resolution * Scalar.max 1 (Scalar.abs x) then best
        else newtonSteps coeffs steps x value slope best residual

/-- Refines a root by at most the given number of Newton steps. -/
def refine (coeffs : List K) (x : K) (steps : Int) : K :=
  let (value, slope) := valueAndSlope coeffs x
  newtonSteps coeffs steps.toNat x value slope x (Scalar.abs value)

/-- The complex roots of a polynomial; a constant has none. -/
def complexRoots (numerics : Numerics K) (tolerance : K) (coeffs : List K) : List (K × K) :=
  match dropLeading tolerance coeffs with
  | [] | [_] => []
  | [offset, slope] => [(-offset / slope, 0)]
  | trimmed => numerics.complexRoots trimmed

def isReal (tolerance : K) (root : K × K) : Bool :=
  let size := Scalar.sqrt (root.1 * root.1 + root.2 * root.2)
  !decide (tolerance * Scalar.max 1 size < Scalar.abs root.2)

/-- Joins a root to a list of smaller ones, unless it is as good as equal to the last of them. A
root of negligible size becomes zero. -/
def mergeRoot (settings : SolverSettings K) (roots : List K) (root : K) : List K :=
  let root := if Scalar.abs root < settings.zeroTolerance then 0 else root
  match roots.getLast? with
  | none => [root]
  | some last =>
    let margin := settings.mergeTolerance * Scalar.max 1 (Scalar.abs root)
    if Scalar.abs (root - last) ≤ margin then roots else roots ++ [root]

/-- The real roots of a polynomial in ascending order. -/
def find (numerics : Numerics K) (settings : SolverSettings K) (coeffs : List K) : List K :=
  let trimmed := dropLeading settings.zeroTolerance coeffs
  let real := (complexRoots numerics settings.zeroTolerance trimmed).filter
    (isReal settings.realTolerance)
  let polished := real.map (fun root => refine trimmed root.1 settings.polishSteps)
  (Scalar.sort polished).foldl (mergeRoot settings) []

end Ramify.RealRoots
