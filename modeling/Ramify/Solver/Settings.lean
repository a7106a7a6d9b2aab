import Ramify.Scalar

/-!
The tolerances and limits of the equation solver, and the numerical methods it calls on.
-/

namespace Ramify

/-- The tolerances and limits of the equation solver. -/
structure SolverSettings (K : Type) where
  /-- Coefficients smaller than this, relative to the largest one, count as zero. -/
  zeroTolerance : K
  /-- A root counts as real if its imaginary part is at most this, relative to its size. -/
  realTolerance : K
  /-- Roots that are closer than this, relative to their size, are one root. -/
  mergeTolerance : K
  /-- How far the two sides of a relation may be apart at a solution, relative to their size. -/
  residualTolerance : K
  /-- The number of steps by which a root is refined. -/
  polishSteps : Int
  /-- The number of random points from which a solution is searched. -/
  newtonStarts : Int
  /-- The seed of the random points. -/
  seed : UInt32
  verbose : Bool

def SolverSettings.standard {K : Type} [Scalar K] : SolverSettings K where
  zeroTolerance := 1e-12
  realTolerance := 1e-7
  mergeTolerance := 1e-8
  residualTolerance := 1e-8
  polishSteps := 20
  newtonStarts := 8
  seed := 42
  verbose := false

/-- The numerical methods that the solver calls on. -/
structure Numerics (K : Type) where
  /-- The complex roots, as real and imaginary parts, of a polynomial of degree at least two that is
  given by its coefficients from the constant term up. -/
  complexRoots : List K → List (K × K)
  /-- The rank of a matrix given by its rows, and the vector that the matrix takes closest to a
  given one if its columns are independent. -/
  leastSquares : List (List K) → List K → Nat × Option (List K)

end Ramify
