/-!
The numbers the library calculates with. The algebra, the unit system and the solver are written
for any type with these operations, so that they run on binary floating point and can be reasoned
about over an exact ordered field. The class carries operations only, no laws.
-/

namespace Ramify

/-- A type of numbers: arithmetic, comparisons, roots, and the constants that say how far a
calculated number can be trusted. -/
class Scalar (K : Type) extends
    Zero K, One K, Add K, Sub K, Mul K, Div K, Neg K, BEq K, LT K, LE K, OfScientific K where
  decideLT : DecidableLT K
  decideLE : DecidableLE K
  abs : K → K
  ofInt : Int → K
  power : K → Int → K
  /-- The root of a number that is not negative, for a degree of at least one. -/
  root : K → Nat → K
  sqrt : K → K
  /-- The absolute value of the first number with the sign of the second. -/
  copySign : K → K → K
  /-- The nearest integer; halves go away from zero. -/
  round : K → K
  isNaN : K → Bool
  /-- Whether the value is a number and not infinite. -/
  isFinite : K → Bool
  /-- What stands in for a number that does not exist. -/
  nan : K
  /-- A sum no larger than this fraction of its summands is rounding error; zero where addition is
  exact. -/
  noise : K
  /-- A divisor smaller than this counts as zero. -/
  resolution : K
  /-- The number in `[0, 1)` that two random words stand for, low word first. -/
  fraction : UInt32 → UInt32 → K
  /-- The decimal text with at most the given number of significant digits. -/
  text : Nat → K → String

namespace Scalar

variable {K : Type} [Scalar K]

instance (a b : K) : Decidable (a < b) := Scalar.decideLT a b

instance (a b : K) : Decidable (a ≤ b) := Scalar.decideLE a b

/-- The larger of two numbers; the first one unless the second is above it. -/
def max (a b : K) : K := if a < b then b else a

/-- Whether a calculated sum is only what rounding left of summands of the given total size. -/
def isNoise (sum size : K) : Bool := abs sum ≤ noise * size

/-- The Euclidean length of a vector. -/
def norm (vector : List K) : K := sqrt (vector.foldl (fun acc x => acc + x * x) 0)

/-- Puts a number behind the last one that is not above it. -/
def insertBehind (x : K) : List K → List K
  | [] => [x]
  | y :: rest =>
    if (y :: rest).all (fun z => x < z) then x :: y :: rest else y :: insertBehind x rest

/-- Puts a number into its place among ascending numbers: before the first one if it is below that,
and behind the last one that is not above it otherwise. -/
def insertAscending (x : K) : List K → List K
  | [] => [x]
  | first :: rest => if x < first then x :: first :: rest else first :: insertBehind x rest

/-- The numbers in ascending order; equal ones keep their places. -/
def sort (numbers : List K) : List K :=
  numbers.foldl (fun acc x => insertAscending x acc) []

end Scalar

end Ramify
