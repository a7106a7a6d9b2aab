import Ramify.Proofs.Scalar.Exact
import Ramify.Random.Twister

/-!
What can be relied on where calculation rounds, and where some values are not numbers. The
statements about random factors and about residuals rest on these laws alone. Exact numbers obey
them, and so does binary floating point.
-/

namespace Ramify

/-- Between two values that are numbers one of the comparisons decides. A value that is not a number
is not below any other, and not above. -/
class Scalar.Comparable (K : Type) [Scalar K] : Prop where
  le_of_not_lt {a b : K} (ha : Scalar.isNaN a = false) (hb : Scalar.isNaN b = false)
    (h : ¬b < a) : a ≤ b

/-- A number drawn from an interval around one. -/
def Twister.around {K : Type} [Scalar K] (spread : K) (generator : Twister) : K :=
  (Twister.uniform (1 - spread) (1 + spread) generator).1

/-- Any two numbers that are drawn around one have a distance. -/
class Scalar.Drawable (K : Type) [Scalar K] : Prop where
  isNaN_distance {spread : K} (hspread : Scalar.isNaN spread = false) (hpositive : ¬spread ≤ 0)
    (hbelow : ¬1 ≤ spread) (first second : Twister) :
    Scalar.isNaN (Scalar.abs (Twister.around spread first - Twister.around spread second)) = false

/-- Calculation is exact: it is that of an ordered field. -/
def Scalar.IsExact (K : Type) [scalar : Scalar K] : Prop :=
  ∃ exact : ExactScalar K, exact.toScalar = scalar

namespace ExactScalar

variable {K : Type} [ExactScalar K]

theorem isExact : Scalar.IsExact K := ⟨inferInstance, rfl⟩

instance : Scalar.Comparable K where
  le_of_not_lt _ _ h := not_lt.1 h

instance : Scalar.Drawable K where
  isNaN_distance _ _ _ _ _ := isNaN_eq _

end ExactScalar

end Ramify
