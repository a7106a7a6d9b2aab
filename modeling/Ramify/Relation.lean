import Ramify.Algebra.Fraction

/-!
Relations: equalities between two fractions, with the name of the equation they come from.
-/

namespace Ramify

/-- The equality of two sides, and the name of the equation that stated it. -/
structure Relation (K : Type) where
  lhs : Fraction K
  rhs : Fraction K
  source : String := ""

namespace Relation

variable {K : Type} [Scalar K]

/-- Two relations count as the same if their sides are; the source does not matter. -/
instance : BEq (Relation K) := ⟨fun r s => r.lhs == s.lhs && r.rhs == s.rhs⟩

def unknowns (r : Relation K) : List Symbol := ascending (r.lhs.unknowns ++ r.rhs.unknowns)

/-- The text of a relation, numbers with at most `count` significant digits. A source is given in
brackets. -/
def text (count : Nat) (r : Relation K) : String :=
  r.lhs.text count ++ " = " ++ r.rhs.text count ++
    (if r.source.isEmpty then "" else "  [" ++ r.source ++ "]")

end Relation

end Ramify
