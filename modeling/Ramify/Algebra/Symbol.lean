import Ramify.SortedMap

/-!
The symbols of the algebra: unknowns of a system of equations, and tags for physical units.
-/

namespace Ramify

/-- A named symbol. It is either an unknown quantity or the tag of a physical unit such as `m`; the
two are different even under one name. -/
structure Symbol where
  name : String
  isUnit : Bool := false
deriving DecidableEq, Inhabited

namespace Symbol

def unit (name : String) : Symbol := ⟨name, true⟩

/-- Symbols are ordered by name, and an unknown comes before a unit tag of the same name. -/
instance : Ord Symbol := ⟨compareLex (compareOn name) (compareOn isUnit)⟩

instance : Std.TransOrd Symbol :=
  inferInstanceAs (Std.TransCmp (compareLex (compareOn name) (compareOn isUnit)))

instance : Std.LawfulEqOrd Symbol where
  compare_self {symbol} := by
    change compareLex (compareOn name) (compareOn isUnit) symbol symbol = .eq
    simp [compareLex, compareOn]
  eq_of_compare {left right} h := by
    change compareLex (compareOn name) (compareOn isUnit) left right = .eq at h
    simp only [compareLex, compareOn, Ordering.then_eq_eq, Std.LawfulEqOrd.compare_eq_iff_eq] at h
    cases left; cases right; simp_all

end Symbol

end Ramify
