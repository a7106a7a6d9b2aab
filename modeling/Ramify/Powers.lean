import Ramify.SortedMap

/-!
Finitely supported integer exponents over an ordered type of bases. A product of powers such as
`x^2*y^-1` is one such family over symbols, and a physical dimension is one over base dimensions.
An exponent of zero is never stored, so a product of powers has exactly one representation.
-/

namespace Ramify

/-- Integer exponents, of which finitely many differ from zero; only those are stored. -/
structure Powers (κ : Type) [Ord κ] where
  map : SortedMap κ Int
  nonzero : ∀ entry ∈ map.entries, entry.2 ≠ 0

namespace Powers

variable {κ : Type} [Ord κ]

/-- Two families with the same stored exponents are equal. -/
@[ext] theorem ext {left right : Powers κ} (h : left.map = right.map) : left = right := by
  cases left; cases right; cases h; rfl

instance [DecidableEq κ] : DecidableEq (Powers κ) := fun left right =>
  decidable_of_iff (left.map = right.map) ⟨ext, fun h => h ▸ rfl⟩

/-- The stored bases with their exponents, by increasing base. -/
def entries (powers : Powers κ) : List (κ × Int) := powers.map.entries

/-- The empty product. -/
def one : Powers κ := ⟨∅, fun _ h => absurd h List.not_mem_nil⟩

instance : EmptyCollection (Powers κ) := ⟨one⟩

def isOne (powers : Powers κ) : Bool := powers.map.isEmpty

def get (powers : Powers κ) (base : κ) : Int := (powers.map.find? base).getD 0

/-- Takes `base` out of the product. -/
def erase (powers : Powers κ) (base : κ) : Powers κ :=
  ⟨powers.map.erase base, fun entry h => powers.nonzero entry (List.mem_filter.1 h).1⟩

variable [Std.TransOrd κ]

def set (powers : Powers κ) (base : κ) (exponent : Int) : Powers κ :=
  if h : exponent = 0 then powers.erase base
  else ⟨powers.map.insert base exponent, fun entry member => by
    rcases mem_insertEntry member with rfl | member
    · exact h
    · exact powers.nonzero entry member⟩

/-- The power `base ^ exponent`. -/
def single (base : κ) (exponent : Int) : Powers κ := one.set base exponent

/-- Multiplies by `base ^ exponent`. -/
def raise (powers : Powers κ) (base : κ) (exponent : Int) : Powers κ :=
  powers.set base (powers.get base + exponent)

/-- The product of two families: exponents add up. -/
def mul (left right : Powers κ) : Powers κ :=
  right.entries.foldl (fun acc entry => acc.raise entry.1 entry.2) left

/-- The family with each exponent multiplied by `factor`. -/
def pow (powers : Powers κ) (factor : Int) : Powers κ :=
  powers.entries.foldl (fun acc entry => acc.raise entry.1 (entry.2 * factor)) one

/-- The quotient of two families: exponents are subtracted. -/
def div (left right : Powers κ) : Powers κ := left.mul (right.pow (-1))

def ofList (entries : List (κ × Int)) : Powers κ :=
  entries.foldl (fun acc entry => acc.raise entry.1 entry.2) one

/-- Entries are ordered by base and then by exponent. -/
local instance entryOrd : Ord (κ × Int) := lexOrd

/-- Families are ordered by their entries, lexicographically. -/
instance : Ord (Powers κ) := ⟨compareOn entries⟩

instance : Std.TransOrd (Powers κ) :=
  inferInstanceAs (Std.TransCmp (compareOn (entries : Powers κ → List (κ × Int))))

instance [Std.LawfulEqOrd κ] : Std.LawfulEqOrd (Powers κ) where
  compare_self {powers} := (Std.ReflCmp.compare_self : compare powers.entries powers.entries = .eq)
  eq_of_compare {left right} h :=
    have same : compare left.entries right.entries = .eq := h
    ext (SortedMap.ext (Std.LawfulEqCmp.eq_of_compare same))

end Powers

end Ramify
