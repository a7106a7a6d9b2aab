import Ramify.Units.FactorTable

/-!
Verdicts on relations. A relation with unknowns holds identically if the difference of its sides is
zero, and is of use otherwise. A relation between quantities is compared on numbers, with the unit
tags replaced by the factors of two independent tables; it holds if it does under both.
-/

namespace Ramify

inductive Verdict
  /-- It says something about an unknown. -/
  | usable
  /-- It holds whatever the unknowns are. -/
  | redundant
  /-- It cannot hold. -/
  | contradiction
deriving DecidableEq

/-- The smallest size of a coefficient seen so far; zeros and infinities do not count. -/
structure SmallestSize (K : Type) where
  seen : Option K

namespace SmallestSize

variable {K : Type} [Scalar K]

def none : SmallestSize K := ⟨Option.none⟩

/-- The smallest size, or one if nothing has been seen. -/
def value (smallest : SmallestSize K) : K := smallest.seen.getD 1

def observe (smallest : SmallestSize K) (coeff : K) : SmallestSize K :=
  let size := Scalar.abs coeff
  if size == 0 || !Scalar.isFinite size then smallest
  else
    match smallest.seen with
    | Option.none => ⟨some size⟩
    | some least => if size < least then ⟨some size⟩ else smallest

end SmallestSize

/-- What is needed to judge relations, and what has been learnt on the way. -/
structure Judge (K : Type) where
  first : FactorTable K
  second : FactorTable K
  /-- Numbers agree if their difference is at most this, relative to their size. -/
  tolerance : K
  smallest : SmallestSize K

namespace Judge

variable {K : Type} [Scalar K]

abbrev Action (K α : Type) := ExceptT (Failure K) (StateM (Judge K)) α

/-- A judge that has seen nothing, with tables of two seeds. -/
def create (firstSeed secondSeed : UInt32) (spread tolerance : K) :
    Except (Failure K) (Judge K) := do
  let first ← FactorTable.create firstSeed spread tolerance
  let second ← FactorTable.create secondSeed spread tolerance
  pure ⟨first, second, tolerance, .none⟩

/-- Whether the values of two sides agree. If a side is exactly zero, the other is measured by the
smallest coefficient. -/
def agree (judge : Judge K) (lhs rhs : Fraction K) : Option K → Option K → Bool
  | some a, some b =>
    if lhs.isZero then Scalar.abs b ≤ judge.tolerance * judge.smallest.value
    else if rhs.isZero then Scalar.abs a ≤ judge.tolerance * judge.smallest.value
    else Scalar.abs (a - b) ≤ judge.tolerance * Scalar.abs (a + b)
  | _, _ => false

def values (lhs rhs : Fraction K) : FactorTable.Action K (Option K × Option K) := do
  let a ← FactorTable.eval lhs
  let b ← FactorTable.eval rhs
  pure (a, b)

/-- Whether two quantities agree under a table, and the table afterwards. A quantity without a value
agrees with nothing. -/
def agreeUnder (judge : Judge K) (table : FactorTable K) (lhs rhs : Fraction K) :
    Except (Failure K) Bool × FactorTable K :=
  match (values lhs rhs).run.run table with
  | (.ok (a, b), table) => (pure (judge.agree lhs rhs a b), table)
  | (.error failure, table) =>
    (if failure.isInvalidArgument then pure false else throw failure, table)

def agreeUnderFirst (lhs rhs : Fraction K) : Action K Bool := do
  let judge ← get
  let (result, table) := judge.agreeUnder judge.first lhs rhs
  set { judge with first := table }
  MonadExcept.ofExcept result

def agreeUnderSecond (lhs rhs : Fraction K) : Action K Bool := do
  let judge ← get
  let (result, table) := judge.agreeUnder judge.second lhs rhs
  set { judge with second := table }
  MonadExcept.ofExcept result

/-- Takes note of the coefficients of a numerator. Denominators are normalised and carry no
scale. -/
def observe (judge : Judge K) (a : Fraction K) : Judge K :=
  { judge with smallest := a.num.terms.foldl (fun acc m => acc.observe m.coeff) judge.smallest }

/-- The difference of two sides, taken from one that has unknowns. -/
def difference (lhs rhs : Fraction K) : Except AlgebraError (Fraction K) := do
  if lhs.unknowns.isEmpty then (← rhs.sub lhs).canonical else (← lhs.sub rhs).canonical

def verdict (lhs rhs : Fraction K) : Action K Verdict := do
  if lhs.unknowns.isEmpty && rhs.unknowns.isEmpty then
    if ← agreeUnderFirst lhs rhs then
      if ← agreeUnderSecond lhs rhs then return .redundant
    return .contradiction
  else
    match difference lhs rhs with
    | .error cause => throw (.algebra cause)
    | .ok gap =>
      if gap.isZero then return .redundant
      modify fun judge => (judge.observe lhs).observe rhs
      return .usable

end Judge

end Ramify
