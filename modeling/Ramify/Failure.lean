import Ramify.Relation
import Ramify.Text

/-!
All causes for which an operation of the library can fail, each with its kind and its report.
-/

namespace Ramify

inductive MethodKind
  | equation
  | procedure
deriving DecidableEq

inductive Failure (K : Type)
  /-- Arithmetic on symbols failed. -/
  | algebra (cause : AlgebraError)
  /-- A dimension was asked for while an unknown occurs. -/
  | unknownInQuantity (symbol : Symbol)
  /-- The terms of a sum have different dimensions. -/
  | mixedDimensions (sum : Polynomial K)
  /-- A value in base units was asked for while an unknown occurs. -/
  | unknownInValue (quantity : Fraction K) (symbol : Symbol)
  /-- A quantity was to be measured in a unit that is zero. -/
  | zeroUnit
  /-- A quantity was to be measured in a unit of another dimension. -/
  | dimensionMismatch (quantity target : Fraction K)
  | notUnit (symbol : Symbol)
  /-- Unit factors were put into an expression in which an unknown occurs. -/
  | unknownUnderFactors (quantity : Fraction K) (symbol : Symbol)
  /-- The spread of the unit factors is not between zero and one. -/
  | badSpread
  /-- No unit factor could be drawn that is far enough from the others. -/
  | crowdedFactors
  | noSuchBranch (index count : Nat)
  | removeLastBranch
  | declaredAfterFork
  | redeclared (name : String)
  | undeclared (name : String)
  | noVariables
  | badName (name : String)
  | repeatedName (name : String)
  | strayDescription (name : String)
  | unnamedMethod (kind : MethodKind)
  | emptyMethod (kind : MethodKind) (name : String)
  | repeatedMethod (name : String)
  | wrongSides (name : String) (count : Nat)
  /-- A variable was declared in a worksheet that has branched. -/
  | declaredAfterBranching
  /-- A subset of the relations has no solution. -/
  | inconsistentSubset (subset : List (Relation K))
  /-- Every branch contradicts the equations. -/
  | allContradictory (contradictions : List (List (Relation K)))
  /-- Some relations have no solution, and nothing could be solved. -/
  | nothingSolved
  | deleteLastBranch
  /-- A number was asked for while an unknown occurs. -/
  | unresolvedValue (value : Fraction K) (symbol : Symbol)
  /-- A number was asked for while a unit tag occurs. -/
  | valueWithUnits (value : Fraction K)
  /-- A description was asked for a name that is not declared. -/
  | noDescription (name : String)
  /-- A procedure gave up for want of a value. -/
  | gaveUp (report : String)
  | procedureFailed (report : String)
  /-- A solving run used up the number of steps it was given. -/
  | stepsExhausted

namespace MethodKind

def word : MethodKind → String
  | equation => "equation"
  | procedure => "procedure"

/-- The word for a kind of method at the start of a sentence. -/
def title : MethodKind → String
  | equation => "Equation"
  | procedure => "Procedure"

end MethodKind

namespace Failure

variable {K : Type}

def kind : Failure K → FailureKind
  | algebra cause => cause.kind
  | noVariables | badName _ | repeatedName _ | strayDescription _ | unnamedMethod _
  | emptyMethod _ _ | repeatedMethod _ | wrongSides _ _ | declaredAfterBranching => .configuration
  | inconsistentSubset _ | allContradictory _ | nothingSolved | deleteLastBranch => .unsolvable
  | unresolvedValue _ _ | gaveUp _ => .unresolved
  | noSuchBranch _ _ => .outOfRange
  | removeLastBranch | declaredAfterFork => .logic
  | crowdedFactors | procedureFailed _ | stepsExhausted => .runtime
  | _ => .invalidArgument

/-- The relations that were found to contradict each other, one list for each finding. -/
def contradictions : Failure K → List (List (Relation K))
  | inconsistentSubset subset => [subset]
  | allContradictory found => found
  | _ => []

variable [Scalar K]

/-- The number of significant digits in reports. -/
def precision : Nat := 6

def wording : Failure K → String
  | algebra cause => cause.wording
  | unknownInQuantity symbol => "Quantity contains the unknown '" ++ symbol.name ++ "'."
  | mixedDimensions sum => "Terms of '" ++ sum.text precision ++ "' have different dimensions."
  | unknownInValue quantity symbol =>
    "Cannot take the SI value of " ++ quantity.text precision ++ ": it contains the unknown '" ++
      symbol.name ++ "'."
  | zeroUnit => "Cannot express a quantity in a zero unit."
  | dimensionMismatch quantity target =>
    "Cannot express " ++ quantity.text precision ++ " in " ++ target.text precision ++
      ": dimensions differ."
  | notUnit symbol => "'" ++ symbol.name ++ "' is not a unit."
  | unknownUnderFactors quantity symbol =>
    "Cannot substitute units into " ++ quantity.text precision ++ ": it contains the unknown '" ++
      symbol.name ++ "'."
  | badSpread => "UnitSubstitution: rand_range must lie in (0, 1)."
  | crowdedFactors =>
    "UnitSubstitution: could not draw a distinct factor; epsilon is too large."
  | noSuchBranch index count =>
    "BranchStore: branch index " ++ toString index ++ " out of range (" ++ toString count ++
      " branches)."
  | removeLastBranch => "BranchStore: cannot remove the last remaining branch."
  | declaredAfterFork => "BranchStore: variables cannot be added after the first fork."
  | redeclared name => "BranchStore: variable '" ++ name ++ "' is already declared."
  | undeclared name => "BranchStore: unknown variable '" ++ name ++ "'."
  | noVariables => "At least one variable must be declared."
  | badName name => "'" ++ name ++ "' is not a valid variable name."
  | repeatedName name => "Variable '" ++ name ++ "' is declared more than once."
  | strayDescription name => "Description given for undeclared variable '" ++ name ++ "'."
  | unnamedMethod kind => "A " ++ kind.word ++ " needs a name."
  | emptyMethod kind name => kind.title ++ " '" ++ name ++ "' has no callable."
  | repeatedMethod name => "A method named '" ++ name ++ "' is already registered."
  | wrongSides name count =>
    "Equation '" ++ name ++ "' returned " ++ toString count ++
      " expression(s); an equation must return exactly two."
  | declaredAfterBranching => "Variables cannot be added after the system has branched."
  | inconsistentSubset subset =>
    "Equations have no consistent solution:" ++
      String.join (subset.map (fun r => "\n  " ++ r.text precision))
  | allContradictory found =>
    "No branch is consistent with the equations. Contradictions found:" ++
      String.join (found.filterMap (fun relations =>
        relations.getLast?.map (fun r => "\n  " ++ r.text precision)))
  | nothingSolved =>
    "Given equations have no consistent solutions. Please check your equations and try again."
  | deleteLastBranch =>
    "Cannot delete the last remaining branch: the system would have no solution."
  | unresolvedValue value symbol =>
    "Value " ++ value.text precision ++ " depends on the unresolved variable '" ++ symbol.name ++
      "'."
  | valueWithUnits value =>
    "Value " ++ value.text precision ++ " carries units; convert it with magnitude_in first."
  | noDescription name => "Unknown variable '" ++ name ++ "'."
  | gaveUp report => report
  | procedureFailed report => report
  | stepsExhausted => "The solving run used up its steps."

/-- The report of a failure: its wording, up to a null character if there is one. -/
def message (failure : Failure K) : String := Text.beforeNull failure.wording

def isInvalidArgument (failure : Failure K) : Bool := failure.kind.isInvalidArgument

def liftAlgebra {α : Type} : Except AlgebraError α → Except (Failure K) α :=
  Except.mapError algebra

end Failure

end Ramify
