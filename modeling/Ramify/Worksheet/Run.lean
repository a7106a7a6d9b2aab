import Ramify.Worksheet.Basic

/-!
How a worksheet runs the programs of its procedures.
-/

namespace Ramify.Worksheet

variable {K σ : Type} [Scalar K]

/-- The number that a formula stands for in the current branch. -/
def number (formula : Formula K) : Action K σ K := do
  MonadExcept.ofExcept (← evaluate formula).toNumber

/-- Whether a condition holds in the current branch. -/
def test : Condition K → Action K σ Bool
  | .less value bound => do pure (decide ((← number value) < bound))
  | .greater value bound => do pure (decide (bound < (← number value)))
  | .measuredLess quantity target bound => do
    let measured ← evaluate quantity
    let unit ← evaluate target
    pure (decide ((← MonadExcept.ofExcept (Formula.measured measured unit)) < bound))
  | .resolved values => do
    pure ((← values.mapM evaluate).all Fraction.isQuantity)
  | .variableResolved name => do MonadExcept.ofExcept ((← get).isResolved name)
  | .moreBranches count => do pure (decide (count < ((← get).branches.count : Int)))
  | .not condition => do pure (!(← test condition))
  | .and first second => do if ← test first then test second else pure false

def perform : Program K → Action K σ Unit
  | .skip => pure ()
  | .seq first second => do
    perform first
    perform second
  | .choose condition yes no => do if ← test condition then perform yes else perform no
  | .set name value => do assign name (← evaluate value)
  | .delete => dropCurrent
  | .clear name => clear name
  | .need value => do let _ ← number value
  | .rotate => rotate
  | .switch index => switch index
  | .declare names => declare names
  | .giveUp report => throw (.gaveUp report)
  | .fail report => throw (.procedureFailed report)

/-- Runs a procedure. One that gives up for want of a value is passed over. -/
def performProcedure (procedure : Procedure K) : Action K σ Unit :=
  tryCatch (perform procedure.body) (fun failure =>
    if failure.kind = .unresolved then
      narrate ("Procedure '" ++ procedure.name ++ "' skipped: " ++ failure.message)
    else throw failure)

/-- Runs procedures in order as long as the branch with the given identity exists, and says whether
it still does. -/
def performEach (id : Nat) : List (Procedure K) → Action K σ Bool
  | [] => pure true
  | procedure :: rest => do
    performProcedure procedure
    if ((← get).branches.indexOf? id).isNone then pure false else performEach id rest

def setInProcedure (inProcedure : Bool) : Action K σ Unit :=
  modify fun sheet => { sheet with inProcedure := inProcedure }

/-- Runs all procedures on behalf of a branch, and says whether the branch still exists. -/
def performAll (id : Nat) : Action K σ Bool := do
  setInProcedure true
  let result ← tryCatch (performEach id (← get).procedures)
    (fun failure => do
      setInProcedure false
      throw failure)
  setInProcedure false
  pure result

end Ramify.Worksheet
