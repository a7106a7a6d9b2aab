import Ramify.Solver.Elimination
import Ramify.Solver.Linear
import Ramify.Units.Quantity

/-!
The solver for polynomial and rational relations. Each relation is reduced to a polynomial that must
vanish. Systems that are linear in the unknowns go through Gauss-Jordan elimination, all others
through recursive elimination. Candidates without unknowns are checked against the relations before
they are given out.
-/

namespace Ramify.Solver

variable {K : Type} [Scalar K]

def start (seed : UInt32) : SolverState := ⟨Twister.ofSeed seed, #[]⟩

/-- The number of nested rounds of an elimination. -/
def rounds : Nat := 33

/-- The polynomials that vanish where the relations hold. -/
def polynomialsOf (relations : List (Relation K)) : Except AlgebraError (List (Polynomial K)) := do
  let differences ← relations.mapM (fun r => do (← r.lhs.sub r.rhs).canonical)
  pure ((differences.filter (fun a => !a.isZero)).map Fraction.num)

/-- Whether two values in base units agree within the tolerance. -/
def agree (tolerance : K) : Option K → Option K → Bool
  | some a, some b =>
    !decide (tolerance * Scalar.max 1 (Scalar.abs a + Scalar.abs b) < Scalar.abs (a - b))
  | _, _ => false

/-- Whether a relation holds at a candidate, compared in base units. Where unknowns are left nothing
is compared. -/
def holdsAt (tolerance : K) (candidate : Solution K) (relation : Relation K) :
    Except (Failure K) Bool := do
  let lhs ← Failure.liftAlgebra (relation.lhs.subst candidate)
  let rhs ← Failure.liftAlgebra (relation.rhs.subst candidate)
  if lhs.isQuantity && rhs.isQuantity then
    let left ← Units.baseValue lhs
    let right ← Units.baseValue rhs
    pure (agree tolerance left right)
  else pure true

/-- Whether all relations hold at a candidate. A relation that is not defined there does not. -/
def allHold (tolerance : K) (candidate : Solution K) :
    List (Relation K) → Except (Failure K) Bool
  | [] => pure true
  | relation :: rest =>
    match holdsAt tolerance candidate relation with
    | .ok true => allHold tolerance candidate rest
    | .ok false => pure false
    | .error failure => if failure.isInvalidArgument then pure false else throw failure

/-- Whether a candidate is confirmed by the relations. A candidate with unknowns is taken as it
is. -/
def confirms (tolerance : K) (relations : List (Relation K)) (candidate : Solution K) :
    Except (Failure K) Bool :=
  if candidate.entries.any (fun entry => !entry.2.unknowns.isEmpty) then pure true
  else allHold tolerance candidate relations

/-- Keeps the candidates that are confirmed, each once. -/
def verify (settings : SolverSettings K) (relations : List (Relation K)) :
    List (Solution K) → List (Solution K) → SolverAction K (List (Solution K))
  | [], verified => pure verified
  | candidate :: rest, verified => do
    match confirms settings.residualTolerance relations candidate with
    | .error failure => throw failure
    | .ok false =>
      if settings.verbose then
        Elimination.tell "  [PolynomialOracle] Rejected a candidate that fails verification."
      verify settings relations rest verified
    | .ok true =>
      verify settings relations rest
        (if verified.contains candidate then verified else verified ++ [candidate])

def linearAnswer (settings : SolverSettings K) (unknowns : List Symbol)
    (polys : List (Polynomial K)) : SolverAction K (Answer K) := do
  match ← Elimination.lift (Linear.solve settings.zeroTolerance unknowns polys) with
  | .solved solution => pure (.solved [solution])
  | .undetermined => pure .indeterminate
  | .inconsistent residue =>
    if settings.verbose then
      Elimination.tell ("  [PolynomialOracle] Inconsistent linear system: 0 = " ++ residue.text 6)
    pure .noSolution

def eliminationAnswer (fallback : Elimination.Continuation K) (numerics : Numerics K)
    (settings : SolverSettings K) (unknowns : List Symbol) (polys : List (Polynomial K)) :
    SolverAction K (Answer K) := do
  match ← Elimination.eliminate fallback numerics settings rounds unknowns polys with
  | .solved solutions => pure (.ofCandidates solutions)
  | .inconsistent => pure .noSolution
  | .unknown => pure .indeterminate

/-- Verifies the candidates of an answer, and tells what was found. -/
def conclude (settings : SolverSettings K) (relations : List (Relation K)) :
    Answer K → SolverAction K (Answer K)
  | .solved candidates => do
    let verified ← verify settings relations candidates []
    if settings.verbose then
      Elimination.tell ("  [PolynomialOracle] " ++ toString verified.length ++
        " candidate(s) for " ++ toString relations.length ++ " relation(s).")
    return .ofCandidates verified
  | .noSolution => do
    if settings.verbose then
      Elimination.tell
        ("  [PolynomialOracle] No solution for " ++ toString relations.length ++ " relation(s).")
    return .noSolution
  | .indeterminate => do
    if settings.verbose then
      Elimination.tell
        ("  [PolynomialOracle] Indeterminate for " ++ toString relations.length ++ " relation(s).")
    return .indeterminate

/-- Solves relations for the given unknowns; `fallback` takes over where no unknown can be
eliminated. -/
def solveWith (fallback : Elimination.Continuation K) (numerics : Numerics K)
    (settings : SolverSettings K) (relations : List (Relation K)) (unknowns : List Symbol) :
    SolverAction K (Answer K) := do
  if unknowns.isEmpty then return .indeterminate
  let polys ← Elimination.lift (polynomialsOf relations)
  if polys.isEmpty then return .indeterminate
  if Linear.applies unknowns polys then
    conclude settings relations (← linearAnswer settings unknowns polys)
  else
    conclude settings relations (← eliminationAnswer fallback numerics settings unknowns polys)

/-- Solves relations for the given unknowns, with a numeric search where no unknown can be
eliminated. -/
def solve (numerics : Numerics K) (settings : SolverSettings K) (relations : List (Relation K))
    (unknowns : List Symbol) : SolverAction K (Answer K) :=
  solveWith (Elimination.search numerics settings) numerics settings relations unknowns

end Ramify.Solver
