import Ramify.Algebra.Polynomial
import Ramify.Solver.Settings
import Ramify.Text

/-!
Newton's method for systems of polynomials in several unknowns. Each step solves the linearised
system in the sense of least squares; the run ends when the residuals are small, when they are no
longer finite, or when the linearised system is degenerate.
-/

namespace Ramify.Newton

variable {K : Type}

/-- Polynomials that are to vanish, and the unknowns that may be moved. -/
structure Problem (K : Type) where
  unknowns : List Symbol
  polynomials : List (Polynomial K)

/-- When a run stops, and what it tells. -/
structure Limits (K : Type) where
  maxSteps : Int
  tolerance : K
  verbose : Bool

structure Result (K : Type) where
  converged : Bool
  point : SortedMap Symbol K
  /-- The values of the polynomials where they were last evaluated. -/
  residuals : List K
  log : List String

/-- The result with lines put before its log. -/
def Result.after (lines : List String) (result : Result K) : Result K :=
  { result with log := lines ++ result.log }

variable [Scalar K]

/-- The values of the polynomials at a point, or the report of the first one that has none. -/
def residuals (problem : Problem K) (point : SortedMap Symbol K) : Except String (List K) :=
  problem.polynomials.zipIdx.mapM (fun entry =>
    (entry.1.eval point).mapError (fun cause => Text.beforeNull
      ("[SolutionPolisher] Error evaluating residual for P" ++ toString entry.2 ++ ": " ++
        cause.wording)))

/-- The partial derivatives at a point, one row for each polynomial. -/
def jacobian (problem : Problem K) (point : SortedMap Symbol K) : Except String (List (List K)) :=
  problem.polynomials.zipIdx.mapM (fun entry =>
    problem.unknowns.mapM (fun symbol =>
      ((entry.1.derivative symbol).eval point).mapError (fun cause => Text.beforeNull
        ("[SolutionPolisher] Error evaluating Jacobian entry J(" ++ toString entry.2 ++ "," ++
          symbol.name ++ "): " ++ cause.wording))))

/-- Moves the unknowns of a point, or names the first one that the point does not have. -/
def move (point : SortedMap Symbol K) : List (Symbol × K) → Except (Symbol × SortedMap Symbol K)
    (SortedMap Symbol K)
  | [] => pure point
  | (symbol, delta) :: rest =>
    match point.find? symbol with
    | none => throw (symbol, point)
    | some value => move (point.insert symbol (value + delta)) rest

/-- The end of a run that used up its steps. -/
def finish (problem : Problem K) (limits : Limits K) (point : SortedMap Symbol K) (last : List K) :
    Result K :=
  match residuals problem point with
  | .error report =>
    ⟨false, point, last, ["[SolutionPolisher] Error evaluating final residuals: " ++ report]⟩
  | .ok values =>
    if Scalar.norm values < limits.tolerance then ⟨true, point, values, []⟩
    else ⟨false, point, values,
      if limits.verbose then
        ["  [SolutionPolisher] Did not converge after " ++ toString limits.maxSteps ++
          " iterations."]
      else []⟩

/-- Newton steps from a point; `done` steps have been made, and `last` holds the residuals found so
far. -/
def steps (numerics : Numerics K) (problem : Problem K) (limits : Limits K) :
    (remaining done : Nat) → SortedMap Symbol K → (last : List K) → Result K
  | 0, _, point, last => finish problem limits point last
  | remaining + 1, done, point, last =>
    let label := "[SolutionPolisher Iter " ++ toString done ++ "]"
    let told (line : String) : List String := if limits.verbose then [line] else []
    match residuals problem point with
    | .error report =>
      ⟨false, point, last, [label ++ " Error evaluating residuals: " ++ report]⟩
    | .ok values =>
      let norm := Scalar.norm values
      if !Scalar.isFinite norm then
        ⟨false, point, values,
          told ("  [SolutionPolisher] Residual diverged at iteration " ++ toString done)⟩
      else
        let normLine := told ("  [Polisher Iter " ++ toString done ++ "] Residual norm: " ++
          Scalar.text 6 norm)
        if norm < limits.tolerance then
          ⟨true, point, values, normLine ++
            told ("  [Polisher] Converged in " ++ toString (done + 1) ++ " iterations.")⟩
        else
          match jacobian problem point with
          | .error report =>
            ⟨false, point, values, normLine ++ [label ++ " Error evaluating Jacobian: " ++ report]⟩
          | .ok rows =>
            match numerics.leastSquares rows (values.map (- ·)) with
            | (rank, none) =>
              ⟨false, point, values, normLine ++
                told ("  " ++ label ++ " Jacobian is rank-deficient. Rank: " ++ toString rank)⟩
            | (_, some delta) =>
              match move point (problem.unknowns.zip delta) with
              | .error (symbol, moved) =>
                ⟨false, moved, values, normLine ++
                  [label ++ " Error: Unknown variable '" ++ symbol.name ++
                    "' not found in solution_candidate map during update."]⟩
              | .ok moved =>
                (steps numerics problem limits remaining (done + 1) moved values).after normLine

/-- Refines a point. Without unknowns the polynomials are only evaluated. -/
def refine (numerics : Numerics K) (problem : Problem K) (limits : Limits K)
    (point : SortedMap Symbol K) : Result K :=
  if problem.unknowns.isEmpty then
    if problem.polynomials.isEmpty then ⟨true, point, [], []⟩
    else
      match residuals problem point with
      | .error report =>
        ⟨false, point, [],
          ["[SolutionPolisher] Error evaluating residuals (no unknowns): " ++ report]⟩
      | .ok values => ⟨Scalar.norm values < limits.tolerance, point, values, []⟩
  else steps numerics problem limits limits.maxSteps.toNat 0 point []

end Ramify.Newton
