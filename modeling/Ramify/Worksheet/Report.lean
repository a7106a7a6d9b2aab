import Ramify.Worksheet.Basic

/-!
What can be asked of a worksheet besides solving it.
-/

namespace Ramify.Worksheet

variable {K σ : Type} [Scalar K]

/-- The variables of the current branch that have no unknowns in their values. -/
def resolvedBindings (sheet : Worksheet K σ) : Except (Failure K) (Bindings K) := do
  let bindings ← sheet.branches.bindings none
  pure (bindings.filter (fun _ value => value.unknowns.isEmpty))

/-- The distinct values of a variable, in the order of the branches. -/
def values (sheet : Worksheet K σ) (name : String) : Except (Failure K) (List (Fraction K)) := do
  let all ← (List.range sheet.branches.count).mapM (fun index =>
    sheet.branches.get name (some index))
  pure (all.foldl (fun acc value => if acc.contains value then acc else acc ++ [value]) [])

/-- A list without the numbers that equal the one before them. -/
def withoutRepeats : List K → List K
  | [] => []
  | a :: rest =>
    match withoutRepeats rest with
    | [] => [a]
    | b :: more => if a == b then a :: more else a :: b :: more

/-- The distinct numbers that a variable stands for in the branches, in ascending order. -/
def numbers (sheet : Worksheet K σ) (name : String) : Except (Failure K) (List K) := do
  let found ← (← sheet.values name).mapM Fraction.toNumber
  pure (withoutRepeats (Scalar.sort found))

/-- The description of a variable; it is empty if none was given. -/
def description (sheet : Worksheet K σ) (name : String) : Except (Failure K) String :=
  if sheet.branches.declares name then pure ((sheet.descriptions.find? name).getD "")
  else throw (.noDescription name)

def variableLine (sheet : Worksheet K σ) (branch : Branch K) (name : String) : String :=
  let value := ((branch.bindings.find? name).map (Fraction.text 6)).getD ""
  let comment := (sheet.descriptions.find? name).getD ""
  "  " ++ name ++ " = " ++ value ++ (if comment.isEmpty then "" else "    # " ++ comment) ++ "\n"

/-- All branches as text: a heading for each, and a line for each variable. -/
def branchesText (sheet : Worksheet K σ) : String :=
  String.join (sheet.branches.list.zipIdx.map (fun (branch, index) =>
    "Branch " ++ toString index ++ " (id " ++ toString branch.id ++ ")" ++
      (if index = sheet.branches.current then " [current]" else "") ++ "\n" ++
      String.join (sheet.branches.names.map (variableLine sheet branch))))

end Ramify.Worksheet
