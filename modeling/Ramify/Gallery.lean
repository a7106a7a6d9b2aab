import Ramify.Worksheet.Basic

/-!
Example worksheets: linear equations, equations with two roots, contradictory equations, a procedure
that discards a root, and equations between quantities with units.
-/

namespace Ramify.Gallery

variable {K : Type} [Scalar K]

/-- A worksheet before it is given options and an engine. -/
structure Exhibit (K : Type) where
  names : List String
  descriptions : List (String × String)
  equations : List (String × List (Formula K))
  procedures : List (String × Program K)

def var (name : String) : Formula K := .value name

def tag (name : String) : Formula K := .symbol (.unit name)

def square (a : Formula K) : Formula K := .pow a 2

def linearThreeVariable : Exhibit K where
  names := ["x", "y", "z"]
  descriptions := []
  equations := [
    ("sum", [var "x", .add (var "y") (var "z")]),
    ("weighted", [.add (.mul (.number 5.0) (var "x")) (var "z"), .neg (var "y")]),
    ("offset", [.add (var "x") (var "y"), .add (.div (var "z") (.number 4.0)) (.number 10.0)])]
  procedures := []

/-- Two independent quadratic equations, with four solutions together. -/
def twoQuadratics : Exhibit K where
  names := ["x", "y"]
  descriptions := []
  equations := [
    ("x_squared", [square (var "x"), .number 4.0]),
    ("y_squared", [square (var "y"), .number 16.0])]
  procedures := []

/-- Two parallel lines, which do not meet. -/
def parallelLines : Exhibit K where
  names := ["x", "y"]
  descriptions := []
  equations := [
    ("first_line", [.add (var "x") (var "y"), .number 1]),
    ("second_line", [.add (var "x") (var "y"), .number 2.0])]
  procedures := []

/-- A quadratic equation whose negative root is discarded, and a value calculated from the other
one. -/
def negativeRootFilter : Exhibit K where
  names := ["x", "y"]
  descriptions := [("y", "three times x")]
  equations := [("x_squared", [square (var "x"), .number 4.0])]
  procedures := [
    ("discard_negative_x",
      .choose (.and (.resolved [var "x"]) (.less (var "x") 0)) .delete .skip),
    ("triple_x", .set "y" (.scaled 3.0 (var "x")))]

/-- A length and a travel time in mixed units. -/
def mixedUnits : Exhibit K where
  names := ["x", "y", "t"]
  descriptions := []
  equations := [
    ("x_value", [var "x", .number 5.0]),
    ("length", [var "y", .mul (.mul (.number 10.0) (tag "cm")) (var "x")]),
    ("travel_time",
      [var "t", .div (var "y") (.div (.mul (.number 2.0) (tag "m")) (tag "s"))])]
  procedures := []

/-- A free fall from a given height; a negative fall time is discarded. -/
def freeFall : Exhibit K where
  names := ["h", "t", "v"]
  descriptions := [("h", "drop height"), ("t", "fall time"), ("v", "impact speed")]
  equations := [
    ("height", [var "h", .mul (.number 20.0) (tag "m")]),
    ("distance", [var "h", .div (.mul (square (var "t")) (tag "g0")) (.number 2.0)]),
    ("speed", [var "v", .mul (var "t") (tag "g0")])]
  procedures := [
    ("discard_negative_time",
      .choose (.and (.resolved [var "t"]) (.measuredLess (var "t") (tag "s") 0)) .delete .skip)]

def find? : String → Option (Exhibit K)
  | "linear_three_variable" => some linearThreeVariable
  | "two_quadratics" => some twoQuadratics
  | "parallel_lines" => some parallelLines
  | "negative_root_filter" => some negativeRootFilter
  | "mixed_units" => some mixedUnits
  | "free_fall" => some freeFall
  | _ => none

def Exhibit.toWorksheet {σ : Type} (exhibit : Exhibit K) (options : WorksheetOptions K)
    (engine : Engine K σ) (engineState : σ) : Except (Failure K) (Worksheet K σ) := do
  let descriptions := .ofList exhibit.descriptions
  let sheet ← Worksheet.create exhibit.names descriptions options engine engineState
  let register : Worksheet.Action K σ Unit := do
    exhibit.equations.forM (fun entry => Worksheet.registerEquation entry.1 (some entry.2))
    exhibit.procedures.forM (fun entry => Worksheet.registerProcedure entry.1 (some entry.2))
  let (result, sheet) := register.run.run sheet
  result
  pure sheet

end Ramify.Gallery
