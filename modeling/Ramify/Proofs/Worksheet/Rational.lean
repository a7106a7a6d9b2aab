import Ramify.Proofs.Branches
import Ramify.Proofs.Scalar.Rational
import Ramify.Proofs.Units.Tables
import Ramify.Solver.Methods
import Ramify.Worksheet.Solve

/-!
Worksheets over the rational numbers, with every tolerance zero. Their runs can be evaluated, which
is how statements about all worksheets are tried on particular ones.
-/

namespace Ramify.Rational

/-- A judge without tolerance that has drawn no unit factors yet. -/
def judge : Judge Rat where
  first := ⟨Twister.ofSeed 1, 1 / 5, 0, ∅⟩
  second := ⟨Twister.ofSeed 2, 1 / 5, 0, ∅⟩
  tolerance := 0
  smallest := .none

/-- A worksheet in which nothing has been solved yet. -/
def sheet (numerics : Numerics Rat) (names : List String) (equations : List (Equation Rat)) :
    Worksheet Rat Twister where
  options := { WorksheetOptions.standard 42 with tolerance := 0 }
  engine := Engine.polynomial numerics settings
  engineState := Twister.ofSeed 42
  judge := judge
  branches := names.foldl Branches.withVariable Branches.initial
  descriptions := ∅
  equations := equations
  procedures := []
  marked := ∅
  unsolvable := false
  inProcedure := false
  solved := false
  log := #[]

theorem wellFormed_foldl (names : List String) {branches : Branches Rat}
    (h : branches.WellFormed) : (names.foldl Branches.withVariable branches).WellFormed := by
  induction names generalizing branches with
  | nil => exact h
  | cons name rest ih => exact ih (h.withVariable name)

theorem wellFormed_sheet (numerics : Numerics Rat) (names : List String)
    (equations : List (Equation Rat)) : (sheet numerics names equations).branches.WellFormed :=
  wellFormed_foldl names Branches.wellFormed_initial

/-- The equation that a sum of two variables is a number. -/
def sumEquation (name left right : String) (total : Rat) : Equation Rat :=
  ⟨name, [.add (.value left) (.value right), .number total]⟩

/-- Two sums of the same variables that differ. -/
def clashingSums : List (Equation Rat) :=
  [sumEquation "first" "x" "y" 1, sumEquation "second" "x" "y" 2]

def clashingSheet : Worksheet Rat Twister := sheet Methods.standard ["x", "y"] clashingSums

/-- A worksheet with these sums and a variable that can be resolved. -/
def partlySolvableSheet : Worksheet Rat Twister :=
  sheet Methods.standard ["x", "y", "z"] (⟨"value", [.value "z", .number 5]⟩ :: clashingSums)

section Draws

open FactorTable

/-- Without a gap to keep, a factor is drawn at once. -/
theorem drawFor_of_no_gap (base : String) {table : FactorTable Rat} (hgap : table.gap = 0) :
    ∃ value after, outcome (drawFor base) table = (.ok value, after) ∧ after.gap = 0 := by
  have hclashes (candidate : Rat) : table.clashes candidate = false := by
    unfold clashes
    rw [List.any_eq_false]
    intro entry _
    simp [hgap]
  unfold drawFor draw
  rw [drawWithin, bind_assoc, outcome_get_bind]
  generalize (Twister.uniform (1 - table.spread) (1 + table.spread)).run table.generator = drawn
  obtain ⟨candidate, generator⟩ := drawn
  simp only [hclashes]
  exact ⟨candidate, _, rfl, hgap⟩

theorem exists_table_of_no_gap (seed : UInt32) :
    ∃ table : FactorTable Rat, create seed 0.2 0 = .ok table ∧ table.gap = 0 := by
  have hfill (bases : List String) (start : FactorTable Rat) (hgap : start.gap = 0) :
      ∃ after, outcome (fill bases) start = (.ok (), after) ∧ after.gap = 0 := by
    induction bases generalizing start with
    | nil => exact ⟨start, rfl, hgap⟩
    | cons base rest ih =>
        obtain ⟨value, after, hdraw, hafter⟩ := drawFor_of_no_gap base hgap
        unfold fill at ih ⊢
        rw [List.forM, bind_assoc, outcome_bind_ok _ hdraw]
        exact ih after hafter
  obtain ⟨table, hrun, hgap⟩ := hfill Units.baseSymbols (bare seed 0.2 0) rfl
  exact ⟨table, create_eq_ok_iff.2 ⟨by decide +kernel, by decide +kernel, hrun⟩, hgap⟩

theorem exists_table (seed : UInt32) :
    ∃ table : FactorTable Rat, create seed 0.2 0 = .ok table := by
  obtain ⟨table, hcreate, _⟩ := exists_table_of_no_gap seed
  exact ⟨table, hcreate⟩

/-- The usual options of a seed, without tolerance. -/
def options (seed : UInt32) : WorksheetOptions Rat :=
  { WorksheetOptions.standard seed with tolerance := 0 }

/-- Without tolerance, every seed has a judge. -/
theorem exists_judge (seed : UInt32) (verbose : Bool) : ∃ first second : FactorTable Rat,
    Worksheet.makeJudge { options seed with verbose := verbose } =
      .ok ⟨first, second, 0, .none⟩ := by
  obtain ⟨first, hfirst⟩ := exists_table (Twister.ofSeed seed).next.1
  obtain ⟨second, hsecond⟩ := exists_table (Twister.ofSeed seed).next.2.next.1
  refine ⟨first, second, ?_⟩
  unfold Worksheet.makeJudge Judge.create
  dsimp only [options, WorksheetOptions.standard]
  rw [hfirst, hsecond]
  rfl

end Draws

end Ramify.Rational
