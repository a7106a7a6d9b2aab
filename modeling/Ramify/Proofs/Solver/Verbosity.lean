import Ramify.Proofs.Solver.Search

/-!
The solver answers alike whether or not it tells what it does. What Newton's method tells is kept
apart from what it finds, and the search goes on from the points that it finds; so two solvers that
start with the same random numbers draw the same ones, and end alike.
-/

namespace Ramify

/-- Two engines with states of one type answer alike and go on alike; they may differ in what they
tell. -/
def Engine.Alike {K σ : Type} (engine other : Engine K σ) : Prop :=
  ∀ relations unknowns state,
    (other.ask relations unknowns state).1 = (engine.ask relations unknowns state).1 ∧
    (other.ask relations unknowns state).2.1 = (engine.ask relations unknowns state).2.1

theorem Engine.Alike.refl {K σ : Type} (engine : Engine K σ) : engine.Alike engine :=
  fun _ _ _ => ⟨rfl, rfl⟩

variable {K : Type} [Scalar K]

namespace Newton

def Result.muted (result : Result K) : Result K := { result with log := [] }

omit [Scalar K] in
theorem muted_after (lines : List String) (result : Result K) :
    (result.after lines).muted = result.muted := rfl

theorem muted_finish (problem : Problem K) (limits : Limits K) (verbose : Bool)
    (point : SortedMap Symbol K) (last : List K) :
    (finish problem { limits with verbose := verbose } point last).muted =
      (finish problem limits point last).muted := by
  unfold finish
  cases residuals problem point with
  | error report => rfl
  | ok values =>
      dsimp only
      split <;> rfl

/-- The steps of a run do not depend on whether they are told. -/
theorem muted_steps (numerics : Numerics K) (problem : Problem K) (limits : Limits K)
    (verbose : Bool) (remaining done : Nat) (point : SortedMap Symbol K) (last : List K) :
    (steps numerics problem { limits with verbose := verbose } remaining done point last).muted =
      (steps numerics problem limits remaining done point last).muted := by
  induction remaining generalizing done point last with
  | zero => exact muted_finish problem limits verbose point last
  | succ remaining ih =>
      unfold steps
      cases residuals problem point with
      | error report => rfl
      | ok values =>
          dsimp only
          split
          · rfl
          · split
            · rfl
            · cases jacobian problem point with
              | error report => rfl
              | ok rows =>
                  dsimp only
                  split
                  · rfl
                  · split
                    · rfl
                    · rw [muted_after, muted_after]
                      exact ih _ _ _

theorem muted_refine (numerics : Numerics K) (problem : Problem K) (limits : Limits K)
    (verbose : Bool) (point : SortedMap Symbol K) :
    (refine numerics problem { limits with verbose := verbose } point).muted =
      (refine numerics problem limits point).muted := by
  unfold refine
  split
  · split
    · rfl
    · cases residuals problem point <;> rfl
  · exact muted_steps numerics problem limits verbose _ 0 point []

end Newton

namespace Solver

open Elimination

/-- Two solvers have the same random numbers before them. -/
def SameDraws (s t : SolverState) : Prop := t.generator = s.generator

theorem deaf_sameDraws : Deaf SameDraws := fun _ _ h _ _ => h

theorem lockstep_searchPoints (numerics : Numerics K) (settings : SolverSettings K) (verbose : Bool)
    (problem : Newton.Problem K) (starts : Nat) (found : List (SortedMap Symbol K)) :
    Lockstep SameDraws Never (searchPoints numerics settings problem starts found)
      (searchPoints numerics { settings with verbose := verbose } problem starts found) := by
  induction starts generalizing found with
  | zero => exact .pure found
  | succ starts ih =>
      intro s t h
      unfold searchPoints
      rw [outcome_get_bind, outcome_get_bind, h]
      obtain ⟨start, generator⟩ := (drawPoint problem.unknowns).run s.generator
      have hmuted := Newton.muted_refine numerics problem ⟨50, 1e-9, settings.verbose⟩ verbose start
      have hconverged := congrArg Newton.Result.converged hmuted
      have hpoint := congrArg Newton.Result.point hmuted
      dsimp only [Newton.Result.muted] at hconverged hpoint ⊢
      rw [outcome_set_bind, outcome_set_bind, hconverged, hpoint]
      exact ih _ _ _ rfl

theorem lockstep_search (numerics : Numerics K) (settings : SolverSettings K) (verbose : Bool)
    (unknowns : List Symbol) (active : List (Polynomial K)) :
    Lockstep SameDraws Never (search numerics settings unknowns active)
      (search numerics { settings with verbose := verbose } unknowns active) := by
  unfold search
  dsimp only
  split
  · exact .pure _
  · split
    · exact .pure _
    · apply Lockstep.bind (lockstep_searchPoints numerics settings verbose _ _ [])
      intro found
      apply deaf_sameDraws.told settings.verbose verbose
      split
      · exact .pure _
      · exact .pure _

/-- The engine answers alike whether or not it tells what it does. -/
theorem alike_polynomial (numerics : Numerics K) (settings : SolverSettings K) (verbose : Bool) :
    (Engine.polynomial numerics settings).Alike
      (Engine.polynomial numerics { settings with verbose := verbose }) := by
  intro relations unknowns generator
  exact (lockstep_solveWith deaf_sameDraws (lockstep_search numerics settings verbose) numerics
    settings verbose relations unknowns ⟨generator, #[]⟩ ⟨generator, #[]⟩ rfl).never

end Solver

end Ramify
