import Ramify.Solver

/-!
Engines: what a worksheet asks for solutions. An engine answers a list of relations and
unknowns, and may keep a state between two questions.
-/

namespace Ramify

/-- An engine with a state of type `σ`. An answer comes with the next state and the lines that were
told on the way. -/
structure Engine (K σ : Type) where
  name : String
  ask : List (Relation K) → List Symbol → σ → Except (Failure K) (Answer K) × σ × List String

/-- Answers, or failures to answer, that are given out in order, and a generator for what is asked
after them. -/
structure Script (K : Type) where
  answers : List (Except (Failure K) (Answer K))
  generator : Twister

namespace Engine

variable {K : Type} [Scalar K]

/-- The engine that solves polynomial and rational relations. -/
def polynomial (numerics : Numerics K) (settings : SolverSettings K) : Engine K Twister where
  name := "PolynomialOracle"
  ask relations unknowns generator :=
    let (result, state) := (Solver.solve numerics settings relations unknowns).run.run
      ⟨generator, #[]⟩
    (result, state.generator, state.log.toList)

/-- The engine that gives the answers of a script, whatever it is asked. After the last one it asks
the polynomial engine or knows nothing. -/
def scripted (numerics : Numerics K) (fallBack : Bool) : Engine K (Script K) where
  name := "ScriptedOracle"
  ask relations unknowns script :=
    match script.answers with
    | answer :: rest => (answer, { script with answers := rest }, [])
    | [] =>
      if fallBack then
        let (result, generator, lines) :=
          (polynomial numerics .standard).ask relations unknowns script.generator
        (result, { script with generator := generator }, lines)
      else (pure .indeterminate, script, [])

end Engine

end Ramify
