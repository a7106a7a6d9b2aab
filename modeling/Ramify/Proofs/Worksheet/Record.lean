import Ramify.Proofs.Worksheet.Lockstep

/-!
The questions of a solving run. A recording engine answers as another one does and keeps a list of
what it was asked and what it answered. A worksheet runs with the recording engine exactly as with
the engine itself, so the list tells what the engine was asked in the run.
-/

namespace Ramify

/-- A question to an engine and its answer, or its failure to answer. -/
structure Exchange (K : Type) where
  relations : List (Relation K)
  unknowns : List Symbol
  reply : Except (Failure K) (Answer K)

/-- The engine that answers as another one does and records the exchanges. -/
def Engine.recording {K σ : Type} (engine : Engine K σ) : Engine K (σ × List (Exchange K)) where
  name := engine.name
  ask relations unknowns state :=
    let (reply, next, lines) := engine.ask relations unknowns state.1
    (reply, (next, state.2 ++ [⟨relations, unknowns, reply⟩]), lines)

namespace Worksheet

variable {K σ : Type}

/-- The worksheet with a recording engine that has recorded some exchanges already. -/
def recording (sheet : Worksheet K σ) (exchanges : List (Exchange K)) :
    Worksheet K (σ × List (Exchange K)) :=
  { sheet with
    engine := sheet.engine.recording
    engineState := (sheet.engineState, exchanges) }

/-- A worksheet is another one with a recording engine. -/
def Recorded (sheet : Worksheet K σ) (other : Worksheet K (σ × List (Exchange K))) : Prop :=
  ∃ exchanges, other = sheet.recording exchanges

theorem mirrors_recorded : Mirrors (Recorded (K := K) (σ := σ)) where
  face := by
    rintro s _ ⟨exchanges, rfl⟩
    rfl
  withFace := by
    rintro s _ ⟨exchanges, rfl⟩ face
    exact ⟨exchanges, rfl⟩
  tell line := by
    rintro s _ ⟨exchanges, rfl⟩
    exact Or.inr ⟨rfl, exchanges, rfl⟩
  narrate line := by
    rintro s _ ⟨exchanges, rfl⟩
    unfold narrate
    rw [outcome_get_bind, outcome_get_bind,
      show (s.recording exchanges).options = s.options from rfl]
    split
    · exact Or.inr ⟨rfl, exchanges, rfl⟩
    · exact Or.inr ⟨rfl, exchanges, rfl⟩
  ask relations unknowns := by
    rintro s _ ⟨exchanges, rfl⟩
    rw [outcome_ask, outcome_ask]
    exact Or.inr ⟨rfl, exchanges ++ [⟨relations, unknowns, _⟩], rfl⟩

variable [Scalar K]

/-- The judge does not change with the engine. -/
theorem judgesAlike_recorded : JudgesAlike (Recorded (K := K) (σ := σ)) (fun _ => True) := by
  rintro relation - s _ ⟨exchanges, rfl⟩
  rw [outcome_onJudge, outcome_onJudge]
  exact Or.inr ⟨rfl, exchanges, rfl⟩

omit [Scalar K] in
/-- What is in step with a worksheet ends like it, and has recorded some exchanges. -/
theorem exists_recording {α : Type} {first : Except (Failure K) α × Worksheet K σ}
    {second : Except (Failure K) α × Worksheet K (σ × List (Exchange K))}
    (h : InStep Recorded Never first second) :
    ∃ exchanges, second = (first.1, first.2.recording exchanges) := by
  obtain ⟨hsame, exchanges, hstate⟩ := h.never
  exact ⟨exchanges, Prod.ext hsame hstate⟩

def exchanges (steps : Nat) (sheet : Worksheet K σ) : List (Exchange K) :=
  (outcome (solve steps) (sheet.recording [])).2.engineState.2

/-- A run with the recording engine ends as the run with the engine itself does, and has recorded
the exchanges. -/
theorem outcome_solve_recording (steps : Nat) (sheet : Worksheet K σ) :
    outcome (solve steps) (sheet.recording []) =
      ((outcome (solve steps) sheet).1,
        (outcome (solve steps) sheet).2.recording (sheet.exchanges steps)) := by
  have hrecorded : Recorded sheet (sheet.recording []) := ⟨[], rfl⟩
  obtain ⟨more, hrun⟩ := exists_recording
    (inStep_solve mirrors_recorded judgesAlike_recorded steps hrecorded (fun _ _ => trivial))
  unfold exchanges
  rw [hrun]
  rfl

end Worksheet

end Ramify
