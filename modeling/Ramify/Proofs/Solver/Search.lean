import Ramify.Engine
import Ramify.Proofs.Action

/-!
Runs of the solver side by side. Only the numeric search looks at the state of a solver, and nothing
looks at what has been told. Two solvers whose searches are in lockstep therefore answer alike,
whether they tell what they do or not; and a question that never comes to a search has one answer,
whatever has been asked before and whatever would have been searched.
-/

namespace Ramify.Solver

variable {K : Type} [Scalar K] {α β : Type}

/-- A relation between the states of two solvers does not look at what they have told. -/
def Deaf (R : SolverState → SolverState → Prop) : Prop :=
  ∀ s t, R s t → ∀ log other, R { s with log := log } { t with log := other }

section Tell

variable {R : SolverState → SolverState → Prop} {E : Failure K → Prop}
  {first second : SolverAction K α} {line other : String}

omit [Scalar K] in
theorem lockstep_lift (result : Except AlgebraError α) :
    Lockstep R E (Elimination.lift result : SolverAction K α) (Elimination.lift result) := by
  cases result with
  | ok x => exact .pure x
  | error cause => exact .throw (Failure.algebra cause)

omit [Scalar K] in
/-- Solvers stay in lockstep if each of them tells something or not. -/
theorem Deaf.told (hdeaf : Deaf R) (tells others : Bool) (h : Lockstep R E first second) :
    Lockstep R E (if tells then Elimination.tell line >>= fun _ => first else first)
      (if others then Elimination.tell other >>= fun _ => second else second) := by
  intro s t hstates
  cases tells <;> cases others
  · exact h s t hstates
  · exact h s { t with log := t.log.push other } (hdeaf s t hstates s.log _)
  · exact h { s with log := s.log.push line } t (hdeaf s t hstates _ t.log)
  · exact h { s with log := s.log.push line } { t with log := t.log.push other }
      (hdeaf s t hstates _ _)

end Tell

/-- The end of an elimination that would have to search. -/
def refuse : Elimination.Continuation K := fun _ _ => throw .stepsExhausted

/-- Whether a search has to be made for some relations and unknowns. -/
def reachesSearch (numerics : Numerics K) (settings : SolverSettings K)
    (relations : List (Relation K)) (unknowns : List Symbol) : Bool :=
  match (outcome (solveWith refuse numerics settings relations unknowns) (start 0)).1 with
  | .error .stepsExhausted => true
  | _ => false

section Eliminate

open Elimination

variable {R : SolverState → SolverState → Prop} {E : Failure K → Prop} {next other : Continuation K}

theorem lockstep_splitOn
    (hnext : ∀ unknowns polys, Lockstep R E (next unknowns polys) (other unknowns polys))
    (tolerance : K) (unknowns : List Symbol) (symbol : Symbol) (rest : List (Polynomial K))
    (values : List (Fraction K)) (found : List (Solution K)) :
    Lockstep R E (splitOn tolerance next unknowns symbol rest values found)
      (splitOn tolerance other unknowns symbol rest values found) := by
  induction values generalizing found with
  | nil => exact .pure _
  | cons value values ih =>
      unfold splitOn
      cases rest.mapM (reduce tolerance (.single symbol value)) with
      | error cause =>
          dsimp only
          split
          · exact ih found
          · exact .throw _
      | ok reduced =>
          apply Lockstep.bind (hnext _ _)
          intro outcome
          cases outcome with
          | solved solutions => exact ih _
          | inconsistent => exact ih _
          | unknown => exact .pure _

theorem lockstep_substitute
    (hnext : ∀ unknowns polys, Lockstep R E (next unknowns polys) (other unknowns polys))
    (tolerance : K) (unknowns : List Symbol) (symbol : Symbol) (value : Fraction K)
    (rest : List (Polynomial K)) :
    Lockstep R E (substitute tolerance next unknowns symbol value rest)
      (substitute tolerance other unknowns symbol value rest) := by
  apply Lockstep.bind (lockstep_lift _)
  intro reduced
  apply Lockstep.bind (hnext _ _)
  intro outcome
  cases outcome with
  | solved solutions => exact .bind (lockstep_lift _) (fun _ => .pure _)
  | inconsistent => exact .pure _
  | unknown => exact .pure _

theorem lockstep_expressOn
    (hnext : ∀ unknowns polys, Lockstep R E (next unknowns polys) (other unknowns polys))
    (tolerance : K) (unknowns : List Symbol) (symbol : Symbol) (slope offset : Polynomial K)
    (rest : List (Polynomial K)) :
    Lockstep R E (expressOn tolerance next unknowns symbol slope offset rest)
      (expressOn tolerance other unknowns symbol slope offset rest) := by
  apply Lockstep.bind (lockstep_lift _)
  intro value
  apply Lockstep.bind (lockstep_substitute hnext tolerance unknowns symbol value rest)
  intro regular
  split
  · exact .pure _
  · exact .bind (hnext _ _) (fun _ => .pure _)

theorem lockstep_chooseMove (hdeaf : Deaf R) (numerics : Numerics K) (settings : SolverSettings K)
    (verbose : Bool) (unknowns : List Symbol) (active : List (Polynomial K)) :
    Lockstep R E (chooseMove numerics settings unknowns active)
      (chooseMove numerics { settings with verbose := verbose } unknowns active) := by
  apply Lockstep.bind (lockstep_lift _)
  intro power
  cases power with
  | some move => exact .pure _
  | none =>
      apply Lockstep.bind (lockstep_lift _)
      intro single
      cases single with
      | some found => exact hdeaf.told settings.verbose verbose (.pure _)
      | none =>
          apply Lockstep.bind (lockstep_lift _)
          intro numeric
          cases numeric with
          | some move => exact .pure _
          | none =>
              apply Lockstep.bind (lockstep_lift _)
              intro symbolic
              cases symbolic with
              | some move => exact .pure _
              | none => exact .pure _

/-- Eliminations are in lockstep if the searches in which they end are. -/
theorem lockstep_eliminate (hdeaf : Deaf R)
    (hsearch : ∀ unknowns polys, Lockstep R E (next unknowns polys) (other unknowns polys))
    (numerics : Numerics K) (settings : SolverSettings K) (verbose : Bool) (rounds : Nat)
    (unknowns : List Symbol) (polys : List (Polynomial K)) :
    Lockstep R E (eliminate next numerics settings rounds unknowns polys)
      (eliminate other numerics { settings with verbose := verbose } rounds unknowns polys) := by
  induction rounds generalizing unknowns polys with
  | zero =>
      unfold eliminate
      cases standing unknowns polys with
      | inconsistent => exact .pure _
      | settled conditional => cases conditional <;> exact .pure _
      | active active => exact .pure _
  | succ rounds ih =>
      unfold eliminate
      cases standing unknowns polys with
      | inconsistent => exact .pure _
      | settled conditional => cases conditional <;> exact .pure _
      | active active =>
          apply Lockstep.bind (lockstep_chooseMove hdeaf numerics settings verbose unknowns active)
          intro move
          cases move with
          | split index symbol values => exact lockstep_splitOn ih _ _ _ _ _ _
          | express index symbol slope offset => exact lockstep_expressOn ih _ _ _ _ _ _
          | search => exact hsearch unknowns active

end Eliminate

section Solve

variable {R : SolverState → SolverState → Prop} {E : Failure K → Prop}
  {fallback other : Elimination.Continuation K}

theorem lockstep_verify (hdeaf : Deaf R) (settings : SolverSettings K) (verbose : Bool)
    (relations : List (Relation K)) (candidates verified : List (Solution K)) :
    Lockstep R E (verify settings relations candidates verified)
      (verify { settings with verbose := verbose } relations candidates verified) := by
  induction candidates generalizing verified with
  | nil => exact .pure _
  | cons candidate rest ih =>
      unfold verify
      cases confirms settings.residualTolerance relations candidate with
      | error failure => exact .throw _
      | ok holds =>
          cases holds with
          | true => exact ih _
          | false => exact hdeaf.told settings.verbose verbose (ih verified)

theorem lockstep_linearAnswer (hdeaf : Deaf R) (settings : SolverSettings K) (verbose : Bool)
    (unknowns : List Symbol) (polys : List (Polynomial K)) :
    Lockstep R E (linearAnswer settings unknowns polys)
      (linearAnswer { settings with verbose := verbose } unknowns polys) := by
  apply Lockstep.bind (lockstep_lift _)
  intro outcome
  cases outcome with
  | solved solution => exact .pure _
  | undetermined => exact .pure _
  | inconsistent residue => exact hdeaf.told settings.verbose verbose (.pure _)

theorem lockstep_eliminationAnswer (hdeaf : Deaf R)
    (hsearch : ∀ unknowns polys, Lockstep R E (fallback unknowns polys) (other unknowns polys))
    (numerics : Numerics K) (settings : SolverSettings K) (verbose : Bool) (unknowns : List Symbol)
    (polys : List (Polynomial K)) :
    Lockstep R E (eliminationAnswer fallback numerics settings unknowns polys)
      (eliminationAnswer other numerics { settings with verbose := verbose } unknowns polys) := by
  apply Lockstep.bind
    (lockstep_eliminate hdeaf hsearch numerics settings verbose rounds unknowns polys)
  intro outcome
  cases outcome <;> exact .pure _

theorem lockstep_conclude (hdeaf : Deaf R) (settings : SolverSettings K) (verbose : Bool)
    (relations : List (Relation K)) (answer : Answer K) :
    Lockstep R E (conclude settings relations answer)
      (conclude { settings with verbose := verbose } relations answer) := by
  cases answer with
  | solved candidates =>
      apply Lockstep.bind (lockstep_verify hdeaf settings verbose relations candidates [])
      intro verified
      exact hdeaf.told settings.verbose verbose (.pure _)
  | noSolution => exact hdeaf.told settings.verbose verbose (.pure _)
  | indeterminate => exact hdeaf.told settings.verbose verbose (.pure _)

/-- Solvers are in lockstep if their searches are, whether they tell what they do or not. -/
theorem lockstep_solveWith (hdeaf : Deaf R)
    (hsearch : ∀ unknowns polys, Lockstep R E (fallback unknowns polys) (other unknowns polys))
    (numerics : Numerics K) (settings : SolverSettings K) (verbose : Bool)
    (relations : List (Relation K)) (unknowns : List Symbol) :
    Lockstep R E (solveWith fallback numerics settings relations unknowns)
      (solveWith other numerics { settings with verbose := verbose } relations unknowns) := by
  unfold solveWith
  split
  · exact .pure _
  · apply Lockstep.bind (lockstep_lift _)
    intro polys
    split
    · exact .pure _
    · split
      · exact .bind (lockstep_linearAnswer hdeaf settings verbose unknowns polys)
          (fun answer => lockstep_conclude hdeaf settings verbose relations answer)
      · exact .bind
          (lockstep_eliminationAnswer hdeaf hsearch numerics settings verbose unknowns polys)
          (fun answer => lockstep_conclude hdeaf settings verbose relations answer)

end Solve

section Refuse

/-- A search that is refused ends for want of steps. -/
def ForWantOfSteps (failure : Failure K) : Prop := failure = .stepsExhausted

omit [Scalar K] in
/-- Where a search is refused, solvers stay in lockstep until then, whatever their states are. -/
theorem lockstep_refuse (fallback : Elimination.Continuation K) (unknowns : List Symbol)
    (polys : List (Polynomial K)) :
    Lockstep (fun _ _ => True) ForWantOfSteps (refuse unknowns polys) (fallback unknowns polys) :=
  fun _ _ _ => Or.inl ⟨_, rfl, rfl⟩

/-- A question that does not come to a search is answered alike in every state. -/
theorem solve_of_not_reachesSearch {numerics : Numerics K} {settings : SolverSettings K}
    {relations : List (Relation K)} {unknowns : List Symbol}
    (h : reachesSearch numerics settings relations unknowns = false) (state : SolverState) :
    (outcome (solve numerics settings relations unknowns) state).1 =
      (outcome (solveWith refuse numerics settings relations unknowns) (start 0)).1 := by
  have hinStep := lockstep_solveWith (fun _ _ _ _ _ => trivial)
    (lockstep_refuse (Elimination.search numerics settings)) numerics settings settings.verbose
    relations unknowns (start 0) state trivial
  rcases hinStep with ⟨failure, hout, rfl⟩ | ⟨hsame, _⟩
  · unfold reachesSearch at h
    rw [hout] at h
    cases h
  · exact hsame

/-- The engine answers such a question alike in every state. -/
theorem ask_of_not_reachesSearch {numerics : Numerics K} {settings : SolverSettings K}
    {relations : List (Relation K)} {unknowns : List Symbol}
    (h : reachesSearch numerics settings relations unknowns = false) (generator : Twister) :
    ((Engine.polynomial numerics settings).ask relations unknowns generator).1 =
      (outcome (solveWith refuse numerics settings relations unknowns) (start 0)).1 :=
  solve_of_not_reachesSearch h ⟨generator, #[]⟩

end Refuse

end Ramify.Solver
