import Ramify.Proofs.Judge
import Ramify.Proofs.Worksheet.Pass

/-!
How a visit to the branches can fail. Arithmetic, judging, solving and the writing of values fail
for causes of their own; that the equations contradict each other is a cause only where the engine
denies a solution and the options ask for the run to end there, and that there are no steps left is
one only where they are counted.
-/

namespace Ramify

/-- A failure that is neither about equations that contradict each other nor about a run that used
up its steps. -/
def Failure.Incidental {K : Type} : Failure K → Prop
  | stepsExhausted => False
  | failure => failure.kind ≠ .unsolvable

namespace Failure

variable {K : Type}

theorem Incidental.kind_ne {failure : Failure K} (h : failure.Incidental) :
    failure.kind ≠ .unsolvable := by
  unfold Incidental at h
  split at h
  · exact h.elim
  · exact h

theorem incidental_algebra (cause : AlgebraError) : (algebra cause : Failure K).Incidental := by
  cases cause <;> exact nofun

theorem errs_liftAlgebra {α : Type} (result : Except AlgebraError α) :
    ErrsWith Incidental (liftAlgebra result : Except (Failure K) α) := by
  cases result with
  | error cause => exact .throw (incidental_algebra cause)
  | ok x => exact .pure x

end Failure

open Failure (Incidental errs_liftAlgebra)

section Units

variable {K : Type} [Scalar K]

theorem Units.errs_termDimension (m : Monomial K) : ErrsWith Incidental (termDimension m) := by
  apply ErrsWith.foldlM
  intro acc entry
  split
  · exact .pure _
  · exact .throw nofun

theorem Units.errs_polynomialDimension (p : Polynomial K) :
    ErrsWith Incidental (polynomialDimension p) := by
  unfold polynomialDimension
  split
  · exact .pure _
  · rename_i first rest _
    apply ErrsWith.bind (errs_termDimension first)
    intro dimension
    have hrest (terms : List (Monomial K)) : ErrsWith Incidental (terms.forM (fun m => do
        if (← termDimension m) ≠ dimension then throw (.mixedDimensions p))) := by
      induction terms with
      | nil => exact .pure _
      | cons m terms ih =>
          refine .bind (.bind (errs_termDimension m) (fun other => ?_)) (fun _ => ih)
          split
          · exact .throw nofun
          · exact .pure _
    exact .bind (hrest rest) (fun _ => .pure _)

theorem Units.errs_dimension (a : Fraction K) : ErrsWith Incidental (dimension a) := by
  unfold dimension
  split
  · exact .pure _
  · exact .bind (errs_polynomialDimension a.num) (fun _ =>
      .bind (errs_polynomialDimension a.den) (fun _ => .pure _))

theorem Units.errs_baseValue (a : Fraction K) : ErrsWith Incidental (baseValue a) := by
  refine .bind (.foldlM (fun acc symbol => ?_) _ _) (fun point => errs_liftAlgebra _)
  split
  · exact .pure _
  · refine .throw (fun h => ?_)
    cases h

theorem Units.errs_measureIn (quantity target : Fraction K) :
    ErrsWith Incidental (measureIn quantity target) := by
  have hvalues : ErrsWith Incidental (do
      if (← dimension quantity) ≠ (← dimension target) then
        throw (.dimensionMismatch quantity target)
      let size ← baseValue quantity
      let unit ← baseValue target
      pure (do pure ((← size) / (← unit))) : Except (Failure K) (Option K)) := by
    refine .bind (errs_dimension quantity)
      (fun left => .bind (errs_dimension target) (fun right => ?_))
    dsimp only
    split
    · exact .bind (.throw nofun) (fun _ => .bind (errs_baseValue quantity) (fun _ =>
        .bind (errs_baseValue target) (fun _ => .pure _)))
    · exact .bind (errs_baseValue quantity) (fun _ =>
        .bind (errs_baseValue target) (fun _ => .pure _))
  unfold measureIn
  split
  · exact .bind (.throw nofun) (fun _ => hvalues)
  · exact hvalues

end Units

section Judging

variable {K : Type} [Scalar K]

theorem Fraction.errs_toNumber (a : Fraction K) : ErrsWith Incidental a.toNumber := by
  unfold toNumber
  split
  · exact .throw nofun
  · split
    · exact .throw nofun
    · exact errs_liftAlgebra _

/-- A formula fails only incidentally, if reading does. -/
theorem Formula.errs_eval {read : String → Except (Failure K) (Fraction K)}
    (hread : ∀ name, ErrsWith Incidental (read name)) (formula : Formula K) :
    ErrsWith Incidental (formula.eval read) := by
  induction formula with
  | number c => exact .pure _
  | symbol symbol => exact .pure _
  | value name => exact hread name
  | add a b iha ihb => exact .bind iha (fun _ => .bind ihb (fun _ => errs_liftAlgebra _))
  | sub a b iha ihb => exact .bind iha (fun _ => .bind ihb (fun _ => errs_liftAlgebra _))
  | mul a b iha ihb => exact .bind iha (fun _ => .bind ihb (fun _ => errs_liftAlgebra _))
  | div a b iha ihb => exact .bind iha (fun _ => .bind ihb (fun _ => errs_liftAlgebra _))
  | neg a iha => exact .bind iha (fun _ => errs_liftAlgebra _)
  | pow a exponent iha => exact .bind iha (fun _ => errs_liftAlgebra _)
  | numeric a iha => exact .bind iha (fun x => .bind x.errs_toNumber (fun _ => .pure _))
  | scaled c a iha => exact .bind iha (fun x => .bind x.errs_toNumber (fun _ => .pure _))
  | rounded a iha => exact .bind iha (fun x => .bind x.errs_toNumber (fun _ => .pure _))
  | magnitude quantity target ihq iht =>
      exact .bind ihq (fun x => .bind iht (fun y =>
        .bind (.bind (Units.errs_measureIn x y) (fun _ => .pure _)) (fun _ => .pure _)))

namespace FactorTable

theorem fails_drawWithin (attempts : Nat) :
    FailsWith Incidental (drawWithin attempts : Action K K) := by
  induction attempts with
  | zero => exact .throw nofun
  | succ attempts ih =>
      apply FailsWith.get
      intro table
      generalize (Twister.uniform (1 - table.spread) (1 + table.spread)).run table.generator = drawn
      obtain ⟨candidate, generator⟩ := drawn
      refine .bind (fun _ => nofun) (fun _ => ?_)
      split
      · exact ih
      · exact .pure _

theorem fails_baseStandIn (base : String) :
    FailsWith Incidental (baseStandIn base : Action K K) := by
  apply FailsWith.get
  intro table
  split
  · exact .pure _
  · exact .bind (fails_drawWithin 10000) (fun _ => .bind (fun _ => nofun) (fun _ => .pure _))

theorem fails_factor (symbol : Symbol) : FailsWith Incidental (factor symbol : Action K K) := by
  cases hunit : symbol.isUnit with
  | false =>
      rw [factor_of_unknown hunit]
      exact .throw nofun
  | true =>
      cases hfind : Units.find? (K := K) symbol.name with
      | none =>
          rw [factor_of_unregistered hunit hfind]
          exact fails_baseStandIn symbol.name
      | some found =>
          rw [factor_of_registered hunit hfind]
          apply FailsWith.foldlM
          intro acc entry
          exact .bind (fails_baseStandIn entry.1) (fun _ => .pure _)

theorem fails_eval (a : Fraction K) : FailsWith Incidental (eval a) := by
  have hpoint : FailsWith Incidental (pointOf a) := by
    apply FailsWith.foldlM
    intro acc symbol
    split
    · refine .bind (.throw (fun h => ?_)) (fun _ => .bind (fails_factor symbol) (fun _ => .pure _))
      cases h
    · exact .bind (fails_factor symbol) (fun _ => .pure _)
  refine .bind hpoint (fun point => ?_)
  split
  · exact .pure _
  · exact .throw (Failure.incidental_algebra _)

end FactorTable

namespace Judge

theorem errs_agreeUnder (judge : Judge K) (table : FactorTable K) (lhs rhs : Fraction K) :
    ErrsWith Incidental (judge.agreeUnder table lhs rhs).1 := by
  have hvalues : FailsWith Incidental (values lhs rhs) :=
    .bind (FactorTable.fails_eval lhs) (fun _ =>
      .bind (FactorTable.fails_eval rhs) (fun _ => .pure _))
  have hrun := hvalues table
  unfold outcome at hrun
  unfold agreeUnder
  split
  · exact .pure _
  · rename_i failure after hfailed
    rw [hfailed] at hrun
    dsimp only
    split
    · exact .pure _
    · exact .throw (hrun failure rfl)

theorem fails_verdict (lhs rhs : Fraction K) : FailsWith Incidental (verdict lhs rhs) := by
  have hfirst : FailsWith Incidental (agreeUnderFirst lhs rhs) := by
    intro judge
    rw [outcome_agreeUnderFirst]
    exact errs_agreeUnder judge judge.first lhs rhs
  have hsecond : FailsWith Incidental (agreeUnderSecond lhs rhs) := by
    intro judge
    rw [outcome_agreeUnderSecond]
    exact errs_agreeUnder judge judge.second lhs rhs
  unfold verdict
  split
  · refine .bind hfirst (fun agreed => ?_)
    split
    · refine .bind hsecond (fun agreed => ?_)
      split <;> exact .pure _
    · exact .pure _
  · split
    · exact .throw (Failure.incidental_algebra _)
    · split
      · exact .pure _
      · exact .bind (fun _ => nofun) (fun _ => .pure _)

end Judge

end Judging

namespace Elimination

variable {K : Type} [Scalar K]

omit [Scalar K] in
theorem fails_lift {α : Type} (result : Except AlgebraError α) :
    FailsWith Incidental (lift result : SolverAction K α) := by
  cases result with
  | ok x => exact .pure x
  | error cause => exact .throw (Failure.incidental_algebra cause)

omit [Scalar K] in
theorem fails_tell (line : String) : FailsWith Incidental (tell line : SolverAction K Unit) :=
  fun _ => nofun

theorem fails_searchPoints (numerics : Numerics K) (settings : SolverSettings K)
    (problem : Newton.Problem K) (starts : Nat) (found : List (SortedMap Symbol K)) :
    FailsWith Incidental (searchPoints numerics settings problem starts found) := by
  induction starts generalizing found with
  | zero => exact .pure _
  | succ starts ih =>
      apply FailsWith.get
      intro state
      generalize (drawPoint (K := K) problem.unknowns).run state.generator = drawn
      obtain ⟨start, generator⟩ := drawn
      exact .bind (fun _ => nofun) (fun _ => ih _)

theorem fails_search (numerics : Numerics K) (settings : SolverSettings K)
    (unknowns : List Symbol) (active : List (Polynomial K)) :
    FailsWith Incidental (search numerics settings unknowns active) := by
  unfold search
  dsimp only
  split
  · exact .pure _
  · split
    · exact .pure _
    · refine .bind (fails_searchPoints numerics settings _ _ _) (fun found => ?_)
      split
      · refine .bind (fails_tell _) (fun _ => ?_)
        split <;> exact .pure _
      · split <;> exact .pure _

section Rounds

variable {next : Continuation K}
  (hnext : ∀ unknowns polys, FailsWith Incidental (next unknowns polys))

include hnext

theorem fails_splitOn (tolerance : K) (unknowns : List Symbol) (symbol : Symbol)
    (rest : List (Polynomial K)) (values : List (Fraction K)) (found : List (Solution K)) :
    FailsWith Incidental (splitOn tolerance next unknowns symbol rest values found) := by
  induction values generalizing found with
  | nil => exact .pure _
  | cons value values ih =>
      unfold splitOn
      split
      · split
        · exact ih found
        · exact .throw (Failure.incidental_algebra _)
      · refine .bind (hnext _ _) (fun outcome => ?_)
        cases outcome with
        | solved solutions => exact ih _
        | inconsistent => exact ih _
        | unknown => exact .pure _

theorem fails_expressOn (tolerance : K) (unknowns : List Symbol) (symbol : Symbol)
    (slope offset : Polynomial K) (rest : List (Polynomial K)) :
    FailsWith Incidental (expressOn tolerance next unknowns symbol slope offset rest) := by
  have hsubstitute (value : Fraction K) :
      FailsWith Incidental (substitute tolerance next unknowns symbol value rest) := by
    refine .bind (fails_lift _) (fun reduced => .bind (hnext _ _) (fun outcome => ?_))
    cases outcome with
    | solved solutions => exact .bind (fails_lift _) (fun _ => .pure _)
    | inconsistent => exact .pure _
    | unknown => exact .pure _
  refine .bind (fails_lift _) (fun value => .bind (hsubstitute value) (fun regular => ?_))
  split
  · exact .pure _
  · exact .bind (hnext _ _) (fun _ => .pure _)

end Rounds

theorem fails_chooseMove (numerics : Numerics K) (settings : SolverSettings K)
    (unknowns : List Symbol) (active : List (Polynomial K)) :
    FailsWith Incidental (chooseMove numerics settings unknowns active) := by
  refine .bind (fails_lift _) (fun power => ?_)
  cases power with
  | some move => exact .pure _
  | none =>
      refine .bind (fails_lift _) (fun single => ?_)
      cases single with
      | some found =>
          obtain ⟨index, symbol, p, coeffs⟩ := found
          dsimp only
          split
          · exact .bind (fails_tell _) (fun _ => .pure _)
          · exact .pure _
      | none =>
          refine .bind (fails_lift _) (fun numeric => ?_)
          cases numeric with
          | some move => exact .pure _
          | none =>
              refine .bind (fails_lift _) (fun symbolic => ?_)
              cases symbolic <;> exact .pure _

theorem fails_eliminate (numerics : Numerics K) (settings : SolverSettings K) (rounds : Nat)
    (unknowns : List Symbol) (polys : List (Polynomial K)) :
    FailsWith Incidental
      (eliminate (search numerics settings) numerics settings rounds unknowns polys) := by
  induction rounds generalizing unknowns polys with
  | zero =>
      unfold eliminate
      split <;> exact .pure _
  | succ rounds ih =>
      unfold eliminate
      split
      · exact .pure _
      · exact .pure _
      · exact .pure _
      · refine .bind (fails_chooseMove numerics settings unknowns _) (fun move => ?_)
        cases move with
        | split index symbol values => exact fails_splitOn ih _ _ _ _ _ _
        | express index symbol slope offset => exact fails_expressOn ih _ _ _ _ _ _
        | search => exact fails_search numerics settings _ _

end Elimination

namespace Solver

variable {K : Type} [Scalar K]

theorem errs_confirms (tolerance : K) (relations : List (Relation K)) (candidate : Solution K) :
    ErrsWith Incidental (confirms tolerance relations candidate) := by
  have hholds (r : Relation K) : ErrsWith Incidental (holdsAt tolerance candidate r) := by
    refine .bind (errs_liftAlgebra _) (fun lhs => .bind (errs_liftAlgebra _) (fun rhs => ?_))
    split
    · exact .bind (Units.errs_baseValue lhs) (fun _ =>
        .bind (Units.errs_baseValue rhs) (fun _ => .pure _))
    · exact .pure _
  have hall (rest : List (Relation K)) :
      ErrsWith Incidental (allHold tolerance candidate rest) := by
    induction rest with
    | nil => exact .pure _
    | cons r rest ih =>
        unfold allHold
        split
        · exact ih
        · exact .pure _
        · rename_i failure hfailed
          split
          · exact .pure _
          · exact .throw (hholds r failure hfailed)
  unfold confirms
  split
  · exact .pure _
  · exact hall relations

theorem fails_verify (settings : SolverSettings K) (relations : List (Relation K))
    (candidates verified : List (Solution K)) :
    FailsWith Incidental (verify settings relations candidates verified) := by
  induction candidates generalizing verified with
  | nil => exact .pure _
  | cons candidate rest ih =>
      unfold verify
      split
      · rename_i failure hfailed
        exact .throw (errs_confirms _ _ _ failure hfailed)
      · split
        · exact .bind (Elimination.fails_tell _) (fun _ => ih _)
        · exact ih _
      · exact ih _

theorem fails_conclude (settings : SolverSettings K) (relations : List (Relation K))
    (answer : Answer K) : FailsWith Incidental (conclude settings relations answer) := by
  have htell (line : String) (last : Answer K) : FailsWith Incidental
      (do
        if settings.verbose then Elimination.tell line
        return last : SolverAction K (Answer K)) := by
    split
    · exact .bind (Elimination.fails_tell _) (fun _ => .pure _)
    · exact .pure _
  cases answer with
  | solved candidates =>
      exact .bind (fails_verify settings relations candidates []) (fun _ => htell _ _)
  | noSolution => exact htell _ _
  | indeterminate => exact htell _ _

/-- The solver fails only incidentally; that there is no solution is an answer. -/
theorem fails_solve (numerics : Numerics K) (settings : SolverSettings K)
    (relations : List (Relation K)) (unknowns : List Symbol) :
    FailsWith Incidental (solve numerics settings relations unknowns) := by
  unfold solve solveWith
  split
  · exact .pure _
  · refine .bind (Elimination.fails_lift _) (fun polys => ?_)
    split
    · exact .pure _
    · split
      · refine .bind (.bind (Elimination.fails_lift _) (fun outcome => ?_))
          (fun answer => fails_conclude settings relations answer)
        cases outcome with
        | solved solution => exact .pure _
        | undetermined => exact .pure _
        | inconsistent residue =>
            dsimp only
            split
            · exact .bind (Elimination.fails_tell _) (fun _ => .pure _)
            · exact .pure _
      · refine .bind (.bind (Elimination.fails_eliminate numerics settings rounds unknowns polys)
          (fun outcome => ?_)) (fun answer => fails_conclude settings relations answer)
        cases outcome <;> exact .pure _

end Solver

namespace Worksheet

variable {K σ : Type} [Scalar K]

/-- An engine that fails only incidentally. -/
def SteadyEngine (engine : Engine K σ) : Prop :=
  ∀ relations unknowns state, ErrsWith Incidental (engine.ask relations unknowns state).1

theorem steady_polynomial (numerics : Numerics K) (settings : SolverSettings K) :
    SteadyEngine (Engine.polynomial numerics settings) :=
  fun relations unknowns generator =>
    Solver.fails_solve numerics settings relations unknowns ⟨generator, #[]⟩

theorem fails_sift (bindings : Bindings K) (equations : List (Equation K))
    (found : List (Relation K)) : FailsWith Incidental (sift bindings equations found) := by
  have hread (name : String) : ErrsWith Incidental (reading bindings name) := by
    unfold reading
    split
    · exact .pure _
    · exact .throw nofun
  have hstated (equation : Equation K) : ErrsWith Incidental (statedIn bindings equation) := by
    refine .bind (.mapM (fun side => side.errs_eval hread) _) (fun sides => ?_)
    split
    · exact .bind (errs_liftAlgebra _) (fun _ => .bind (errs_liftAlgebra _) (fun _ => .pure _))
    · exact .throw nofun
  induction equations generalizing found with
  | nil => exact .pure _
  | cons equation rest ih =>
      refine .bind (.ofExcept (hstated equation)) (fun relation =>
        .bind (Judge.fails_verdict relation.lhs relation.rhs) (fun verdict => ?_))
      cases verdict with
      | redundant => exact ih _
      | usable => exact ih _
      | contradiction => exact .pure _

omit [Scalar K] in
theorem errs_resolve (branches : Branches K) (index : Option Nat) :
    ErrsWith Incidental (branches.resolve index) := by
  unfold Branches.resolve
  dsimp only
  split
  · exact .pure _
  · exact .throw nofun

omit [Scalar K] in
theorem errs_requireName (branches : Branches K) (name : String) :
    ErrsWith Incidental (branches.requireName name) := by
  unfold Branches.requireName
  split
  · exact .pure _
  · exact .throw nofun

omit [Scalar K] in
theorem fails_onBranches {α : Type} {action : Branches.Action K α}
    (h : FailsWith Incidental action) :
    FailsWith Incidental (onBranches action : Action K σ α) := by
  intro sheet
  rw [outcome_onBranches]
  exact h sheet.branches

omit [Scalar K] in
theorem fails_narrate (line : String) : FailsWith Incidental (narrate line : Action K σ Unit) := by
  intro sheet
  obtain ⟨log, hlog⟩ := outcome_narrate line sheet
  rw [hlog]
  exact nofun

theorem fails_adoptEach (solution : Solution K) (index : Nat) (names : List String) :
    FailsWith Incidental (adoptEach solution index names : Action K σ Unit) := by
  have hset (name : String) (value : Fraction K) :
      FailsWith Incidental
        (onBranches (Branches.set name value (some index)) : Action K σ Unit) := by
    apply fails_onBranches
    apply FailsWith.get
    intro branches
    exact .bind (.ofExcept (errs_requireName branches name)) (fun _ =>
      .bind (.ofExcept (errs_resolve branches (some index))) (fun _ _ => ErrsWith.pure ()))
  induction names with
  | nil => exact .pure _
  | cons name rest ih =>
      unfold adoptEach
      split
      · exact .bind (hset name _) (fun _ => .bind (fails_narrate _) (fun _ => ih))
      · apply FailsWith.get
        intro sheet
        have hget : ErrsWith Incidental (sheet.branches.get name (some index)) := by
          refine .bind (errs_requireName _ name)
            (fun _ => .bind (errs_resolve _ _) (fun found => ?_))
          obtain ⟨position, branch⟩ := found
          dsimp only
          split
          · exact .pure _
          · refine .throw (fun h => ?_)
            cases h
        exact .bind (.ofExcept hget) (fun _ => .bind (.ofExcept (errs_liftAlgebra _)) (fun _ =>
          .bind (hset name _) (fun _ => ih)))

theorem fails_adopt (solution : Solution K) (index : Nat) :
    FailsWith Incidental (adopt solution index : Action K σ Unit) :=
  .get (fun _ => fails_adoptEach solution index _)

theorem fails_copyFor (id index : Nat) (solutions : List (Solution K)) :
    FailsWith Incidental (copyFor id index solutions : Action K σ Unit) := by
  have hcopy : FailsWith Incidental (Branches.copy (some index) : Branches.Action K Nat) := by
    apply FailsWith.get
    intro branches
    exact .bind (.ofExcept (errs_resolve branches (some index))) (fun _ =>
      .bind (fun _ => nofun) (fun _ => .pure _))
  induction solutions with
  | nil => exact .pure _
  | cons solution rest ih =>
      refine .bind (fails_onBranches hcopy) (fun copy => .bind (fails_adopt solution copy) (fun _ =>
        .get (fun sheet => .bind (.ofExcept ?_) (fun _ => .bind (fails_narrate _) (fun _ => ih)))))
      exact .bind (errs_resolve _ _) (fun _ => .pure _)

/-- A failure that is incidental, or a denial of a solution that ends the run by the options. -/
def Ends (options : WorksheetOptions K) (failure : Failure K) : Prop :=
  failure.Incidental ∨
    options.raiseOnUnsolvable = true ∧ ∃ subset, failure = .inconsistentSubset subset

/-- A failure that ends the run, or the lack of steps to go on. -/
def Stops (options : WorksheetOptions K) (failure : Failure K) : Prop :=
  Ends options failure ∨ failure = .stepsExhausted

omit [Scalar K] in
theorem Ends.ne_stepsExhausted {options : WorksheetOptions K} {failure : Failure K}
    (h : Ends options failure) : failure ≠ .stepsExhausted := by
  rintro rfl
  rcases h with hincidental | ⟨_, _, hdenied⟩
  · exact hincidental
  · cases hdenied

section Runs

variable {sheet : Worksheet K σ}

/-- How the engine fails, and how a run is ended, is how an attempt fails. -/
theorem errs_resolveBy {Q : Failure K → Prop}
    (hengine : ∀ relations unknowns state, ErrsWith Q (sheet.engine.ask relations unknowns state).1)
    (hends : ∀ failure, Ends sheet.options failure → Q failure) (id : Nat)
    (subset : List (Relation K)) : ErrsWith Q (outcome (resolveBy id subset) sheet).1 := by
  have hstep := attempt_resolveBy id subset sheet
  intro failure hfailed
  generalize outcome (resolveBy id subset) sheet = run at hstep hfailed
  cases hstep with
  | idle => cases hfailed
  | failed _ hreply =>
      cases hfailed
      exact hengine _ _ _ failure hreply
  | undecided => cases hfailed
  | refused _ _ hraise =>
      cases hfailed
      exact hends _ (Or.inr ⟨hraise, subset, rfl⟩)
  | inconsistent => cases hfailed
  | @resolved candidates rest first index _ _ _ _ =>
      have htake : FailsWith Incidental (do
          copyFor id index rest
          adopt first index
          pure true : Action K σ Bool) :=
        .bind (fails_copyFor id index rest) (fun _ =>
          .bind (fails_adopt first index) (fun _ => .pure _))
      exact hends failure (Or.inl (htake (sheet.consulted subset) failure hfailed))

theorem errs_sweep {Q : Failure K → Prop} (id : Nat) (subsets : List (List (Relation K)))
    (hengine : ∀ relations unknowns state, ErrsWith Q (sheet.engine.ask relations unknowns state).1)
    (hends : ∀ failure, Ends sheet.options failure → Q failure)
    (hformed : sheet.branches.WellFormed) :
    ErrsWith Q (outcome (subsets.anyM (resolveBy id)) sheet).1 := by
  induction subsets generalizing sheet with
  | nil => exact ErrsWith.pure false
  | cons subset rest ih =>
      have hstep := errs_resolveBy hengine hends id subset
      obtain ⟨branches, state, unsolvable, log, hafter, _, hformed', _⟩ :=
        outcome_resolveBy id subset sheet hformed
      rw [List.anyM]
      rcases hrun : outcome (resolveBy id subset) sheet with ⟨failure | resolved, middle⟩
      · rw [hrun] at hstep
        rw [outcome_bind_error _ hrun]
        exact hstep
      · rw [outcome_bind_ok _ hrun]
        rw [hrun] at hafter
        change middle = _ at hafter
        cases resolved with
        | true => exact ErrsWith.pure true
        | false =>
            subst hafter
            exact ih hengine hends hformed'

theorem errs_gather (id : Nat) (sheet : Worksheet K σ) (hformed : sheet.branches.WellFormed) :
    ErrsWith Incidental (outcome (gather id sheet.equations []) sheet).1 := by
  obtain ⟨branch, hbranch⟩ := hformed.exists_current
  obtain ⟨log, hgathered⟩ := outcome_gather id sheet.equations [] sheet hformed hbranch
  have hsift := fails_sift branch.bindings sheet.equations [] sheet.judge
  rw [hgathered]
  intro failure hfailed
  dsimp only at hfailed
  cases hsifted : (outcome (sift branch.bindings sheet.equations []) sheet.judge).1 with
  | error other =>
      rw [hsifted] at hfailed
      cases hfailed
      exact hsift failure hsifted
  | ok found =>
      rw [hsifted] at hfailed
      cases hfailed

theorem errs_settle (id steps : Nat) (hengine : SteadyEngine sheet.engine)
    (hprocedures : sheet.procedures = []) (hformed : sheet.branches.WellFormed) :
    ErrsWith (Stops sheet.options) (outcome (settle id steps) sheet).1 := by
  induction steps generalizing sheet with
  | zero =>
      rw [settle]
      exact .throw (Or.inr rfl)
  | succ steps ih =>
      have hround := round_settle id steps sheet hprocedures hformed
      have hworks := works_gather id sheet.equations sheet.quiet hformed
      have herrs : ErrsWith Incidental
          (outcome (gather id sheet.equations []) sheet.quiet).1 :=
        errs_gather id sheet.quiet hformed
      intro failure hfailed
      generalize outcome (settle id (steps + 1)) sheet = run at hround hfailed
      cases hround with
      | failed hgather =>
          cases hfailed
          rw [hgather] at herrs
          exact Or.inl (Or.inl (herrs failure rfl))
      | contradicted => cases hfailed
      | @broken relations middle after _ hgather hsweep =>
          cases hfailed
          rw [hgather] at hworks
          have hswept : ErrsWith (Ends sheet.options)
              (outcome ((middle.trials relations).anyM (resolveBy id)) middle).1 := by
            refine errs_sweep id _ (fun relations unknowns state cause hcause => ?_)
              (fun _ hends => hworks.options ▸ hends) hworks.formed
            rw [hworks.engine] at hcause
            exact Or.inl (hengine relations unknowns state cause hcause)
          rw [hsweep] at hswept
          exact Or.inl (hswept failure rfl)
      | @again relations middle after hgather hsweep =>
          rw [hgather] at hworks
          have hswept := works_sweep id (middle.trials relations) middle hworks.formed
          rw [hsweep] at hswept
          have hboth := hworks.trans hswept
          have hrest := ih (show SteadyEngine after.engine by rw [hboth.engine]; exact hengine)
            (hboth.procedures.trans hprocedures) hboth.formed
          rw [hboth.options] at hrest
          exact hrest failure hfailed
      | settled => cases hfailed

/-- A visit to the branches fails incidentally, or because a solution was denied and the options ask
for the run to end there, or for want of steps. -/
theorem errs_visitAll (limit steps : Nat) (visited : List Nat)
    (hengine : SteadyEngine sheet.engine) (hprocedures : sheet.procedures = [])
    (hformed : sheet.branches.WellFormed) :
    ErrsWith (Stops sheet.options) (outcome (visitAll limit steps visited) sheet).1 := by
  induction steps generalizing sheet visited with
  | zero =>
      rw [visitAll]
      exact .throw (Or.inr rfl)
  | succ steps ih =>
      have hvisit := visit_visitAll limit steps visited sheet hformed
      intro failure hfailed
      generalize outcome (visitAll limit (steps + 1) visited) sheet = run at hvisit hfailed
      cases hvisit with
      | done => cases hfailed
      | @broken index branch log _ after hbranch _ hsettle =>
          cases hfailed
          have hsettled := errs_settle branch.id limit
            (show SteadyEngine (sheet.turnedTo index log).engine from hengine) hprocedures
            (formed_turnedTo hformed hbranch log)
          rw [hsettle] at hsettled
          exact hsettled failure rfl
      | @next index branch log after hbranch _ hsettle =>
          have hpasses := passes_visit hprocedures hformed hbranch log limit
          rw [hsettle] at hpasses
          have hrest := ih (branch.id :: visited)
            (show SteadyEngine after.engine by rw [hpasses.engine]; exact hengine)
            (hpasses.procedures.trans hprocedures) hpasses.formed
          rw [hpasses.options] at hrest
          exact hrest failure hfailed

end Runs

end Worksheet

end Ramify
