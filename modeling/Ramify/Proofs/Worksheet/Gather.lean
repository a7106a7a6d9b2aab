import Ramify.Proofs.Branches
import Ramify.Worksheet.Solve

/-!
What a branch is asked before it is solved. The relations that the equations state in a branch
depend on its bindings alone, and so do the usable ones among them, up to what the judge has learnt;
collecting them on a worksheet is that calculation followed by a mark.
-/

namespace Ramify

/-- What the equations say in a branch: relations to be solved, or relations of which the last one
cannot hold. -/
inductive Findings (K : Type)
  | usable (relations : List (Relation K))
  | contradictory (relations : List (Relation K))

/-- The relations to be solved, unless there is a contradiction. -/
def Findings.usable? {K : Type} : Findings K → Option (List (Relation K))
  | usable relations => some relations
  | contradictory _ => none

namespace Worksheet

variable {K σ : Type} [Scalar K]

/-- The value of a name among some bindings. -/
def reading (bindings : Bindings K) (name : String) : Except (Failure K) (Fraction K) :=
  match bindings.find? name with
  | some value => .ok value
  | none => .error (.undeclared name)

/-- The relation that an equation states under some bindings. -/
def statedIn (bindings : Bindings K) (equation : Equation K) : Except (Failure K) (Relation K) := do
  match ← equation.sides.mapM (fun side => side.eval (reading bindings)) with
  | [lhs, rhs] =>
    let lhs ← Failure.liftAlgebra lhs.canonical
    let rhs ← Failure.liftAlgebra rhs.canonical
    pure ⟨lhs, rhs, equation.name⟩
  | sides => throw (.wrongSides equation.name sides.length)

/-- The usable relations that equations state under some bindings, after those already found. -/
def sift (bindings : Bindings K) :
    List (Equation K) → List (Relation K) → Judge.Action K (Findings K)
  | [], found => pure (.usable found)
  | equation :: rest, found => do
    let relation ← MonadExcept.ofExcept (statedIn bindings equation)
    match ← Judge.verdict relation.lhs relation.rhs with
    | .redundant => sift bindings rest found
    | .contradiction => pure (.contradictory (found ++ [relation]))
    | .usable =>
      sift bindings rest (if found.contains relation then found else found ++ [relation])

/-- If equations are sifted without a failure, the first of them states a relation that is judged,
and the others are sifted after it unless it cannot hold. -/
theorem sift_cons_ok {bindings : Bindings K} {equation : Equation K} {rest : List (Equation K)}
    {found : List (Relation K)} {findings : Findings K} {judge after : Judge K}
    (hrun : outcome (sift bindings (equation :: rest) found) judge = (.ok findings, after)) :
    ∃ relation verdict middle, statedIn bindings equation = .ok relation ∧
      outcome (Judge.verdict relation.lhs relation.rhs) judge = (.ok verdict, middle) ∧
      match verdict with
      | .redundant => outcome (sift bindings rest found) middle = (.ok findings, after)
      | .usable => outcome (sift bindings rest
          (if found.contains relation then found else found ++ [relation])) middle =
            (.ok findings, after)
      | .contradiction => findings = .contradictory (found ++ [relation]) ∧ after = middle := by
  unfold sift at hrun
  cases hstated : statedIn bindings equation with
  | error failure =>
      rw [hstated] at hrun
      cases hrun
  | ok relation =>
      rw [hstated, outcome_ofExcept_bind_ok] at hrun
      obtain ⟨verdict, middle, hverdict, hrest⟩ := outcome_bind_eq_ok.1 hrun
      refine ⟨relation, verdict, middle, rfl, hverdict, ?_⟩
      cases verdict with
      | redundant => exact hrest
      | usable => exact hrest
      | contradiction =>
          cases hrest
          exact ⟨rfl, rfl⟩

omit [Scalar K] in
def marksAfter (result : Except (Failure K) (Findings K)) (id : Nat)
    (marked : SortedMap Nat (List (Relation K))) : SortedMap Nat (List (Relation K)) :=
  match result with
  | .ok (.contradictory relations) => marked.insert id relations
  | _ => marked

omit [Scalar K] in
theorem outcome_tell (line : String) (sheet : Worksheet K σ) :
    outcome (tell line) sheet = (.ok (), { sheet with log := sheet.log.push line }) := rfl

omit [Scalar K] in
/-- Telling what is done changes the log only. -/
theorem outcome_narrate (line : String) (sheet : Worksheet K σ) :
    ∃ log, outcome (narrate line) sheet = (.ok (), { sheet with log := log }) := by
  unfold narrate
  rw [outcome_get_bind]
  split
  · exact ⟨_, outcome_tell _ _⟩
  · exact ⟨sheet.log, rfl⟩

omit [Scalar K] in
theorem outcome_onBranches {α : Type} (action : Branches.Action K α) (sheet : Worksheet K σ) :
    outcome (onBranches action) sheet =
      ((outcome action sheet.branches).1,
        { sheet with branches := (outcome action sheet.branches).2 }) := by
  unfold onBranches
  rw [outcome_get_bind]
  unfold outcome
  generalize action.run.run sheet.branches = run
  obtain ⟨result, after⟩ := run
  cases result <;> rfl

omit [Scalar K] in
theorem outcome_onJudge {α : Type} (action : Judge.Action K α) (sheet : Worksheet K σ) :
    outcome (onJudge action) sheet =
      ((outcome action sheet.judge).1,
        { sheet with judge := (outcome action sheet.judge).2 }) := by
  unfold onJudge
  rw [outcome_get_bind]
  unfold outcome
  generalize action.run.run sheet.judge = run
  obtain ⟨result, after⟩ := run
  cases result <;> rfl

def asked (sheet : Worksheet K σ) (relations : List (Relation K)) (unknowns : List Symbol) :
    Worksheet K σ :=
  let answer := sheet.engine.ask relations unknowns sheet.engineState
  { sheet with engineState := answer.2.1, log := sheet.log ++ answer.2.2.toArray }

omit [Scalar K] in
theorem outcome_ask (relations : List (Relation K)) (unknowns : List Symbol)
    (sheet : Worksheet K σ) :
    outcome (ask relations unknowns) sheet =
      ((sheet.engine.ask relations unknowns sheet.engineState).1,
        sheet.asked relations unknowns) := by
  unfold ask asked
  rw [outcome_get_bind]
  generalize sheet.engine.ask relations unknowns sheet.engineState = answer
  obtain ⟨result, state, lines⟩ := answer
  cases result <;> rfl

/-- Without procedures there is nothing to perform. -/
theorem outcome_performAll (id : Nat) (sheet : Worksheet K σ) (h : sheet.procedures = []) :
    outcome (performAll id) sheet = (.ok true, { sheet with inProcedure := false }) := by
  unfold performAll setInProcedure
  rw [outcome_modify_bind, outcome_get_bind, h]
  rfl

omit [Scalar K] in
theorem value_eq_reading {sheet : Worksheet K σ} (hformed : sheet.branches.WellFormed)
    {branch : Branch K} (hbranch : sheet.branches.list[sheet.branches.current]? = some branch) :
    sheet.value = reading branch.bindings := by
  funext name
  exact Branches.get_current hformed hbranch name

theorem outcome_evaluate (formula : Formula K) {sheet : Worksheet K σ}
    (hformed : sheet.branches.WellFormed) {branch : Branch K}
    (hbranch : sheet.branches.list[sheet.branches.current]? = some branch) :
    outcome (evaluate formula) sheet = (formula.eval (reading branch.bindings), sheet) := by
  unfold evaluate
  rw [outcome_get_bind, outcome_ofExcept, value_eq_reading hformed hbranch]

private theorem outcome_mapM {ε S α β : Type} {f : α → ExceptT ε (StateM S) β}
    {g : α → Except ε β} {state : S} (h : ∀ x, outcome (f x) state = (g x, state))
    (xs : List α) : outcome (xs.mapM f) state = (xs.mapM g, state) := by
  induction xs with
  | nil => rfl
  | cons x rest ih =>
      rw [List.mapM_cons, List.mapM_cons]
      cases hx : g x with
      | error cause => exact outcome_bind_error _ (by rw [h, hx])
      | ok y =>
          rw [outcome_bind_ok (x := y) _ (by rw [h, hx])]
          cases hrest : rest.mapM g with
          | error cause => exact outcome_bind_error _ (by rw [ih, hrest])
          | ok ys => exact outcome_bind_ok _ (by rw [ih, hrest])

/-- Stating an equation reads the bindings of the current branch and changes nothing. -/
theorem outcome_relationOf (equation : Equation K) {sheet : Worksheet K σ}
    (hformed : sheet.branches.WellFormed) {branch : Branch K}
    (hbranch : sheet.branches.list[sheet.branches.current]? = some branch) :
    outcome (relationOf equation) sheet = (statedIn branch.bindings equation, sheet) := by
  unfold relationOf statedIn
  have hsides := outcome_mapM (fun side => outcome_evaluate side hformed hbranch) equation.sides
  cases hmap : equation.sides.mapM (fun side => side.eval (reading branch.bindings)) with
  | error cause => exact outcome_bind_error _ (by rw [hsides, hmap])
  | ok sides =>
      rw [outcome_bind_ok (x := sides) _ (by rw [hsides, hmap])]
      match sides with
      | [lhs, rhs] =>
          simp only [except_ok_bind]
          generalize (Failure.liftAlgebra lhs.canonical : Except (Failure K) (Fraction K)) = left
          generalize (Failure.liftAlgebra rhs.canonical : Except (Failure K) (Fraction K)) = right
          cases left <;> cases right <;> rfl
      | [] => rfl
      | [_] => rfl
      | _ :: _ :: _ :: _ => rfl

/-- Gathering relations is sifting the equations; a contradiction is marked. -/
theorem outcome_gather (id : Nat) (equations : List (Equation K)) (found : List (Relation K))
    (sheet : Worksheet K σ) (hformed : sheet.branches.WellFormed) {branch : Branch K}
    (hbranch : sheet.branches.list[sheet.branches.current]? = some branch) :
    ∃ log, outcome (gather id equations found) sheet =
      let sifted := outcome (sift branch.bindings equations found) sheet.judge
      (sifted.1.map Findings.usable?,
        { sheet with
          judge := sifted.2, log := log, marked := marksAfter sifted.1 id sheet.marked }) := by
  induction equations generalizing sheet found with
  | nil => exact ⟨sheet.log, rfl⟩
  | cons equation rest ih =>
      unfold sift gather
      cases hstated : statedIn branch.bindings equation with
      | error failure =>
          refine ⟨sheet.log, ?_⟩
          have hrelation := outcome_relationOf equation hformed hbranch
          rw [hstated] at hrelation
          rw [outcome_bind_error _ hrelation]
          rfl
      | ok relation =>
          have hrelation := outcome_relationOf equation hformed hbranch
          rw [hstated] at hrelation
          rw [outcome_bind_ok _ hrelation, outcome_ofExcept_bind_ok]
          have hjudge := outcome_onJudge (Judge.verdict relation.lhs relation.rhs) sheet
          rcases hverdict : outcome (Judge.verdict relation.lhs relation.rhs) sheet.judge with
            ⟨failure | verdict, judge⟩
          · rw [hverdict] at hjudge
            refine ⟨sheet.log, ?_⟩
            rw [outcome_bind_error _ hjudge, outcome_bind_error _ hverdict]
            rfl
          · rw [hverdict] at hjudge
            rw [outcome_bind_ok _ hjudge, outcome_bind_ok _ hverdict]
            cases verdict with
            | redundant => exact ih found _ hformed hbranch
            | usable => exact ih _ _ hformed hbranch
            | contradiction =>
                obtain ⟨log, hlog⟩ := outcome_narrate ("Contradiction in branch id " ++
                  toString id ++ ": " ++ relation.text 6) { sheet with judge := judge }
                exact ⟨log, outcome_bind_ok _ hlog⟩

end Worksheet

end Ramify
