import Ramify.Proofs.Worksheet.Pass

/-!
Worksheets side by side. The course of a run depends on the face of a worksheet, which is all that a
caller can see of it, on the answers of the engine and on the verdicts of the judge. If two
worksheets with the same face get the same answers and verdicts, then whatever is done with them
ends alike, and leaves them with the same face.
-/

namespace Ramify.Worksheet

variable {K σ τ : Type}

/-- What a caller can see of a worksheet, and what its runs depend on besides the engine and the
judge. -/
structure Face (K : Type) where
  maxSubset : Nat
  raiseOnUnsolvable : Bool
  branches : Branches K
  descriptions : SortedMap String String
  equations : List (Equation K)
  procedures : List (Procedure K)
  marked : SortedMap Nat (List (Relation K))
  unsolvable : Bool
  inProcedure : Bool
  solved : Bool

def face (sheet : Worksheet K σ) : Face K where
  maxSubset := sheet.options.maxSubset
  raiseOnUnsolvable := sheet.options.raiseOnUnsolvable
  branches := sheet.branches
  descriptions := sheet.descriptions
  equations := sheet.equations
  procedures := sheet.procedures
  marked := sheet.marked
  unsolvable := sheet.unsolvable
  inProcedure := sheet.inProcedure
  solved := sheet.solved

def withFace (sheet : Worksheet K σ) (face : Face K) : Worksheet K σ :=
  { sheet with
    options := { sheet.options with
      maxSubset := face.maxSubset
      raiseOnUnsolvable := face.raiseOnUnsolvable }
    branches := face.branches
    descriptions := face.descriptions
    equations := face.equations
    procedures := face.procedures
    marked := face.marked
    unsolvable := face.unsolvable
    inProcedure := face.inProcedure
    solved := face.solved }

/-- Two actions on worksheets end alike, without exception. -/
abbrev Alongside {α : Type} (R : Worksheet K σ → Worksheet K τ → Prop) (first : Action K σ α)
    (second : Action K τ α) : Prop :=
  Lockstep R Never first second

/-- Worksheets that are related have the same face, whatever changes it, and what they tell or are
answered keeps them related. -/
structure Mirrors (R : Worksheet K σ → Worksheet K τ → Prop) : Prop where
  face : ∀ s t, R s t → t.face = s.face
  withFace : ∀ s t, R s t → ∀ face, R (s.withFace face) (t.withFace face)
  tell : ∀ line, Alongside R (tell line) (tell line)
  narrate : ∀ line, Alongside R (narrate line) (narrate line)
  ask : ∀ relations unknowns, Alongside R (ask relations unknowns) (ask relations unknowns)

namespace Mirrors

variable {R : Worksheet K σ → Worksheet K τ → Prop} {s : Worksheet K σ} {t : Worksheet K τ}

theorem branches (hmirrors : Mirrors R) (h : R s t) : t.branches = s.branches :=
  congrArg Face.branches (hmirrors.face s t h)

theorem value (hmirrors : Mirrors R) (h : R s t) : t.value = s.value := by
  funext name
  unfold Worksheet.value
  rw [hmirrors.branches h]

/-- A change of the face. -/
theorem modify (hmirrors : Mirrors R) {change : Worksheet K σ → Worksheet K σ}
    {other : Worksheet K τ → Worksheet K τ} (rule : Face K → Face K)
    (hchange : ∀ s, change s = s.withFace (rule s.face))
    (hother : ∀ t, other t = t.withFace (rule t.face)) :
    Alongside R (modify change) (modify other) := by
  apply Lockstep.modify
  intro s t h
  rw [hchange, hother, hmirrors.face s t h]
  exact hmirrors.withFace s t h _

/-- An action on the branches. -/
theorem onBranches (hmirrors : Mirrors R) {α : Type} (action : Branches.Action K α) :
    Alongside R (onBranches action) (onBranches action) := by
  intro s t h
  rw [outcome_onBranches, outcome_onBranches, hmirrors.branches h]
  refine Or.inr ⟨rfl, ?_⟩
  change R (s.withFace { s.face with branches := _ }) (t.withFace { t.face with branches := _ })
  rw [hmirrors.face s t h]
  exact hmirrors.withFace s t h _

end Mirrors

section Actions

variable {R : Worksheet K σ → Worksheet K τ → Prop} (hmirrors : Mirrors R)

include hmirrors

theorem alongside_mark (id : Nat) (relations : List (Relation K)) :
    Alongside R (mark id relations) (mark id relations) :=
  hmirrors.modify (fun face => { face with marked := face.marked.insert id relations })
    (fun _ => rfl) (fun _ => rfl)

theorem alongside_unmark : Alongside R unmark unmark :=
  hmirrors.modify (fun face => { face with marked := ∅ }) (fun _ => rfl) (fun _ => rfl)

theorem alongside_setInProcedure (inProcedure : Bool) :
    Alongside R (setInProcedure inProcedure) (setInProcedure inProcedure) :=
  hmirrors.modify (fun face => { face with inProcedure := inProcedure })
    (fun _ => rfl) (fun _ => rfl)

theorem alongside_rotate : Alongside R rotate rotate :=
  hmirrors.modify (fun face => { face with branches := face.branches.rotate })
    (fun _ => rfl) (fun _ => rfl)

theorem alongside_switch (index : Nat) : Alongside R (switch index) (switch index) :=
  hmirrors.onBranches _

theorem alongside_clear [Scalar K] (name : String) : Alongside R (clear name) (clear name) := by
  apply Lockstep.bind (hmirrors.onBranches _)
  intro _
  exact hmirrors.modify (fun face => { face with solved := false }) (fun _ => rfl) (fun _ => rfl)

theorem alongside_dropCurrent : Alongside R dropCurrent dropCurrent := by
  apply Lockstep.get
  intro s t h
  rw [hmirrors.branches h]
  dsimp only
  split
  · exact .bind (.throw _) (fun _ => .bind (.ofExcept _) (fun _ =>
      .bind (hmirrors.narrate _) (fun _ => hmirrors.onBranches _)))
  · apply Lockstep.bind (.ofExcept _)
    intro id
    exact .bind (hmirrors.narrate _) (fun _ => hmirrors.onBranches _)

theorem alongside_declare [Scalar K] (names : List String) :
    Alongside R (declare names) (declare names) := by
  apply Lockstep.get
  intro s t h
  rw [hmirrors.branches h]
  split
  · exact .bind (.throw _) (fun _ => .bind (.ofExcept _) (fun _ => hmirrors.onBranches _))
  · exact .bind (.ofExcept _) (fun _ => hmirrors.onBranches _)

theorem alongside_assign (name : String) (value : Fraction K) :
    Alongside R (assign name value) (assign name value) := by
  apply Lockstep.get
  intro s t h
  rw [show t.inProcedure = s.inProcedure from congrArg Face.inProcedure (hmirrors.face s t h),
    show t.solved = s.solved from congrArg Face.solved (hmirrors.face s t h)]
  split
  · exact hmirrors.onBranches _
  · split
    · exact .bind (hmirrors.tell _) (fun _ => hmirrors.onBranches _)
    · exact hmirrors.onBranches _

variable [Scalar K]

theorem alongside_evaluate (formula : Formula K) :
    Alongside R (evaluate formula) (evaluate formula) := by
  apply Lockstep.get
  intro s t h
  rw [hmirrors.value h]
  exact .ofExcept _

theorem alongside_number (formula : Formula K) :
    Alongside R (number formula) (number formula) :=
  .bind (alongside_evaluate hmirrors formula) (fun _ => .ofExcept _)

theorem alongside_test (condition : Condition K) :
    Alongside R (test condition) (test condition) := by
  induction condition with
  | less value bound => exact .bind (alongside_number hmirrors value) (fun _ => .pure _)
  | greater value bound => exact .bind (alongside_number hmirrors value) (fun _ => .pure _)
  | measuredLess quantity target bound =>
      apply Lockstep.bind (alongside_evaluate hmirrors quantity)
      intro measured
      apply Lockstep.bind (alongside_evaluate hmirrors target)
      intro unit
      exact .bind (.ofExcept _) (fun _ => .pure _)
  | resolved values =>
      exact .bind (.mapM (alongside_evaluate hmirrors) values) (fun _ => .pure _)
  | variableResolved name =>
      apply Lockstep.get
      intro s t h
      unfold isResolved
      rw [hmirrors.value h]
      exact .ofExcept _
  | moreBranches count =>
      apply Lockstep.get
      intro s t h
      rw [hmirrors.branches h]
      exact .pure _
  | not condition ih => exact .bind ih (fun _ => .pure _)
  | and first second ihfirst ihsecond =>
      apply Lockstep.bind ihfirst
      intro holds
      cases holds with
      | true => exact ihsecond
      | false => exact .pure false

theorem alongside_perform (program : Program K) :
    Alongside R (perform program) (perform program) := by
  induction program with
  | skip => exact .pure ()
  | seq first second ihfirst ihsecond => exact .bind ihfirst (fun _ => ihsecond)
  | choose condition yes no ihyes ihno =>
      apply Lockstep.bind (alongside_test hmirrors condition)
      intro holds
      cases holds with
      | true => exact ihyes
      | false => exact ihno
  | set name value =>
      exact .bind (alongside_evaluate hmirrors value)
        (fun found => alongside_assign hmirrors name found)
  | delete => exact alongside_dropCurrent hmirrors
  | clear name => exact alongside_clear hmirrors name
  | need value => exact .bind (alongside_number hmirrors value) (fun _ => .pure ())
  | rotate => exact alongside_rotate hmirrors
  | switch index => exact alongside_switch hmirrors index
  | declare names => exact alongside_declare hmirrors names
  | giveUp report => exact .throw _
  | fail report => exact .throw _

theorem alongside_performProcedure (procedure : Procedure K) :
    Alongside R (performProcedure procedure) (performProcedure procedure) := by
  apply Lockstep.tryCatch (alongside_perform hmirrors procedure.body)
  intro failure
  split
  · exact hmirrors.narrate _
  · exact .throw failure

theorem alongside_performEach (id : Nat) (procedures : List (Procedure K)) :
    Alongside R (performEach id procedures) (performEach id procedures) := by
  induction procedures with
  | nil => exact .pure true
  | cons procedure rest ih =>
      apply Lockstep.bind (alongside_performProcedure hmirrors procedure)
      intro _
      apply Lockstep.get
      intro s t h
      rw [hmirrors.branches h]
      split
      · exact .pure false
      · exact ih

theorem alongside_performAll (id : Nat) : Alongside R (performAll id) (performAll id) := by
  apply Lockstep.bind (alongside_setInProcedure hmirrors true)
  intro _
  apply Lockstep.get
  intro s t h
  rw [show t.procedures = s.procedures from congrArg Face.procedures (hmirrors.face s t h)]
  apply Lockstep.bind
  · apply Lockstep.tryCatch (alongside_performEach hmirrors id s.procedures)
    intro failure
    exact .bind (alongside_setInProcedure hmirrors false) (fun _ => .throw failure)
  · intro stays
    exact .bind (alongside_setInProcedure hmirrors false) (fun _ => .pure stays)

theorem alongside_relationOf (equation : Equation K) :
    Alongside R (relationOf equation) (relationOf equation) := by
  apply Lockstep.bind (.mapM (alongside_evaluate hmirrors) equation.sides)
  intro sides
  split
  · exact .bind (.ofExcept _) (fun _ => .bind (.ofExcept _) (fun _ => .pure _))
  · exact .throw _

theorem alongside_adoptEach (solution : Solution K) (index : Nat) (names : List String) :
    Alongside R (adoptEach solution index names) (adoptEach solution index names) := by
  induction names with
  | nil => exact .pure ()
  | cons name rest ih =>
      unfold adoptEach
      cases solution.find? ⟨name, false⟩ with
      | some value =>
          apply Lockstep.bind (hmirrors.onBranches _)
          intro _
          exact .bind (hmirrors.narrate _) (fun _ => ih)
      | none =>
          apply Lockstep.get
          intro s t h
          rw [hmirrors.branches h]
          apply Lockstep.bind (.ofExcept _)
          intro old
          apply Lockstep.bind (.ofExcept _)
          intro value
          exact .bind (hmirrors.onBranches _) (fun _ => ih)

theorem alongside_adopt (solution : Solution K) (index : Nat) :
    Alongside R (adopt solution index) (adopt solution index) := by
  apply Lockstep.get
  intro s t h
  rw [hmirrors.branches h]
  exact alongside_adoptEach hmirrors solution index _

theorem alongside_copyFor (id index : Nat) (solutions : List (Solution K)) :
    Alongside R (copyFor id index solutions) (copyFor id index solutions) := by
  induction solutions with
  | nil => exact .pure ()
  | cons solution rest ih =>
      apply Lockstep.bind (hmirrors.onBranches _)
      intro copy
      apply Lockstep.bind (alongside_adopt hmirrors solution copy)
      intro _
      apply Lockstep.get
      intro s t h
      rw [hmirrors.branches h]
      apply Lockstep.bind (.ofExcept _)
      intro copyId
      exact .bind (hmirrors.narrate _) (fun _ => ih)

theorem alongside_resolveBy (id : Nat) (subset : List (Relation K)) :
    Alongside R (resolveBy id subset) (resolveBy id subset) := by
  apply Lockstep.get
  intro s t h
  rw [hmirrors.branches h]
  dsimp only
  split
  · exact .pure false
  apply Lockstep.bind (hmirrors.ask _ _)
  intro answer
  cases answer with
  | indeterminate => exact .pure false
  | noSolution =>
      have hreport : Alongside R
          (modify fun sheet => { sheet with unsolvable := true } : Action K σ Unit)
          (modify fun sheet => { sheet with unsolvable := true }) :=
        hmirrors.modify (fun face => { face with unsolvable := true })
          (fun _ => rfl) (fun _ => rfl)
      apply Lockstep.get
      intro s t h
      rw [show t.options.raiseOnUnsolvable = s.options.raiseOnUnsolvable from
        congrArg Face.raiseOnUnsolvable (hmirrors.face s t h)]
      split
      · exact .bind (.throw _) (fun _ => .bind (hmirrors.narrate _)
          (fun _ => .bind hreport (fun _ => .pure false)))
      · exact .bind (hmirrors.narrate _) (fun _ => .bind hreport (fun _ => .pure false))
  | solved candidates =>
      apply Lockstep.get
      intro s t h
      rw [hmirrors.branches h]
      cases candidates.filter isNumeric with
      | nil => exact .pure false
      | cons first rest =>
          cases s.branches.indexOf? id with
          | none => exact .pure false
          | some index =>
              exact .bind (alongside_copyFor hmirrors id _ _) (fun _ =>
                .bind (alongside_adopt hmirrors _ _) (fun _ => .pure true))

theorem alongside_discardEach (ids : List Nat) :
    Alongside R (discardEach ids) (discardEach ids) := by
  induction ids with
  | nil => exact .pure ()
  | cons id rest ih =>
      apply Lockstep.get
      intro s t h
      rw [hmirrors.branches h]
      dsimp only
      cases s.branches.indexOf? id with
      | none => exact ih
      | some index =>
          apply Lockstep.bind (.ofExcept _)
          intro fingerprint
          apply Lockstep.bind (hmirrors.narrate _)
          intro _
          exact .bind (hmirrors.onBranches _) (fun _ => ih)

theorem alongside_discardMarked (startId : Nat) :
    Alongside R (discardMarked startId) (discardMarked startId) := by
  apply Lockstep.get
  intro s t h
  rw [hmirrors.branches h, show t.marked = s.marked from congrArg Face.marked (hmirrors.face s t h)]
  dsimp only
  split
  on_goal 1 =>
    split
    on_goal 1 =>
      apply Lockstep.bind (alongside_unmark hmirrors)
      intro _
      apply Lockstep.bind (.throw _)
      intro _
    all_goals
      apply Lockstep.bind (alongside_discardEach hmirrors _)
      intro _
      apply Lockstep.bind (alongside_unmark hmirrors)
      intro _
  -- In each case what remains is to go back to the branch in which the run began.
  all_goals
    apply Lockstep.get
    intro s t h
    rw [hmirrors.branches h]
    cases s.branches.indexOf? startId with
    | none => exact .pure ()
    | some index => exact hmirrors.onBranches _

theorem alongside_close (startId : Nat) (before : List (Bindings K)) :
    Alongside R (close startId before) (close startId before) := by
  have hend (count : Nat) : Alongside R
      (do
        modify fun sheet => { sheet with solved := true }
        narrate ("Solve finished with " ++ toString count ++ " branch(es).") : Action K σ Unit)
      (do
        modify fun sheet => { sheet with solved := true }
        narrate ("Solve finished with " ++ toString count ++ " branch(es).")) := by
    refine .bind (hmirrors.modify (fun face => { face with solved := true }) ?_ ?_)
      (fun _ => hmirrors.narrate _) <;> exact fun _ => rfl
  apply Lockstep.bind (alongside_discardMarked hmirrors startId)
  intro _
  apply Lockstep.get
  intro s t h
  rw [hmirrors.branches h,
    show t.unsolvable = s.unsolvable from congrArg Face.unsolvable (hmirrors.face s t h)]
  split
  · exact .bind (.throw _) (fun _ => hend _)
  · exact hend _

omit [Scalar K] in
theorem alongside_checkMethod (kind : MethodKind) (name : String) :
    Alongside R (checkMethod kind name) (checkMethod kind name) := by
  have hunused : Alongside R
      (do
        let sheet ← get
        if sheet.equations.any (fun e => e.name == name) ||
            sheet.procedures.any (fun p => p.name == name) then
          throw (.repeatedMethod name) : Action K σ Unit)
      (do
        let sheet ← get
        if sheet.equations.any (fun e => e.name == name) ||
            sheet.procedures.any (fun p => p.name == name) then
          throw (.repeatedMethod name)) := by
    apply Lockstep.get
    intro s t h
    rw [show t.equations = s.equations from congrArg Face.equations (hmirrors.face s t h),
      show t.procedures = s.procedures from congrArg Face.procedures (hmirrors.face s t h)]
    split
    · exact .throw _
    · exact .pure ()
  unfold checkMethod
  split
  · exact .bind (.throw _) (fun _ => hunused)
  · exact hunused

omit [Scalar K] in
theorem alongside_registerEquation (name : String) (sides : Option (List (Formula K))) :
    Alongside R (registerEquation name sides) (registerEquation name sides) := by
  apply Lockstep.bind (alongside_checkMethod hmirrors .equation name)
  intro _
  cases sides with
  | none => exact .throw _
  | some sides =>
      exact hmirrors.modify
        (fun face => { face with equations := face.equations ++ [⟨name, sides⟩] })
        (fun _ => rfl) (fun _ => rfl)

omit [Scalar K] in
theorem alongside_registerProcedure (name : String) (body : Option (Program K)) :
    Alongside R (registerProcedure name body) (registerProcedure name body) := by
  apply Lockstep.bind (alongside_checkMethod hmirrors .procedure name)
  intro _
  cases body with
  | none => exact .throw _
  | some body =>
      exact hmirrors.modify
        (fun face => { face with procedures := face.procedures ++ [⟨name, body⟩] })
        (fun _ => rfl) (fun _ => rfl)

end Actions

section Judging

variable {R : Worksheet K σ → Worksheet K τ → Prop} [Scalar K] {Q : Relation K → Prop}

def judgedInGather : List (Equation K) → Worksheet K σ → List (Relation K)
  | [], _ => []
  | equation :: rest, sheet =>
    match outcome (relationOf equation) sheet with
    | (.error _, _) => []
    | (.ok relation, stated) =>
      relation ::
        match outcome (onJudge (Judge.verdict relation.lhs relation.rhs)) stated with
        | (.ok .redundant, judged) => judgedInGather rest judged
        | (.ok .usable, judged) => judgedInGather rest judged
        | _ => []

def judgedInSettle (id : Nat) : (steps : Nat) → Worksheet K σ → List (Relation K)
  | 0, _ => []
  | steps + 1, sheet =>
    match outcome (performAll id) sheet with
    | (.ok true, performed) =>
      judgedInGather performed.equations performed ++
        match outcome (gather id performed.equations []) performed with
        | (.ok (some relations), gathered) =>
          match outcome ((gathered.trials relations).anyM (resolveBy id)) gathered with
          | (.ok true, swept) => judgedInSettle id steps swept
          | _ => []
        | _ => []
    | _ => []

def judgedInVisit (limit : Nat) : (steps : Nat) → List Nat → Worksheet K σ → List (Relation K)
  | 0, _, _ => []
  | steps + 1, visited, sheet =>
    match nextUnvisited sheet.branches visited with
    | none => []
    | some (index, id) =>
      match outcome (turn index id) sheet with
      | (.ok (), turned) =>
        judgedInSettle id limit turned ++
          match outcome (settle id limit) turned with
          | (.ok (), middle) => judgedInVisit limit steps (id :: visited) middle
          | _ => []
      | _ => []

def judgedInSolve (steps : Nat) (sheet : Worksheet K σ) : List (Relation K) :=
  judgedInVisit steps steps [] sheet.opened

/-- The judges of related worksheets agree on certain relations. -/
def JudgesAlike (R : Worksheet K σ → Worksheet K τ → Prop) (Q : Relation K → Prop) : Prop :=
  ∀ relation, Q relation → Alongside R (onJudge (Judge.verdict relation.lhs relation.rhs))
    (onJudge (Judge.verdict relation.lhs relation.rhs))

-- A verdict can depend on what the face does not show, so from here on runs are in step only as
-- long as the judges agree on the relations that come up.

theorem inStep_gather (hmirrors : Mirrors R) (hjudges : JudgesAlike R Q) (id : Nat)
    (equations : List (Equation K)) (found : List (Relation K)) {s : Worksheet K σ}
    {t : Worksheet K τ} (h : R s t)
    (hjudged : ∀ relation ∈ judgedInGather equations s, Q relation) :
    InStep R Never (outcome (gather id equations found) s)
      (outcome (gather id equations found) t) := by
  induction equations generalizing found s t with
  | nil => exact Or.inr ⟨rfl, h⟩
  | cons equation rest ih =>
      rw [gather]
      apply (alongside_relationOf hmirrors equation s t h).bind
      intro relation stated stated' hstate h'
      rw [judgedInGather, hstate] at hjudged
      obtain ⟨hnow, hlater⟩ := List.forall_mem_cons.1 hjudged
      apply (hjudges relation hnow stated stated' h').bind
      intro verdict judged judged' hverdict hrelated
      rw [hverdict] at hlater
      cases verdict with
      | redundant => exact ih found hrelated hlater
      | usable => exact ih _ hrelated hlater
      | contradiction =>
          exact Lockstep.bind (hmirrors.narrate _) (fun _ =>
            .bind (alongside_mark hmirrors id _) (fun _ => .pure none)) judged judged' hrelated

theorem inStep_settle (hmirrors : Mirrors R) (hjudges : JudgesAlike R Q) (id steps : Nat)
    {s : Worksheet K σ} {t : Worksheet K τ} (h : R s t)
    (hjudged : ∀ relation ∈ judgedInSettle id steps s, Q relation) :
    InStep R Never (outcome (settle id steps) s) (outcome (settle id steps) t) := by
  induction steps generalizing s t with
  | zero => exact Or.inr ⟨rfl, h⟩
  | succ steps ih =>
      rw [settle, settle]
      apply (alongside_performAll hmirrors id s t h).bind
      intro stays performed performed' hperform h'
      cases stays with
      | false => exact Or.inr ⟨rfl, h'⟩
      | true =>
          rw [judgedInSettle, hperform] at hjudged
          obtain ⟨hnow, hlater⟩ := List.forall_mem_append.1 hjudged
          change InStep R Never (outcome (get >>= _) performed) (outcome (get >>= _) performed')
          rw [outcome_get_bind, outcome_get_bind,
            show performed'.equations = performed.equations from
              congrArg Face.equations (hmirrors.face _ _ h')]
          apply (inStep_gather hmirrors hjudges id _ [] h' hnow).bind
          intro relations? gathered gathered' hgather hrelated
          cases relations? with
          | none => exact Or.inr ⟨rfl, hrelated⟩
          | some relations =>
              dsimp only
              rw [outcome_get_bind, outcome_get_bind, anySubsetUpTo_eq_anyM, anySubsetUpTo_eq_anyM]
              have hlargest : largestSubset gathered'.options relations.length =
                  largestSubset gathered.options relations.length := by
                unfold largestSubset
                rw [show gathered'.options.maxSubset = gathered.options.maxSubset from
                  congrArg Face.maxSubset (hmirrors.face _ _ hrelated)]
              rw [hlargest]
              apply (Lockstep.anyM (alongside_resolveBy hmirrors id) _ _ _ hrelated).bind
              intro resolved swept swept' hsweep hswept
              cases resolved with
              | true =>
                  have hsweep' :
                      outcome ((gathered.trials relations).anyM (resolveBy id)) gathered =
                        (.ok true, swept) := hsweep
                  rw [hgather] at hlater
                  dsimp only at hlater
                  rw [hsweep'] at hlater
                  exact ih hswept hlater
              | false =>
                  exact Lockstep.bind (alongside_performAll hmirrors id) (fun _ => .pure ())
                    swept swept' hswept

theorem inStep_visitAll (hmirrors : Mirrors R) (hjudges : JudgesAlike R Q) (limit steps : Nat)
    (visited : List Nat) {s : Worksheet K σ} {t : Worksheet K τ} (h : R s t)
    (hjudged : ∀ relation ∈ judgedInVisit limit steps visited s, Q relation) :
    InStep R Never (outcome (visitAll limit steps visited) s)
      (outcome (visitAll limit steps visited) t) := by
  induction steps generalizing visited s t with
  | zero => exact Or.inr ⟨rfl, h⟩
  | succ steps ih =>
      cases hnext : nextUnvisited s.branches visited with
      | none =>
          rw [outcome_visitAll_done limit steps hnext,
            outcome_visitAll_done limit steps ((hmirrors.branches h).symm ▸ hnext)]
          exact Or.inr ⟨rfl, h⟩
      | some pair =>
          obtain ⟨index, id⟩ := pair
          have hnext' : nextUnvisited t.branches visited = some (index, id) :=
            (hmirrors.branches h).symm ▸ hnext
          obtain ⟨_, log, _, _, _, hturn⟩ := exists_turn hnext
          obtain ⟨_, log', _, _, _, hturn'⟩ := exists_turn hnext'
          have hturned : R (s.turnedTo index log) (t.turnedTo index log') := by
            have hturns : Alongside R (turn index id) (turn index id) :=
              .bind (hmirrors.onBranches _) (fun _ => hmirrors.narrate _)
            have hstates := (hturns s t h).never.2
            rw [hturn, hturn'] at hstates
            exact hstates
          rw [judgedInVisit, hnext] at hjudged
          dsimp only at hjudged
          rw [hturn] at hjudged
          obtain ⟨hnow, hlater⟩ := List.forall_mem_append.1 hjudged
          rw [outcome_visitAll_next limit steps hnext hturn,
            outcome_visitAll_next limit steps hnext' hturn']
          apply (inStep_settle hmirrors hjudges id limit hturned hnow).bind
          intro _ middle middle' hsettle hmiddle
          rw [hsettle] at hlater
          exact ih (id :: visited) hmiddle hlater

omit [Scalar K] in
/-- The warning at the start of a run keeps worksheets related. -/
theorem Mirrors.warned (hmirrors : Mirrors R) {s : Worksheet K σ} {t : Worksheet K τ} (h : R s t) :
    R { s with log := s.opened.log } { t with log := t.opened.log } := by
  have hsame : t.solved = s.solved := congrArg Face.solved (hmirrors.face s t h)
  have htold := (hmirrors.tell
    "Warning: solve() called on a system that is already solved. Solving again." s t h).never.2
  unfold Worksheet.opened
  by_cases hsolved : s.solved = true
  · rw [if_pos hsolved, if_pos (hsame.trans hsolved)]
    exact htold
  · rw [if_neg hsolved, if_neg (hsame ▸ hsolved)]
    exact h

omit [Scalar K] in
theorem Mirrors.opened (hmirrors : Mirrors R) {s : Worksheet K σ} {t : Worksheet K τ} (h : R s t) :
    R s.opened t.opened := by
  have hopened : t.opened = ({ t with log := t.opened.log } : Worksheet K τ).withFace
      { s.face with unsolvable := false, marked := ∅ } := by
    rw [← hmirrors.face s t h]
    rfl
  rw [hopened]
  exact hmirrors.withFace _ _ (hmirrors.warned h) { s.face with unsolvable := false, marked := ∅ }

/-- A run fails at once if the current branch is missing. -/
theorem outcome_solve_lost (steps : Nat) {sheet : Worksheet K σ} {failure : Failure K}
    (hlost : sheet.branches.identityAt sheet.branches.current = .error failure) :
    outcome (solve steps) sheet = (.error failure, { sheet with log := sheet.opened.log }) := by
  unfold solve Worksheet.opened
  rw [outcome_get_bind]
  dsimp only
  by_cases hsolved : sheet.solved = true
  · rw [if_pos hsolved, if_pos hsolved, outcome_bind_ok _ (outcome_tell _ sheet), outcome_get_bind,
      hlost]
    rfl
  · rw [if_neg hsolved, if_neg hsolved, outcome_get_bind, hlost]
    rfl

/-- Runs of related worksheets are in step if the judges agree on what is judged. -/
theorem inStep_solve (hmirrors : Mirrors R) (hjudges : JudgesAlike R Q) (steps : Nat)
    {s : Worksheet K σ} {t : Worksheet K τ} (h : R s t)
    (hjudged : ∀ relation ∈ s.judgedInSolve steps, Q relation) :
    InStep R Never (outcome (solve steps) s) (outcome (solve steps) t) := by
  have hbranches := hmirrors.branches h
  cases hbranch : s.branches.list[s.branches.current]? with
  | none =>
      have hlost := Branches.identityAt_none hbranch
      have hlost' : t.branches.identityAt t.branches.current =
          .error (.noSuchBranch s.branches.current s.branches.count) := by
        rw [hbranches]
        exact hlost
      rw [outcome_solve_lost steps hlost, outcome_solve_lost steps hlost']
      exact Or.inr ⟨rfl, hmirrors.warned h⟩
  | some branch =>
      rw [outcome_solve steps hbranch, outcome_solve steps (hbranches.symm ▸ hbranch), hbranches]
      apply (inStep_visitAll hmirrors hjudges steps steps [] (hmirrors.opened h) hjudged).bind
      intro _ middle middle' _ hmiddle
      exact alongside_close hmirrors branch.id s.branches.snapshot middle middle' hmiddle

end Judging

end Ramify.Worksheet
