import Ramify.Proofs.Random.Twister
import Ramify.Proofs.Solver.Search
import Ramify.Proofs.Worksheet.Course
import Ramify.Proofs.Worksheet.Look
import Ramify.Proofs.Worksheet.Rational

/-!
Solving a worksheet a second time. What one run has settled, the next one finds settled: it asks the
same questions about each branch, gets the same answers, and changes no branch. But it makes no
progress either, so that a solution that is denied again is now reported.
-/

namespace Ramify.Worksheet

variable {K σ : Type} [Scalar K]

/-- The usable relations of a branch, as the judge sees them now. -/
def relationsIn (sheet : Worksheet K σ) (branch : Branch K) : List (Relation K) :=
  match (outcome (sift branch.bindings sheet.equations []) sheet.judge).1 with
  | .ok (.usable relations) => relations
  | _ => []

/-- The lists of relations of a branch that the engine is asked about, as long as none of them
resolves anything. -/
def questions (sheet : Worksheet K σ) (branch : Branch K) : List (List (Relation K)) :=
  (sheet.trials (sheet.relationsIn branch)).filter (fun subset =>
    !(unknownsOf sheet.branches subset).isEmpty)

theorem mem_questions {sheet : Worksheet K σ} {branch : Branch K} {subset : List (Relation K)} :
    subset ∈ sheet.questions branch ↔ subset ∈ sheet.trials (sheet.relationsIn branch) ∧
      unknownsOf sheet.branches subset ≠ [] := by
  unfold questions
  rw [List.mem_filter, Bool.not_eq_true', List.isEmpty_eq_false_iff]

/-- Whether the answer to a question is the same in every state of the engine. -/
def AnsweredAlike (sheet : Worksheet K σ) (subset : List (Relation K)) : Prop :=
  ∀ state, (sheet.engine.ask subset (unknownsOf sheet.branches subset) state).1 =
    sheet.reply subset

/-- Whether an equation cannot hold in a branch, as the judge sees it now. -/
def refutes (sheet : Worksheet K σ) (branch : Branch K) (equation : Equation K) : Bool :=
  match statedIn branch.bindings equation with
  | .error _ => false
  | .ok relation =>
    match (outcome (Judge.verdict relation.lhs relation.rhs) sheet.judge).1 with
    | .ok .contradiction => true
    | _ => false

theorem verdict_of_not_refutes {sheet : Worksheet K σ} {branch : Branch K} {equation : Equation K}
    (h : sheet.refutes branch equation = false) {relation : Relation K}
    (hstated : statedIn branch.bindings equation = .ok relation) :
    (outcome (Judge.verdict relation.lhs relation.rhs) sheet.judge).1 ≠ .ok .contradiction := by
  intro hverdict
  unfold refutes at h
  rw [hstated] at h
  dsimp only at h
  rw [hverdict] at h
  cases h

/-- A branch with which nothing can be done any more: its relations are as the judge has seen them
before, and no question about them is answered by values. -/
structure Rests (sheet : Worksheet K σ) (branch : Branch K) : Prop where
  sifted : outcome (sift branch.bindings sheet.equations []) sheet.judge =
    (.ok (.usable (sheet.relationsIn branch)), sheet.judge)
  alike : ∀ subset ∈ sheet.questions branch, sheet.AnsweredAlike subset
  unresolved : ∀ subset ∈ sheet.questions branch, ∃ answer, sheet.reply subset = .ok answer ∧
    Unresolving sheet.options answer

/-- A branch that has been looked at rests, unless the judge has come to deny one of its relations
or the engine answers by chance. -/
theorem Looked.rests [IsStrictOrder K (· < ·)] {sheet : Worksheet K σ} {branch : Branch K}
    (h : Looked sheet branch)
    (hjudge : ∀ equation ∈ sheet.equations, sheet.refutes branch equation = false)
    (hengine : ∀ subset ∈ sheet.questions branch, sheet.AnsweredAlike subset) :
    Rests sheet branch := by
  obtain ⟨judge, after, relations, hsift, hgrown, htrials⟩ := h
  have hagain := sift_again hsift hgrown (fun equation hequation _ hstated =>
    verdict_of_not_refutes (hjudge equation hequation) hstated)
  have hrelations : sheet.relationsIn branch = relations := by
    unfold relationsIn
    rw [hagain]
  refine ⟨by rw [hrelations]; exact hagain, hengine, ?_⟩
  intro subset hsubset
  have hwhich := mem_questions.1 hsubset
  rw [hrelations] at hwhich
  rcases htrials subset hwhich.1 with hnone | ⟨state, answer, hanswer, hunresolving⟩
  · exact absurd hnone hwhich.2
  · refine ⟨answer, ?_, hunresolving⟩
    rw [← hengine subset hsubset state]
    exact hanswer

/-- A worksheet in which nothing happens to the branches and to the judge. -/
structure Idles (start sheet : Worksheet K σ) : Prop where
  options : sheet.options = start.options
  engine : sheet.engine = start.engine
  equations : sheet.equations = start.equations
  procedures : sheet.procedures = start.procedures
  judge : sheet.judge = start.judge
  marked : sheet.marked = ∅
  list : sheet.branches.list = start.branches.list
  nextId : sheet.branches.nextId = start.branches.nextId
  formed : sheet.branches.WellFormed

namespace Idles

variable {start sheet : Worksheet K σ}

omit [Scalar K] in
theorem unknownsOf_eq (h : Idles start sheet) (subset : List (Relation K)) :
    unknownsOf sheet.branches subset = unknownsOf start.branches subset := by
  unfold unknownsOf Branches.declares
  rw [h.list]

omit [Scalar K] in
theorem reply_eq (h : Idles start sheet) {subset : List (Relation K)}
    (halike : start.AnsweredAlike subset) : sheet.reply subset = start.reply subset := by
  have hstate := halike sheet.engineState
  unfold reply at hstate ⊢
  rw [h.engine, h.unknownsOf_eq subset]
  exact hstate

omit [Scalar K] in
theorem unvisited_eq (h : Idles start sheet) (visited : List Nat) :
    unvisited sheet.branches visited = unvisited start.branches visited := by
  unfold unvisited
  rw [h.list]

end Idles

/-- A question that is answered in vain changes no branch, but a denial is remembered. -/
theorem resolveBy_in_vain (id : Nat) {sheet : Worksheet K σ} {subset : List (Relation K)}
    {answer : Answer K} (hunknowns : unknownsOf sheet.branches subset ≠ [])
    (hreply : sheet.reply subset = .ok answer) (hanswer : Unresolving sheet.options answer) :
    ∃ unsolvable log, outcome (resolveBy id subset) sheet =
        (.ok false, { sheet.consulted subset with unsolvable := unsolvable, log := log }) ∧
      (unsolvable = true ↔ sheet.unsolvable = true ∨ answer = .noSolution) := by
  have hattempt := attempt_resolveBy id subset sheet
  generalize outcome (resolveBy id subset) sheet = run at hattempt
  cases hattempt with
  | idle hnone => exact absurd hnone hunknowns
  | failed _ hfailed =>
      rw [hreply] at hfailed
      cases hfailed
  | undecided _ hreply' hundecided =>
      rw [hreply] at hreply'
      cases hreply'
      refine ⟨sheet.unsolvable, _, rfl, ⟨Or.inl, ?_⟩⟩
      rintro (hflag | rfl)
      · exact hflag
      · rcases hundecided with hundecided | ⟨hne, _⟩
        · exact hundecided.elim
        · exact absurd rfl hne
  | refused _ hreply' hraise =>
      rw [hreply] at hreply'
      cases hreply'
      rcases hanswer with hundecided | ⟨_, hoff⟩
      · exact hundecided.elim
      · rw [hoff] at hraise
        cases hraise
  | inconsistent _ hreply' =>
      rw [hreply] at hreply'
      cases hreply'
      exact ⟨true, _, rfl, ⟨fun _ => Or.inr rfl, fun _ => rfl⟩⟩
  | resolved _ hreply' hnumeric _ =>
      rw [hreply] at hreply'
      cases hreply'
      rcases hanswer with hundecided | ⟨hdenied, _⟩
      · unfold Undecided at hundecided
        rw [hundecided] at hnumeric
        cases hnumeric
      · cases hdenied

/-- What a question about a resting branch does: it is answered in vain, and a denial is
remembered. -/
theorem resolveBy_idles (id : Nat) {start : Worksheet K σ} {branch : Branch K}
    (hrests : Rests start branch) {subset : List (Relation K)}
    (hsubset : subset ∈ start.trials (start.relationsIn branch)) (sheet : Worksheet K σ)
    (hidles : Idles start sheet) :
    ∃ after, outcome (resolveBy id subset) sheet = (.ok false, after) ∧ Idles start after ∧
      (after.unsolvable = true ↔ sheet.unsolvable = true ∨
        (subset ∈ start.questions branch ∧ start.reply subset = .ok .noSolution)) := by
  have hunknowns := hidles.unknownsOf_eq subset
  by_cases hquestion : subset ∈ start.questions branch
  · obtain ⟨answer, hanswer, hunresolving⟩ := hrests.unresolved subset hquestion
    have hsome : unknownsOf sheet.branches subset ≠ [] := by
      rw [hunknowns]
      exact (mem_questions.1 hquestion).2
    have hreply := (hidles.reply_eq (hrests.alike subset hquestion)).trans hanswer
    obtain ⟨unsolvable, log, hrun, hflag⟩ :=
      resolveBy_in_vain id hsome hreply (hidles.options ▸ hunresolving)
    refine ⟨_, hrun, { hidles with }, hflag.trans (or_congr_right ?_)⟩
    rw [hanswer, Except.ok.injEq]
    exact (and_iff_right hquestion).symm
  · have hnone : unknownsOf sheet.branches subset = [] := by
      rw [hunknowns]
      by_contra hsome
      exact hquestion (mem_questions.2 ⟨hsubset, hsome⟩)
    exact ⟨sheet, resolveBy_without_unknowns id hnone, hidles, Or.inl,
      fun h => h.resolve_right fun hasked => hquestion hasked.1⟩

/-- Whether the engine denies a solution to some relations of a branch. -/
def Denied (sheet : Worksheet K σ) (branch : Branch K) : Prop :=
  ∃ subset ∈ sheet.questions branch, sheet.reply subset = .ok .noSolution

/-- All questions about a resting branch are answered in vain. -/
theorem sweep_idles (id : Nat) {start : Worksheet K σ} {branch : Branch K}
    (hrests : Rests start branch) (subsets : List (List (Relation K)))
    (hsubsets : ∀ subset ∈ subsets, subset ∈ start.trials (start.relationsIn branch))
    (sheet : Worksheet K σ) (hidles : Idles start sheet) :
    ∃ after, outcome (subsets.anyM (resolveBy id)) sheet = (.ok false, after) ∧
      Idles start after ∧ (after.unsolvable = true ↔ sheet.unsolvable = true ∨
        ∃ subset ∈ subsets, subset ∈ start.questions branch ∧
          start.reply subset = .ok .noSolution) := by
  induction subsets generalizing sheet with
  | nil => exact ⟨sheet, rfl, hidles, Or.inl, fun h => h.resolve_right (by simp)⟩
  | cons subset rest ih =>
      obtain ⟨middle, hstep, hmiddle, hflag⟩ := resolveBy_idles id hrests
        (hsubsets subset List.mem_cons_self) sheet hidles
      obtain ⟨after, hrun, hafter, hflag'⟩ := ih
        (fun other hother => hsubsets other (List.mem_cons_of_mem _ hother)) middle hmiddle
      refine ⟨after, ?_, hafter, ?_⟩
      · rw [List.anyM, outcome_bind_ok _ hstep]
        exact hrun
      · rw [hflag', hflag, List.exists_mem_cons_iff, or_assoc]

/-- Solving a resting branch changes nothing but the memory of a denial. -/
theorem settle_idles (id steps : Nat) {start : Worksheet K σ} {branch : Branch K}
    (hprocedures : start.procedures = []) (hrests : Rests start branch) (sheet : Worksheet K σ)
    (hidles : Idles start sheet)
    (hbranch : sheet.branches.list[sheet.branches.current]? = some branch) :
    ∃ after, outcome (settle id (steps + 1)) sheet = (.ok (), after) ∧ Idles start after ∧
      (after.unsolvable = true ↔ sheet.unsolvable = true ∨ start.Denied branch) := by
  obtain ⟨log, hgather⟩ := outcome_gather id sheet.equations [] sheet.quiet hidles.formed hbranch
  have hsifted : outcome (sift branch.bindings sheet.equations []) sheet.quiet.judge =
      (.ok (.usable (start.relationsIn branch)), start.judge) := by
    change outcome (sift branch.bindings sheet.equations []) sheet.judge = _
    rw [hidles.equations, hidles.judge]
    exact hrests.sifted
  dsimp only at hgather
  rw [hsifted] at hgather
  change outcome (gather id sheet.equations []) sheet.quiet =
    (.ok (some (start.relationsIn branch)),
      { sheet.quiet with judge := start.judge, log := log }) at hgather
  have hmiddle : Idles start { sheet.quiet with judge := start.judge, log := log } :=
    { hidles with judge := rfl }
  have htrials : trials { sheet.quiet with judge := start.judge, log := log }
      (start.relationsIn branch) = start.trials (start.relationsIn branch) := by
    unfold trials
    rw [hmiddle.options]
  obtain ⟨after, hsweep, hafter, hflag⟩ := sweep_idles id hrests
    (start.trials (start.relationsIn branch)) (fun _ h => h) _ hmiddle
  have hround := round_settle id steps sheet (hidles.procedures.trans hprocedures) hidles.formed
  generalize outcome (settle id (steps + 1)) sheet = run at hround
  cases hround with
  | failed hgather' =>
      rw [hgather] at hgather'
      cases hgather'
  | contradicted hgather' =>
      rw [hgather] at hgather'
      cases hgather'
  | broken hgather' hsweep' =>
      rw [hgather] at hgather'
      cases hgather'
      rw [htrials, hsweep] at hsweep'
      cases hsweep'
  | again hgather' hsweep' =>
      rw [hgather] at hgather'
      cases hgather'
      rw [htrials, hsweep] at hsweep'
      cases hsweep'
  | settled hgather' hsweep' =>
      rw [hgather] at hgather'
      cases hgather'
      rw [htrials, hsweep] at hsweep'
      cases hsweep'
      refine ⟨_, rfl, { hafter with }, ?_⟩
      change after.unsolvable = true ↔ _
      rw [hflag]
      apply or_congr_right
      constructor
      · rintro ⟨subset, _, hquestion, hdenied⟩
        exact ⟨subset, hquestion, hdenied⟩
      · rintro ⟨subset, hquestion, hdenied⟩
        exact ⟨subset, (mem_questions.1 hquestion).1, hquestion, hdenied⟩

omit [Scalar K] in
/-- A visit to a branch leaves fewer to be visited. -/
theorem length_unvisited_lt {branches : Branches K} {visited : List Nat} {branch : Branch K}
    (hbranch : branch ∈ branches.list) (hnew : branch.id ∉ visited) :
    (unvisited branches (branch.id :: visited)).length < (unvisited branches visited).length := by
  have hsplit : unvisited branches (branch.id :: visited) =
      (unvisited branches visited).filter (fun other => !(other.id == branch.id)) := by
    unfold unvisited
    rw [List.filter_filter]
    apply List.filter_congr
    intro other _
    rw [List.contains_cons, Bool.not_or]
  rw [hsplit]
  exact List.length_filter_lt_length_iff_exists.2
    ⟨branch, mem_unvisited.2 ⟨hbranch, hnew⟩, by simp⟩

omit [Scalar K] in
/-- Those that are still to be visited are the next one and those to be visited after it. -/
theorem exists_unvisited_iff {P : Branch K → Prop} {branches : Branches K}
    (hformed : branches.WellFormed) {visited : List Nat} {branch : Branch K}
    (hbranch : branch ∈ branches.list) (hnew : branch.id ∉ visited) :
    (P branch ∨ ∃ other ∈ unvisited branches (branch.id :: visited), P other) ↔
      ∃ other ∈ unvisited branches visited, P other := by
  constructor
  · rintro (hnext | ⟨other, hother, hholds⟩)
    · exact ⟨branch, mem_unvisited.2 ⟨hbranch, hnew⟩, hnext⟩
    · obtain ⟨hlist, hid⟩ := mem_unvisited.1 hother
      exact ⟨other, mem_unvisited.2 ⟨hlist, fun h => hid (List.mem_cons_of_mem _ h)⟩, hholds⟩
  · rintro ⟨other, hother, hholds⟩
    obtain ⟨hlist, hid⟩ := mem_unvisited.1 hother
    by_cases hwhich : other.id = branch.id
    · left
      obtain rfl := hformed.branch_unique hlist hbranch hwhich
      exact hholds
    · exact Or.inr ⟨other, mem_unvisited.2 ⟨hlist, by simp [hwhich, hid]⟩, hholds⟩

/-- A visit to resting branches changes nothing but the memory of a denial. -/
theorem visitAll_idles (limit steps : Nat) (visited : List Nat) {start : Worksheet K σ}
    (hprocedures : start.procedures = [])
    (hrests : ∀ branch ∈ start.branches.list, Rests start branch) (sheet : Worksheet K σ)
    (hidles : Idles start sheet) (hsteps : (unvisited sheet.branches visited).length < steps) :
    ∃ found after, outcome (visitAll (limit + 1) steps visited) sheet = (.ok found, after) ∧
      Idles start after ∧ (after.unsolvable = true ↔ sheet.unsolvable = true ∨
        ∃ branch ∈ unvisited start.branches visited, start.Denied branch) := by
  induction steps generalizing sheet visited with
  | zero => exact absurd hsteps (Nat.not_lt_zero _)
  | succ steps ih =>
      have hvisit := visit_visitAll (limit + 1) steps visited sheet hidles.formed
      -- what solving the next branch does, whichever it is
      have hstep (index : Nat) (branch : Branch K) (log : Array String)
          (hbranch : sheet.branches.list[index]? = some branch) :
          ∃ after, outcome (settle branch.id (limit + 1)) (sheet.turnedTo index log) =
            (.ok (), after) ∧ Idles start after ∧
            (after.unsolvable = true ↔ sheet.unsolvable = true ∨ start.Denied branch) := by
        have hmem : branch ∈ start.branches.list := by
          rw [← hidles.list]
          exact List.mem_of_getElem? hbranch
        exact settle_idles branch.id limit hprocedures (hrests branch hmem)
          (sheet.turnedTo index log)
          { hidles with formed := formed_turnedTo hidles.formed hbranch log } hbranch
      generalize outcome (visitAll (limit + 1) (steps + 1) visited) sheet = run at hvisit
      cases hvisit with
      | done hall =>
          refine ⟨visited, sheet, rfl, hidles, Or.inl, ?_⟩
          rintro (hflag | ⟨branch, hbranch, _⟩)
          · exact hflag
          · rw [mem_unvisited, ← hidles.list] at hbranch
            exact absurd (hall branch hbranch.1) hbranch.2
      | @broken index branch log failure after hbranch hnew hsettle =>
          obtain ⟨_, hgood, _⟩ := hstep index branch log hbranch
          rw [hgood] at hsettle
          cases hsettle
      | @next index branch log middle hbranch hnew hsettle =>
          obtain ⟨_, hgood, hmiddle, hflag⟩ := hstep index branch log hbranch
          rw [hgood] at hsettle
          cases hsettle
          have hmem := List.mem_of_getElem? hbranch
          have hfewer := length_unvisited_lt hmem hnew
          have hsame := (hmiddle.unvisited_eq (branch.id :: visited)).trans
            (hidles.unvisited_eq (branch.id :: visited)).symm
          obtain ⟨found, after, hrun, hafter, hflag'⟩ :=
            ih (branch.id :: visited) middle hmiddle (by rw [hsame]; omega)
          refine ⟨found, after, hrun, hafter, ?_⟩
          rw [hflag', hflag, or_assoc, ← hidles.unvisited_eq, ← hidles.unvisited_eq]
          exact or_congr_right (exists_unvisited_iff hidles.formed hmem hnew)

/-- To discard the marked branches changes nothing, since none is marked. -/
theorem discardMarked_idles {start sheet after : Worksheet K σ} (hidles : Idles start sheet)
    {startId : Nat} (hstart : AtBranch startId start)
    (hstays : ∃ branch ∈ sheet.branches.list, branch.id ∉ sheet.marked.keys)
    (hdiscard : outcome (discardMarked startId) sheet = (.ok (), after)) :
    after.branches.list = start.branches.list ∧
      after.branches.current = start.branches.current := by
  obtain ⟨branches, log, hrun, hlist, hformed, _, _, hcurrent⟩ :=
    outcome_discardMarked_ok startId hidles.formed hstays
  rw [hrun] at hdiscard
  cases hdiscard
  have hsame : branches.list = start.branches.list := by
    rw [hlist, hidles.marked, ← hidles.list]
    exact List.filter_eq_self.2 (fun _ _ => rfl)
  obtain ⟨branch, hbranch, rfl⟩ := hstart
  exact ⟨hsame, hcurrent _ (hformed.indexOf?_eq (hsame ▸ hbranch))⟩

/-- A run on resting branches changes none of them. It ends well, unless a solution is denied. -/
theorem solve_idles {start : Worksheet K σ} (hprocedures : start.procedures = [])
    (hformed : start.branches.WellFormed)
    (hrests : ∀ branch ∈ start.branches.list, Rests start branch) {steps : Nat}
    (hsteps : start.branches.count < steps) :
    ∃ result after, outcome (solve steps) start = (result, after) ∧
      after.branches.list = start.branches.list ∧
      after.branches.current = start.branches.current ∧
      (result = .ok () ∨ result = .error .nothingSolved) ∧
      (result = .error .nothingSolved ↔
        (∃ branch ∈ start.branches.list, start.Denied branch) ∧
          (start.branches.snapshot == start.branches.snapshot) = true) := by
  obtain ⟨limit, rfl⟩ : ∃ limit, steps = limit + 1 :=
    Nat.exists_eq_succ_of_ne_zero (Nat.ne_of_gt (Nat.zero_lt_of_lt hsteps))
  have hopened : Idles start start.opened :=
    ⟨rfl, rfl, rfl, rfl, rfl, rfl, rfl, rfl, hformed⟩
  have hall : unvisited start.branches [] = start.branches.list :=
    List.filter_eq_self.2 (fun _ _ => rfl)
  obtain ⟨visited, middle, hpass, hidles, hflag⟩ := visitAll_idles limit (limit + 1) []
    hprocedures hrests start.opened hopened (by
      change (unvisited start.branches []).length < _
      rw [hall]
      exact hsteps)
  have hdenied : middle.unsolvable = true ↔
      ∃ branch ∈ start.branches.list, start.Denied branch := by
    rw [hflag, hall]
    exact or_iff_right nofun
  have hrun := run_solve (limit + 1) start hprocedures hformed
  generalize outcome (solve (limit + 1)) start = run at hrun
  cases hrun with
  | broken hpass' =>
      rw [hpass] at hpass'
      cases hpass'
  | hopeless hpass' hmarked =>
      rw [hpass] at hpass'
      cases hpass'
      obtain ⟨branch, hbranch⟩ := hidles.formed.exists_current
      have hkey := hmarked branch (List.mem_of_getElem? hbranch)
      rw [hidles.marked] at hkey
      cases hkey
  | fruitless hpass' hstays hstart hdiscard hunsolvable hsame =>
      rw [hpass] at hpass'
      cases hpass'
      obtain ⟨hlist, hcurrent⟩ := discardMarked_idles hidles hstart hstays hdiscard
      unfold Branches.snapshot at hsame
      rw [hlist] at hsame
      exact ⟨_, _, rfl, hlist, hcurrent, Or.inr rfl,
        ⟨fun _ => ⟨hdenied.1 hunsolvable, hsame⟩, fun _ => rfl⟩⟩
  | finished log hpass' hstays hstart hdiscard hgood =>
      rw [hpass] at hpass'
      cases hpass'
      obtain ⟨hlist, hcurrent⟩ := discardMarked_idles hidles hstart hstays hdiscard
      unfold Branches.snapshot at hgood
      rw [hlist] at hgood
      refine ⟨_, _, rfl, hlist, hcurrent, Or.inl rfl, ⟨nofun, ?_⟩⟩
      rintro ⟨hbranch, hsame⟩
      rcases hgood with hclear | hdiffers
      · rw [hdenied.2 hbranch] at hclear
        cases hclear
      · unfold Branches.snapshot at hsame
        rw [hsame] at hdiffers
        cases hdiffers

section Again

variable [IsStrictOrder K (· < ·)] {sheet after : Worksheet K σ} {steps : Nat}

/-- After a run that ended well, every branch has been looked at, and the steps are enough for as
many branches. -/
theorem solve_looked (hprocedures : sheet.procedures = []) (hformed : sheet.branches.WellFormed)
    (hrun : outcome (solve steps) sheet = (.ok (), after)) :
    after.engine = sheet.engine ∧ after.procedures = [] ∧ after.branches.WellFormed ∧
      after.branches.count < steps ∧ ∀ branch ∈ after.branches.list, Looked after branch := by
  have hshape := run_solve steps sheet hprocedures hformed
  rw [hrun] at hshape
  generalize hpair : ((.ok (), after) : Except (Failure K) Unit × _) = run at hshape
  cases hshape with
  | broken => cases hpair
  | hopeless => cases hpair
  | fruitless => cases hpair
  | @finished visited middle between startId log hpass hstays hstart hdiscard hgood =>
      have hpasses := passes_visitAll steps steps [] sheet.opened hprocedures hformed
      rw [hpass] at hpasses
      obtain ⟨hlooked, hcount⟩ := visitAll_looked steps steps [] sheet.opened hprocedures hformed
        nofun nofun hpass
      obtain ⟨branches, log', hdiscarded, hlist, hformed', hnames, _⟩ :=
        outcome_discardMarked_ok startId hpasses.formed hstays
      rw [hdiscarded] at hdiscard
      cases hdiscard
      cases hpair
      refine ⟨hpasses.engine, hpasses.procedures.trans hprocedures, hformed', ?_, ?_⟩
      · have hfewer : branches.list.length ≤ middle.branches.list.length := by
          rw [hlist]
          exact List.length_filter_le _ _
        exact Nat.lt_of_le_of_lt hfewer hcount
      · intro branch hbranch
        have hkept : branch ∈ middle.branches.list.filter
            (fun branch => !middle.marked.keys.contains branch.id) := hlist ▸ hbranch
        obtain ⟨hmem, hfree⟩ := List.mem_filter.1 hkept
        have hunmarked : branch.id ∉ middle.marked.keys := by simpa using hfree
        exact (hlooked branch hmem hunmarked).later hpasses.formed hformed' hnames rfl rfl rfl
          (Judge.Extends.refl _)

/-- After a run that ended well, another one leaves the branches, their order, their bindings and
the current branch as they are, provided that the judge has not come to refute an equation and the
engine does not answer by chance. It ends well too, unless a solution is denied in some branch. -/
theorem solve_again_changes_no_branch (hprocedures : sheet.procedures = [])
    (hformed : sheet.branches.WellFormed)
    (hrun : outcome (solve steps) sheet = (.ok (), after))
    (hjudge : ∀ branch ∈ after.branches.list, ∀ equation ∈ after.equations,
      after.refutes branch equation = false)
    (hengine : ∀ branch ∈ after.branches.list, ∀ subset ∈ after.questions branch,
      after.AnsweredAlike subset) :
    ∃ result again, outcome (solve steps) after = (result, again) ∧
      again.branches.list = after.branches.list ∧
      again.branches.current = after.branches.current ∧
      (result = .ok () ∨ result = .error .nothingSolved) ∧
      (result = .error .nothingSolved ↔
        (∃ branch ∈ after.branches.list, after.Denied branch) ∧
          (after.branches.snapshot == after.branches.snapshot) = true) := by
  obtain ⟨_, hprocedures', hformed', hcount, hlooked⟩ := solve_looked hprocedures hformed hrun
  apply solve_idles hprocedures' hformed' ?_ hcount
  intro branch hbranch
  exact (hlooked branch hbranch).rests (hjudge branch hbranch) (hengine branch hbranch)

def squareAndSum : Worksheet Rat Twister :=
  Rational.sheet Methods.standard ["x", "y", "z"]
    [⟨"square", [.mul (.value "x") (.value "x"), .number 4]⟩, Rational.sumEquation "sum" "y" "z" 1]

theorem square_and_sum_solved_again :
    (outcome (solve 5) squareAndSum).2.branches.count = 2 ∧
    ∃ result again, outcome (solve 5) (outcome (solve 5) squareAndSum).2 = (result, again) ∧
      again.branches.list = (outcome (solve 5) squareAndSum).2.branches.list ∧
      (result = .ok () ∨ result = .error .nothingSolved) := by
  have hok : (outcome (solve 5) squareAndSum).1 = .ok () := by
    have hisOk : (outcome (solve 5) squareAndSum).1.isOk = true := by decide +kernel
    cases hresult : (outcome (solve 5) squareAndSum).1 with
    | ok x => rfl
    | error failure =>
        rw [hresult] at hisOk
        cases hisOk
  have hjudge : ∀ branch ∈ (outcome (solve 5) squareAndSum).2.branches.list,
      ∀ equation ∈ (outcome (solve 5) squareAndSum).2.equations,
        (outcome (solve 5) squareAndSum).2.refutes branch equation = false := by
    have hall : (outcome (solve 5) squareAndSum).2.branches.list.all (fun branch =>
        (outcome (solve 5) squareAndSum).2.equations.all (fun equation =>
          !(outcome (solve 5) squareAndSum).2.refutes branch equation)) = true := by
      decide +kernel
    simpa only [List.all_eq_true, Bool.not_eq_true'] using hall
  have hsearch : ∀ branch ∈ (outcome (solve 5) squareAndSum).2.branches.list,
      ∀ subset ∈ (outcome (solve 5) squareAndSum).2.questions branch,
        Solver.reachesSearch Methods.standard Rational.settings subset
          (unknownsOf (outcome (solve 5) squareAndSum).2.branches subset) = false := by
    have hall : (outcome (solve 5) squareAndSum).2.branches.list.all (fun branch =>
        ((outcome (solve 5) squareAndSum).2.questions branch).all (fun subset =>
          !Solver.reachesSearch Methods.standard Rational.settings subset
            (unknownsOf (outcome (solve 5) squareAndSum).2.branches subset))) = true := by
      decide +kernel
    simpa only [List.all_eq_true, Bool.not_eq_true'] using hall
  have hrun : outcome (solve 5) squareAndSum = (.ok (), (outcome (solve 5) squareAndSum).2) :=
    Prod.ext hok rfl
  have hformed := Rational.wellFormed_sheet Methods.standard ["x", "y", "z"] squareAndSum.equations
  have hengine := (solve_looked rfl hformed hrun).1
  refine ⟨by decide +kernel, ?_⟩
  obtain ⟨result, again, hagain, hlist, _, hresult, _⟩ :=
    solve_again_changes_no_branch rfl hformed hrun hjudge (by
      intro branch hbranch subset hsubset state
      have hquiet := hsearch branch hbranch subset hsubset
      unfold reply
      rw [hengine]
      exact (Solver.ask_of_not_reachesSearch hquiet state).trans
        (Solver.ask_of_not_reachesSearch hquiet _).symm)
  exact ⟨result, again, hagain, hlist, hresult⟩

/-- A number that is as good as zero until a small coefficient has been seen. -/
def smallNumber : Worksheet Rat Twister :=
  { Rational.sheet Methods.standard ["x", "y"]
      [⟨"small", [.number (1 / 20), .number 0]⟩,
        ⟨"sum", [.add (.mul (.number (1 / 100)) (.value "x")) (.value "y"), .number 1]⟩] with
    judge := { Rational.judge with tolerance := 1 / 10 } }

/-- A second run is not bound to end well: what was denied beside a solved variable is reported once
there is nothing left to solve, and a constant that was as good as zero may have become too large.
-/
theorem solved_again_is_reported :
    ((outcome (solve 4) Rational.partlySolvableSheet).1.isOk = true ∧
      EndsUnsolvable (outcome (solve 4) (outcome (solve 4) Rational.partlySolvableSheet).2).1) ∧
    ((outcome (solve 4) smallNumber).1.isOk = true ∧
      EndsUnsolvable (outcome (solve 4) (outcome (solve 4) smallNumber).2).1) := by
  refine ⟨⟨?_, ?_⟩, ?_, ?_⟩ <;> decide +kernel

/-- The roots of four, and a cubic that is zero at one of them and small at the other. -/
def smallResidue : Worksheet Rat Twister :=
  let x := Formula.value "x"
  { Rational.sheet Methods.standard ["x", "y", "z"]
      [⟨"square", [.mul x x, .number 4]⟩,
        ⟨"cubic", [.mul (.sub x (.number 2))
          (.sub (.mul x (.add x (.number 1))) (.number (101 / 50))), .number 0]⟩,
        ⟨"sum", [.add (.mul (.sub x (.number (199 / 100))) (.value "y")) (.value "z"), .number 1]⟩]
    with judge := { Rational.judge with tolerance := 1 / 10 } }

/-- Where the judge has come to refute an equation, a second run may end well with a branch fewer.
The residue of one branch is as good as zero when it is looked at; the coefficient of the sum that
is small is seen in the other branch only, which comes later. -/
theorem smallResidue_loses_branch :
    let first := outcome (solve 5) smallResidue
    let second := outcome (solve 5) first.2
    (first.1.isOk = true ∧ first.2.branches.count = 2) ∧
      second.1.isOk = true ∧ second.2.branches.count = 1 := by
  decide +kernel

/-- A value, and two products that only a search from a single point can make zero. -/
def searchedProducts (generator : Twister) : Worksheet Rat Twister :=
  { Rational.sheet Methods.standard ["x", "y", "z"]
      [⟨"value", [.value "z", .number 5]⟩,
        ⟨"first", [.mul (.pow (.value "x") 2) (.pow (.value "y") 2), .number 0]⟩,
        ⟨"second", [.mul (.pow (.value "x") 2) (.pow (.value "y") 3), .number 0]⟩] with
    engine := Engine.polynomial Methods.standard
      { Rational.settings with newtonStarts := 1, residualTolerance := 1 / 2 }
    engineState := generator
    judge := { Rational.judge with tolerance := 1 / 2 } }

/-- Whether a run ends well in a single branch, and another one after it ends well too, in a branch
with other bindings. -/
def bindsLater (sheet : Worksheet Rat Twister) : Bool :=
  let first := outcome (solve 4) sheet
  let second := outcome (solve 4) first.2
  first.1.isOk && second.1.isOk &&
    first.2.branches.count == 1 && second.2.branches.count == 1 &&
    !(first.2.branches.snapshot == second.2.branches.snapshot)

/-- Where the engine answers by chance, a second run may find what the first one has missed. -/
theorem searchedProducts_bind_later :
    bindsLater (searchedProducts (Twister.ofSeed 61)) = true := by
  rw [Twister.ofSeed_eq]
  decide +kernel

end Again

end Ramify.Worksheet
