import Ramify.Proofs.Worksheet.Rational
import Ramify.Proofs.Worksheet.Record

/-!
When a run reports that the equations cannot be solved. Every denial of a solution is remembered to
the end of the visit; the report is made exactly if all branches are contradictory, or a solution
was denied and the bindings are afterwards as they were before.
-/

namespace Ramify

def Exchange.denies {K : Type} (exchange : Exchange K) : Bool :=
  match exchange.reply with
  | .ok .noSolution => true
  | _ => false

namespace Worksheet

variable {K σ : Type} [Scalar K]

/-- Whether a solution was denied to some of the relations that are usable under the bindings of a
branch, of which there are no more than may be solved together. -/
def isDenied (sheet : Worksheet K σ) (exchanges : List (Exchange K)) (branch : Branch K) : Bool :=
  match (outcome (sift branch.bindings sheet.equations []) sheet.judge).1 with
  | .ok (.usable relations) => exchanges.any (fun exchange =>
      exchange.denies && (sheet.trials relations).contains exchange.relations)
  | _ => false

/-- A worksheet with a recording engine that remembers every denial. -/
structure Remembers (engine : Engine K σ) (sheet : Worksheet K (σ × List (Exchange K))) : Prop where
  engine : sheet.engine = engine.recording
  denial : ∀ exchange ∈ sheet.engineState.2, exchange.denies = true → sheet.unsolvable = true

section Remember

variable {engine : Engine K σ} {sheet : Worksheet K (σ × List (Exchange K))}

omit [Scalar K] in
theorem exchanges_consulted (hengine : sheet.engine = engine.recording)
    (subset : List (Relation K)) :
    (sheet.consulted subset).engineState.2 = sheet.engineState.2 ++
      [⟨subset, unknownsOf sheet.branches subset, sheet.reply subset⟩] := by
  unfold consulted asked reply
  rw [hengine]
  rfl

omit [Scalar K] in
/-- A question that is not denied is no reason to remember more. -/
theorem remembers_consulted (h : Remembers engine sheet) (subset : List (Relation K))
    (hreply : sheet.reply subset ≠ .ok .noSolution) :
    Remembers engine (sheet.consulted subset) where
  engine := h.engine
  denial := by
    intro exchange hexchange hdenies
    rw [exchanges_consulted h.engine] at hexchange
    rcases List.mem_append.1 hexchange with hold | hnew
    · exact h.denial exchange hold hdenies
    · rw [List.mem_singleton.1 hnew] at hdenies
      unfold Exchange.denies at hdenies
      split at hdenies
      · rename_i hdenied
        exact absurd hdenied hreply
      · cases hdenies

theorem remembers_resolveBy (h : Remembers engine sheet) (hformed : sheet.branches.WellFormed)
    (id : Nat) (subset : List (Relation K)) {resolved : Bool}
    {after : Worksheet K (σ × List (Exchange K))}
    (hrun : outcome (resolveBy id subset) sheet = (.ok resolved, after)) :
    Remembers engine after := by
  have hstep := attempt_resolveBy id subset sheet
  rw [hrun] at hstep
  generalize hpair : ((.ok resolved, after) : Except (Failure K) Bool × _) = run at hstep
  cases hstep with
  | idle =>
      cases hpair
      exact h
  | failed => cases hpair
  | @undecided answer _ hreply hanswer =>
      cases hpair
      apply remembers_consulted h
      rw [hreply]
      rintro hdenied
      cases hdenied
      rcases hanswer with hundecided | ⟨hne, _⟩
      · exact hundecided
      · exact hne rfl
  | refused => cases hpair
  | inconsistent =>
      cases hpair
      exact ⟨h.engine, fun _ _ _ => rfl⟩
  | @resolved candidates rest first index _ hreply _ hindex =>
      have hconsulted := remembers_consulted h subset (by rw [hreply]; nofun)
      obtain ⟨branches, log, hafter, _⟩ :=
        outcome_takeOver (sheet.consulted subset) first rest hformed hindex
      rw [← hpair] at hafter
      change after = _ at hafter
      rw [hafter]
      exact ⟨hconsulted.engine, hconsulted.denial⟩

theorem remembers_sweep (id : Nat) (subsets : List (List (Relation K))) (h : Remembers engine sheet)
    (hformed : sheet.branches.WellFormed) {resolved : Bool}
    {after : Worksheet K (σ × List (Exchange K))}
    (hrun : outcome (subsets.anyM (resolveBy id)) sheet = (.ok resolved, after)) :
    Remembers engine after := by
  induction subsets generalizing sheet with
  | nil =>
      cases hrun
      exact h
  | cons subset rest ih =>
      rw [List.anyM] at hrun
      obtain ⟨passed, middle, hstep, hrun⟩ := outcome_bind_eq_ok.1 hrun
      have hmiddle := remembers_resolveBy h hformed id subset hstep
      cases passed with
      | true =>
          cases hrun
          exact hmiddle
      | false =>
          obtain ⟨_, _, _, _, hstate, _, hformed', _⟩ := outcome_resolveBy id subset sheet hformed
          rw [hstep] at hstate
          change middle = _ at hstate
          exact ih hmiddle (by rw [hstate]; exact hformed') hrun

theorem remembers_gather (id : Nat) (sheet : Worksheet K (σ × List (Exchange K)))
    (h : Remembers engine sheet)
    (hformed : sheet.branches.WellFormed) (equations : List (Equation K)) :
    Remembers engine (outcome (gather id equations []) sheet).2 := by
  obtain ⟨branch, hbranch⟩ := hformed.exists_current
  obtain ⟨log, hgather⟩ := outcome_gather id equations [] sheet hformed hbranch
  rw [hgather]
  exact ⟨h.engine, h.denial⟩

/-- Solving a branch without a failure remembers every denial. -/
theorem remembers_settle (id steps : Nat) (h : Remembers engine sheet)
    (hprocedures : sheet.procedures = []) (hformed : sheet.branches.WellFormed)
    {after : Worksheet K (σ × List (Exchange K))}
    (hrun : outcome (settle id steps) sheet = (.ok (), after)) : Remembers engine after := by
  induction steps generalizing sheet with
  | zero =>
      rw [settle] at hrun
      cases hrun
  | succ steps ih =>
      have hround := round_settle id steps sheet hprocedures hformed
      have hquiet : Remembers engine sheet.quiet := ⟨h.engine, h.denial⟩
      have hgathered := remembers_gather id sheet.quiet hquiet hformed sheet.equations
      have hworks := works_gather id sheet.equations sheet.quiet hformed
      rw [hrun] at hround
      generalize hpair : ((.ok (), after) : Except (Failure K) Unit × _) = run at hround
      cases hround with
      | failed => cases hpair
      | contradicted hgather =>
          cases hpair
          rw [hgather] at hgathered
          exact hgathered
      | broken => cases hpair
      | @again relations middle between hgather hsweep =>
          rw [hgather] at hgathered hworks
          have hswept := works_sweep id (middle.trials relations) middle hworks.formed
          rw [hsweep] at hswept
          exact ih (remembers_sweep id _ hgathered hworks.formed hsweep)
            (hswept.procedures.trans (hworks.procedures.trans hprocedures)) hswept.formed
            hpair.symm
      | @settled relations middle between hgather hsweep =>
          cases hpair
          rw [hgather] at hgathered hworks
          have hswept := remembers_sweep id _ hgathered hworks.formed hsweep
          exact ⟨hswept.engine, hswept.denial⟩

/-- Visiting the branches without a failure remembers every denial. -/
theorem remembers_visitAll (limit steps : Nat) (visited : List Nat) (h : Remembers engine sheet)
    (hprocedures : sheet.procedures = []) (hformed : sheet.branches.WellFormed)
    {found : List Nat} {after : Worksheet K (σ × List (Exchange K))}
    (hrun : outcome (visitAll limit steps visited) sheet = (.ok found, after)) :
    Remembers engine after := by
  induction steps generalizing sheet visited with
  | zero =>
      rw [visitAll] at hrun
      cases hrun
  | succ steps ih =>
      have hvisit := visit_visitAll limit steps visited sheet hformed
      rw [hrun] at hvisit
      generalize hpair : ((.ok found, after) : Except (Failure K) (List Nat) × _) = run at hvisit
      cases hvisit with
      | done =>
          cases hpair
          exact h
      | broken => cases hpair
      | @next index branch log middle hbranch hnew hsettle =>
          have hpasses := passes_visit hprocedures hformed hbranch log limit
          rw [hsettle] at hpasses
          have hturned : Remembers engine (sheet.turnedTo index log) := ⟨h.engine, h.denial⟩
          have hmiddle := remembers_settle branch.id limit hturned hprocedures
            (formed_turnedTo hformed hbranch log) hsettle
          exact ih (branch.id :: visited) hmiddle (hpasses.procedures.trans hprocedures)
            hpasses.formed hpair.symm

end Remember

section Report

variable {sheet : Worksheet K σ} {steps : Nat} {visited : List Nat} {middle : Worksheet K σ}

/-- All exchanges of a run are made while the branches are visited. -/
theorem outcome_visitAll_recording (hprocedures : sheet.procedures = [])
    (hformed : sheet.branches.WellFormed)
    (hpass : outcome (visitAll steps steps []) sheet.opened = (.ok visited, middle)) :
    outcome (visitAll steps steps []) (sheet.recording []).opened =
      (.ok visited, middle.recording (sheet.exchanges steps)) := by
  have hstart : Recorded sheet.opened (sheet.recording []).opened := ⟨[], rfl⟩
  obtain ⟨more, hrecorded⟩ := exists_recording
    (inStep_visitAll mirrors_recorded judgesAlike_recorded steps steps [] hstart
      (fun _ _ => trivial))
  rw [hpass] at hrecorded
  change outcome _ (sheet.recording []).opened = (.ok visited, middle.recording more) at hrecorded
  have hmore : sheet.exchanges steps = more := by
    have hmiddle : (middle.recording more).branches.WellFormed := by
      have hpasses := passes_visitAll steps steps [] sheet.opened hprocedures hformed
      rw [hpass] at hpasses
      exact hpasses.formed
    have hrun := run_solve steps (sheet.recording []) hprocedures hformed
    unfold exchanges
    generalize outcome (solve steps) (sheet.recording []) = run at hrun
    cases hrun with
    | broken hpass' =>
        rw [hrecorded] at hpass'
        cases hpass'
    | hopeless hpass' =>
        rw [hrecorded] at hpass'
        cases hpass'
        rfl
    | @fruitless _ _ after startId hpass' hstays _ hdiscard _ _ =>
        rw [hrecorded] at hpass'
        cases hpass'
        obtain ⟨branches, log, hstate, _⟩ := outcome_discardMarked_ok startId hmiddle hstays
        rw [hstate] at hdiscard
        cases hdiscard
        rfl
    | @finished _ _ after startId log' hpass' hstays _ hdiscard _ =>
        rw [hrecorded] at hpass'
        cases hpass'
        obtain ⟨branches, log, hstate, _⟩ := outcome_discardMarked_ok startId hmiddle hstays
        rw [hstate] at hdiscard
        cases hdiscard
        rfl
  rw [hmore]
  exact hrecorded

/-- A denial in the course of a visit is remembered at its end. -/
theorem unsolvable_of_denies (hprocedures : sheet.procedures = [])
    (hformed : sheet.branches.WellFormed)
    (hpass : outcome (visitAll steps steps []) sheet.opened = (.ok visited, middle))
    {exchange : Exchange K} (hexchange : exchange ∈ sheet.exchanges steps)
    (hdenies : exchange.denies = true) : middle.unsolvable = true := by
  have hrecorded := outcome_visitAll_recording hprocedures hformed hpass
  have hstart : Remembers sheet.engine (sheet.recording []).opened := ⟨rfl, nofun⟩
  have hend := remembers_visitAll steps steps [] hstart hprocedures hformed hrecorded
  exact hend.denial exchange hexchange hdenies

theorem exists_denies_of_isDenied {exchanges : List (Exchange K)} {branch : Branch K}
    (h : middle.isDenied exchanges branch = true) :
    ∃ exchange ∈ exchanges, exchange.denies = true := by
  unfold isDenied at h
  split at h
  · obtain ⟨exchange, hexchange, hboth⟩ := List.any_eq_true.1 h
    exact ⟨exchange, hexchange, (Bool.and_eq_true_iff.1 hboth).1⟩
  · cases h

/-- If a solution was denied to usable relations of every branch that is not contradictory, the run
is reported as unsolvable exactly if there is no such branch, or the bindings are afterwards as they
were before. -/
theorem solve_reports_denied_branches_iff (hprocedures : sheet.procedures = [])
    (hformed : sheet.branches.WellFormed)
    (hpass : outcome (visitAll steps steps []) sheet.opened = (.ok visited, middle))
    (hdenied : ∀ branch ∈ middle.branches.list, branch.id ∉ middle.marked.keys →
      middle.isDenied (sheet.exchanges steps) branch = true) :
    EndsUnsolvable (outcome (solve steps) sheet).1 ↔
      (∀ branch ∈ middle.branches.list, branch.id ∈ middle.marked.keys) ∨
        ((outcome (solve steps) sheet).2.branches.snapshot == sheet.branches.snapshot) = true := by
  have hrun := run_solve steps sheet hprocedures hformed
  generalize outcome (solve steps) sheet = run at hrun
  cases hrun with
  | broken hpass' =>
      rw [hpass] at hpass'
      cases hpass'
  | hopeless hpass' hall =>
      rw [hpass] at hpass'
      cases hpass'
      exact ⟨fun _ => Or.inl hall, fun _ => ⟨_, rfl, rfl⟩⟩
  | fruitless hpass' hstays hstart hdiscard hunsolvable hsame =>
      exact ⟨fun _ => Or.inr hsame, fun _ => ⟨_, rfl, rfl⟩⟩
  | finished log hpass' hstays hstart hdiscard hgood =>
      rw [hpass] at hpass'
      cases hpass'
      obtain ⟨branch, hbranch, hid⟩ := hstays
      constructor
      · rintro ⟨failure, hfailure, _⟩
        cases hfailure
      · rintro (hall | hsame)
        · exact absurd (hall branch hbranch) hid
        · obtain ⟨exchange, hexchange, hdenies⟩ :=
            exists_denies_of_isDenied (hdenied branch hbranch hid)
          have hflag := unsolvable_of_denies hprocedures hformed hpass hexchange hdenies
          rcases hgood with hclear | hdiffers
          · rw [hflag] at hclear
            cases hclear
          · rw [hsame] at hdiffers
            cases hdiffers

theorem clashing_sums_are_reported :
    (∀ branch ∈ (outcome (visitAll 4 4 []) Rational.clashingSheet.opened).2.branches.list,
      (outcome (visitAll 4 4 []) Rational.clashingSheet.opened).2.isDenied
        (Rational.clashingSheet.exchanges 4)
        branch = true) ∧
    EndsUnsolvable (outcome (solve 4) Rational.clashingSheet).1 := by
  have hdenied :
      ∀ branch ∈ (outcome (visitAll 4 4 []) Rational.clashingSheet.opened).2.branches.list,
      (outcome (visitAll 4 4 []) Rational.clashingSheet.opened).2.isDenied
        (Rational.clashingSheet.exchanges 4)
        branch = true := by
    rw [← List.all_eq_true]
    decide +kernel
  have hok : (outcome (visitAll 4 4 []) Rational.clashingSheet.opened).1.isOk = true := by
    decide +kernel
  refine ⟨hdenied, ?_⟩
  rcases hpass : outcome (visitAll 4 4 []) Rational.clashingSheet.opened with
    ⟨failure | visited, middle⟩
  · rw [hpass] at hok
    cases hok
  · rw [hpass] at hdenied
    apply (solve_reports_denied_branches_iff rfl
      (Rational.wellFormed_sheet Methods.standard ["x", "y"] Rational.clashingSums) hpass
      (fun branch hbranch _ => hdenied branch hbranch)).2
    right
    decide +kernel

/-- A run that resolves something is not reported, although a solution was denied to relations of
its only branch. -/
theorem clashing_sums_beside_a_value_are_not_reported :
    (outcome (solve 4) Rational.partlySolvableSheet).1 = .ok () ∧
    (outcome (visitAll 4 4 []) Rational.partlySolvableSheet.opened).1.isOk = true ∧
    ∀ branch ∈ (outcome (visitAll 4 4 []) Rational.partlySolvableSheet.opened).2.branches.list,
      (outcome (visitAll 4 4 []) Rational.partlySolvableSheet.opened).2.isDenied
        (Rational.partlySolvableSheet.exchanges 4) branch = true := by
  have hok : (outcome (solve 4) Rational.partlySolvableSheet).1.isOk = true := by decide +kernel
  refine ⟨?_, by decide +kernel, ?_⟩
  · cases hresult : (outcome (solve 4) Rational.partlySolvableSheet).1 with
    | ok x => rfl
    | error failure =>
        rw [hresult] at hok
        cases hok
  · rw [← List.all_eq_true]
    decide +kernel

end Report

end Worksheet

end Ramify
