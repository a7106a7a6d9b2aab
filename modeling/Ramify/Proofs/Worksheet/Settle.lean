import Ramify.Proofs.Subsets
import Ramify.Proofs.Worksheet.Resolve

/-!
Solving one branch of a worksheet without procedures. A round gathers the relations of the branch
and goes through their subsets; the branch is settled when no subset resolves anything. Work on one
branch leaves all others as they are, and marks no other.
-/

namespace Ramify.Worksheet

variable {K σ : Type} [Scalar K]

def quiet (sheet : Worksheet K σ) : Worksheet K σ := { sheet with inProcedure := false }

/-- Whether the current branch has an identity. -/
def AtBranch (id : Nat) (sheet : Worksheet K σ) : Prop :=
  ∃ branch, sheet.branches.list[sheet.branches.current]? = some branch ∧ branch.id = id

/-- The subsets of relations that are tried, in order. -/
def trials (sheet : Worksheet K σ) (relations : List (Relation K)) : List (List (Relation K)) :=
  subsetsUpTo (largestSubset sheet.options relations.length) relations

/-- Attempts with some subsets keep all other branches; if none resolves anything, they keep them
all. -/
theorem outcome_sweep (id : Nat) (subsets : List (List (Relation K))) (sheet : Worksheet K σ)
    (hformed : sheet.branches.WellFormed) :
    ∃ branches state unsolvable log, (outcome (subsets.anyM (resolveBy id)) sheet).2 =
        { sheet with
          branches := branches, engineState := state, unsolvable := unsolvable, log := log } ∧
      sheet.branches.Grows id branches ∧ branches.WellFormed ∧
      ((outcome (subsets.anyM (resolveBy id)) sheet).1 = .ok false →
        branches = sheet.branches) := by
  induction subsets generalizing sheet with
  | nil => exact ⟨_, _, _, _, rfl, .refl _ _, hformed, fun _ => rfl⟩
  | cons subset rest ih =>
      obtain ⟨branches, state, unsolvable, log, hafter, hgrows, hformed', hsame⟩ :=
        outcome_resolveBy id subset sheet hformed
      rw [List.anyM]
      rcases hrun : outcome (resolveBy id subset) sheet with ⟨failure | resolved, middle⟩
      · rw [outcome_bind_error _ hrun]
        rw [hrun] at hafter
        exact ⟨branches, state, unsolvable, log, hafter, hgrows, hformed', fun h => by cases h⟩
      · rw [outcome_bind_ok _ hrun]
        rw [hrun] at hafter hsame
        change middle = _ at hafter
        cases resolved with
        | true => exact ⟨branches, state, unsolvable, log, hafter, hgrows, hformed',
          fun h => by cases h⟩
        | false =>
            subst hafter
            obtain ⟨branches', state', unsolvable', log', hafter', hgrows', hformed'', hsame'⟩ :=
              ih { sheet with
                branches := branches, engineState := state, unsolvable := unsolvable,
                log := log } hformed'
            exact ⟨branches', state', unsolvable', log', hafter', hgrows.trans hgrows', hformed'',
              fun h => (hsame' h).trans (hsame rfl)⟩

/-- Attempts that resolve nothing leave the branches as they are. -/
theorem unresolved_sweep {id : Nat} {subsets : List (List (Relation K))}
    {sheet after : Worksheet K σ}
    (hformed : sheet.branches.WellFormed)
    (hrun : outcome (subsets.anyM (resolveBy id)) sheet = (.ok false, after)) :
    ∃ state unsolvable log,
      after = { sheet with engineState := state, unsolvable := unsolvable, log := log } := by
  obtain ⟨branches, state, unsolvable, log, hafter, _, _, hsame⟩ :=
    outcome_sweep id subsets sheet hformed
  rw [hrun] at hafter hsame
  obtain rfl := hsame rfl
  exact ⟨state, unsolvable, log, hafter⟩

/-- What a round of solving a branch can do. -/
inductive Round (id steps : Nat) (sheet : Worksheet K σ) :
    Except (Failure K) Unit × Worksheet K σ → Prop
  /-- An equation cannot be stated or judged. -/
  | failed {failure : Failure K} {after : Worksheet K σ}
    (hgather : outcome (gather id sheet.equations []) sheet.quiet = (.error failure, after)) :
    Round id steps sheet (.error failure, after)
  /-- An equation cannot hold. -/
  | contradicted {after : Worksheet K σ}
    (hgather : outcome (gather id sheet.equations []) sheet.quiet = (.ok none, after)) :
    Round id steps sheet (.ok (), after)
  /-- An attempt fails. -/
  | broken {relations : List (Relation K)} {middle after : Worksheet K σ} {failure : Failure K}
    (hgather : outcome (gather id sheet.equations []) sheet.quiet = (.ok (some relations), middle))
    (hsweep : outcome ((middle.trials relations).anyM (resolveBy id)) middle =
      (.error failure, after)) :
    Round id steps sheet (.error failure, after)
  /-- An attempt resolves variables, and the branch starts over. -/
  | again {relations : List (Relation K)} {middle after : Worksheet K σ}
    (hgather : outcome (gather id sheet.equations []) sheet.quiet = (.ok (some relations), middle))
    (hsweep : outcome ((middle.trials relations).anyM (resolveBy id)) middle = (.ok true, after)) :
    Round id steps sheet (outcome (settle id steps) after)
  /-- No attempt resolves anything. -/
  | settled {relations : List (Relation K)} {middle after : Worksheet K σ}
    (hgather : outcome (gather id sheet.equations []) sheet.quiet = (.ok (some relations), middle))
    (hsweep : outcome ((middle.trials relations).anyM (resolveBy id)) middle = (.ok false, after)) :
    Round id steps sheet (.ok (), after.quiet)

/-- What solving a branch does in terms of what a round does. -/
theorem outcome_settle_succ (id steps : Nat) (sheet : Worksheet K σ)
    (hprocedures : sheet.procedures = []) (hformed : sheet.branches.WellFormed) :
    outcome (settle id (steps + 1)) sheet =
      match outcome (gather id sheet.equations []) sheet.quiet with
      | (.error failure, after) => (.error failure, after)
      | (.ok none, after) => (.ok (), after)
      | (.ok (some relations), middle) =>
        match outcome ((middle.trials relations).anyM (resolveBy id)) middle with
        | (.error failure, after) => (.error failure, after)
        | (.ok true, after) => outcome (settle id steps) after
        | (.ok false, after) => (.ok (), after.quiet) := by
  obtain ⟨branch, hbranch⟩ := hformed.exists_current
  rw [settle, outcome_bind_ok _ (outcome_performAll id sheet hprocedures)]
  change outcome (get >>= _) sheet.quiet = _
  rw [outcome_get_bind]
  obtain ⟨log, hgather⟩ := outcome_gather id sheet.equations [] sheet.quiet hformed hbranch
  rcases hrun : outcome (gather id sheet.equations []) sheet.quiet with
    ⟨failure | relations?, middle⟩
  · have hrun' : outcome (gather id sheet.quiet.equations []) sheet.quiet =
      (.error failure, middle) := hrun
    rw [outcome_bind_error _ hrun']
  · have hrun' : outcome (gather id sheet.quiet.equations []) sheet.quiet =
      (.ok relations?, middle) := hrun
    rw [outcome_bind_ok _ hrun']
    cases relations? with
    | none => rfl
    | some relations =>
        dsimp only
        rw [outcome_get_bind, anySubsetUpTo_eq_anyM]
        change outcome ((middle.trials relations).anyM (resolveBy id) >>= _) middle = _
        have hmiddle : middle.procedures = [] ∧ middle.branches.WellFormed := by
          rw [hrun] at hgather
          have hstate := congrArg Prod.snd hgather
          dsimp only at hstate
          rw [hstate]
          exact ⟨hprocedures, hformed⟩
        rcases hsweep : outcome ((middle.trials relations).anyM (resolveBy id)) middle with
          ⟨failure | resolved, after⟩
        · rw [outcome_bind_error _ hsweep]
        · rw [outcome_bind_ok _ hsweep]
          cases resolved with
          | true => rfl
          | false =>
              obtain ⟨_, _, _, _, hafter, _, _, _⟩ :=
                outcome_sweep id (middle.trials relations) middle hmiddle.2
              rw [hsweep] at hafter
              have hprocedures' : after.procedures = [] := by
                change after = _ at hafter
                rw [hafter]
                exact hmiddle.1
              change outcome (performAll id >>= fun _ => pure ()) after = _
              rw [outcome_bind_ok _ (outcome_performAll id after hprocedures')]
              rfl

/-- A branch is solved in rounds. -/
theorem round_settle (id steps : Nat) (sheet : Worksheet K σ) (hprocedures : sheet.procedures = [])
    (hformed : sheet.branches.WellFormed) :
    Round id steps sheet (outcome (settle id (steps + 1)) sheet) := by
  rw [outcome_settle_succ id steps sheet hprocedures hformed]
  rcases hgather : outcome (gather id sheet.equations []) sheet.quiet with
    ⟨failure | _ | relations, middle⟩
  · exact .failed hgather
  · exact .contradicted hgather
  · dsimp only
    rcases hsweep : outcome ((middle.trials relations).anyM (resolveBy id)) middle with
      ⟨failure | _ | _, after⟩
    · exact .broken hgather hsweep
    · exact .settled hgather hsweep
    · exact .again hgather hsweep

/-- What may happen to a worksheet while one of its branches is solved. -/
structure Works (id : Nat) (before after : Worksheet K σ) : Prop where
  options : after.options = before.options
  engine : after.engine = before.engine
  equations : after.equations = before.equations
  procedures : after.procedures = before.procedures
  solved : after.solved = before.solved
  formed : after.branches.WellFormed
  branches : before.branches.Grows id after.branches
  marks : ∀ other, other ≠ id → after.marked.find? other = before.marked.find? other

omit [Scalar K] in
theorem Works.trans {id : Nat} {a b c : Worksheet K σ} (hab : Works id a b) (hbc : Works id b c) :
    Works id a c where
  options := hbc.options.trans hab.options
  engine := hbc.engine.trans hab.engine
  equations := hbc.equations.trans hab.equations
  procedures := hbc.procedures.trans hab.procedures
  solved := hbc.solved.trans hab.solved
  formed := hbc.formed
  branches := hab.branches.trans hbc.branches
  marks := fun other h => (hbc.marks other h).trans (hab.marks other h)

omit [Scalar K] in
theorem AtBranch.of_works {id other : Nat} {before after : Worksheet K σ}
    (hat : AtBranch id before) (hworks : Works other before after) : AtBranch id after := by
  obtain ⟨branch, hbranch, hid⟩ := hat
  obtain ⟨found, hfound, hsame⟩ := hworks.branches.places _ branch hbranch
  refine ⟨found, ?_, hsame.trans hid⟩
  rw [hworks.branches.current]
  exact hfound

theorem works_gather (id : Nat) (equations : List (Equation K)) (sheet : Worksheet K σ)
    (hformed : sheet.branches.WellFormed) :
    Works id sheet (outcome (gather id equations []) sheet).2 := by
  obtain ⟨branch, hbranch⟩ := hformed.exists_current
  obtain ⟨log, hgather⟩ := outcome_gather id equations [] sheet hformed hbranch
  rw [hgather]
  refine ⟨rfl, rfl, rfl, rfl, rfl, hformed, .refl _ _, ?_⟩
  intro other hother
  dsimp only
  unfold marksAfter
  split
  · exact SortedMap.find?_insert_of_ne _ _ (Ne.symm hother)
  · rfl

theorem works_resolveBy (id : Nat) (subset : List (Relation K)) (sheet : Worksheet K σ)
    (hformed : sheet.branches.WellFormed) :
    Works id sheet (outcome (resolveBy id subset) sheet).2 := by
  obtain ⟨branches, state, unsolvable, log, hafter, hgrows, hformed', _⟩ :=
    outcome_resolveBy id subset sheet hformed
  rw [hafter]
  exact ⟨rfl, rfl, rfl, rfl, rfl, hformed', hgrows, fun _ _ => rfl⟩

theorem works_sweep (id : Nat) (subsets : List (List (Relation K))) (sheet : Worksheet K σ)
    (hformed : sheet.branches.WellFormed) :
    Works id sheet (outcome (subsets.anyM (resolveBy id)) sheet).2 := by
  obtain ⟨branches, state, unsolvable, log, hafter, hgrows, hformed', _⟩ :=
    outcome_sweep id subsets sheet hformed
  rw [hafter]
  exact ⟨rfl, rfl, rfl, rfl, rfl, hformed', hgrows, fun _ _ => rfl⟩

omit [Scalar K] in
theorem works_quiet (id : Nat) (sheet : Worksheet K σ) (hformed : sheet.branches.WellFormed) :
    Works id sheet sheet.quiet :=
  ⟨rfl, rfl, rfl, rfl, rfl, hformed, .refl _ _, fun _ _ => rfl⟩

/-- Solving a branch is work on that branch only. -/
theorem works_settle (id steps : Nat) (sheet : Worksheet K σ) (hprocedures : sheet.procedures = [])
    (hformed : sheet.branches.WellFormed) : Works id sheet (outcome (settle id steps) sheet).2 := by
  induction steps generalizing sheet with
  | zero =>
      rw [settle]
      exact ⟨rfl, rfl, rfl, rfl, rfl, hformed, .refl _ _, fun _ _ => rfl⟩
  | succ steps ih =>
      have hround := round_settle id steps sheet hprocedures hformed
      have hquiet := works_quiet id sheet hformed
      have hgathered := hquiet.trans (works_gather id sheet.equations sheet.quiet hformed)
      generalize outcome (settle id (steps + 1)) sheet = run at hround
      cases hround with
      | failed hgather =>
          rw [hgather] at hgathered
          exact hgathered
      | contradicted hgather =>
          rw [hgather] at hgathered
          exact hgathered
      | @broken relations middle after failure hgather hsweep =>
          rw [hgather] at hgathered
          have hswept := hgathered.trans
            (works_sweep id (middle.trials relations) middle hgathered.formed)
          rw [hsweep] at hswept
          exact hswept
      | @again relations middle after hgather hsweep =>
          rw [hgather] at hgathered
          have hswept := hgathered.trans
            (works_sweep id (middle.trials relations) middle hgathered.formed)
          rw [hsweep] at hswept
          exact hswept.trans (ih after (hswept.procedures.trans hprocedures) hswept.formed)
      | @settled relations middle after hgather hsweep =>
          rw [hgather] at hgathered
          have hswept := hgathered.trans
            (works_sweep id (middle.trials relations) middle hgathered.formed)
          rw [hsweep] at hswept
          exact hswept.trans (works_quiet id after hswept.formed)

end Ramify.Worksheet
