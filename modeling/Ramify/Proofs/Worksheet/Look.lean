import Ramify.Proofs.Judge
import Ramify.Proofs.Worksheet.Pass

/-!
The last look at a branch. When a run without procedures has visited a branch and has not marked it,
it has gathered the relations of the branch under exactly the bindings that the branch still has,
and no subset of them resolved anything. What the judge has learnt since can only grow.
-/

namespace Ramify.Worksheet

variable {K σ : Type} [Scalar K]

section Sift

variable [IsStrictOrder K (· < ·)]

theorem extends_sift (bindings : Bindings K) (equations : List (Equation K))
    (found : List (Relation K)) : Moves Judge.Extends (sift bindings equations found) := by
  have htrans (a b c : Judge K) (hab : a.Extends b) (hbc : b.Extends c) : a.Extends c :=
    hab.trans hbc
  induction equations generalizing found with
  | nil => exact Judge.Extends.refl
  | cons equation rest ih =>
      unfold sift
      cases statedIn bindings equation with
      | error failure => exact Judge.Extends.refl
      | ok relation =>
          change Moves Judge.Extends (Judge.verdict relation.lhs relation.rhs >>= _)
          apply Moves.bind htrans (Judge.extends_verdict relation.lhs relation.rhs)
          intro verdict
          cases verdict with
          | redundant => exact ih found
          | usable => exact ih _
          | contradiction => exact Judge.Extends.refl

/-- Equations that were sifted once give the same relations to a judge that has learnt as much and
denies none of them. -/
theorem sift_again {bindings : Bindings K} {equations : List (Equation K)}
    {found relations : List (Relation K)} {judge after later : Judge K}
    (hrun : outcome (sift bindings equations found) judge = (.ok (.usable relations), after))
    (hlater : after.Extends later)
    (hnow : ∀ equation ∈ equations, ∀ relation, statedIn bindings equation = .ok relation →
      (outcome (Judge.verdict relation.lhs relation.rhs) later).1 ≠ .ok .contradiction) :
    outcome (sift bindings equations found) later = (.ok (.usable relations), later) := by
  induction equations generalizing found judge with
  | nil =>
      cases hrun
      rfl
  | cons equation rest ih =>
      have hrest := fun other hother => hnow other (List.mem_cons_of_mem equation hother)
      obtain ⟨relation, verdict, middle, hstated, hverdict, hsifted⟩ := sift_cons_ok hrun
      have hagain (hverdict' : verdict ≠ .contradiction) (hgrown : middle.Extends after) :
          outcome (Judge.verdict relation.lhs relation.rhs) later = (.ok verdict, later) :=
        Judge.verdict_again hverdict hverdict' (hgrown.trans hlater)
          (hnow equation List.mem_cons_self relation hstated)
      rw [sift, hstated, outcome_ofExcept_bind_ok]
      cases verdict with
      | redundant =>
          have hgrown := extends_sift bindings rest found middle
          rw [hsifted] at hgrown
          rw [outcome_bind_ok _ (hagain (by decide) hgrown)]
          exact ih hsifted hrest
      | usable =>
          have hgrown := extends_sift bindings rest
            (if found.contains relation then found else found ++ [relation]) middle
          rw [hsifted] at hgrown
          rw [outcome_bind_ok _ (hagain (by decide) hgrown)]
          exact ih hsifted hrest
      | contradiction => cases hsifted.1

end Sift

omit [Scalar K] in
/-- The unknowns of relations depend on the declared names only. -/
theorem unknownsOf_congr {a b : Branches K} (ha : a.WellFormed) (hb : b.WellFormed)
    (hnames : b.names = a.names) (subset : List (Relation K)) :
    unknownsOf b subset = unknownsOf a subset := by
  unfold unknownsOf
  apply List.filter_congr
  intro symbol _
  have hiff : b.declares symbol.name = true ↔ a.declares symbol.name = true := by
    rw [ha.declares_iff, hb.declares_iff, hnames]
  rw [Bool.eq_iff_iff]
  exact hiff

/-- Whether an answer of the engine resolved nothing and did not end the run. -/
def Unresolving (options : WorksheetOptions K) (answer : Answer K) : Prop :=
  Undecided answer ∨ (answer = .noSolution ∧ options.raiseOnUnsolvable = false)

/-- Under the present bindings of a branch its relations were gathered, and no subset of them
resolved anything. -/
def Looked (sheet : Worksheet K σ) (branch : Branch K) : Prop :=
  ∃ judge after relations,
    outcome (sift branch.bindings sheet.equations []) judge = (.ok (.usable relations), after) ∧
    after.Extends sheet.judge ∧
    ∀ subset ∈ sheet.trials relations, unknownsOf sheet.branches subset = [] ∨
      ∃ state answer, (sheet.engine.ask subset (unknownsOf sheet.branches subset) state).1 =
        .ok answer ∧ Unresolving sheet.options answer

/-- A look stays true while other branches are worked on or removed. -/
theorem Looked.later {before after : Worksheet K σ} {branch : Branch K}
    (h : Looked before branch) (hbefore : before.branches.WellFormed)
    (hafter : after.branches.WellFormed) (hnames : after.branches.names = before.branches.names)
    (hoptions : after.options = before.options) (hengine : after.engine = before.engine)
    (hequations : after.equations = before.equations)
    (hjudge : before.judge.Extends after.judge) : Looked after branch := by
  obtain ⟨judge, learnt, relations, hsift, hgrown, htrials⟩ := h
  refine ⟨judge, learnt, relations, hequations ▸ hsift, hgrown.trans hjudge, ?_⟩
  intro subset hsubset
  have hsubset' : subset ∈ before.trials relations := by
    unfold trials at hsubset ⊢
    rw [hoptions] at hsubset
    exact hsubset
  rw [unknownsOf_congr hbefore hafter hnames subset, hengine, hoptions]
  exact htrials subset hsubset'

/-- If no attempt of a series resolves anything, each subset was asked about in vain. -/
theorem sweep_unresolved (id : Nat) (subsets : List (List (Relation K))) (sheet : Worksheet K σ)
    (hformed : sheet.branches.WellFormed) (hlive : (sheet.branches.indexOf? id).isSome)
    {after : Worksheet K σ}
    (hrun : outcome (subsets.anyM (resolveBy id)) sheet = (.ok false, after)) :
    after.judge = sheet.judge ∧ ∀ subset ∈ subsets, unknownsOf sheet.branches subset = [] ∨
      ∃ state answer, (sheet.engine.ask subset (unknownsOf sheet.branches subset) state).1 =
        .ok answer ∧ Unresolving sheet.options answer := by
  induction subsets generalizing sheet with
  | nil =>
      cases hrun
      exact ⟨rfl, nofun⟩
  | cons subset rest ih =>
      rw [List.anyM] at hrun
      obtain ⟨resolved, middle, hstep, hrun⟩ := outcome_bind_eq_ok.1 hrun
      cases resolved with
      | true => cases hrun
      | false =>
          obtain ⟨state, unsolvable, log, rfl⟩ := unresolved_resolveBy hformed hstep
          obtain ⟨hjudge, hrest⟩ := ih
            { sheet with engineState := state, unsolvable := unsolvable, log := log }
            hformed hlive hrun
          refine ⟨hjudge, ?_⟩
          intro other hother
          rcases List.mem_cons.1 hother with rfl | hother
          · have hattempt := attempt_resolveBy id other sheet
            rw [hstep] at hattempt
            generalize hpair : ((.ok false, _) : Except (Failure K) Bool × _) = run at hattempt
            cases hattempt with
            | idle hunknowns => exact Or.inl hunknowns
            | failed => cases hpair
            | undecided hunknowns hreply hanswer =>
                refine Or.inr ⟨_, _, hreply, Or.inl ?_⟩
                rcases hanswer with hundecided | ⟨_, hnone⟩
                · exact hundecided
                · rw [hnone] at hlive
                  cases hlive
            | refused => cases hpair
            | inconsistent hunknowns hreply hraise =>
                exact Or.inr ⟨_, _, hreply, Or.inr ⟨rfl, hraise⟩⟩
            | resolved hunknowns hreply hnumeric hindex =>
                have hresult := congrArg Prod.fst hpair
                exact absurd hresult.symm (takeOver_ne_false _ _ _)
          · exact hrest other hother

/-- Gathering relations changes no branch; its result is what the equations say in the branch, and
if one of them cannot hold, the branch is marked. -/
theorem gather_findings (id : Nat) (sheet : Worksheet K σ) (hformed : sheet.branches.WellFormed)
    {branch : Branch K}
    (hbranch : sheet.branches.list[sheet.branches.current]? = some branch)
    {result : Except (Failure K) (Option (List (Relation K)))} {after : Worksheet K σ}
    (hgather : outcome (gather id sheet.equations []) sheet = (result, after)) :
    after.judge = (outcome (sift branch.bindings sheet.equations []) sheet.judge).2 ∧
      after.branches = sheet.branches ∧ (result = .ok none → id ∈ after.marked.keys) ∧
      ∀ relations, result = .ok (some relations) →
        outcome (sift branch.bindings sheet.equations []) sheet.judge =
          (.ok (.usable relations), after.judge) := by
  obtain ⟨log, hall⟩ := outcome_gather id sheet.equations [] sheet hformed hbranch
  rw [hgather] at hall
  rcases hsift : outcome (sift branch.bindings sheet.equations []) sheet.judge with
    ⟨failure | findings, judge⟩
  · rw [hsift] at hall
    cases hall
    exact ⟨rfl, rfl, nofun, nofun⟩
  · rw [hsift] at hall
    cases findings with
    | usable found =>
        cases hall
        refine ⟨rfl, rfl, nofun, ?_⟩
        intro relations hrelations
        cases hrelations
        rfl
    | contradictory found =>
        cases hall
        refine ⟨rfl, rfl, fun _ => ?_, nofun⟩
        rw [SortedMap.mem_keys_iff]
        unfold marksAfter
        rw [SortedMap.find?_insert, if_pos rfl]
        rfl

section Settle

variable [IsStrictOrder K (· < ·)]

/-- Gathering relations teaches the judge; its result is what the equations say in the branch. -/
theorem gather_sifted (id : Nat) (sheet : Worksheet K σ) (hformed : sheet.branches.WellFormed)
    {branch : Branch K}
    (hbranch : sheet.branches.list[sheet.branches.current]? = some branch)
    {result : Except (Failure K) (Option (List (Relation K)))} {after : Worksheet K σ}
    (hgather : outcome (gather id sheet.equations []) sheet = (result, after)) :
    sheet.judge.Extends after.judge ∧ after.branches = sheet.branches ∧
      (result = .ok none → id ∈ after.marked.keys) ∧
      ∀ relations, result = .ok (some relations) →
        outcome (sift branch.bindings sheet.equations []) sheet.judge =
          (.ok (.usable relations), after.judge) := by
  obtain ⟨hjudge, hfindings⟩ := gather_findings id sheet hformed hbranch hgather
  refine ⟨?_, hfindings⟩
  rw [hjudge]
  exact extends_sift branch.bindings sheet.equations [] sheet.judge

/-- If the attempts of a round have resolved nothing, the branch has been looked at for the last
time. -/
theorem looked_of_settled {id : Nat} {sheet middle between : Worksheet K σ}
    {relations : List (Relation K)} (hformed : sheet.branches.WellFormed) (hat : AtBranch id sheet)
    (hgather : outcome (gather id sheet.equations []) sheet.quiet = (.ok (some relations), middle))
    (hsweep : outcome ((middle.trials relations).anyM (resolveBy id)) middle =
      (.ok false, between)) :
    sheet.judge.Extends between.judge ∧ ∀ branch ∈ between.branches.list, branch.id = id →
      Looked between branch := by
  obtain ⟨branch, hbranch, hid⟩ := hat
  obtain ⟨hgrown, hsame, _, hsifted⟩ := gather_sifted id sheet.quiet hformed hbranch hgather
  have hgathered := works_gather id sheet.equations sheet.quiet hformed
  rw [hgather] at hgathered
  have hlive : (middle.branches.indexOf? id).isSome := by
    have hindex : sheet.quiet.branches.indexOf? branch.id = some sheet.branches.current :=
      hformed.indexOf?_eq hbranch
    rw [hsame, ← hid, hindex]
    rfl
  obtain ⟨hjudge, htrials⟩ := sweep_unresolved id _ middle hgathered.formed hlive hsweep
  obtain ⟨state, unsolvable, log, rfl⟩ := unresolved_sweep hgathered.formed hsweep
  refine ⟨?_, fun other hother hotherId => ?_⟩
  · rw [hjudge]
    exact hgrown
  · have hthere : other ∈ sheet.branches.list := hsame ▸ hother
    -- the branch was the current one, and nothing was written since
    obtain rfl := hformed.branch_unique hthere (List.mem_of_getElem? hbranch)
      (hotherId.trans hid.symm)
    refine ⟨sheet.judge, middle.judge, relations, ?_, Judge.Extends.refl _, htrials⟩
    have hequations : middle.equations = sheet.equations := hgathered.equations
    change outcome (sift other.bindings middle.equations []) sheet.judge = _
    rw [hequations]
    exact hsifted relations rfl

/-- A branch that was solved is marked, or has been looked at for the last time. -/
theorem settle_looked (id steps : Nat) (sheet : Worksheet K σ) (hprocedures : sheet.procedures = [])
    (hformed : sheet.branches.WellFormed) (hat : AtBranch id sheet) {after : Worksheet K σ}
    (hrun : outcome (settle id steps) sheet = (.ok (), after)) :
    sheet.judge.Extends after.judge ∧ ∀ branch ∈ after.branches.list, branch.id = id →
      branch.id ∈ after.marked.keys ∨ Looked after branch := by
  induction steps generalizing sheet with
  | zero =>
      rw [settle] at hrun
      cases hrun
  | succ steps ih =>
      have hround := round_settle id steps sheet hprocedures hformed
      obtain ⟨branch, hbranch, hid⟩ := hat
      have hgathered := works_gather id sheet.equations sheet.quiet hformed
      rw [hrun] at hround
      generalize hpair : ((.ok (), after) : Except (Failure K) Unit × _) = run at hround
      cases hround with
      | failed => cases hpair
      | contradicted hgather =>
          cases hpair
          obtain ⟨hgrown, _, hmarked, _⟩ :=
            gather_sifted id sheet.quiet hformed hbranch hgather
          refine ⟨hgrown, fun other _ hother => Or.inl ?_⟩
          rw [hother]
          exact hmarked rfl
      | broken => cases hpair
      | @again relations middle between hgather hsweep =>
          obtain ⟨hgrown, _, _, _⟩ := gather_sifted id sheet.quiet hformed hbranch hgather
          rw [hgather] at hgathered
          have hswept := works_sweep id (middle.trials relations) middle hgathered.formed
          have hworks := (works_quiet id sheet hformed).trans (hgathered.trans (by
            rw [hsweep] at hswept
            exact hswept))
          obtain ⟨_, _, _, _, hstate, _, _, _⟩ :=
            outcome_sweep id (middle.trials relations) middle hgathered.formed
          rw [hsweep] at hstate
          have hjudge : between.judge = middle.judge := by
            change between = _ at hstate
            rw [hstate]
          obtain ⟨hlater, hlooked⟩ := ih between (hworks.procedures.trans hprocedures) hworks.formed
            (AtBranch.of_works ⟨branch, hbranch, hid⟩ hworks) hpair.symm
          refine ⟨Judge.Extends.trans hgrown ?_, hlooked⟩
          rw [← hjudge]
          exact hlater
      | @settled relations middle between hgather hsweep =>
          cases hpair
          obtain ⟨hgrown, hlooked⟩ :=
            looked_of_settled hformed ⟨branch, hbranch, hid⟩ hgather hsweep
          exact ⟨hgrown, fun other hother hotherId => Or.inr (hlooked other hother hotherId)⟩

/-- When every branch has been visited, those that are not marked have been looked at, and there was
a step for each of them and one more. -/
theorem visitAll_looked (limit steps : Nat) (visited : List Nat) (sheet : Worksheet K σ)
    (hprocedures : sheet.procedures = []) (hformed : sheet.branches.WellFormed)
    (hold : ∀ id ∈ visited, id < sheet.branches.nextId)
    (hvisited : ∀ branch ∈ sheet.branches.list, branch.id ∈ visited →
      branch.id ∈ sheet.marked.keys ∨ Looked sheet branch)
    {found : List Nat} {after : Worksheet K σ}
    (hrun : outcome (visitAll limit steps visited) sheet = (.ok found, after)) :
    (∀ branch ∈ after.branches.list, branch.id ∉ after.marked.keys → Looked after branch) ∧
      after.branches.count < steps + visited.length := by
  induction steps generalizing sheet visited with
  | zero =>
      rw [visitAll] at hrun
      cases hrun
  | succ steps ih =>
      have hvisit := visit_visitAll limit steps visited sheet hformed
      rw [hrun] at hvisit
      generalize hpair : ((.ok found, after) : Except (Failure K) (List Nat) × _) = run at hvisit
      cases hvisit with
      | done hall =>
          cases hpair
          refine ⟨?_, ?_⟩
          · intro branch hbranch hid
            exact (hvisited branch hbranch (hall branch hbranch)).resolve_left hid
          · have hsub : after.branches.list.map Branch.id ⊆ found := by
              intro id hid
              obtain ⟨branch, hbranch, rfl⟩ := List.mem_map.1 hid
              exact hall branch hbranch
            have hle := (List.subperm_of_subset hformed.nodup_ids hsub).length_le
            rw [List.length_map] at hle
            unfold Branches.count
            omega
      | broken => cases hpair
      | @next index branch log middle hbranch hnew hsettle =>
          have hturned := formed_turnedTo hformed hbranch log
          have hpasses := passes_visit hprocedures hformed hbranch log limit
          have hworks := works_settle branch.id limit (sheet.turnedTo index log) hprocedures hturned
          rw [hsettle] at hpasses hworks
          obtain ⟨hgrown, hlooked⟩ := settle_looked branch.id limit (sheet.turnedTo index log)
            hprocedures hturned ⟨branch, hbranch, rfl⟩ hsettle
          have hnext : sheet.branches.nextId ≤ middle.branches.nextId := hworks.branches.nextId
          have hold' : ∀ id ∈ branch.id :: visited, id < middle.branches.nextId := by
            intro id hid
            rcases List.mem_cons.1 hid with rfl | hid
            · exact Nat.lt_of_lt_of_le (hformed.fresh branch (List.mem_of_getElem? hbranch)) hnext
            · exact Nat.lt_of_lt_of_le (hold id hid) hnext
          have hvisited' : ∀ other ∈ middle.branches.list, other.id ∈ branch.id :: visited →
              other.id ∈ middle.marked.keys ∨ Looked middle other := by
            intro other hother hid
            by_cases hsame : other.id = branch.id
            · exact hlooked other hother hsame
            · -- a branch that was visited earlier is as it was then
              have hearlier := (List.mem_cons.1 hid).resolve_left hsame
              have hthere : other ∈ sheet.branches.list := by
                rcases hworks.branches.origin other hother hsame with hthere | hlate
                · exact hthere
                · exact absurd hlate (Nat.not_le.2 (hold other.id hearlier))
              rcases hvisited other hthere hearlier with hmarked | hbefore
              · left
                rw [SortedMap.mem_keys_iff] at hmarked ⊢
                rw [hworks.marks other.id hsame]
                exact hmarked
              · exact Or.inr (hbefore.later hformed hpasses.formed hpasses.names hpasses.options
                  hpasses.engine hpasses.equations hgrown)
          obtain ⟨hall, hcount⟩ := ih (branch.id :: visited) middle
            (hpasses.procedures.trans hprocedures) hpasses.formed hold' hvisited' hpair.symm
          rw [List.length_cons] at hcount
          exact ⟨hall, by omega⟩

end Settle

end Ramify.Worksheet
