import Ramify.Proofs.Worksheet.Course
import Ramify.Proofs.Worksheet.Look
import Ramify.Proofs.Worksheet.Rational

/-!
Where solving comes to rest. The last round in which a branch is solved finds it as it stays: no
equation is contradicted under its bindings, every equation without unknowns is redundant, and every
subset of the retained relations, up to the largest size, is tried and resolves nothing. A run that
ends well keeps no branch for which it has not seen this.
-/

namespace Ramify

/-- A relation that is usable has unknowns. -/
theorem Judge.unknowns_of_usable {K : Type} [Scalar K] {relation : Relation K}
    {judge after : Judge K}
    (hrun : outcome (verdict relation.lhs relation.rhs) judge = (.ok .usable, after)) :
    relation.unknowns ≠ [] := by
  intro hnone
  have hsides (symbol : Symbol) :
      symbol ∉ relation.lhs.unknowns ∧ symbol ∉ relation.rhs.unknowns := by
    have hsymbol : symbol ∉ relation.unknowns := hnone ▸ List.not_mem_nil
    rw [Relation.unknowns, mem_ascending, List.mem_append] at hsymbol
    exact not_or.1 hsymbol
  have hquantities : (relation.lhs.unknowns.isEmpty && relation.rhs.unknowns.isEmpty) = true := by
    rw [Bool.and_eq_true, List.isEmpty_iff, List.isEmpty_iff]
    exact ⟨List.eq_nil_iff_forall_not_mem.2 (fun s => (hsides s).1),
      List.eq_nil_iff_forall_not_mem.2 (fun s => (hsides s).2)⟩
  rcases verdict_quantities hquantities judge with ⟨_, husable, _⟩ | ⟨_, _, _, _, hthen⟩
  · rw [hrun] at husable
    exact husable rfl
  · rw [hthen] at hrun
    cases hrun

namespace Worksheet

variable {K σ : Type} [Scalar K]

/-- States an equation in a branch and judges it. -/
def judging (bindings : Bindings K) (equation : Equation K) : Judge.Action K Verdict := do
  let relation ← MonadExcept.ofExcept (statedIn bindings equation)
  Judge.verdict relation.lhs relation.rhs

/-- What is said about an equation of which a relation is retained or which is redundant. -/
inductive Accepted (relations : List (Relation K)) (relation : Relation K) : Verdict → Prop
  | redundant : Accepted relations relation .redundant
  | usable (hunknowns : relation.unknowns ≠ [])
    (hkept : relation ∈ relations ∨ relations.contains relation = true) :
    Accepted relations relation .usable

/-- The worksheet `moment` is about to make a round in `branch`, and the round comes to nothing: the
relations that it gathers are retained ones of which no subset resolves a variable. -/
structure FixedPoint (moment gathered : Worksheet K σ) (relations : List (Relation K))
    (branch : Branch K) : Prop where
  current : moment.branches.list[moment.branches.current]? = some branch
  gathers : outcome (gather branch.id moment.equations []) moment.quiet =
    (.ok (some relations), gathered)
  judged : ∀ equation ∈ moment.equations, ∃ judge learnt relation verdict,
    Reaches (judging branch.bindings) (· ≠ .contradiction) moment.equations moment.judge
      equation judge ∧
    statedIn branch.bindings equation = .ok relation ∧
    outcome (Judge.verdict relation.lhs relation.rhs) judge = (.ok verdict, learnt) ∧
    Accepted relations relation verdict
  tried : ∀ subset, subset.Sublist relations → subset ≠ [] →
    (moment.options.maxSubset = 0 ∨ subset.length ≤ moment.options.maxSubset) →
    ∃ here there, Reaches (resolveBy branch.id) (· = false) (gathered.trials relations) gathered
        subset here ∧
      here.branches = moment.branches ∧
      outcome (resolveBy branch.id subset) here = (.ok false, there) ∧
      (unknownsOf here.branches subset = [] ∨
        ∃ answer, here.reply subset = .ok answer ∧ Unresolving here.options answer)

section Sift

variable {bindings : Bindings K} {equations : List (Equation K)}
  {found relations : List (Relation K)} {judge after : Judge K}

/-- What has been collected stays collected. -/
theorem subset_of_sift
    (hrun : outcome (sift bindings equations found) judge = (.ok (.usable relations), after)) :
    found ⊆ relations := by
  induction equations generalizing found judge with
  | nil =>
      cases hrun
      exact fun _ h => h
  | cons equation rest ih =>
      obtain ⟨relation, verdict, middle, _, _, hrest⟩ := sift_cons_ok hrun
      cases verdict with
      | redundant => exact ih hrest
      | contradiction => cases hrest.1
      | usable =>
          intro r hr
          apply ih hrest
          split
          · exact hr
          · exact List.mem_append_left _ hr

/-- If equations are sifted without a contradiction, each of them is stated and judged in its turn,
and is redundant or retained. -/
theorem judged_of_sift
    (hrun : outcome (sift bindings equations found) judge = (.ok (.usable relations), after)) :
    ∀ equation ∈ equations, ∃ moment learnt relation verdict,
      Reaches (judging bindings) (· ≠ .contradiction) equations judge equation moment ∧
      statedIn bindings equation = .ok relation ∧
      outcome (Judge.verdict relation.lhs relation.rhs) moment = (.ok verdict, learnt) ∧
      Accepted relations relation verdict := by
  induction equations generalizing found judge with
  | nil => exact List.forall_mem_nil _
  | cons equation rest ih =>
      obtain ⟨relation, verdict, middle, hstated, hverdict, hsifted⟩ := sift_cons_ok hrun
      have hstep : outcome (judging bindings equation) judge = (.ok verdict, middle) := by
        rw [judging, hstated, outcome_ofExcept_bind_ok]
        exact hverdict
      -- the first equation is judged at once, the others when the series comes to them
      have hall (hgoes : verdict ≠ .contradiction)
          (haccepted : Accepted relations relation verdict)
          (hrest : ∀ other ∈ rest, ∃ moment learnt relation verdict,
            Reaches (judging bindings) (· ≠ .contradiction) rest middle other moment ∧
            statedIn bindings other = .ok relation ∧
            outcome (Judge.verdict relation.lhs relation.rhs) moment = (.ok verdict, learnt) ∧
            Accepted relations relation verdict) :
          ∀ other ∈ equation :: rest, ∃ moment learnt relation verdict,
            Reaches (judging bindings) (· ≠ .contradiction) (equation :: rest) judge other
              moment ∧
            statedIn bindings other = .ok relation ∧
            outcome (Judge.verdict relation.lhs relation.rhs) moment = (.ok verdict, learnt) ∧
            Accepted relations relation verdict := by
        intro other hother
        rcases List.mem_cons.1 hother with rfl | hlater
        · exact ⟨judge, middle, relation, verdict, .here other rest judge, hstated, hverdict,
            haccepted⟩
        · obtain ⟨moment, learnt, stated, said, hreaches, hthere⟩ := hrest other hlater
          exact ⟨moment, learnt, stated, said, .later hstep hgoes hreaches, hthere⟩
      cases verdict with
      | contradiction => cases hsifted.1
      | redundant => exact hall (by decide) .redundant (ih hsifted)
      | usable =>
          refine hall (by decide) (.usable (Judge.unknowns_of_usable hverdict) ?_) (ih hsifted)
          have hkept := subset_of_sift hsifted
          by_cases hseen : found.contains relation = true
          · rw [if_pos hseen] at hkept
            rw [List.contains_eq_any_beq, List.any_eq_true] at hseen
            obtain ⟨same, hsame, heq⟩ := hseen
            right
            rw [List.contains_eq_any_beq, List.any_eq_true]
            exact ⟨same, hkept hsame, heq⟩
          · rw [if_neg hseen] at hkept
            exact Or.inl (hkept (List.mem_append_right _ List.mem_cons_self))

end Sift

section Sweep

variable {id : Nat} {subset : List (Relation K)} {here there : Worksheet K σ}

/-- An attempt in a branch that exists resolves nothing only if there is nothing to ask for, or if
the engine knows no values. -/
theorem unresolving_of_resolveBy (hlive : (here.branches.indexOf? id).isSome)
    (hrun : outcome (resolveBy id subset) here = (.ok false, there)) :
    unknownsOf here.branches subset = [] ∨
      ∃ answer, here.reply subset = .ok answer ∧ Unresolving here.options answer := by
  have hattempt := attempt_resolveBy id subset here
  rw [hrun] at hattempt
  generalize hpair : ((.ok false, there) : Except (Failure K) Bool × _) = run at hattempt
  cases hattempt with
  | idle hunknowns => exact Or.inl hunknowns
  | failed => cases hpair
  | undecided hunknowns hreply hanswer =>
      refine Or.inr ⟨_, hreply, Or.inl ?_⟩
      rcases hanswer with hundecided | ⟨_, hnone⟩
      · exact hundecided
      · rw [hnone] at hlive
        cases hlive
  | refused => cases hpair
  | inconsistent hunknowns hreply hraise => exact Or.inr ⟨_, hreply, Or.inr ⟨rfl, hraise⟩⟩
  | resolved =>
      have hresult := congrArg Prod.fst hpair
      exact absurd hresult.symm (takeOver_ne_false _ _ _)

end Sweep

/-- A round that resolves nothing shows the branch to be a fixed point. -/
theorem fixedPoint_of_sweep {moment gathered swept : Worksheet K σ}
    {relations : List (Relation K)} {branch : Branch K} (hformed : moment.branches.WellFormed)
    (hbranch : moment.branches.list[moment.branches.current]? = some branch)
    (hgather : outcome (gather branch.id moment.equations []) moment.quiet =
      (.ok (some relations), gathered))
    (hsweep : outcome ((gathered.trials relations).anyM (resolveBy branch.id)) gathered =
      (.ok false, swept)) : FixedPoint moment gathered relations branch := by
  have hgathered := works_gather branch.id moment.equations moment.quiet hformed
  rw [hgather] at hgathered
  obtain ⟨_, hsame, _, hsifted⟩ := gather_findings branch.id moment.quiet hformed hbranch hgather
  refine ⟨hbranch, hgather, judged_of_sift (hsifted relations rfl), ?_⟩
  intro subset hsub hsome hsize
  have hoptions : gathered.options = moment.options := hgathered.options
  have htrial := mem_trials_of_sublist gathered hsub hsome (hoptions ▸ hsize)
  obtain ⟨here, there, hreaches, hrun⟩ := reaches_of_anyM hsweep subset htrial
  have hhere : here.branches = moment.branches :=
    (unresolved_of_reaches hgathered.formed hreaches).1.trans hsame
  refine ⟨here, there, hreaches, hhere, hrun, unresolving_of_resolveBy ?_ hrun⟩
  rw [hhere, hformed.indexOf?_eq hbranch]
  rfl

/-- Solving a branch ends in a round that shows it to be a fixed point, unless it is marked. -/
theorem settle_fixedPoint (id steps : Nat) (sheet : Worksheet K σ)
    (hprocedures : sheet.procedures = []) (hformed : sheet.branches.WellFormed)
    (hat : AtBranch id sheet) {after : Worksheet K σ}
    (hrun : outcome (settle id steps) sheet = (.ok (), after)) :
    ∀ branch ∈ after.branches.list, branch.id = id → branch.id ∉ after.marked.keys →
      ∃ moment gathered relations, RoundAt id sheet moment ∧
        FixedPoint moment gathered relations branch := by
  induction steps generalizing sheet with
  | zero =>
      rw [settle] at hrun
      cases hrun
  | succ steps ih =>
      have hround := round_settle id steps sheet hprocedures hformed
      obtain ⟨branch, hbranch, hid⟩ := hat
      rw [hrun] at hround
      generalize hpair : ((.ok (), after) : Except (Failure K) Unit × _) = run at hround
      cases hround with
      | failed => cases hpair
      | contradicted hgather =>
          cases hpair
          obtain ⟨_, _, hmarked, _⟩ := gather_findings id sheet.quiet hformed hbranch hgather
          intro other _ hother hfree
          rw [hother] at hfree
          exact absurd (hmarked rfl) hfree
      | broken => cases hpair
      | @again relations middle between hgather hsweep =>
          have hworks : Works id sheet between :=
            (RoundAt.again hgather hsweep (.first between)).works hformed
          intro other hother hotherId hfree
          obtain ⟨moment, gathered, retained, hmoment, hfixed⟩ := ih between
            (hworks.procedures.trans hprocedures) hworks.formed
            (AtBranch.of_works ⟨branch, hbranch, hid⟩ hworks) hpair.symm other hother hotherId hfree
          exact ⟨moment, gathered, retained, .again hgather hsweep hmoment, hfixed⟩
      | @settled relations middle between hgather hsweep =>
          cases hpair
          subst hid
          have hfixed := fixedPoint_of_sweep hformed hbranch hgather hsweep
          have hgathered := works_gather branch.id sheet.equations sheet.quiet hformed
          rw [hgather] at hgathered
          obtain ⟨_, hsame, _, _⟩ := gather_findings branch.id sheet.quiet hformed hbranch hgather
          obtain ⟨_, _, _, rfl⟩ := unresolved_sweep hgathered.formed hsweep
          intro other hother hotherId _
          have hthere : other ∈ sheet.branches.list := hsame ▸ hother
          obtain rfl := hformed.branch_unique hthere (List.mem_of_getElem? hbranch) hotherId
          exact ⟨sheet, middle, relations, .first sheet, hfixed⟩

/-- After a run that ended well, every branch is a fixed point: the run has visited it, and in the
last round of that visit, under exactly the bindings that the branch has now, no equation was
contradicted, all equations without unknowns were redundant, and every nonempty subset of the
retained relations up to the largest size was tried and resolved nothing. -/
theorem solved_branches_are_fixed_points {sheet after : Worksheet K σ} {steps : Nat}
    (hprocedures : sheet.procedures = []) (hformed : sheet.branches.WellFormed)
    (hrun : outcome (solve steps) sheet = (.ok (), after)) :
    ∀ branch ∈ after.branches.list, ∃ visit moment gathered relations,
      VisitAt steps [] sheet.opened branch.id visit ∧ RoundAt branch.id visit moment ∧
      moment.equations = sheet.equations ∧ moment.options = sheet.options ∧
      FixedPoint moment gathered relations branch := by
  have hshape := run_solve steps sheet hprocedures hformed
  rw [hrun] at hshape
  generalize hpair : ((.ok (), after) : Except (Failure K) Unit × _) = run at hshape
  cases hshape with
  | broken => cases hpair
  | hopeless => cases hpair
  | fruitless => cases hpair
  | @finished visited middle between startId log hpass hstays hstart hdiscard hgood =>
      have hpasses := passes_visitAll steps steps [] sheet.opened hprocedures hformed
      rw [hpass] at hpasses
      obtain ⟨branches, log', hdiscarded, hlist, _⟩ :=
        outcome_discardMarked_ok startId hpasses.formed hstays
      rw [hdiscarded] at hdiscard
      cases hdiscard
      cases hpair
      intro branch hbranch
      have hkept : branch ∈ middle.branches.list.filter
          (fun branch => !middle.marked.keys.contains branch.id) := hlist ▸ hbranch
      obtain ⟨hmem, hfree⟩ := List.mem_filter.1 hkept
      have hunmarked : branch.id ∉ middle.marked.keys := by simpa using hfree
      refine visitAll_establishes (P := fun branch => ∃ visit moment gathered relations,
        VisitAt steps [] sheet.opened branch.id visit ∧ RoundAt branch.id visit moment ∧
        moment.equations = sheet.equations ∧ moment.options = sheet.options ∧
        FixedPoint moment gathered relations branch) steps steps [] sheet.opened hprocedures
        hformed nofun ?_ nofun hpass branch hmem hunmarked
      intro id visit settled hvisit hsettle other hother hid hfree'
      obtain ⟨hpassed, hat⟩ := hvisit.passes hprocedures hformed
      obtain ⟨moment, gathered, relations, hmoment, hfixed⟩ := settle_fixedPoint id steps visit
        (hpassed.procedures.trans hprocedures) hpassed.formed hat hsettle other hother hid hfree'
      have hworks := hmoment.works hpassed.formed
      rw [hid]
      exact ⟨visit, moment, gathered, relations, hvisit, hmoment,
        hworks.equations.trans hpassed.equations, hworks.options.trans hpassed.options, hfixed⟩

theorem partly_solved_is_a_fixed_point :
    (outcome (solve 4) Rational.partlySolvableSheet).2.branches.count = 1 ∧
    ∀ branch ∈ (outcome (solve 4) Rational.partlySolvableSheet).2.branches.list,
      ∃ visit moment gathered relations,
        VisitAt 4 [] Rational.partlySolvableSheet.opened branch.id visit ∧
        RoundAt branch.id visit moment ∧
        moment.equations = Rational.partlySolvableSheet.equations ∧
        moment.options = Rational.partlySolvableSheet.options ∧
        FixedPoint moment gathered relations branch := by
  have hisOk : (outcome (solve 4) Rational.partlySolvableSheet).1.isOk = true := by decide +kernel
  have hok : (outcome (solve 4) Rational.partlySolvableSheet).1 = .ok () :=
    except_eq_ok_of_isOk hisOk
  exact ⟨by decide +kernel, solved_branches_are_fixed_points rfl
    (Rational.wellFormed_sheet Methods.standard ["x", "y", "z"] _) (Prod.ext hok rfl)⟩

end Worksheet

end Ramify
