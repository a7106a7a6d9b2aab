import Mathlib.Logic.Hydra
import Ramify.Proofs.Worksheet.Failures
import Ramify.Proofs.Worksheet.Rational
import Ramify.Proofs.Worksheet.Shrink

/-!
Solving comes to an end. A branch starts over only after it has lost an open unknown, so it does so
no more often than there are variables. A visit to a branch takes it from those that are still to be
visited and puts new ones in its place, each with fewer open unknowns than it had: the ranks of the
branches that are still to be visited go down in the well founded order of cutting and expanding.
Whatever number of steps a run is allowed, beyond some number it makes no difference.
-/

namespace Ramify

/-- An engine that does not fail for want of steps of the run that asks it. -/
def Engine.NeverExhausts {K σ : Type} (engine : Engine K σ) : Prop :=
  ∀ relations unknowns state, ErrsWith (· ≠ .stepsExhausted)
    (engine.ask relations unknowns state).1

theorem Engine.neverExhausts_polynomial {K : Type} [Scalar K] (numerics : Numerics K)
    (settings : SolverSettings K) : (polynomial numerics settings).NeverExhausts := by
  intro relations unknowns state failure hfailed
  have hincidental := Worksheet.steady_polynomial numerics settings relations unknowns state failure
    hfailed
  rintro rfl
  exact hincidental

namespace Worksheet

variable {K σ : Type} [Scalar K]

/-- The number of declared unknowns that occur in the bindings of a branch. -/
def rank (names : List String) (branch : Branch K) : Nat := (branch.openNames names).card

omit [Scalar K] in
theorem rank_le (names : List String) (branch : Branch K) : rank names branch ≤ names.length :=
  (Finset.card_filter_le _ _).trans (List.toFinset_card_le names)

section Settle

variable {sheet : Worksheet K σ} {branch : Branch K}

/-- A branch starts over at most as often as it has open unknowns, and more steps change
nothing. -/
theorem settle_ends (h : Tractable sheet) (hengine : sheet.engine.NeverExhausts)
    (hbranch : sheet.branches.list[sheet.branches.current]? = some branch) :
    ∃ run : Except (Failure K) Unit × Worksheet K σ, run.1 ≠ .error .stepsExhausted ∧
      ∀ limit, rank sheet.branches.names branch < limit →
        outcome (settle branch.id limit) sheet = run := by
  induction hrank : rank sheet.branches.names branch using Nat.strong_induction_on
    generalizing sheet branch with
  | _ n ih =>
      subst hrank
      have hround (steps : Nat) :=
        outcome_settle_succ branch.id steps sheet h.procedures h.formed
      have hgathered := works_gather branch.id sheet.equations sheet.quiet h.formed
      have herrs : ErrsWith Failure.Incidental
          (outcome (gather branch.id sheet.equations []) sheet.quiet).1 :=
        errs_gather branch.id sheet.quiet h.formed
      -- a round that does not lead to another one is all there is
      have hlast {run : Except (Failure K) Unit × Worksheet K σ}
          (hrun : run.1 ≠ .error .stepsExhausted)
          (hsame : ∀ steps, outcome (settle branch.id (steps + 1)) sheet = run) :
          ∃ run : Except (Failure K) Unit × Worksheet K σ, run.1 ≠ .error .stepsExhausted ∧
            ∀ limit, rank sheet.branches.names branch < limit →
              outcome (settle branch.id limit) sheet = run := by
        refine ⟨run, hrun, fun limit hlimit => ?_⟩
        obtain ⟨steps, rfl⟩ :=
          Nat.exists_eq_succ_of_ne_zero (Nat.ne_of_gt (Nat.zero_lt_of_lt hlimit))
        exact hsame steps
      rcases hgather : outcome (gather branch.id sheet.equations []) sheet.quiet with
        ⟨failure | _ | relations, middle⟩
      · rw [hgather] at herrs
        simp only [hgather] at hround
        refine hlast ?_ hround
        rintro hfailed
        cases hfailed
        exact herrs _ rfl
      · simp only [hgather] at hround
        refine hlast ?_ hround
        exact nofun
      · rw [hgather] at hgathered
        simp only [hgather] at hround
        rcases hsweep : outcome ((middle.trials relations).anyM (resolveBy branch.id)) middle with
          ⟨failure | _ | _, after⟩
        · simp only [hsweep] at hround
          refine hlast ?_ hround
          have hswept := errs_sweep branch.id (middle.trials relations)
            (hgathered.engine ▸ hengine) (fun _ hends => hends.ne_stepsExhausted) hgathered.formed
          rw [hsweep] at hswept
          intro hfailed
          cases hfailed
          exact hswept _ rfl rfl
        · simp only [hsweep] at hround
          refine hlast ?_ hround
          exact nofun
        · simp only [hsweep] at hround
          have hworks : Works branch.id sheet after :=
            (RoundAt.again hgather hsweep (.first after)).works h.formed
          obtain ⟨found, hfound, hid⟩ := AtBranch.of_works ⟨branch, hbranch, rfl⟩ hworks
          have hsmaller : rank after.branches.names found < rank sheet.branches.names branch := by
            rw [hworks.passes.names]
            exact Finset.card_lt_card (round_shrinks h hbranch hgather hsweep
              (List.mem_of_getElem? hfound) (Or.inl hid))
          obtain ⟨run, hrun, hsame⟩ := ih _ hsmaller (h.passes hworks.passes)
            (hworks.engine ▸ hengine) hfound rfl
          refine ⟨run, hrun, fun limit hlimit => ?_⟩
          obtain ⟨steps, rfl⟩ :=
            Nat.exists_eq_succ_of_ne_zero (Nat.ne_of_gt (Nat.zero_lt_of_lt hlimit))
          rw [Nat.succ_eq_add_one, hround steps, ← hid]
          exact hsame steps (by omega)

end Settle

section Visit

def ranks (names : List String) (branches : Branches K) (visited : List Nat) : Multiset Nat :=
  ((unvisited branches visited).map (rank names) : List Nat)

omit [Scalar K] in
theorem nodup_unvisited {branches : Branches K} (hformed : branches.WellFormed)
    (visited : List Nat) : (unvisited branches visited).Nodup :=
  (hformed.nodup_ids.of_map Branch.id).filter _

omit [Scalar K] in
/-- If new branches have lower ranks than the branch in whose visit they came about, the visit cuts
its rank and puts theirs in its place. -/
theorem cutExpand_ranks (names : List String) {before after : Branches K} {visited : List Nat}
    {branch : Branch K} (hbefore : before.WellFormed) (hafter : after.WellFormed)
    (hbranch : branch ∈ before.list) (hnew : branch.id ∉ visited)
    (hkept : ∀ other ∈ before.list, other.id ≠ branch.id → other ∈ after.list)
    (horigin : ∀ other ∈ after.list, other.id ≠ branch.id →
      other ∈ before.list ∨ before.nextId ≤ other.id)
    (hlower : ∀ other ∈ after.list, before.nextId ≤ other.id →
      rank names other < rank names branch) :
    Relation.CutExpand (· < ·) (ranks names after (branch.id :: visited))
      (ranks names before visited) := by
  have hold (other : Branch K) : other ∈ (unvisited after (branch.id :: visited)).filter
        (fun other => decide (other.id < before.nextId)) ↔
      other ∈ (unvisited before visited).filter (fun other => decide (other.id ≠ branch.id)) := by
    simp only [List.mem_filter, mem_unvisited, List.mem_cons, not_or, decide_eq_true_eq]
    constructor
    · rintro ⟨⟨hmem, hne, hfree⟩, hlt⟩
      have hthere := (horigin other hmem hne).resolve_right (Nat.not_le.2 hlt)
      exact ⟨⟨hthere, hfree⟩, hne⟩
    · rintro ⟨⟨hmem, hfree⟩, hne⟩
      exact ⟨⟨hkept other hmem hne, hne, hfree⟩, hbefore.fresh other hmem⟩
  have hrest : ((unvisited after (branch.id :: visited)).filter
        (fun other => decide (other.id < before.nextId))).Perm
      ((unvisited before visited).filter (fun other => decide (other.id ≠ branch.id))) :=
    (List.perm_ext_iff_of_nodup ((nodup_unvisited hafter _).filter _)
      ((nodup_unvisited hbefore _).filter _)).2 hold
  have hcut : (unvisited before visited).Perm (branch ::
      (unvisited before visited).filter (fun other => decide (other.id ≠ branch.id))) := by
    refine (List.perm_ext_iff_of_nodup (nodup_unvisited hbefore _)
      (List.nodup_cons.2 ⟨?_, (nodup_unvisited hbefore _).filter _⟩)).2 fun other => ?_
    · simp
    · simp only [List.mem_cons, List.mem_filter, mem_unvisited, decide_eq_true_eq]
      constructor
      · intro hother
        by_cases hid : other.id = branch.id
        · exact Or.inl (hbefore.branch_unique hother.1 hbranch hid)
        · exact Or.inr ⟨hother, hid⟩
      · rintro (rfl | ⟨hother, _⟩)
        · exact ⟨hbranch, hnew⟩
        · exact hother
  have hsplit := List.filter_append_perm (fun other : Branch K => decide (other.id < before.nextId))
    (unvisited after (branch.id :: visited))
  refine ⟨(((unvisited after (branch.id :: visited)).filter
    (fun other => !decide (other.id < before.nextId))).map (rank names) : List Nat),
    rank names branch, ?_, ?_⟩
  · intro n hn
    obtain ⟨other, hother, rfl⟩ := List.mem_map.1 (Multiset.mem_coe.1 hn)
    obtain ⟨hmem, hlate⟩ := List.mem_filter.1 hother
    exact hlower other (mem_unvisited.1 hmem).1 (by simpa using hlate)
  · unfold ranks
    rw [Multiset.coe_eq_coe.2 (hsplit.symm.map (rank names)),
      Multiset.coe_eq_coe.2 (hcut.map (rank names)), List.map_append, List.map_cons,
      ← Multiset.coe_add, Multiset.coe_eq_coe.2 (hrest.map (rank names)), ← Multiset.cons_coe,
      ← Multiset.singleton_add]
    abel

/-- A visit to the branches comes to an end. -/
theorem visitAll_ends {sheet : Worksheet K σ} (h : Tractable sheet)
    (hengine : sheet.engine.NeverExhausts) (visited : List Nat) :
    ∃ bound, ∃ run : Except (Failure K) (List Nat) × Worksheet K σ,
      run.1 ≠ .error .stepsExhausted ∧
      ∀ limit, sheet.branches.names.length < limit → ∀ steps, bound ≤ steps →
        outcome (visitAll limit steps visited) sheet = run := by
  induction hranks : ranks sheet.branches.names sheet.branches visited using
    (Nat.lt_wfRel.wf.cutExpand).induction generalizing sheet visited with
  | _ left ih =>
      subst hranks
      cases hnext : nextUnvisited sheet.branches visited with
      | none =>
          refine ⟨1, (.ok visited, sheet), nofun, fun limit _ steps hsteps => ?_⟩
          obtain ⟨steps, rfl⟩ := Nat.exists_eq_succ_of_ne_zero (Nat.ne_of_gt hsteps)
          exact outcome_visitAll_done limit steps hnext
      | some pair =>
          obtain ⟨index, id⟩ := pair
          obtain ⟨branch, log, hbranch, rfl, hnew, hturn⟩ := exists_turn hnext
          have hvisit (limit steps : Nat) := outcome_visitAll_next limit steps hnext hturn
          have hturned : Tractable (sheet.turnedTo index log) :=
            h.passes ⟨rfl, rfl, rfl, rfl, rfl, formed_turnedTo h.formed hbranch log, rfl⟩
          obtain ⟨settled, hsettled, hsame⟩ := settle_ends hturned hengine hbranch
          have hsettle (limit : Nat) (hlimit : sheet.branches.names.length < limit) :
              outcome (settle branch.id limit) (sheet.turnedTo index log) = settled :=
            hsame limit (Nat.lt_of_le_of_lt (rank_le _ _) hlimit)
          rcases settled with ⟨failure | _, middle⟩
          · refine ⟨1, (.error failure, middle), ?_, fun limit hlimit steps hsteps => ?_⟩
            · intro hfailed
              cases hfailed
              exact hsettled rfl
            · obtain ⟨steps, rfl⟩ := Nat.exists_eq_succ_of_ne_zero (Nat.ne_of_gt hsteps)
              exact (hvisit limit steps).trans (outcome_bind_error _ (hsettle limit hlimit))
          · have hlong := hsettle _ (Nat.lt_succ_self _)
            have hworks := works_settle branch.id (sheet.branches.names.length + 1)
              (sheet.turnedTo index log) hturned.procedures hturned.formed
            rw [hlong] at hworks
            have hpasses := passes_visit h.procedures h.formed hbranch log
              (sheet.branches.names.length + 1)
            rw [hlong] at hpasses
            have hlower : ∀ other ∈ middle.branches.list, sheet.branches.nextId ≤ other.id →
                rank sheet.branches.names other < rank sheet.branches.names branch := by
              intro other hother hlate
              rcases settle_shrinks _ hturned hbranch hlong hother (Or.inr hlate) with rfl | hless
              · exact absurd (h.formed.fresh other (List.mem_of_getElem? hbranch))
                  (Nat.not_lt.2 hlate)
              · exact Finset.card_lt_card hless
            have hdescent := cutExpand_ranks sheet.branches.names h.formed hpasses.formed
              (List.mem_of_getElem? hbranch) hnew hworks.branches.kept hworks.branches.origin hlower
            obtain ⟨bound, run, hrun, hrest⟩ := ih _ (hpasses.names ▸ hdescent) (h.passes hpasses)
              (hpasses.engine ▸ hengine) (branch.id :: visited) rfl
            refine ⟨bound + 1, run, hrun, fun limit hlimit steps hsteps => ?_⟩
            obtain ⟨steps, rfl⟩ := Nat.exists_eq_succ_of_ne_zero
              (Nat.ne_of_gt (Nat.lt_of_lt_of_le (Nat.succ_pos bound) hsteps))
            rw [Nat.succ_eq_add_one, hvisit limit steps, outcome_bind_ok _ (hsettle limit hlimit)]
            exact hrest limit (hpasses.names ▸ hlimit) steps (by omega)

end Visit

section Solve

variable {sheet : Worksheet K σ}

/-- Whenever a run resolves variables of a branch, fewer declared unknowns occur in it and in each
of its copies. -/
theorem AttemptAt.shrinks (h : Tractable sheet) {limit id : Nat} {subset : List (Relation K)}
    {here after : Worksheet K σ} (hattempt : AttemptAt limit sheet id subset here)
    (hrun : outcome (resolveBy id subset) here = (.ok true, after)) :
    ∀ branch ∈ here.branches.list, branch.id = id → ∀ other ∈ after.branches.list,
      (other.id = id ∨ here.branches.nextId ≤ other.id) →
      other.openNames sheet.branches.names ⊂ branch.openNames sheet.branches.names := by
  obtain ⟨hpasses, found, hfound, rfl⟩ := hattempt.passes h.procedures h.formed
  have hsubset := hattempt.over h.procedures h.formed h.reads hfound
  intro branch hbranch hid other hother hfamily
  obtain rfl := hpasses.formed.branch_unique hbranch (List.mem_of_getElem? hfound) hid
  rw [← hpasses.names] at hsubset ⊢
  exact resolveBy_shrinks hpasses.formed (hpasses.engine ▸ h.engine) hbranch hsubset hrun hother
    hfamily

/-- A run comes to an end, and beyond some number of steps it makes no difference how many it is
allowed. -/
theorem solve_ends (h : Tractable sheet) (hengine : sheet.engine.NeverExhausts) :
    ∃ bound, ∃ run : Except (Failure K) Unit × Worksheet K σ, run.1 ≠ .error .stepsExhausted ∧
      ∀ steps, bound ≤ steps → outcome (solve steps) sheet = run := by
  obtain ⟨enough, pass, hpass, hsame⟩ := visitAll_ends (tractable_opened h) hengine []
  obtain ⟨branch, hbranch⟩ := h.formed.exists_current
  let bound := max enough (sheet.branches.names.length + 1)
  have hvisit (steps : Nat) (hsteps : bound ≤ steps) :
      outcome (visitAll steps steps []) sheet.opened = pass :=
    hsame steps (Nat.lt_of_succ_le ((Nat.le_max_right _ _).trans hsteps)) steps
      ((Nat.le_max_left _ _).trans hsteps)
  refine ⟨bound, outcome (solve bound) sheet, ?_, fun steps hsteps => ?_⟩
  · have hrun := run_solve bound sheet h.procedures h.formed
    generalize outcome (solve bound) sheet = run at hrun
    cases hrun with
    | broken hbroken =>
        rw [hvisit bound le_rfl] at hbroken
        intro hfailed
        cases hfailed
        rw [hbroken] at hpass
        exact hpass rfl
    | hopeless => exact nofun
    | fruitless => exact nofun
    | finished => exact nofun
  · rw [outcome_solve steps hbranch, outcome_solve bound hbranch]
    exact outcome_bind_congr ((hvisit steps hsteps).trans (hvisit bound le_rfl).symm) _

omit [Scalar K] in
/-- What takes finitely many values is bounded. -/
private theorem exists_bound {f : Nat → Nat} {bound last : Nat}
    (h : ∀ steps, bound ≤ steps → f steps = last) : ∃ total, ∀ steps, f steps ≤ total := by
  refine ⟨max ((Finset.range bound).sup f) last, fun steps => ?_⟩
  by_cases hsteps : bound ≤ steps
  · rw [h steps hsteps]
    exact Nat.le_max_right _ _
  · exact (Finset.le_sup (Finset.mem_range.2 (Nat.lt_of_not_le hsteps))).trans (Nat.le_max_left _ _)

/-- Solving terminates, with the polynomial engine and with any other engine whose candidates give
values to what it was asked for. Each attempt that resolves variables leaves fewer declared unknowns
in the branch and in each copy made of it. A branch starts over at most once for each declared
variable: with one step more it does not run out of steps, and still more make no difference. The
whole run ends as well, and there is a number of identities that it never exceeds. -/
theorem solve_terminates :
    (∀ (numerics : Numerics K) (settings : SolverSettings K),
      (Engine.polynomial numerics settings).KeysWithin ∧
      (Engine.polynomial numerics settings).NeverExhausts) ∧
    ∀ sheet : Worksheet K σ, sheet.procedures = [] → sheet.branches.WellFormed →
      (∀ equation ∈ sheet.equations, equation.ReadsOnly sheet.branches.names) →
      sheet.engine.KeysWithin → sheet.engine.NeverExhausts →
      (∀ limit id subset here after, AttemptAt limit sheet id subset here →
        outcome (resolveBy id subset) here = (.ok true, after) →
        ∀ branch ∈ here.branches.list, branch.id = id → ∀ other ∈ after.branches.list,
          (other.id = id ∨ here.branches.nextId ≤ other.id) →
          other.openNames sheet.branches.names ⊂ branch.openNames sheet.branches.names) ∧
      (∀ limit id visit, VisitAt limit [] sheet.opened id visit →
        ∃ run : Except (Failure K) Unit × Worksheet K σ, run.1 ≠ .error .stepsExhausted ∧
          ∀ steps, sheet.branches.names.length < steps → outcome (settle id steps) visit = run) ∧
      (∃ bound, ∃ run : Except (Failure K) Unit × Worksheet K σ,
        run.1 ≠ .error .stepsExhausted ∧
        ∀ steps, bound ≤ steps → outcome (solve steps) sheet = run) ∧
      ∃ total, ∀ steps, (outcome (solve steps) sheet).2.branches.nextId ≤ total := by
  refine ⟨fun numerics settings => ⟨(Engine.confined_polynomial numerics settings).keysWithin,
    Engine.neverExhausts_polynomial numerics settings⟩, ?_⟩
  intro sheet hprocedures hformed hreads hkeys hengine
  have h : Tractable sheet := ⟨hprocedures, hformed, hreads, hkeys⟩
  obtain ⟨bound, run, hrun, hsame⟩ := solve_ends h hengine
  have hlast (steps : Nat) (hsteps : bound ≤ steps) :
      (outcome (solve steps) sheet).2.branches.nextId = run.2.branches.nextId := by
    rw [hsame steps hsteps]
  refine ⟨fun limit id subset here after => AttemptAt.shrinks h, fun limit id visit hvisit => ?_,
    ⟨bound, run, hrun, hsame⟩, exists_bound hlast⟩
  obtain ⟨hpasses, branch, hbranch, rfl⟩ := hvisit.passes hprocedures hformed
  obtain ⟨settled, hsettled, hrest⟩ := settle_ends ((tractable_opened h).passes hpasses)
    (hpasses.engine ▸ hengine) hbranch
  have hnames : visit.branches.names = sheet.branches.names := hpasses.names
  refine ⟨settled, hsettled, fun steps hsteps => hrest steps ?_⟩
  rw [hnames]
  exact Nat.lt_of_le_of_lt (rank_le _ _) hsteps

theorem partly_solvable_terminates :
    Rational.partlySolvableSheet.equations.length = 3 ∧
    (∃ bound, ∃ run : Except (Failure Rat) Unit × Worksheet Rat Twister,
      run.1 ≠ .error .stepsExhausted ∧
      ∀ steps, bound ≤ steps → outcome (solve steps) Rational.partlySolvableSheet = run) ∧
    ∃ total, ∀ steps,
      (outcome (solve steps) Rational.partlySolvableSheet).2.branches.nextId ≤ total := by
  obtain ⟨hpolynomial, hall⟩ := solve_terminates (K := Rat) (σ := Twister)
  obtain ⟨hkeys, hengine⟩ := hpolynomial Methods.standard Rational.settings
  obtain ⟨_, _, hends, hcount⟩ := hall Rational.partlySolvableSheet rfl
    (Rational.wellFormed_sheet Methods.standard ["x", "y", "z"] _) (by decide +kernel) hkeys hengine
  exact ⟨rfl, hends, hcount⟩

end Solve

end Worksheet

end Ramify
