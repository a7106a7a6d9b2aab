import Ramify.Proofs.Solver.RealRoots
import Ramify.Proofs.Worksheet.Course
import Ramify.Proofs.Worksheet.Isolation

/-!
The turns of a run in which procedures read, bind and delete. Branches split off and disappear while
the loop over the branches is under way, and with them positions and the current branch move. What
carries the argument is that identities are never given out again: an identity that is gone stays
gone, so a branch that is found has not had its turn, and one that has lost its turn does not come
back.
-/

namespace Ramify

namespace Branches

variable {K : Type} {id : Nat} {before after : Branches K}

def Has (id : Nat) (branches : Branches K) : Prop := ∃ branch ∈ branches.list, branch.id = id

/-- What time does to identities: new ones are given out, and none comes back. -/
structure Ages (before after : Branches K) : Prop where
  nextId : before.nextId ≤ after.nextId
  older : ∀ id, id < before.nextId → after.Has id → before.Has id

theorem Ages.refl (branches : Branches K) : Ages branches branches :=
  ⟨Nat.le_refl _, fun _ _ h => h⟩

theorem Ages.trans {a b c : Branches K} (hab : Ages a b) (hbc : Ages b c) : Ages a c where
  nextId := Nat.le_trans hab.nextId hbc.nextId
  older id hid hc := hab.older id hid (hbc.older id (Nat.lt_of_lt_of_le hid hab.nextId) hc)

theorem has_of_ids (h : after.Has id)
    (hids : ∀ other ∈ after.list.map Branch.id, other ∈ before.list.map Branch.id) :
    before.Has id := by
  obtain ⟨branch, hbranch, rfl⟩ := h
  obtain ⟨other, hother, hsame⟩ := List.mem_map.1 (hids branch.id (List.mem_map_of_mem hbranch))
  exact ⟨other, hother, hsame⟩

theorem Binds.ages (h : Binds before after) : Ages before after := by
  have hids := h.ids
  obtain ⟨declared, value⟩ := h
  exact ⟨Nat.le_refl _, fun _ _ hafter => has_of_ids hafter (fun _ hid => hids ▸ hid)⟩

theorem Drops.ages (h : Drops before after) : Ages before after := by
  obtain ⟨several⟩ := h
  refine ⟨Nat.le_refl _, fun _ _ hafter => has_of_ids hafter (fun _ hid => ?_)⟩
  exact ((List.eraseIdx_sublist _ _).map Branch.id).subset hid

theorem Acts.ages (h : Acts before after) : Ages before after := by
  induction h with
  | refl => exact .refl before
  | tail _ hstep ih =>
      rcases hstep with hbinds | hdrops
      · exact ih.trans hbinds.ages
      · exact ih.trans hdrops.ages

theorem Grows.ages {worked : Nat} (h : Grows worked before after) : Ages before after := by
  refine ⟨h.nextId, ?_⟩
  rintro id hid ⟨branch, hbranch, rfl⟩
  exact h.older branch hbranch hid

theorem Grows.has {worked : Nat} (h : Grows worked before after) (hbefore : before.Has id) :
    after.Has id := by
  obtain ⟨branch, hbranch, rfl⟩ := hbefore
  obtain ⟨i, hi⟩ := List.mem_iff_getElem?.1 hbranch
  obtain ⟨other, hother, hsame⟩ := h.places i branch hi
  exact ⟨other, List.mem_of_getElem? hother, hsame⟩

theorem indexOf?_isSome_iff {branches : Branches K} :
    (branches.indexOf? id).isSome = true ↔ branches.Has id := by
  constructor
  · intro h
    obtain ⟨index, hindex⟩ := Option.isSome_iff_exists.1 h
    obtain ⟨branch, hbranch, hid⟩ := indexOf?_some hindex
    exact ⟨branch, List.mem_of_getElem? hbranch, hid⟩
  · rintro ⟨branch, hbranch, hid⟩
    by_contra hnone
    rw [Bool.not_eq_true, Option.isSome_eq_false_iff, Option.isNone_iff_eq_none] at hnone
    exact indexOf?_none hnone branch hbranch hid

end Branches

namespace Worksheet

open Branches (Has Ages)

variable {K σ : Type} [Scalar K]

/-- What stays while a branch is solved and procedures run. -/
structure Continues (before after : Worksheet K σ) : Prop where
  procedures : after.procedures = before.procedures
  formed : after.branches.WellFormed
  ages : before.branches.Ages after.branches

omit [Scalar K] in
theorem Continues.trans {a b c : Worksheet K σ} (hab : Continues a b) (hbc : Continues b c) :
    Continues a c where
  procedures := hbc.procedures.trans hab.procedures
  formed := hbc.formed
  ages := hab.ages.trans hbc.ages

omit [Scalar K] in
theorem Works.continues {id : Nat} {before after : Worksheet K σ} (h : Works id before after) :
    Continues before after := ⟨h.procedures, h.formed, h.branches.ages⟩

/-- The procedures of a worksheet only read, bind variables and delete the current branch. -/
def IsPlain (sheet : Worksheet K σ) : Prop :=
  ∀ procedure ∈ sheet.procedures, procedure.body.isPlain = true

instance (sheet : Worksheet K σ) : Decidable sheet.IsPlain :=
  inferInstanceAs (Decidable (∀ procedure ∈ sheet.procedures, procedure.body.isPlain = true))

omit [Scalar K] in
theorem Continues.isPlain {before after : Worksheet K σ} (h : Continues before after)
    (hplain : before.IsPlain) : after.IsPlain := by
  unfold IsPlain
  rw [h.procedures]
  exact hplain

section Procedures

variable {id : Nat} {sheet : Worksheet K σ}

/-- Procedures on behalf of a branch bring no identity back. -/
theorem runs_performEach (id : Nat) (procedures : List (Procedure K)) (sheet : Worksheet K σ)
    (hplain : ∀ procedure ∈ procedures, procedure.body.isPlain = true)
    (hrunning : sheet.inProcedure = true) (hformed : sheet.branches.WellFormed) :
    Runs Ages sheet (outcome (performEach id procedures) sheet).2 := by
  induction procedures generalizing sheet with
  | nil => exact ⟨hrunning, rfl, hformed, .refl _⟩
  | cons procedure rest ih =>
      have hacts := acts_perform procedure.body (hplain procedure List.mem_cons_self) sheet
        hrunning hformed
      have hruns := runs_performProcedure procedure hacts
      rw [performEach]
      rcases hrun : outcome (performProcedure procedure) sheet with ⟨failure | _, middle⟩
      · rw [outcome_bind_error _ hrun]
        rw [hrun] at hruns
        exact ⟨hruns.running, hruns.procedures, hruns.formed, hruns.branches.ages⟩
      · rw [outcome_bind_ok _ hrun, outcome_get_bind]
        rw [hrun] at hruns
        dsimp only at hruns ⊢
        cases hindex : middle.branches.indexOf? id with
        | none => exact ⟨hruns.running, hruns.procedures, hruns.formed, hruns.branches.ages⟩
        | some index =>
            have hrest := ih middle
              (fun other hother => hplain other (List.mem_cons_of_mem _ hother))
              hruns.running hruns.formed
            exact ⟨hrest.running, hrest.procedures.trans hruns.procedures, hrest.formed,
              hruns.branches.ages.trans hrest.branches⟩

/-- Procedures that say that a branch is there are right, unless it was missing from the start. -/
theorem has_of_performEach {procedures : List (Procedure K)} {after : Worksheet K σ}
    (hrun : outcome (performEach id procedures) sheet = (.ok true, after))
    (hhas : sheet.branches.Has id) : after.branches.Has id := by
  induction procedures generalizing sheet with
  | nil =>
      cases hrun
      exact hhas
  | cons procedure rest ih =>
      rw [performEach] at hrun
      obtain ⟨_, middle, _, hrun⟩ := outcome_bind_eq_ok.1 hrun
      rw [outcome_get_bind] at hrun
      cases hindex : middle.branches.indexOf? id with
      | none =>
          rw [hindex] at hrun
          cases hrun
      | some index =>
          rw [hindex] at hrun
          exact ih hrun (Branches.indexOf?_isSome_iff.1 (hindex ▸ rfl))

theorem has_of_performAll {after : Worksheet K σ}
    (hrun : outcome (performAll id) sheet = (.ok true, after)) (hhas : sheet.branches.Has id) :
    after.branches.Has id := by
  obtain ⟨last, hlast, rfl⟩ := exists_performEach hrun
  have hstays : last.branches.Has id := has_of_performEach hlast hhas
  exact hstays

theorem continues_performAll (id : Nat) (sheet : Worksheet K σ) (hplain : sheet.IsPlain)
    (hformed : sheet.branches.WellFormed) :
    Continues sheet (outcome (performAll id) sheet).2 := by
  rcases hrun : outcome (performAll id) sheet with ⟨result, after⟩
  obtain ⟨last, hlast, rfl⟩ := exists_performEach hrun
  have heach := runs_performEach id sheet.procedures { sheet with inProcedure := true } hplain rfl
    hformed
  rw [hlast] at heach
  exact ⟨heach.procedures, heach.formed, heach.branches⟩

omit [Scalar K] in
/-- Work on a branch loses none. -/
theorem Works.has {other : Nat} {before after : Worksheet K σ} (h : Works id before after)
    (hhas : before.branches.Has other) : after.branches.Has other := h.branches.has hhas

theorem works_gathered {performed middle : Worksheet K σ}
    {result : Except (Failure K) (Option (List (Relation K)))}
    (hformed : performed.branches.WellFormed)
    (hgather : outcome (gather id performed.equations []) performed = (result, middle)) :
    Works id performed middle := by
  have hworks := works_gather id performed.equations performed hformed
  rw [hgather] at hworks
  exact hworks

theorem works_swept {subsets : List (List (Relation K))} {middle after : Worksheet K σ}
    {result : Except (Failure K) Bool} (hformed : middle.branches.WellFormed)
    (hsweep : outcome (subsets.anyM (resolveBy id)) middle = (result, after)) :
    Works id middle after := by
  have hworks := works_sweep id subsets middle hformed
  rw [hsweep] at hworks
  exact hworks

theorem continues_settle (id steps : Nat) (sheet : Worksheet K σ) (hplain : sheet.IsPlain)
    (hformed : sheet.branches.WellFormed) :
    Continues sheet (outcome (settle id steps) sheet).2 := by
  induction steps generalizing sheet with
  | zero => exact ⟨rfl, hformed, .refl _⟩
  | succ steps ih =>
      have hfirst := continues_performAll id sheet hplain hformed
      have hround := fullRound_settle id steps sheet
      generalize outcome (settle id (steps + 1)) sheet = run at hround
      cases hround with
      | halted hperform =>
          rw [hperform] at hfirst
          exact hfirst
      | stopped hperform hgather =>
          rw [hperform] at hfirst
          exact hfirst.trans (works_gathered hfirst.formed hgather).continues
      | broken hperform hgather hsweep =>
          rw [hperform] at hfirst
          have hgathered := works_gathered hfirst.formed hgather
          have hswept := works_swept hgathered.formed hsweep
          exact hfirst.trans (hgathered.trans hswept).continues
      | again hperform hgather hsweep =>
          rw [hperform] at hfirst
          have hgathered := works_gathered hfirst.formed hgather
          have hswept := works_swept hgathered.formed hsweep
          have hafter := hfirst.trans (hgathered.trans hswept).continues
          exact hafter.trans (ih _ (hafter.isPlain hplain) hafter.formed)
      | settled hperform hgather hsweep hlast =>
          rw [hperform] at hfirst
          have hgathered := works_gathered hfirst.formed hgather
          have hswept := works_swept hgathered.formed hsweep
          have hafter := hfirst.trans (hgathered.trans hswept).continues
          have hperformed := continues_performAll id _ (hafter.isPlain hplain) hafter.formed
          rw [hlast] at hperformed
          exact hafter.trans hperformed

/-- Whenever relations are gathered for a branch, it is there. -/
theorem FullRoundAt.has {moment : Worksheet K σ} (h : FullRoundAt id sheet moment)
    (hplain : sheet.IsPlain) (hformed : sheet.branches.WellFormed) (hhas : sheet.branches.Has id) :
    moment.branches.WellFormed ∧ moment.branches.Has id := by
  induction h with
  | first hperform =>
      have hcontinues := continues_performAll id _ hplain hformed
      rw [hperform] at hcontinues
      exact ⟨hcontinues.formed, has_of_performAll hperform hhas⟩
  | again hperform hgather hsweep _ ih =>
      have hcontinues := continues_performAll id _ hplain hformed
      rw [hperform] at hcontinues
      have hgathered := works_gathered hcontinues.formed hgather
      have hworks := hgathered.trans (works_swept hgathered.formed hsweep)
      exact ih ((hcontinues.trans hworks.continues).isPlain hplain) hworks.formed
        (hworks.has (has_of_performAll hperform hhas))

/-- Whenever a subset of its relations is tried for a branch, the branch is there: procedures have
left it, and attempts delete nothing. -/
theorem FullTrialAt.has {subset : List (Relation K)} {here : Worksheet K σ}
    (h : FullTrialAt id sheet subset here) (hplain : sheet.IsPlain)
    (hformed : sheet.branches.WellFormed) (hhas : sheet.branches.Has id) :
    here.branches.Has id := by
  obtain ⟨moment, gathered, relations, hround, hgather, hreaches⟩ := h
  obtain ⟨hmoment, hstays⟩ := hround.has hplain hformed hhas
  have hgathered := works_gathered hmoment hgather
  have hworks : Works id gathered here := by
    refine hreaches.invariant (I := Works id gathered) ?_
      ⟨rfl, rfl, rfl, rfl, rfl, hgathered.formed, .refl _ _, fun _ _ => rfl⟩
    intro other before result next hstep _ hbefore
    have hnext := works_resolveBy id other before hbefore.formed
    rw [hstep] at hnext
    exact hbefore.trans hnext
  exact hworks.has (hgathered.has hstays)

end Procedures

section Heads

variable {limit : Nat} {visited seen : List Nat} {sheet head : Worksheet K σ}

/-- A visit to the branches comes to look for the next one, with a worksheet, when some branches
have been visited. -/
inductive HeadAt (limit : Nat) : List Nat → Worksheet K σ → List Nat → Worksheet K σ → Prop
  | here (visited : List Nat) (sheet : Worksheet K σ) : HeadAt limit visited sheet visited sheet
  | later {visited seen : List Nat} {sheet turned middle head : Worksheet K σ} {index id : Nat}
    (hnext : nextUnvisited sheet.branches visited = some (index, id))
    (hturn : outcome (turn index id) sheet = (.ok (), turned))
    (hsettle : outcome (settle id limit) turned = (.ok (), middle))
    (hrest : HeadAt limit (id :: visited) middle seen head) :
    HeadAt limit visited sheet seen head

/-- The branch whose turn it is can be found, and the worksheet goes on until it has been solved. -/
theorem continues_turn (limit : Nat) {index id : Nat} {turned : Worksheet K σ}
    (hplain : sheet.IsPlain)
    (hformed : sheet.branches.WellFormed)
    (hnext : nextUnvisited sheet.branches visited = some (index, id))
    (hturn : outcome (turn index id) sheet = (.ok (), turned)) :
    sheet.branches.Has id ∧ turned.branches.Has id ∧ Continues sheet turned ∧
      Continues sheet (outcome (settle id limit) turned).2 := by
  obtain ⟨branch, log, hbranch, rfl, rfl⟩ := turnedTo_of_turn hnext hturn
  have hhas : sheet.branches.Has branch.id := ⟨branch, List.mem_of_getElem? hbranch, rfl⟩
  have hturned : Continues sheet (sheet.turnedTo index log) :=
    ⟨rfl, formed_turnedTo hformed hbranch log, Nat.le_refl _, fun _ _ h => h⟩
  have hsettled := continues_settle branch.id limit _ (hturned.isPlain hplain) hturned.formed
  exact ⟨hhas, hhas, hturned, hturned.trans hsettled⟩

theorem HeadAt.continues (h : HeadAt limit visited sheet seen head) (hplain : sheet.IsPlain)
    (hformed : sheet.branches.WellFormed) : Continues sheet head := by
  induction h with
  | here => exact ⟨rfl, hformed, .refl _⟩
  | later hnext hturn hsettle _ ih =>
      obtain ⟨_, _, _, hsettled⟩ := continues_turn limit hplain hformed hnext hturn
      rw [hsettle] at hsettled
      exact hsettled.trans (ih (hsettled.isPlain hplain) hsettled.formed)

theorem HeadAt.subset (h : HeadAt limit visited sheet seen head) : visited ⊆ seen := by
  induction h with
  | here => exact List.Subset.refl _
  | later _ _ _ _ ih => exact fun id hid => ih (List.mem_cons_of_mem _ hid)

/-- When a branch has its turn, it is there. -/
theorem VisitAt.has {id : Nat} {turned : Worksheet K σ} (h : VisitAt limit visited sheet id turned)
    (hplain : sheet.IsPlain) (hformed : sheet.branches.WellFormed) :
    Continues sheet turned ∧ turned.branches.Has id := by
  induction h with
  | here hnext hturn =>
      obtain ⟨_, hhas, hturned, _⟩ := continues_turn limit hplain hformed hnext hturn
      exact ⟨hturned, hhas⟩
  | later hnext hturn hsettle _ ih =>
      obtain ⟨_, _, _, hsettled⟩ := continues_turn limit hplain hformed hnext hturn
      rw [hsettle] at hsettled
      obtain ⟨hlater, hhas⟩ := ih (hsettled.isPlain hplain) hsettled.formed
      exact ⟨hsettled.trans hlater, hhas⟩

/-- A turn comes before the loop looks for a branch or after it. -/
theorem VisitAt.split {id : Nat} {turned : Worksheet K σ}
    (hhead : HeadAt limit visited sheet seen head) (h : VisitAt limit visited sheet id turned) :
    id ∈ seen ∨ VisitAt limit seen head id turned := by
  induction hhead with
  | here => exact Or.inr h
  | later hnext hturn hsettle hrest ih =>
      cases h with
      | here hnext' _ =>
          rw [hnext] at hnext'
          cases hnext'
          exact Or.inl (hrest.subset List.mem_cons_self)
      | later hnext' hturn' hsettle' hlater =>
          rw [hnext] at hnext'
          cases hnext'
          rw [hturn] at hturn'
          cases hturn'
          rw [hsettle] at hsettle'
          cases hsettle'
          exact ih hlater

/-- A branch that is gone before its turn has none. -/
theorem HeadAt.no_turn {id : Nat} {turned : Worksheet K σ}
    (hhead : HeadAt limit visited sheet seen head) (hplain : sheet.IsPlain)
    (hformed : sheet.branches.WellFormed) (hid : id < head.branches.nextId)
    (hgone : ¬ head.branches.Has id) (hunseen : id ∉ seen) :
    ¬ VisitAt limit visited sheet id turned := by
  intro hvisit
  have hcontinues := hhead.continues hplain hformed
  have hlater := (VisitAt.split hhead hvisit).resolve_left hunseen
  obtain ⟨hages, hhas⟩ := hlater.has (hcontinues.isPlain hplain) hcontinues.formed
  exact hgone (hages.ages.older id hid hhas)

/-- Those visited at the end are those visited before and those that had a turn, each once, and
every branch that is left is among them. -/
theorem turns_of_visitAll (sheet : Worksheet K σ) {steps : Nat} {all : List Nat}
    {after : Worksheet K σ} (hplain : sheet.IsPlain) (hformed : sheet.branches.WellFormed)
    (hnodup : visited.Nodup)
    (hrun : outcome (visitAll limit steps visited) sheet = (.ok all, after)) :
    all.Nodup ∧ (∀ id, id ∈ all ↔ id ∈ visited ∨ ∃ turned, VisitAt limit visited sheet id turned) ∧
      ∀ branch ∈ after.branches.list, branch.id ∈ all := by
  induction steps generalizing visited sheet with
  | zero => cases hrun
  | succ steps ih =>
      cases hnext : nextUnvisited sheet.branches visited with
      | none =>
          rw [outcome_visitAll_done limit steps hnext] at hrun
          cases hrun
          refine ⟨hnodup, fun id => ⟨Or.inl, ?_⟩, nextUnvisited_none hformed hnext⟩
          rintro (hid | ⟨turned, hvisit⟩)
          · exact hid
          · obtain ⟨_, hsome⟩ := hvisit.exists_next
            cases hnext.symm.trans hsome
      | some pair =>
          obtain ⟨index, id⟩ := pair
          obtain ⟨branch, log, _, rfl, hnew, hturn⟩ := exists_turn hnext
          obtain ⟨_, _, _, hsettled⟩ := continues_turn limit hplain hformed hnext hturn
          rw [outcome_visitAll_next limit steps hnext hturn] at hrun
          obtain ⟨_, middle, hsettle, hrun⟩ := outcome_bind_eq_ok.1 hrun
          rw [hsettle] at hsettled
          obtain ⟨hall, hturns, hleft⟩ := ih middle (hsettled.isPlain hplain) hsettled.formed
            (List.nodup_cons.2 ⟨hnew, hnodup⟩) hrun
          refine ⟨hall, fun other => ?_, hleft⟩
          rw [hturns other, List.mem_cons]
          constructor
          · rintro ((rfl | hvisited) | ⟨turned, hvisit⟩)
            · exact Or.inr ⟨_, .here hnext hturn⟩
            · exact Or.inl hvisited
            · exact Or.inr ⟨turned, .later hnext hturn hsettle hvisit⟩
          · rintro (hvisited | ⟨turned, hvisit⟩)
            · exact Or.inl (Or.inr hvisited)
            · have hstep : HeadAt limit visited sheet (branch.id :: visited) middle :=
                .later hnext hturn hsettle (.here _ _)
              rcases VisitAt.split hstep hvisit with hseen | hlater
              · exact Or.inl (List.mem_cons.1 hseen)
              · exact Or.inr ⟨turned, hlater⟩

omit [Scalar K] in
/-- Looking for the next branch asks for positions that exist. -/
theorem positions_exist (hformed : sheet.branches.WellFormed) (offset : Nat) :
    ∃ id, sheet.branches.identityAt
      ((sheet.branches.current + offset) % sheet.branches.count) = .ok id := by
  have hcount : 0 < sheet.branches.count := Nat.zero_lt_of_lt hformed.current_lt
  have hlt := Nat.mod_lt (sheet.branches.current + offset) hcount
  exact ⟨_, Branches.identityAt_eq (List.getElem?_eq_getElem hlt)⟩

omit [Scalar K] in
/-- The branch that is found can be made current, and has the identity that was found. -/
theorem next_exists {index id : Nat}
    (hnext : nextUnvisited sheet.branches visited = some (index, id)) :
    ∃ selected, outcome (Branches.select index) sheet.branches = (.ok (), selected) ∧
      selected.identityAt index = .ok id := by
  obtain ⟨branch, hbranch, rfl, _⟩ := nextUnvisited_some hnext
  exact ⟨_, Branches.outcome_select hbranch, Branches.identityAt_eq hbranch⟩

end Heads

/-- In a run with procedures that read, bind and delete, a pass over the branches visits each of
them once: no identity twice, each branch that is left, and none that is gone before its turn. On
the way every position that is asked for exists, and the branch that an attempt is about is there.
-/
theorem pass_visits_every_branch_once (steps : Nat) (sheet : Worksheet K σ)
    (hformed : sheet.branches.WellFormed) (hplain : sheet.IsPlain) :
    (∀ visited after, outcome (visitAll steps steps []) sheet.opened = (.ok visited, after) →
      visited.Nodup ∧
      (∀ id, id ∈ visited ↔ ∃ turned, VisitAt steps [] sheet.opened id turned) ∧
      ∀ branch ∈ after.branches.list, branch.id ∈ visited) ∧
    (∀ seen head, HeadAt steps [] sheet.opened seen head →
      (∀ id, id < head.branches.nextId → ¬ head.branches.Has id → id ∉ seen →
        ∀ turned, ¬ VisitAt steps [] sheet.opened id turned) ∧
      (∀ offset, offset < head.branches.count → ∃ id, head.branches.identityAt
        ((head.branches.current + offset) % head.branches.count) = .ok id) ∧
      (∀ index id, nextUnvisited head.branches seen = some (index, id) →
        ∃ selected, outcome (Branches.select index) head.branches = (.ok (), selected) ∧
          selected.identityAt index = .ok id)) ∧
    ∀ id turned subset here, VisitAt steps [] sheet.opened id turned →
      FullTrialAt id turned subset here →
      ((here.asked subset (unknownsOf here.branches subset)).branches.indexOf? id).isSome := by
  refine ⟨fun visited after hrun => ?_, fun seen head hhead => ⟨?_, ?_, ?_⟩, ?_⟩
  · obtain ⟨hnodup, hturns, hleft⟩ :=
      turns_of_visitAll sheet.opened hplain hformed List.nodup_nil hrun
    refine ⟨hnodup, fun id => ?_, hleft⟩
    rw [hturns id]
    simp
  · intro id hid hgone hunseen turned
    exact hhead.no_turn hplain hformed hid hgone hunseen
  · intro offset _
    exact positions_exist (hhead.continues hplain hformed).formed offset
  · intro index id hnext
    exact next_exists hnext
  · intro id turned subset here hvisit htrial
    obtain ⟨hcontinues, hhas⟩ := hvisit.has hplain hformed
    have hhere := htrial.has (hcontinues.isPlain hplain) hcontinues.formed hhas
    exact Branches.indexOf?_isSome_iff.2 hhere

/-- Three branches, and a procedure that deletes two of them when the first one has its turn. The
equation makes two branches of the one that is left. -/
noncomputable def twiceDeleting : Worksheet Rat Twister :=
  { Rational.sheet RealRoots.exactNumerics ["x", "y"]
      [⟨"square", [.mul (.value "y") (.value "y"), .number 4]⟩] with
    branches := Branches.after [.declare ["x", "y"], .copy none, .copy none,
      .set "x" (.const (-1)) (some 0), .set "x" (.const 1) (some 1),
      .set "x" (.const 2) (some 2)] .initial
    procedures := [⟨"negative", .choose (.less (.value "x") 0) (.seq .delete .delete) .skip⟩] }

theorem branch_deleted_with_the_first_has_no_turn :
    twiceDeleting.branches.list.map Branch.id = [0, 1, 2] ∧
    (outcome (visitAll 4 4 []) twiceDeleting.opened).1.toOption = some [3, 2, 0] ∧
    (∃ turned, VisitAt 4 [] twiceDeleting.opened 3 turned) ∧
    ∀ turned, ¬ VisitAt 4 [] twiceDeleting.opened 1 turned := by
  have hvisited : (outcome (visitAll 4 4 []) twiceDeleting.opened).1.toOption = some [3, 2, 0] := by
    decide +kernel
  refine ⟨by decide +kernel, hvisited, ?_⟩
  obtain ⟨hpass, -, -⟩ := pass_visits_every_branch_once 4 twiceDeleting
    (Branches.consistent_after _ Branches.consistent_initial).1.toWellFormed (by decide +kernel)
  rcases hrun : outcome (visitAll 4 4 []) twiceDeleting.opened with ⟨failure | visited, after⟩
  · rw [hrun] at hvisited
    cases hvisited
  · rw [hrun] at hvisited
    cases hvisited
    obtain ⟨-, hturns, -⟩ := hpass _ after hrun
    refine ⟨(hturns 3).1 (by decide), fun turned hturn => ?_⟩
    exact absurd ((hturns 1).2 ⟨turned, hturn⟩) (by decide)

end Worksheet

end Ramify
