import Ramify.Proofs.Worksheet.Isolation
import Ramify.Proofs.Worksheet.Pass

/-!
What any action does to a worksheet. Procedures may do more than read, bind and delete: they may
turn to other branches, declare variables and make them unknown again. Whatever an action consists
of and however it ends, its effect on the branches is a series of changes as operations on branches
make them, and a run changes neither equations nor procedures. A procedure that does not turn to
other branches leaves its branch current or has deleted it.
-/

namespace Ramify

section Moves

variable {ε S α : Type} {R : S → S → Prop} {action : ExceptT ε (StateM S) α}

theorem Moves.mono {R' : S → S → Prop} (h : ∀ a b, R a b → R' a b) (hmoves : Moves R action) :
    Moves R' action := fun state => h _ _ (hmoves state)

theorem Moves.of_outcome (h : Moves R action) {before after : S} {result : Except ε α}
    (hrun : outcome action before = (result, after)) : R before after := by
  have hstep := h before
  rw [hrun] at hstep
  exact hstep

/-- A failure that is handled moves along what the action and the handler move along. -/
theorem Moves.tryCatch (htrans : ∀ a b c, R a b → R b c → R a c)
    {handler : ε → ExceptT ε (StateM S) α} (hfirst : Moves R action)
    (hhandler : ∀ cause, Moves R (handler cause)) :
    Moves R (MonadExcept.tryCatch action handler) := by
  intro state
  have hstep := hfirst state
  rcases outcome_tryCatch action handler state with
    ⟨cause, middle, hrun, hall⟩ | ⟨x, middle, hrun, hall⟩
  · rw [hall]
    rw [hrun] at hstep
    exact htrans _ _ _ hstep (hhandler cause middle)
  · rw [hall]
    rw [hrun] at hstep
    exact hstep

end Moves

/-- Whether a program never turns to another branch. -/
def Program.isStationary {K : Type} : Program K → Bool
  | rotate | switch _ => false
  | seq first second => first.isStationary && second.isStationary
  | choose _ yes no => yes.isStationary && no.isStationary
  | _ => true

namespace Branches

variable {K : Type} [Scalar K] {before after : Branches K}

/-- A series of changes. -/
def Changes : Branches K → Branches K → Prop := Relation.ReflTransGen Change

theorem Changes.wellFormed (h : Changes before after) (hbefore : before.WellFormed) :
    after.WellFormed := by
  induction h with
  | refl => exact hbefore
  | tail _ hchange ih => exact hchange.wellFormed ih

theorem Changes.succeeds (h : Changes before after) : Succeeds before after := by
  induction h with
  | refl => exact .refl before
  | tail _ hchange ih => exact ih.trans hchange.succeeds

omit [Scalar K] in
/-- An identity that is gone does not come back. -/
theorem Lacks.succeeds {id : Nat} (h : Lacks id before) (hold : id < before.nextId)
    (hsucceeds : Succeeds before after) : Lacks id after := by
  rintro branch hbranch rfl
  obtain ⟨other, hother, hsame⟩ := hsucceeds.older branch hbranch hold
  exact h other hother hsame

theorem steps_copy (source : Option Nat) : Steps (copy source) before := by
  unfold Steps copy
  rw [outcome_get_bind]
  refine steps_resolve fun position branch hbranch => ?_
  exact .single (.forked (List.mem_of_getElem? hbranch))

/-- The branches are where they were, and the same one is current. -/
structure SamePlaces (before after : Branches K) : Prop where
  current : after.current = before.current
  ids : after.list.map Branch.id = before.list.map Branch.id

omit [Scalar K] in
theorem SamePlaces.trans {a b c : Branches K} (hab : SamePlaces a b) (hbc : SamePlaces b c) :
    SamePlaces a c := ⟨hbc.current.trans hab.current, hbc.ids.trans hab.ids⟩

/-- Whether an operation only binds or declares variables. -/
def Operation.isWriting : Operation K → Bool
  | set _ _ _ | setEverywhere _ _ | declare _ => true
  | _ => false

theorem samePlaces_declareEach (names : List String) (branches : Branches K) :
    SamePlaces branches (outcome (declareEach names) branches).2 := by
  induction names generalizing branches with
  | nil => exact ⟨rfl, rfl⟩
  | cons name rest ih =>
      rw [declareEach, outcome_get_bind]
      split
      · exact ⟨rfl, rfl⟩
      · have hfirst : SamePlaces branches (branches.withVariable name) :=
          ⟨rfl, ids_writeEverywhere branches name _⟩
        exact hfirst.trans (ih (branches.withVariable name))

/-- Writing moves no branch. -/
theorem samePlaces_of_isWriting {operation : Operation K} (h : operation.isWriting = true)
    (branches : Branches K) : SamePlaces branches (outcome operation.act branches).2 := by
  have hnone : SamePlaces branches branches := ⟨rfl, rfl⟩
  cases operation with
  | declare names =>
      rw [Operation.act, Branches.declare, outcome_get_bind]
      split
      · exact hnone
      · exact samePlaces_declareEach names branches
  | set name value index =>
      rw [Operation.act, Branches.set, outcome_get_bind]
      cases branches.requireName name with
      | error failure => exact hnone
      | ok _ =>
          rw [outcome_ofExcept_bind_ok]
          cases branches.resolve index with
          | error failure => exact hnone
          | ok found => exact ⟨rfl, (rewrites_write branches found.1 name value).ids⟩
  | setEverywhere name value =>
      rw [Operation.act, Branches.setEverywhere, outcome_get_bind]
      cases branches.requireName name with
      | error failure => exact hnone
      | ok _ => exact ⟨rfl, ids_writeEverywhere branches name value⟩
  | copy source => cases h
  | remove index => cases h
  | rotate => cases h
  | select index => cases h

end Branches

namespace Worksheet

open Branches (Change Changes Lacks)

variable {K σ : Type} [Scalar K]

/-- What every part of a run keeps: the branches follow by a series of changes, if they were well
formed, and the equations and procedures are the same. -/
structure Proceeds (before after : Worksheet K σ) : Prop where
  equations : after.equations = before.equations
  procedures : after.procedures = before.procedures
  branches : before.branches.WellFormed → Changes before.branches after.branches

/-- What procedures do. If they are `still`, none turns to another branch, so the branch that was
current stays so or is gone. -/
structure Handles (still : Prop) (before after : Worksheet K σ) : Prop
    extends Proceeds before after where
  marked : after.marked = before.marked
  place : still → before.branches.WellFormed → ∀ id, AtBranch id before →
    AtBranch id after ∨ Lacks id after.branches

/-- The branches follow by a series of changes, if they were well formed. -/
def Follows (before after : Worksheet K σ) : Prop :=
  before.branches.WellFormed → Changes before.branches after.branches

/-- A relation along which actions can be followed step by step: what concerns neither branches nor
equations, procedures and marks does not leave it. -/
class Conducts (R : Worksheet K σ → Worksheet K σ → Prop) : Prop where
  trans : ∀ a b c, R a b → R b c → R a c
  steady : ∀ {before after : Worksheet K σ}, after.branches = before.branches →
    after.equations = before.equations → after.procedures = before.procedures →
    after.marked = before.marked → R before after

theorem Proceeds.of_same {before after : Worksheet K σ}
    (hequations : after.equations = before.equations)
    (hprocedures : after.procedures = before.procedures)
    (hbranches : after.branches = before.branches) : Proceeds before after :=
  ⟨hequations, hprocedures, fun _ => hbranches ▸ .refl⟩

/-- The branches are as they were. -/
theorem Follows.of_same {before after : Worksheet K σ} (h : after.branches = before.branches) :
    Follows before after := fun _ => h ▸ .refl

theorem Proceeds.formed {before after : Worksheet K σ} (h : Proceeds before after)
    (hformed : before.branches.WellFormed) : after.branches.WellFormed :=
  (h.branches hformed).wellFormed hformed

theorem Proceeds.trans {a b c : Worksheet K σ} (hab : Proceeds a b) (hbc : Proceeds b c) :
    Proceeds a c where
  equations := hbc.equations.trans hab.equations
  procedures := hbc.procedures.trans hab.procedures
  branches hformed := (hab.branches hformed).trans (hbc.branches (hab.formed hformed))

omit [Scalar K] in
theorem AtBranch.old {id : Nat} {sheet : Worksheet K σ} (h : AtBranch id sheet)
    (hformed : sheet.branches.WellFormed) : id < sheet.branches.nextId := by
  obtain ⟨branch, hbranch, rfl⟩ := h
  exact hformed.fresh branch (List.mem_of_getElem? hbranch)

theorem Handles.trans {still : Prop} {a b c : Worksheet K σ} (hab : Handles still a b)
    (hbc : Handles still b c) : Handles still a c where
  toProceeds := hab.toProceeds.trans hbc.toProceeds
  marked := hbc.marked.trans hab.marked
  place hstill hformed id hat := by
    have hchanges := hab.branches hformed
    rcases hab.place hstill hformed id hat with hstays | hgone
    · exact hbc.place hstill (hab.formed hformed) id hstays
    · refine Or.inr (hgone.succeeds ?_ (hbc.branches (hab.formed hformed)).succeeds)
      exact Nat.lt_of_lt_of_le (hat.old hformed) hchanges.succeeds.nextId

instance : Conducts (Proceeds : Worksheet K σ → Worksheet K σ → Prop) where
  trans _ _ _ := Proceeds.trans
  steady hbranches hequations hprocedures _ := .of_same hequations hprocedures hbranches

instance (still : Prop) : Conducts (Handles still : Worksheet K σ → Worksheet K σ → Prop) where
  trans _ _ _ := Handles.trans
  steady hbranches hequations hprocedures hmarked := by
    refine ⟨.of_same hequations hprocedures hbranches, hmarked, fun _ _ id hat => Or.inl ?_⟩
    unfold AtBranch
    rw [hbranches]
    exact hat

instance : Conducts (Follows : Worksheet K σ → Worksheet K σ → Prop) where
  trans _ _ _ hab hbc hformed :=
    (hab hformed).trans (hbc ((hab hformed).wellFormed hformed))
  steady hbranches _ _ _ := .of_same hbranches

/-- An action goes along a relation, whether or not it fails. -/
abbrev Alters {α : Type} (R : Worksheet K σ → Worksheet K σ → Prop) (action : Action K σ α) :
    Prop := Moves R action

namespace Alters

variable {α β : Type} {R : Worksheet K σ → Worksheet K σ → Prop} [Conducts R]

omit [Scalar K]

theorem of_reads {action : Action K σ α} (h : Reads action) : Alters R action := by
  intro sheet
  rw [h sheet]
  exact Conducts.steady rfl rfl rfl rfl

theorem pure (x : α) : Alters R (Pure.pure x : Action K σ α) := of_reads fun _ => rfl

theorem throw (failure : Failure K) : Alters R (MonadExcept.throw failure : Action K σ α) :=
  of_reads fun _ => rfl

/-- What would follow a failure does not matter. -/
theorem throw_bind (failure : Failure K) (next : α → Action K σ β) :
    Alters R (MonadExcept.throw failure >>= next) := of_reads fun _ => rfl

theorem ofExcept (result : Except (Failure K) α) :
    Alters R (MonadExcept.ofExcept result : Action K σ α) := of_reads (.ofExcept result)

omit [Conducts R] in
theorem get {next : Worksheet K σ → Action K σ β} (h : ∀ sheet, Alters R (next sheet)) :
    Alters R (MonadState.get >>= next) := fun sheet => h sheet sheet

theorem bind {action : Action K σ α} {next : α → Action K σ β} (hfirst : Alters R action)
    (hnext : ∀ x, Alters R (next x)) : Alters R (action >>= next) :=
  Moves.bind (R := R) Conducts.trans hfirst hnext

theorem tryCatch {action : Action K σ α} {handler : Failure K → Action K σ α}
    (hfirst : Alters R action) (hhandler : ∀ failure, Alters R (handler failure)) :
    Alters R (MonadExcept.tryCatch action handler) :=
  Moves.tryCatch (R := R) Conducts.trans hfirst hhandler

theorem anyM {test : α → Action K σ Bool} (h : ∀ x, Alters R (test x)) (xs : List α) :
    Alters R (xs.anyM test) := by
  induction xs with
  | nil => exact pure false
  | cons x rest ih =>
      rw [List.anyM]
      refine bind (h x) fun passed => ?_
      cases passed with
      | true => exact pure true
      | false => exact ih

theorem tell (line : String) : Alters R (tell line : Action K σ Unit) :=
  fun _ => Conducts.steady rfl rfl rfl rfl

theorem narrate (line : String) : Alters R (narrate line : Action K σ Unit) := by
  unfold Worksheet.narrate
  refine get fun sheet => ?_
  split
  · exact tell _
  · exact pure _

end Alters

section Programs

variable {still : Prop}

omit [Scalar K] in
/-- What operations that write do. -/
theorem AtBranch.of_samePlaces {id : Nat} {before after : Worksheet K σ} (h : AtBranch id before)
    (hplaces : Branches.SamePlaces before.branches after.branches) : AtBranch id after := by
  obtain ⟨branch, hbranch, hid⟩ := h
  have hmap := congrArg (·[before.branches.current]?) hplaces.ids
  simp only [List.getElem?_map, hbranch, Option.map_some] at hmap
  obtain ⟨found, hfound, hsame⟩ := Option.map_eq_some_iff.1 hmap
  exact ⟨found, hplaces.current ▸ hfound, hsame.trans hid⟩

theorem handles_write (operation : Branches.Operation K) (h : operation.isWriting = true) :
    Alters (Handles still) (onBranches operation.act : Action K σ Unit) := by
  intro sheet
  rw [outcome_onBranches]
  refine ⟨⟨rfl, rfl, operation.steps⟩, rfl, fun _ _ id hat => Or.inl ?_⟩
  exact hat.of_samePlaces (Branches.samePlaces_of_isWriting h sheet.branches)

/-- Turning to another branch. -/
theorem handles_turn (operation : Branches.Operation K) (hturns : ¬ still) :
    Alters (Handles still) (onBranches operation.act : Action K σ Unit) := by
  intro sheet
  rw [outcome_onBranches]
  exact ⟨⟨rfl, rfl, operation.steps⟩, rfl, fun hstill => absurd hstill hturns⟩

theorem handles_assign (name : String) (value : Fraction K) :
    Alters (Handles still) (assign name value : Action K σ Unit) := by
  have hall : Alters (Handles still)
      (onBranches (Branches.setEverywhere name value) : Action K σ Unit) :=
    handles_write (.setEverywhere name value) rfl
  unfold assign
  refine .get fun sheet => ?_
  split
  · exact handles_write (.set name value none) rfl
  · split
    · exact .bind (.tell _) fun _ => hall
    · exact hall

theorem handles_declare (names : List String) :
    Alters (Handles still) (declare names : Action K σ Unit) := by
  unfold declare
  refine .get fun sheet => ?_
  split
  · exact .throw_bind _ _
  · exact .bind (.ofExcept _) fun _ => handles_write (.declare names) rfl

theorem handles_clear (name : String) :
    Alters (Handles still) (clear name : Action K σ Unit) :=
  .bind (handles_write (.setEverywhere name _) rfl) fun _ =>
    fun _ => Conducts.steady rfl rfl rfl rfl

/-- The branch that is deleted is the current one. -/
theorem handles_dropCurrent : Alters (Handles still) (dropCurrent : Action K σ Unit) := by
  intro sheet
  have hread : Handles still sheet sheet := Conducts.steady rfl rfl rfl rfl
  unfold dropCurrent
  rw [outcome_get_bind]
  dsimp only
  split
  · exact hread
  rename_i hcount
  cases hidentity : sheet.branches.identityAt sheet.branches.current with
  | error failure => exact hread
  | ok id =>
      rw [outcome_ofExcept_bind_ok]
      obtain ⟨log, hlog⟩ := outcome_narrate ("Deleting branch id " ++ toString id) sheet
      rw [outcome_bind_ok _ hlog, outcome_onBranches]
      refine ⟨⟨rfl, rfl, (Branches.Operation.remove sheet.branches.current).steps⟩, rfl, ?_⟩
      rintro _ hformed _ ⟨branch, hbranch, rfl⟩
      right
      dsimp only
      rw [Branches.outcome_remove hbranch hcount]
      intro other hother hsame
      obtain ⟨j, hj, hget⟩ := List.mem_eraseIdx_iff_getElem?.1 hother
      exact hj (hformed.index_unique hget hbranch hsame)

/-- Whatever a program does to the branches is a series of changes. -/
theorem handles_perform (program : Program K) (hstill : still → program.isStationary = true) :
    Alters (Handles still) (perform program : Action K σ Unit) := by
  induction program with
  | skip => exact .pure ()
  | seq first second ihfirst ihsecond =>
      simp only [Program.isStationary, Bool.and_eq_true] at hstill
      exact .bind (ihfirst fun h => (hstill h).1) fun _ => ihsecond fun h => (hstill h).2
  | choose condition yes no ihyes ihno =>
      simp only [Program.isStationary, Bool.and_eq_true] at hstill
      refine .bind (.of_reads (.test condition)) fun holds => ?_
      cases holds with
      | true => exact ihyes fun h => (hstill h).1
      | false => exact ihno fun h => (hstill h).2
  | set name value =>
      exact .bind (.of_reads (.evaluate value)) fun found => handles_assign name found
  | delete => exact handles_dropCurrent
  | clear name => exact handles_clear name
  | need value => exact .bind (.of_reads (.number value)) fun _ => .pure ()
  | rotate => exact handles_turn .rotate fun h => nomatch hstill h
  | switch index => exact handles_turn (.select index) fun h => nomatch hstill h
  | declare names => exact handles_declare names
  | giveUp report => exact .throw _
  | fail report => exact .throw _

theorem handles_performProcedure (procedure : Procedure K)
    (hstill : still → procedure.body.isStationary = true) :
    Alters (Handles still) (performProcedure procedure : Action K σ Unit) := by
  refine .tryCatch (handles_perform procedure.body hstill) fun failure => ?_
  split
  · exact .narrate _
  · exact .throw failure

theorem handles_performEach (id : Nat) (procedures : List (Procedure K))
    (hstill : still → ∀ procedure ∈ procedures, procedure.body.isStationary = true) :
    Alters (Handles still) (performEach id procedures : Action K σ Bool) := by
  induction procedures with
  | nil => exact .pure true
  | cons procedure rest ih =>
      refine .bind (handles_performProcedure procedure
        fun h => hstill h procedure List.mem_cons_self) fun _ => .get fun _ => ?_
      split
      · exact .pure false
      · exact ih fun h other hother => hstill h other (List.mem_cons_of_mem _ hother)

omit [Scalar K] in
theorem alters_setInProcedure {R : Worksheet K σ → Worksheet K σ → Prop} [Conducts R]
    (inProcedure : Bool) : Alters R (setInProcedure inProcedure : Action K σ Unit) :=
  fun _ => Conducts.steady rfl rfl rfl rfl

theorem handles_performAll (still : Prop) (id : Nat) (sheet : Worksheet K σ)
    (hstill : still → ∀ procedure ∈ sheet.procedures, procedure.body.isStationary = true) :
    Handles still sheet (outcome (performAll id) sheet).2 := by
  rcases hrun : outcome (performAll id) sheet with ⟨result, after⟩
  obtain ⟨last, hlast, rfl⟩ := exists_performEach hrun
  have hstart : Handles still sheet { sheet with inProcedure := true } :=
    Conducts.steady rfl rfl rfl rfl
  have hlater := (handles_performEach id sheet.procedures hstill).of_outcome hlast
  exact hstart.trans (hlater.trans (Conducts.steady rfl rfl rfl rfl))

end Programs

section Runs

namespace Alters

variable {α : Type}

theorem onBranches {action : Branches.Action K α}
    (h : ∀ branches, branches.WellFormed → Branches.Steps action branches) :
    Alters Proceeds (onBranches action : Action K σ α) := by
  intro sheet
  rw [outcome_onBranches]
  exact ⟨rfl, rfl, h sheet.branches⟩

theorem operate (operation : Branches.Operation K) :
    Alters Proceeds (Worksheet.onBranches operation.act : Action K σ Unit) :=
  onBranches fun _ => operation.steps

theorem onJudge (action : Judge.Action K α) :
    Alters Proceeds (onJudge action : Action K σ α) := by
  intro sheet
  rw [outcome_onJudge]
  exact .of_same rfl rfl rfl

theorem proceeds {action : Action K σ α} (h : Alters (Handles False) action) :
    Alters Proceeds action := h.mono fun _ _ handles => handles.toProceeds

theorem follows {action : Action K σ α} (h : Alters Proceeds action) : Alters Follows action :=
  h.mono fun _ _ hproceeds => hproceeds.branches

/-- A change of anything but the branches, the equations and the procedures. -/
theorem modify {change : Worksheet K σ → Worksheet K σ}
    (h : ∀ sheet, Proceeds sheet (change sheet)) :
    Alters Proceeds (modify change : Action K σ PUnit) := h

end Alters

theorem reads_relationOf (equation : Equation K) :
    Reads (relationOf equation : Action K σ (Relation K)) := by
  refine .bind (.mapM (fun formula => .evaluate formula) equation.sides) fun sides => ?_
  split
  · exact .bind (.ofExcept _) fun _ => .bind (.ofExcept _) fun _ => .pure _
  · exact fun _ => rfl

theorem alters_performAll (id : Nat) : Alters Proceeds (performAll id : Action K σ Bool) :=
  fun sheet => (handles_performAll False id sheet False.elim).toProceeds

theorem alters_gather (id : Nat) (equations : List (Equation K)) (found : List (Relation K)) :
    Alters Proceeds (gather id equations found : Action K σ (Option (List (Relation K)))) := by
  induction equations generalizing found with
  | nil => exact .pure _
  | cons equation rest ih =>
      refine .bind (.of_reads (reads_relationOf equation)) fun relation =>
        .bind (.onJudge _) fun verdict => ?_
      cases verdict with
      | redundant => exact ih found
      | contradiction =>
          exact .bind (.narrate _) fun _ => .bind (.modify fun _ => .of_same rfl rfl rfl) fun _ =>
            .pure none
      | usable => exact ih _

theorem alters_adoptEach (solution : Solution K) (index : Nat) (names : List String) :
    Alters Proceeds (adoptEach solution index names : Action K σ Unit) := by
  induction names with
  | nil => exact .pure ()
  | cons name rest ih =>
      have hset (value : Fraction K) :
          Alters Proceeds (onBranches (Branches.set name value (some index)) : Action K σ Unit) :=
        .operate (.set name value (some index))
      unfold adoptEach
      split
      · exact .bind (hset _) fun _ => .bind (.narrate _) fun _ => ih
      · exact .get fun sheet => .bind (.ofExcept _) fun _ => .bind (.ofExcept _) fun value =>
          .bind (hset value) fun _ => ih

theorem alters_adopt (solution : Solution K) (index : Nat) :
    Alters Proceeds (adopt solution index : Action K σ Unit) :=
  .get fun _ => alters_adoptEach solution index _

theorem alters_copyFor (id index : Nat) (solutions : List (Solution K)) :
    Alters Proceeds (copyFor id index solutions : Action K σ Unit) := by
  induction solutions with
  | nil => exact .pure ()
  | cons solution rest ih =>
      refine .bind (.onBranches fun _ _ => Branches.steps_copy _) fun copy => ?_
      refine .bind (alters_adopt solution copy) fun _ => .get fun sheet => ?_
      exact .bind (.ofExcept _) fun _ => .bind (.narrate _) fun _ => ih

theorem alters_ask (relations : List (Relation K)) (unknowns : List Symbol) :
    Alters Proceeds (ask relations unknowns : Action K σ (Answer K)) := by
  intro sheet
  rw [outcome_ask]
  exact .of_same rfl rfl rfl

theorem alters_resolveBy (id : Nat) (subset : List (Relation K)) :
    Alters Proceeds (resolveBy id subset : Action K σ Bool) := by
  unfold resolveBy
  refine .get fun sheet => ?_
  dsimp only
  split
  · exact .pure false
  · refine .bind (alters_ask _ _) fun answer => ?_
    cases answer with
    | indeterminate => exact .pure false
    | noSolution =>
        refine .get fun _ => ?_
        split
        · exact .throw_bind _ _
        · exact .bind (.narrate _) fun _ =>
            .bind (.modify fun _ => .of_same rfl rfl rfl) fun _ => .pure false
    | solved candidates =>
        refine .get fun _ => ?_
        split
        · exact .bind (alters_copyFor _ _ _) fun _ => .bind (alters_adopt _ _) fun _ => .pure true
        · exact .pure false

theorem alters_settle (id steps : Nat) : Alters Proceeds (settle id steps : Action K σ Unit) := by
  induction steps with
  | zero => exact .throw _
  | succ steps ih =>
      refine .bind (alters_performAll id) fun stays => ?_
      cases stays with
      | false => exact .pure ()
      | true =>
          refine .get fun sheet => .bind (alters_gather id _ _) fun gathered => ?_
          cases gathered with
          | none => exact .pure ()
          | some relations =>
              refine .get fun _ => ?_
              dsimp only
              rw [anySubsetUpTo_eq_anyM]
              refine .bind (.anyM (alters_resolveBy id) _) fun resolved => ?_
              cases resolved with
              | true => exact ih
              | false => exact .bind (alters_performAll id) fun _ => .pure ()

theorem alters_turn (index id : Nat) : Alters Proceeds (turn index id : Action K σ Unit) :=
  .bind (.operate (.select index)) fun _ => .narrate _

theorem alters_visitAll (limit steps : Nat) (visited : List Nat) :
    Alters Proceeds (visitAll limit steps visited : Action K σ (List Nat)) := by
  induction steps generalizing visited with
  | zero => exact .throw _
  | succ steps ih =>
      refine .get fun sheet => ?_
      split
      · exact .pure visited
      · exact .bind (.operate (.select _)) fun _ => .bind (.narrate _) fun _ =>
          .bind (alters_settle _ limit) fun _ => ih _

theorem alters_discardEach (ids : List Nat) :
    Alters Proceeds (discardEach ids : Action K σ Unit) := by
  induction ids with
  | nil => exact .pure ()
  | cons id rest ih =>
      refine .get fun sheet => ?_
      dsimp only
      split
      · exact ih
      · exact .bind (.ofExcept _) fun _ => .bind (.narrate _) fun _ =>
          .bind (.operate (.remove _)) fun _ => ih

theorem alters_unmark : Alters Proceeds (unmark : Action K σ Unit) :=
  .modify fun _ => .of_same rfl rfl rfl

theorem alters_discardMarked (startId : Nat) :
    Alters Proceeds (discardMarked startId : Action K σ Unit) := by
  unfold discardMarked
  refine .get fun sheet => ?_
  dsimp only
  split
  · split
    · exact .bind alters_unmark fun _ => .throw_bind _ _
    · refine .bind (alters_discardEach _) fun _ => .bind alters_unmark fun _ => .get fun _ => ?_
      split
      · exact .operate (.select _)
      · exact .pure ()
  · refine .get fun _ => ?_
    split
    · exact .operate (.select _)
    · exact .pure ()

theorem alters_close (startId : Nat) (before : List (Bindings K)) :
    Alters Proceeds (close startId before : Action K σ Unit) := by
  refine .bind (alters_discardMarked startId) fun _ => .get fun sheet => ?_
  split
  · exact .throw_bind _ _
  · exact .bind (.modify fun _ => .of_same rfl rfl rfl) fun _ => .narrate _

/-- Whatever a run does to the branches is a series of changes, however it ends. -/
theorem alters_solve (steps : Nat) : Alters Follows (solve steps : Action K σ Unit) := by
  intro sheet hformed
  obtain ⟨branch, hbranch⟩ := hformed.exists_current
  rw [outcome_solve steps hbranch]
  have hrun := Alters.bind (alters_visitAll steps steps [])
    (fun _ => alters_close branch.id sheet.branches.snapshot) sheet.opened
  exact hrun.branches hformed

end Runs

end Worksheet

end Ramify
