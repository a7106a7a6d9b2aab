import Ramify.Proofs.Algebra.Normal
import Ramify.Proofs.Worksheet.Shrink

/-!
The worksheets that can come about without procedures. A caller creates a worksheet, binds, clears
and declares variables, registers equations, deletes and chooses branches, and solves; each of these
may fail. Whatever is done and however it ends, the branches are well formed and all their values
are in lowest terms.
-/

namespace Ramify

variable {K σ : Type}

section Values

variable [ExactScalar K]

theorem Fraction.Made.reduced {a : Fraction K} (h : a.Made) : a.Reduced := by
  rcases h with ⟨x, rfl⟩ | ⟨num, den, hmake⟩
  · exact reduced_const x
  · exact reduced_make hmake

theorem Fraction.reduced_powNat {a c : Fraction K} {n : Nat} (h : a.powNat n = .ok c) :
    c.Reduced := by
  cases n with
  | zero =>
      cases h
      exact reduced_const 1
  | succ n =>
      obtain ⟨power, _, hmul⟩ := except_bind_eq_ok.1 h
      exact reduced_make hmul

/-- Whatever arithmetic gives is in lowest terms. -/
theorem Fraction.closed_reduced : Closed (Fraction.Reduced : Fraction K → Prop) where
  const := reduced_const
  add _ _ h := reduced_make h
  sub _ _ h := reduced_make h
  mul _ _ h := reduced_make h
  div _ _ h := reduced_div h
  neg _ h := reduced_make h
  pow _ h := by
    unfold pow at h
    split at h
    · obtain ⟨power, _, hdiv⟩ := except_bind_eq_ok.1 h
      exact reduced_div hdiv
    · exact reduced_powNat h

def Branch.Reduced (branch : Branch K) : Prop :=
  ∀ name value, branch.bindings.find? name = some value → value.Reduced

theorem Branch.Reduced.insert {branch : Branch K} (h : branch.Reduced) (name : String)
    {value : Fraction K} (hvalue : value.Reduced) :
    Branch.Reduced ⟨branch.id, branch.bindings.insert name value⟩ := by
  intro other found hfound
  rw [SortedMap.find?_insert] at hfound
  split at hfound
  · cases hfound
    exact hvalue
  · exact h other found hfound

end Values

namespace Branches

variable [ExactScalar K] {name : String} {value : Fraction K}

structure Tidy (branches : Branches K) : Prop where
  formed : branches.WellFormed
  reduced : ∀ branch ∈ branches.list, branch.Reduced

theorem Tidy.writeEverywhere {branches : Branches K} (h : branches.Tidy) (name : String)
    (hvalue : value.Reduced) :
    ∀ branch ∈ (branches.writeEverywhere name value).list, branch.Reduced := by
  intro branch hbranch
  obtain ⟨old, hold, rfl⟩ := List.mem_map.1 hbranch
  exact (h.reduced old hold).insert name hvalue

theorem tidy_set (hvalue : value.Reduced) (index : Option Nat) :
    Preserves Tidy (set name value index) := by
  intro branches h
  refine ⟨preserves_set name value index branches h.formed, ?_⟩
  unfold set
  rw [outcome_get_bind]
  cases branches.requireName name with
  | error failure => exact h.reduced
  | ok _ =>
      rw [outcome_ofExcept_bind_ok]
      cases hresolve : branches.resolve index with
      | error failure => exact h.reduced
      | ok found =>
          have hbranch := resolve_ok hresolve
          intro branch hmem
          change branch ∈ (branches.write found.1 name value).list at hmem
          rw [Worksheet.list_write hbranch] at hmem
          rcases List.mem_or_eq_of_mem_set hmem with hold | rfl
          · exact h.reduced branch hold
          · exact (h.reduced found.2 (List.mem_of_getElem? hbranch)).insert name hvalue

theorem tidy_setEverywhere (hvalue : value.Reduced) :
    Preserves Tidy (setEverywhere name value) := by
  intro branches h
  refine ⟨preserves_setEverywhere name value branches h.formed, ?_⟩
  unfold setEverywhere
  rw [outcome_get_bind]
  cases branches.requireName name with
  | error failure => exact h.reduced
  | ok _ => exact h.writeEverywhere name hvalue

theorem tidy_remove (index : Nat) : Preserves Tidy (remove index : Action K Unit) := by
  intro branches h
  refine ⟨preserves_remove index branches h.formed, ?_⟩
  unfold remove
  rw [outcome_get_bind]
  cases branches.resolve (some index) with
  | error failure => exact h.reduced
  | ok found =>
      rw [outcome_ofExcept_bind_ok]
      dsimp only
      split
      · exact h.reduced
      · exact fun branch hbranch => h.reduced branch (List.mem_of_mem_eraseIdx hbranch)

theorem tidy_select (index : Nat) : Preserves Tidy (select index : Action K Unit) := by
  intro branches h
  refine ⟨preserves_select index branches h.formed, ?_⟩
  unfold select
  rw [outcome_get_bind]
  cases branches.resolve (some index) with
  | error failure => exact h.reduced
  | ok found => exact h.reduced

theorem tidy_declare (names : List String) : Preserves Tidy (declare names : Action K Unit) := by
  have heach : Preserves Tidy (declareEach names : Action K Unit) := by
    induction names with
    | nil => exact Preserves.pure ()
    | cons name rest ih =>
        intro branches h
        unfold declareEach
        rw [outcome_get_bind]
        split
        · exact h
        · exact ih _ ⟨h.formed.withVariable name,
            h.writeEverywhere name (Fraction.reduced_ofSymbol _)⟩
  unfold declare
  refine Preserves.get (fun branches => ?_)
  split
  · exact Preserves.bind (Preserves.throw _) (fun _ => heach)
  · exact heach

theorem tidy_initial : (initial : Branches K).Tidy where
  formed := wellFormed_initial
  reduced := by
    intro branch hbranch
    cases List.mem_singleton.1 hbranch
    exact nofun

end Branches

/-- What a caller can do with a worksheet, procedures left out. -/
inductive Command (K : Type)
  /-- Binds a variable to the value of a formula. -/
  | set (name : String) (value : Formula K)
  /-- Makes a variable unknown again. -/
  | clear (name : String)
  /-- Declares variables. -/
  | declare (names : List String)
  /-- Registers an equation. -/
  | register (name : String) (sides : Option (List (Formula K)))
  /-- Deletes the current branch. -/
  | delete
  /-- Makes a branch current. -/
  | switch (index : Nat)
  /-- Makes the next branch current. -/
  | rotate
  /-- Solves the worksheet. -/
  | solve (steps : Nat)

namespace Worksheet

def obey [Scalar K] : Command K → Action K σ Unit
  | .set name value => do assign name (← evaluate value)
  | .clear name => clear name
  | .declare names => declare names
  | .register name sides => registerEquation name sides
  | .delete => dropCurrent
  | .switch index => switch index
  | .rotate => rotate
  | .solve steps => solve steps

/-- A worksheet with an engine comes about: it has just declared its variables, whatever its judge
and its options are, or it is what a command has left of one that comes about, whether or not the
command failed. -/
inductive Reachable [Scalar K] (engine : Engine K σ) : Worksheet K σ → Prop
  | new (names : List String) {sheet : Worksheet K σ} (hengine : sheet.engine = engine)
    (hprocedures : sheet.procedures = [])
    (hbranches : (outcome (Branches.declare names) Branches.initial).2 = sheet.branches) :
    Reachable engine sheet
  | obeyed {sheet : Worksheet K σ} (h : Reachable engine sheet) (command : Command K) :
    Reachable engine (outcome (obey command) sheet).2

/-- A worksheet that has just declared its variables. -/
def fresh (names : List String) (descriptions : SortedMap String String)
    (options : WorksheetOptions K) (engine : Engine K σ) (engineState : σ) (judge : Judge K)
    [Scalar K] : Worksheet K σ where
  options := options
  engine := engine
  engineState := engineState
  judge := judge
  branches := (outcome (Branches.declare names) Branches.initial).2
  descriptions := descriptions
  equations := []
  procedures := []
  marked := ∅
  unsolvable := false
  inProcedure := false
  solved := false
  log := #[]

theorem create_eq [Scalar K] {names : List String} {descriptions : SortedMap String String}
    {options : WorksheetOptions K} {engine : Engine K σ} {state : σ} {sheet : Worksheet K σ}
    (h : create names descriptions options engine state = .ok sheet) :
    ∃ judge, makeJudge options = .ok judge ∧
      sheet = fresh names descriptions options engine state judge := by
  unfold create at h
  obtain ⟨judge, hjudge, h⟩ := except_bind_eq_ok.1 h
  by_cases hempty : names.isEmpty = true
  · rw [if_pos hempty] at h
    cases h
  · rw [if_neg hempty] at h
    obtain ⟨_, _, h⟩ := except_bind_eq_ok.1 h
    obtain ⟨_, _, h⟩ := except_bind_eq_ok.1 h
    obtain ⟨_, _, h⟩ := except_bind_eq_ok.1 h
    cases h
    exact ⟨judge, hjudge, rfl⟩

theorem Reachable.obeyedAll [Scalar K] {engine : Engine K σ} {sheet : Worksheet K σ}
    (h : Reachable engine sheet) (commands : List (Command K)) : Reachable engine
      (commands.foldl (fun sheet command => (outcome (obey command) sheet).2) sheet) := by
  induction commands generalizing sheet with
  | nil => exact h
  | cons command rest ih => exact ih (h.obeyed command)

section Solve

variable [Scalar K] {sheet : Worksheet K σ}

/-- A run leaves the engine and the equations as they are, and the branches well formed. -/
theorem solve_leaves (steps : Nat) (hprocedures : sheet.procedures = [])
    (hformed : sheet.branches.WellFormed) :
    (outcome (solve steps) sheet).2.engine = sheet.engine ∧
    (outcome (solve steps) sheet).2.procedures = sheet.procedures ∧
    (outcome (solve steps) sheet).2.branches.WellFormed := by
  have hshape := run_solve steps sheet hprocedures hformed
  have hpasses := passes_visitAll steps steps [] sheet.opened hprocedures hformed
  generalize outcome (solve steps) sheet = run at hshape
  have hdiscarded {middle ended : Worksheet K σ} {startId : Nat} {found : List Nat}
      (hpass : outcome (visitAll steps steps []) sheet.opened = (.ok found, middle))
      (hstays : ∃ branch ∈ middle.branches.list, branch.id ∉ middle.marked.keys)
      (hdiscard : outcome (discardMarked startId) middle = (.ok (), ended)) :
      ended.engine = sheet.engine ∧ ended.procedures = sheet.procedures ∧
        ended.branches.WellFormed := by
    rw [hpass] at hpasses
    obtain ⟨branches, log, hstate, _, hformed', _⟩ :=
      outcome_discardMarked_ok startId hpasses.formed hstays
    rw [hstate] at hdiscard
    cases hdiscard
    exact ⟨hpasses.engine, hpasses.procedures, hformed'⟩
  cases hshape with
  | broken hpass =>
      rw [hpass] at hpasses
      exact ⟨hpasses.engine, hpasses.procedures, hpasses.formed⟩
  | hopeless hpass =>
      rw [hpass] at hpasses
      exact ⟨hpasses.engine, hpasses.procedures, hpasses.formed⟩
  | fruitless hpass hstays _ hdiscard => exact hdiscarded hpass hstays hdiscard
  | finished _ hpass hstays _ hdiscard =>
      have hended := hdiscarded hpass hstays hdiscard
      exact hended

end Solve

section Reach

variable [ExactScalar K] {engine : Engine K σ} {sheet : Worksheet K σ}

/-- A candidate turns values into values in lowest terms. -/
theorem Takes.reduced {candidate : Solution K} {unknowns : List Symbol} {name : String}
    {old value : Fraction K} (hcandidate : CandidateFor unknowns candidate)
    (h : Takes candidate name old value) : value.Reduced := by
  unfold Takes adopted at h
  split at h
  · rename_i found hfound
    cases h
    exact (hcandidate _ value hfound).2.reduced
  · obtain ⟨middle, _, hcanonical⟩ := except_bind_eq_ok.1 h
    exact Fraction.reduced_make hcanonical

/-- However an attempt ends, it leaves values in lowest terms. -/
theorem resolveBy_reduced {subset : List (Relation K)} {branch other : Branch K}
    (hformed : sheet.branches.WellFormed) (hengine : sheet.engine.Confined)
    (hbranch : branch ∈ sheet.branches.list) (hreduced : branch.Reduced)
    (hother : other ∈ (outcome (resolveBy branch.id subset) sheet).2.branches.list)
    (hfamily : other.id = branch.id ∨ sheet.branches.nextId ≤ other.id) : other.Reduced := by
  rcases resolveBy_adopting hformed hbranch hother hfamily with
    rfl | ⟨candidates, hreply, candidate, hcandidate, hadopting⟩
  · exact hreduced
  · intro name value hvalue
    obtain ⟨start, hstart, htakes⟩ := hadopting name value hvalue
    rcases Relation.ReflTransGen.cases_tail htakes with rfl | ⟨_, _, hlast⟩
    · exact hreduced name value hstart
    · exact hlast.reduced
        (hengine _ _ _ _ hreply candidate (List.mem_of_mem_filter hcandidate))

/-- A worksheet without procedures whose branches are well formed and whose values are in lowest
terms. -/
structure Orderly (engine : Engine K σ) (sheet : Worksheet K σ) : Prop where
  engine : sheet.engine = engine
  procedures : sheet.procedures = []
  tidy : sheet.branches.Tidy

theorem Orderly.read (h : Orderly engine sheet) {name : String} {value : Fraction K}
    (hvalue : sheet.value name = .ok value) : value.Reduced := by
  obtain ⟨branch, hbranch⟩ := h.tidy.formed.exists_current
  unfold Worksheet.value Branches.get at hvalue
  obtain ⟨_, _, hvalue⟩ := except_bind_eq_ok.1 hvalue
  rw [Branches.resolve_none hbranch, except_ok_bind] at hvalue
  dsimp only at hvalue
  split at hvalue
  · rename_i found hfound
    cases hvalue
    exact h.tidy.reduced branch (List.mem_of_getElem? hbranch) name value hfound
  · cases hvalue

theorem orderly_onBranches {α : Type} {action : Branches.Action K α}
    (h : Preserves Branches.Tidy action) :
    Preserves (Orderly engine) (onBranches action : Action K σ α) := by
  intro sheet hsheet
  rw [outcome_onBranches]
  exact ⟨hsheet.engine, hsheet.procedures, h sheet.branches hsheet.tidy⟩

theorem orderly_assign (name : String) {value : Fraction K} (hvalue : value.Reduced) :
    Preserves (Orderly engine) (assign name value : Action K σ Unit) := by
  have hall : Preserves (Orderly engine)
      (onBranches (Branches.setEverywhere name value) : Action K σ Unit) :=
    orderly_onBranches (Branches.tidy_setEverywhere hvalue)
  unfold assign
  refine Preserves.get (fun sheet => ?_)
  split
  · exact orderly_onBranches (Branches.tidy_set hvalue none)
  · split
    · exact Preserves.bind (fun _ h => ⟨h.engine, h.procedures, h.tidy⟩) (fun _ => hall)
    · exact hall

theorem orderly_register (name : String) (sides : Option (List (Formula K))) :
    Preserves (Orderly engine) (registerEquation name sides : Action K σ Unit) := by
  have hcheck : Preserves (Orderly engine) (checkMethod .equation name : Action K σ Unit) := by
    unfold checkMethod
    refine Preserves.guard (Preserves.get fun sheet => ?_)
    split
    · exact Preserves.throw _
    · exact Preserves.pure _
  refine Preserves.bind hcheck (fun _ => ?_)
  cases sides with
  | none => exact Preserves.throw _
  | some sides => exact Preserves.modify (fun _ h => ⟨h.engine, h.procedures, h.tidy⟩)

theorem orderly_dropCurrent : Preserves (Orderly engine) (dropCurrent : Action K σ Unit) := by
  unfold dropCurrent
  refine Preserves.get (fun sheet => Preserves.guard ?_)
  refine Preserves.bind (Preserves.ofExcept _) (fun id => Preserves.bind ?_ (fun _ => ?_))
  · intro sheet hsheet
    obtain ⟨log, hlog⟩ := outcome_narrate ("Deleting branch id " ++ toString id) sheet
    rw [hlog]
    exact ⟨hsheet.engine, hsheet.procedures, hsheet.tidy⟩
  · exact orderly_onBranches (Branches.tidy_remove _)

/-- However an attempt of a run ends, it leaves values in lowest terms. -/
theorem AttemptAt.keeps_reduced {steps : Nat} {subset : List (Relation K)} {here : Worksheet K σ}
    {found : Branch K} (hattempt : AttemptAt steps sheet found.id subset here)
    (hengine : engine.Confined) (h : Orderly engine sheet)
    (hfound : here.branches.list[here.branches.current]? = some found) :
    ∀ other ∈ (outcome (resolveBy found.id subset) here).2.branches.list,
      (other.id = found.id ∨ here.branches.nextId ≤ other.id) → found.Reduced → other.Reduced := by
  intro other hother hfamily hreduced
  obtain ⟨hpasses, _⟩ := hattempt.passes h.procedures h.tidy.formed
  have hconfined : here.engine.Confined := by
    rw [hpasses.engine, h.engine]
    exact hengine
  exact resolveBy_reduced hpasses.formed hconfined (List.mem_of_getElem? hfound) hreduced hother
    hfamily

theorem orderly_solve (hengine : engine.Confined) (steps : Nat) :
    Preserves (Orderly engine) (solve steps : Action K σ Unit) := by
  intro sheet h
  obtain ⟨hsame, hnone, hformed⟩ := solve_leaves steps h.procedures h.tidy.formed
  refine ⟨hsame.trans h.engine, hnone.trans h.procedures, hformed, fun other hother => ?_⟩
  obtain ⟨origin, horigin, _, hkept⟩ := solve_relates (R := fun a b => a.Reduced → b.Reduced)
    (fun _ ha => ha) (fun _ _ _ hab hbc ha => hbc (hab ha)) h.procedures h.tidy.formed
    (fun _ _ _ hattempt => hattempt.keeps_reduced hengine h) other hother
  exact hkept (h.tidy.reduced origin horigin)

/-- When a run comes to an attempt, the values of the branch are in lowest terms. -/
theorem AttemptAt.reduced {steps : Nat} {subset : List (Relation K)} {here : Worksheet K σ}
    {found : Branch K} (hattempt : AttemptAt steps sheet found.id subset here)
    (hengine : engine.Confined) (h : Orderly engine sheet)
    (hfound : here.branches.list[here.branches.current]? = some found) : found.Reduced := by
  obtain ⟨origin, horigin, hkept⟩ := AttemptAt.relates (R := fun a b => a.Reduced → b.Reduced)
    (fun _ ha => ha) (fun _ _ _ hab hbc ha => hbc (hab ha)) h.procedures h.tidy.formed
    (fun _ _ _ hother => hother.keeps_reduced hengine h) hattempt hfound
  exact hkept (h.tidy.reduced origin horigin)

theorem orderly_obey (hengine : engine.Confined) (command : Command K) :
    Preserves (Orderly engine) (obey command : Action K σ Unit) := by
  cases command with
  | set name formula =>
      intro sheet h
      unfold obey
      cases heval : formula.eval sheet.value with
      | error failure =>
          have hrun : outcome (evaluate formula) sheet = (.error failure, sheet) := by
            rw [evaluate, outcome_get_bind, outcome_ofExcept, heval]
          rw [outcome_bind_error _ hrun]
          exact h
      | ok value =>
          have hrun : outcome (evaluate formula) sheet = (.ok value, sheet) := by
            rw [evaluate, outcome_get_bind, outcome_ofExcept, heval]
          rw [outcome_bind_ok _ hrun]
          refine orderly_assign name ?_ sheet h
          exact formula.eval_of_closed Fraction.closed_reduced (fun _ _ hread => h.read hread)
            (fun s _ => Fraction.reduced_ofSymbol s) heval
  | clear name =>
      exact Preserves.bind
        (orderly_onBranches (Branches.tidy_setEverywhere (Fraction.reduced_ofSymbol _)))
        (fun _ => Preserves.modify (fun _ h => ⟨h.engine, h.procedures, h.tidy⟩))
  | declare names =>
      refine Preserves.get (fun sheet => Preserves.guard ?_)
      exact Preserves.bind (Preserves.ofExcept _)
        (fun _ => orderly_onBranches (Branches.tidy_declare names))
  | register name sides => exact orderly_register name sides
  | delete => exact orderly_dropCurrent
  | switch index =>
      change Preserves (Orderly engine) (onBranches (Branches.select index))
      exact orderly_onBranches (Branches.tidy_select index)
  | rotate =>
      intro sheet h
      exact ⟨h.engine, h.procedures, h.tidy.formed.rotate, h.tidy.reduced⟩
  | solve steps => exact orderly_solve hengine steps

/-- Every worksheet that comes about has well formed branches with values in lowest terms. -/
theorem Reachable.orderly (hengine : engine.Confined) (h : Reachable engine sheet) :
    Orderly engine sheet := by
  induction h with
  | @new names sheet hengine hprocedures hbranches =>
      exact ⟨hengine, hprocedures, hbranches ▸ Branches.tidy_declare names _ Branches.tidy_initial⟩
  | obeyed _ command ih => exact orderly_obey hengine command _ ih

end Reach

end Worksheet

end Ramify
