import Ramify.Proofs.Worksheet.Changes
import Ramify.Proofs.Worksheet.Hidden

/-!
Declaring variables in a worksheet that is in use. The store of the branches declares one name after
the other and can fail half way; the worksheet checks all names first. In every worksheet that comes
about, also in the midst of a run, the check refuses exactly those lists on which the store would
fail, so declaring is all or nothing.
-/

namespace Ramify

namespace Branches

variable {K : Type} [Scalar K] {branches before after : Branches K}

/-- Branches have ever split: on the way to them from the first one, some branch was copied. -/
def HasSplit (branches : Branches K) : Prop :=
  ∃ middle : Branches K, ∃ branch ∈ middle.list,
    Changes initial middle ∧ Changes (middle.forked branch) branches

/-- The lock tells whether branches have ever split. -/
theorem locked_iff_hasSplit (h : Changes initial branches) :
    branches.locked = true ↔ branches.HasSplit := by
  constructor
  · intro hlocked
    induction h with
    | refl => cases hlocked
    | @tail before after hbefore hchange ih =>
        -- a change other than a copy leaves the lock as it was
        have hearlier (hsame : after.locked = before.locked) : after.HasSplit := by
          obtain ⟨middle, branch, hbranch, hmiddle, hlast⟩ := ih (hsame ▸ hlocked)
          exact ⟨middle, branch, hbranch, hmiddle, hlast.tail hchange⟩
        cases hchange with
        | forked member => exact ⟨before, _, member, hbefore, .refl⟩
        | declared unlocked fresh => exact hearlier rfl
        | dropped inside several => exact hearlier rfl
        | moved inside => exact hearlier rfl
        | written declared index value => exact hearlier rfl
        | writtenEverywhere declared value => exact hearlier rfl
  · rintro ⟨middle, branch, _, _, hlast⟩
    exact hlast.succeeds.locked rfl

/-- Variables are declared in branches that were there before: the names come after the earlier
ones, and each branch binds them to their symbols and keeps its earlier bindings. -/
structure Declared (added : List String) (before after : Branches K) : Prop where
  names : after.names = before.names ++ added
  current : after.current = before.current
  nextId : after.nextId = before.nextId
  locked : after.locked = before.locked
  count : after.count = before.count
  branches : ∀ (i : Nat) branch, before.list[i]? = some branch → ∃ extended,
    after.list[i]? = some extended ∧ extended.id = branch.id ∧
    ∀ name, extended.bindings.find? name =
      if name ∈ added then some (.ofSymbol ⟨name, false⟩) else branch.bindings.find? name

theorem declared_nil (branches : Branches K) : Declared [] branches branches where
  names := (List.append_nil _).symm
  current := rfl
  nextId := rfl
  locked := rfl
  count := rfl
  branches := fun _ branch hbranch => ⟨branch, hbranch, rfl, fun _ => rfl⟩

theorem declared_cons {name : String} {rest : List String}
    (h : Declared rest (branches.withVariable name) after) :
    Declared (name :: rest) branches after where
  names := by
    rw [h.names]
    exact List.append_assoc _ _ _
  current := h.current
  nextId := h.nextId
  locked := h.locked
  count := h.count.trans (count_writeEverywhere _ _ _)
  branches := by
    intro i branch hbranch
    obtain ⟨extended, hextended, hid, hbindings⟩ := h.branches i
      ⟨branch.id, branch.bindings.insert name (.ofSymbol ⟨name, false⟩)⟩ (by
        unfold withVariable writeEverywhere
        rw [List.getElem?_map, hbranch]
        rfl)
    refine ⟨extended, hextended, hid, fun other => ?_⟩
    rw [hbindings, SortedMap.find?_insert]
    by_cases hsame : name = other
    · simp [hsame]
    · simp [hsame, Ne.symm hsame]

/-- Names that are different from each other and from the declared ones can be declared. -/
theorem outcome_declareEach (names : List String) (hformed : branches.WellFormed)
    (hnodup : names.Nodup) (hfresh : ∀ name ∈ names, name ∉ branches.names) :
    ∃ after, outcome (declareEach names) branches = (.ok (), after) ∧
      Declared names branches after := by
  induction names generalizing branches with
  | nil => exact ⟨branches, rfl, declared_nil branches⟩
  | cons name rest ih =>
      obtain ⟨hname, hrest⟩ := List.nodup_cons.1 hnodup
      have hundeclared : ¬ branches.declares name = true :=
        mt (hformed.declares_iff name).1 (hfresh name List.mem_cons_self)
      obtain ⟨after, hrun, hdeclared⟩ := ih (hformed.withVariable name) hrest (by
        intro other hother hold
        rcases List.mem_append.1 hold with hold | hnew
        · exact hfresh other (List.mem_cons_of_mem _ hother) hold
        · exact hname (List.mem_singleton.1 hnew ▸ hother))
      refine ⟨after, ?_, declared_cons hdeclared⟩
      unfold declareEach
      rw [outcome_get_bind, if_neg hundeclared]
      exact hrun

end Branches

/-- An unaccented Latin letter. -/
def IsLetter (c : Char) : Prop := ('A' ≤ c ∧ c ≤ 'Z') ∨ ('a' ≤ c ∧ c ≤ 'z')

def IsDigit (c : Char) : Prop := '0' ≤ c ∧ c ≤ '9'

/-- A name begins with a letter or an underscore, and goes on with letters, digits and
underscores. -/
def IsIdentifier (name : String) : Prop :=
  ∃ first rest, name.toList = first :: rest ∧ (IsLetter first ∨ first = '_') ∧
    ∀ c ∈ rest, IsLetter c ∨ IsDigit c ∨ c = '_'

namespace Worksheet

open Branches (Changes)

section Names

theorem isAlpha_iff (c : Char) : c.isAlpha = true ↔ IsLetter c := by
  change (decide (c.val ≥ 'A'.val ∧ c.val ≤ 'Z'.val) ||
    decide (c.val ≥ 'a'.val) && decide (c.val ≤ 'z'.val)) = true ↔ _
  rw [Bool.or_eq_true, Bool.and_eq_true, decide_eq_true_eq, decide_eq_true_eq, decide_eq_true_eq]
  rfl

theorem isDigit_iff (c : Char) : c.isDigit = true ↔ IsDigit c := by
  simp [Char.isDigit, IsDigit, Char.le_def]

theorem isValidName_iff (name : String) : isValidName name = true ↔ IsIdentifier name := by
  unfold isValidName IsIdentifier
  cases name.toList with
  | nil => simp
  | cons first rest =>
      simp [Char.isAlphanum, isAlpha_iff, isDigit_iff, or_assoc]

variable {K : Type} {branches : Branches K}

theorem checkNames_cons (seen : List String) (name : String) (rest : List String) :
    checkNames branches seen (name :: rest) =
      if isValidName name then
        if name ∈ seen ∨ branches.declares name = true then .error (.repeatedName name)
        else checkNames branches (name :: seen) rest
      else .error (.badName name) := by
  rw [checkNames]
  cases isValidName name with
  | false => rfl
  | true =>
      by_cases hrepeated : name ∈ seen ∨ branches.declares name = true
      · have htest : (seen.contains name || branches.declares name) = true := by
          simpa using hrepeated
        simp only [htest, if_pos hrepeated]
        rfl
      · have htest : (seen.contains name || branches.declares name) = false := by
          simpa using hrepeated
        simp only [htest, if_neg hrepeated]
        rfl

/-- The check passes names that are identifiers, different from each other, and new. -/
theorem checkNames_eq_ok_iff (seen names : List String) :
    checkNames branches seen names = .ok () ↔
      (∀ name ∈ names, IsIdentifier name) ∧ names.Nodup ∧
        ∀ name ∈ names, name ∉ seen ∧ ¬ branches.declares name = true := by
  induction names generalizing seen with
  | nil => simp [checkNames]
  | cons name rest ih =>
      rw [checkNames_cons]
      by_cases hvalid : isValidName name = true
      · rw [if_pos hvalid]
        by_cases hrepeated : name ∈ seen ∨ branches.declares name = true
        · rw [if_pos hrepeated]
          refine ⟨nofun, fun h => ?_⟩
          have hnew := h.2.2 name List.mem_cons_self
          exact absurd hrepeated (not_or.2 hnew)
        · rw [if_neg hrepeated, ih, List.forall_mem_cons, List.forall_mem_cons, List.nodup_cons]
          have hidentifier := (isValidName_iff name).1 hvalid
          constructor
          · rintro ⟨hrest, hnodup, hnew⟩
            refine ⟨⟨hidentifier, hrest⟩, ⟨fun hmem => ?_, hnodup⟩, not_or.1 hrepeated, ?_⟩
            · exact (hnew name hmem).1 List.mem_cons_self
            · exact fun other hother =>
                ⟨fun hseen => (hnew other hother).1 (List.mem_cons_of_mem _ hseen),
                  (hnew other hother).2⟩
          · rintro ⟨⟨_, hrest⟩, ⟨hfirst, hnodup⟩, _, hnew⟩
            refine ⟨hrest, hnodup, fun other hother => ⟨fun hseen => ?_, (hnew other hother).2⟩⟩
            rcases List.mem_cons.1 hseen with rfl | hseen
            · exact hfirst hother
            · exact (hnew other hother).1 hseen
      · rw [if_neg hvalid]
        refine ⟨nofun, fun h => ?_⟩
        exact absurd ((isValidName_iff name).2 (h.1 name List.mem_cons_self)) hvalid

/-- What the check reports is one of the names. -/
theorem errs_checkNames (seen names : List String) :
    ErrsWith (fun failure : Failure K => ∃ name ∈ names,
      failure = .badName name ∨ failure = .repeatedName name) (checkNames branches seen names) := by
  induction names generalizing seen with
  | nil => exact nofun
  | cons name rest ih =>
      rw [checkNames_cons]
      split
      · split
        · exact .throw ⟨name, List.mem_cons_self, .inr rfl⟩
        · intro failure hfailure
          obtain ⟨other, hother, hcause⟩ := ih _ failure hfailure
          exact ⟨other, List.mem_cons_of_mem _ hother, hcause⟩
      · exact .throw ⟨name, List.mem_cons_self, .inl rfl⟩

end Names

variable {K σ : Type} [Scalar K]

/-- What can happen to a worksheet: a request, or a part of a run. A run starts, turns to branches,
lets procedures do one thing after the other, gathers relations and tries to resolve variables. -/
inductive Stage (K : Type)
  | request (request : Request K)
  | start
  | turn (index id : Nat)
  | procedures (running : Bool)
  | perform (program : Program K)
  | gather (id : Nat)
  | resolve (id : Nat) (subset : List (Relation K))

/-- The action that a stage stands for. -/
def Stage.act : Stage K → Action K σ Unit
  | .request what => do let _ ← respond what
  | .start => modify opened
  | .turn index id => Worksheet.turn index id
  | .procedures running => setInProcedure running
  | .perform program => Worksheet.perform program
  | .gather id => do let _ ← Worksheet.gather id (← get).equations []
  | .resolve id subset => do let _ ← resolveBy id subset

/-- A worksheet comes about: it is created, or something has happened to one that comes about,
whether or not it failed. Requests and the parts of a run may follow each other in any order, so
the worksheets that procedures find in the midst of a run are among these. -/
inductive Arises : Worksheet K σ → Prop
  | created {names : List String} {descriptions : SortedMap String String}
    {options : WorksheetOptions K} {engine : Engine K σ} {state : σ} {sheet : Worksheet K σ}
    (h : create names descriptions options engine state = .ok sheet) : Arises sheet
  | staged {sheet : Worksheet K σ} (h : Arises sheet) (stage : Stage K) :
    Arises (outcome stage.act sheet).2

section Arising

theorem alters_checkMethod (kind : MethodKind) (name : String) :
    Alters Follows (checkMethod kind name : Action K σ Unit) := by
  unfold checkMethod
  split
  · exact .throw_bind _ _
  · refine .get fun _ => ?_
    split
    · exact .throw _
    · exact .pure ()

theorem alters_registerEquation (name : String) (sides : Option (List (Formula K))) :
    Alters Follows (registerEquation name sides : Action K σ Unit) := by
  refine .bind (alters_checkMethod _ name) fun _ => ?_
  cases sides with
  | none => exact .throw _
  | some sides => exact fun _ => Follows.of_same rfl

theorem alters_registerProcedure (name : String) (body : Option (Program K)) :
    Alters Follows (registerProcedure name body : Action K σ Unit) := by
  refine .bind (alters_checkMethod _ name) fun _ => ?_
  cases body with
  | none => exact .throw _
  | some body => exact fun _ => Follows.of_same rfl

theorem alters_respond (request : Request K) :
    Alters Follows (respond request : Action K σ (Reply K)) := by
  have hdone {action : Action K σ Unit} (h : Alters Follows action) : Alters Follows (do
      action
      pure Reply.done : Action K σ (Reply K)) := .bind h fun _ => .pure _
  cases request with
  | procedure name body => exact hdone (alters_registerProcedure name body)
  | query query => exact .get fun _ => .ofExcept _
  | command command =>
      refine hdone ?_
      cases command with
      | set name value =>
          exact .bind (.of_reads (.evaluate value)) fun found =>
            (handles_assign name found).proceeds.follows
      | clear name => exact (handles_clear name).proceeds.follows
      | declare names => exact (handles_declare names).proceeds.follows
      | register name sides => exact alters_registerEquation name sides
      | delete => exact handles_dropCurrent.proceeds.follows
      | switch index => exact (Alters.operate (.select index)).follows
      | rotate => exact (Alters.operate .rotate).follows
      | solve steps => exact alters_solve steps

theorem Stage.alters (stage : Stage K) : Alters Follows (stage.act : Action K σ Unit) := by
  cases stage with
  | request what => exact .bind (alters_respond what) fun _ => .pure ()
  | start => exact fun _ => Follows.of_same rfl
  | turn index id => exact (alters_turn index id).follows
  | procedures running => exact alters_setInProcedure running
  | perform program => exact (handles_perform program False.elim).proceeds.follows
  | gather id => exact .get fun _ => .bind (alters_gather id _ _).follows fun _ => .pure ()
  | resolve id subset => exact .bind (alters_resolveBy id subset).follows fun _ => .pure ()

/-- The branches of every worksheet that comes about have come from the first one by changes. -/
theorem Arises.changes {sheet : Worksheet K σ} (h : Arises sheet) :
    Changes Branches.initial sheet.branches := by
  induction h with
  | created h =>
      obtain ⟨judge, _, rfl⟩ := create_eq h
      exact Branches.Operation.steps (.declare _) Branches.wellFormed_initial
  | staged _ stage ih =>
      exact ih.trans (stage.alters _ (ih.wellFormed Branches.wellFormed_initial))

theorem Arises.formed {sheet : Worksheet K σ} (h : Arises sheet) : sheet.branches.WellFormed :=
  h.changes.wellFormed Branches.wellFormed_initial

end Arising

/-- Names cannot be declared: branches have split, or some name is not an identifier, occurs twice
or is already declared. -/
def Refuses (branches : Branches K) (names : List String) : Prop :=
  branches.HasSplit ∨ (∃ name ∈ names, ¬ IsIdentifier name) ∨ ¬ names.Nodup ∨
    ∃ name ∈ names, name ∈ branches.names

/-- As long as branches have not split, the names that pass the check are those that can be
declared. -/
theorem checkNames_passes_iff {branches : Branches K} (hformed : branches.WellFormed)
    (hsplit : ¬ branches.HasSplit) (names : List String) :
    checkNames branches [] names = .ok () ↔ ¬ Refuses branches names := by
  rw [checkNames_eq_ok_iff]
  constructor
  · rintro ⟨hidentifiers, hnodup, hnew⟩ (hwas | ⟨name, hname, hnot⟩ | htwice | ⟨name, hname, hold⟩)
    · exact hsplit hwas
    · exact hnot (hidentifiers name hname)
    · exact htwice hnodup
    · exact (hnew name hname).2 ((hformed.declares_iff name).2 hold)
  · intro hnot
    refine ⟨fun name hname => ?_, ?_, fun name hname => ⟨List.not_mem_nil, fun hdeclares => ?_⟩⟩
    · by_contra hbad
      exact hnot (.inr (.inl ⟨name, hname, hbad⟩))
    · by_contra htwice
      exact hnot (.inr (.inr (.inl htwice)))
    · have hold := (hformed.declares_iff name).1 hdeclares
      exact hnot (.inr (.inr (.inr ⟨name, hname, hold⟩)))

/-- Declaring variables is all or nothing, in every worksheet that comes about. It fails exactly if
branches have ever split, or some name is not an identifier, occurs twice or is already declared.
Every failure is one of the worksheet about its configuration, and leaves the worksheet as it was.
Otherwise the names are appended to the declared ones and bound to their symbols in every branch;
every earlier binding and all else stays as it was. -/
theorem declaring_is_all_or_nothing {sheet : Worksheet K σ} (h : Arises sheet)
    (names : List String) :
    ((∃ failure, (outcome (declare names) sheet).1 = .error failure) ↔
      Refuses sheet.branches names) ∧
    (∀ failure, (outcome (declare names) sheet).1 = .error failure →
      failure.kind = .configuration ∧
      (failure = .declaredAfterBranching ∨
        ∃ name ∈ names, failure = .badName name ∨ failure = .repeatedName name) ∧
      (outcome (declare names) sheet).2 = sheet) ∧
    (¬ Refuses sheet.branches names → ∃ branches,
      outcome (declare names) sheet = (.ok (), { sheet with branches := branches }) ∧
      Branches.Declared names sheet.branches branches) := by
  have hformed := h.formed
  have hsplit : sheet.branches.locked = true ↔ sheet.branches.HasSplit :=
    Branches.locked_iff_hasSplit h.changes
  by_cases hlocked : sheet.branches.locked = true
  · have hrun : outcome (declare names) sheet = (.error .declaredAfterBranching, sheet) := by
      unfold declare
      rw [outcome_get_bind, if_pos hlocked]
      rfl
    have hrefuses : Refuses sheet.branches names := .inl (hsplit.1 hlocked)
    rw [hrun]
    refine ⟨⟨fun _ => hrefuses, fun _ => ⟨_, rfl⟩⟩, ?_, fun hnot => absurd hrefuses hnot⟩
    rintro failure ⟨⟩
    exact ⟨rfl, .inl rfl, rfl⟩
  · have hwhole : ¬ sheet.branches.HasSplit := mt hsplit.2 hlocked
    cases hcheck : checkNames sheet.branches [] names with
    | error failure =>
        have hrun : outcome (declare names) sheet = (.error failure, sheet) := by
          unfold declare
          rw [outcome_get_bind, if_neg hlocked, hcheck]
          rfl
        have hrefuses : Refuses sheet.branches names := by
          by_contra hnot
          rw [(checkNames_passes_iff hformed hwhole names).2 hnot] at hcheck
          cases hcheck
        obtain ⟨name, hname, hcause⟩ := errs_checkNames [] names failure hcheck
        rw [hrun]
        refine ⟨⟨fun _ => hrefuses, fun _ => ⟨_, rfl⟩⟩, ?_, fun hnot => absurd hrefuses hnot⟩
        rintro failure ⟨⟩
        refine ⟨?_, .inr ⟨name, hname, hcause⟩, rfl⟩
        rcases hcause with rfl | rfl
        · rfl
        · rfl
    | ok checked =>
        have hpasses : ¬ Refuses sheet.branches names :=
          (checkNames_passes_iff hformed hwhole names).1 hcheck
        have hnodup : names.Nodup := by
          by_contra htwice
          exact hpasses (.inr (.inr (.inl htwice)))
        have hfresh : ∀ name ∈ names, name ∉ sheet.branches.names :=
          fun name hname hold => hpasses (.inr (.inr (.inr ⟨name, hname, hold⟩)))
        obtain ⟨after, hdeclare, hdeclared⟩ :=
          Branches.outcome_declareEach names hformed hnodup hfresh
        have hrun : outcome (declare names) sheet =
            (.ok (), { sheet with branches := after }) := by
          unfold declare
          rw [outcome_get_bind, if_neg hlocked, hcheck, outcome_ofExcept_bind_ok,
            outcome_onBranches]
          unfold Branches.declare
          rw [outcome_get_bind, if_neg hlocked, hdeclare]
        rw [hrun]
        exact ⟨⟨nofun, fun hrefuses => absurd hrefuses hpasses⟩, nofun,
          fun _ => ⟨after, rfl, hdeclared⟩⟩

/-- What has been served comes about. -/
theorem Arises.served {sheet : Worksheet K σ} (h : Arises sheet) (requests : List (Request K)) :
    Arises (serve requests sheet).2 := by
  induction requests generalizing sheet with
  | nil => exact h
  | cons request rest ih =>
      have hafter : (outcome (Stage.request request).act sheet).2 =
          (outcome (respond request) sheet).2 := outcome_bind_pure _ _ _
      exact ih (hafter ▸ h.staged (.request request))

/-- A worksheet whose square has two roots, before and after it is solved. -/
theorem names_before_and_after_a_split :
    let start := newSheet 1 false
    let requests : List (Request Rat) :=
      [.command (.register "square" (some [.mul (.value "x") (.value "x"), .number 4])),
        .command (.solve 4)]
    let split := (serve requests start).2
    Arises start ∧ Arises split ∧
      (∃ branches, outcome (declare ["z", "w_1"]) start = (.ok (), { start with branches }) ∧
        Branches.Declared ["z", "w_1"] start.branches branches) ∧
      (outcome (declare ["z", "z"]) start).2 = start ∧
      Refuses split.branches ["z"] ∧ (outcome (declare ["z"]) split).2 = split := by
  intro start requests split
  have hstart : Arises start := .created (create_newSheet 1 false)
  have hsplit : Arises split := hstart.served requests
  have hpasses : ¬ Refuses start.branches ["z", "w_1"] :=
    (checkNames_passes_iff hstart.formed
      (mt (Branches.locked_iff_hasSplit hstart.changes).2 (by decide +kernel)) _).1
      (except_eq_ok_of_isOk (by decide +kernel))
  have htwice : Refuses start.branches ["z", "z"] := .inr (.inr (.inl (by decide)))
  have hlate : Refuses split.branches ["z"] :=
    .inl ((Branches.locked_iff_hasSplit hsplit.changes).1 (by decide +kernel))
  have hnew := declaring_is_all_or_nothing hstart ["z", "w_1"]
  have hagain := declaring_is_all_or_nothing hstart ["z", "z"]
  have hafter := declaring_is_all_or_nothing hsplit ["z"]
  obtain ⟨failure, hfailure⟩ := hagain.1.2 htwice
  obtain ⟨failure', hfailure'⟩ := hafter.1.2 hlate
  exact ⟨hstart, hsplit, hnew.2.2 hpasses, (hagain.2.1 failure hfailure).2.2, hlate,
    (hafter.2.1 failure' hfailure').2.2⟩

end Worksheet

end Ramify
