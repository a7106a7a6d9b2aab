import Ramify.Proofs.Algebra.Fraction
import Ramify.Proofs.Branches.Operations
import Ramify.Proofs.Worksheet.Adopt
import Ramify.Proofs.Worksheet.Rational
import Ramify.Proofs.Worksheet.Settle

/-!
What solving one branch does to the others when procedures run. A program that reads, binds
variables and deletes the current branch acts on the branch it runs for until it deletes that
branch; what it binds or deletes afterwards hits the branch that has become current. So the other
branches stay as they are, in their order, if the branch is still there at the end or no program
acts after a deletion.
-/

namespace Ramify

namespace Program

variable {K : Type}

/-- Whether a program only reads, binds variables and deletes the current branch. -/
def isPlain : Program K → Bool
  | skip | set _ _ | delete | need _ | giveUp _ | fail _ => true
  | clear _ | rotate | switch _ | declare _ => false
  | seq first second => first.isPlain && second.isPlain
  | choose _ yes no => yes.isPlain && no.isPlain

def binds : Program K → Bool
  | set _ _ => true
  | seq first second => first.binds || second.binds
  | choose _ yes no => yes.binds || no.binds
  | _ => false

def deletes : Program K → Bool
  | delete => true
  | seq first second => first.deletes || second.deletes
  | choose _ yes no => yes.deletes || no.deletes
  | _ => false

/-- Whether a program neither binds nor deletes anything after a deletion. -/
def isCareful : Program K → Bool
  | seq first second =>
    first.isCareful && second.isCareful && !(first.deletes && (second.binds || second.deletes))
  | choose _ yes no => yes.isCareful && no.isCareful
  | _ => true

end Program

namespace Branches

variable {K : Type}

/-- A variable is bound in the current branch. -/
inductive Binds : Branches K → Branches K → Prop
  | bound {branches : Branches K} {name : String} (declared : name ∈ branches.names)
      (value : Fraction K) : Binds branches (branches.write branches.current name value)

/-- The current branch is deleted. -/
inductive Drops : Branches K → Branches K → Prop
  | dropped {branches : Branches K} (several : branches.count ≠ 1) :
      Drops branches (branches.without branches.current)

/-- What a program does: it binds variables and deletes branches. -/
def Acts : Branches K → Branches K → Prop :=
  Relation.ReflTransGen (fun before after => Binds before after ∨ Drops before after)

/-- What a careful program does: it binds variables and may then delete the branch. -/
def ActsCarefully (before after : Branches K) : Prop :=
  ∃ middle, Relation.ReflTransGen Binds before middle ∧ (after = middle ∨ Drops middle after)

/-- The branches that one branch is worked among, with this branch at its place and current, and
with new ones behind them. -/
structure Present (id next : Nat) (left right : List (Branch K)) (branches : Branches K) :
    Prop where
  formed : branches.WellFormed
  nextId : next ≤ branches.nextId
  current : branches.current = left.length
  list : ∃ bindings new, branches.list = left ++ ⟨id, bindings⟩ :: right ++ new ∧
    ∀ branch ∈ new, next ≤ branch.id

/-- The same branches without this one. -/
def Absent (next : Nat) (left right : List (Branch K)) (branches : Branches K) : Prop :=
  ∃ new, branches.list = left ++ right ++ new ∧ ∀ branch ∈ new, next ≤ branch.id

def Lacks (id : Nat) (branches : Branches K) : Prop := ∀ branch ∈ branches.list, branch.id ≠ id

/-- The branch is at its place, or it is gone; if care was taken, only it is gone. -/
def Tracked (careful : Prop) (id next : Nat) (left right : List (Branch K))
    (branches : Branches K) : Prop :=
  Present id next left right branches ∨
    (Lacks id branches ∧ (careful → Absent next left right branches))

section Single

variable {id next : Nat} {left right : List (Branch K)} {before after : Branches K}

theorem Present.getElem (h : Present id next left right before) :
    ∃ bindings, before.list[left.length]? = some ⟨id, bindings⟩ := by
  obtain ⟨bindings, new, hlist, _⟩ := h.list
  refine ⟨bindings, ?_⟩
  rw [hlist, List.append_assoc, List.getElem?_append_right (Nat.le_refl _), Nat.sub_self]
  rfl

theorem Present.binds (h : Present id next left right before) (hbinds : Binds before after) :
    Present id next left right after := by
  obtain @⟨name, declared, value⟩ := hbinds
  refine ⟨h.formed.write declared _ value, h.nextId, h.current, ?_⟩
  obtain ⟨bindings, new, hlist, hnew⟩ := h.list
  have hbranch : before.list[left.length]? = some ⟨id, bindings⟩ := by
    rw [hlist, List.append_assoc, List.getElem?_append_right (Nat.le_refl _), Nat.sub_self]
    rfl
  refine ⟨bindings.insert name value, new, ?_, hnew⟩
  rw [h.current, Worksheet.list_write hbranch, hlist]
  simp

theorem Present.drops (h : Present id next left right before) (hdrops : Drops before after) :
    Lacks id after ∧ Absent next left right after := by
  obtain ⟨several⟩ := hdrops
  obtain ⟨bindings, new, hlist, hnew⟩ := h.list
  have herased : (before.without before.current).list = left ++ right ++ new := by
    change before.list.eraseIdx before.current = _
    rw [h.current, hlist, List.append_assoc, List.eraseIdx_append_of_length_le (Nat.le_refl _),
      Nat.sub_self]
    simp
  refine ⟨?_, new, herased, hnew⟩
  intro branch hbranch hid
  obtain ⟨mine, hmine⟩ := h.getElem
  -- the identity was at the place that has been erased, and nowhere else
  obtain ⟨j, hj, hget⟩ := List.mem_eraseIdx_iff_getElem?.1 hbranch
  exact hj ((h.formed.index_unique hget hmine hid).trans h.current.symm)

theorem Binds.ids (h : Binds before after) :
    after.list.map Branch.id = before.list.map Branch.id := by
  obtain ⟨declared, value⟩ := h
  exact (rewrites_write before before.current _ value).ids

theorem Lacks.of_ids (h : Lacks id before)
    (hids : ∀ other ∈ after.list.map Branch.id, other ∈ before.list.map Branch.id) :
    Lacks id after := by
  intro branch hbranch hid
  obtain ⟨other, hother, hsame⟩ :=
    List.mem_map.1 (hids branch.id (List.mem_map.2 ⟨branch, hbranch, rfl⟩))
  exact h other hother (hsame.trans hid)

theorem Lacks.acts (h : Lacks id before) (hacts : Acts before after) : Lacks id after := by
  induction hacts with
  | refl => exact h
  | tail _ hstep ih =>
      rcases hstep with hbinds | hdrops
      · exact ih.of_ids (fun _ hid => hbinds.ids ▸ hid)
      · obtain ⟨several⟩ := hdrops
        exact ih.of_ids (fun _ hid => ((List.eraseIdx_sublist _ _).map Branch.id).subset hid)

/-- Whatever a program does, the branch is at its place with the others around it, or gone. -/
theorem Present.acts (h : Present id next left right before) (hacts : Acts before after) :
    Present id next left right after ∨ Lacks id after := by
  induction hacts with
  | refl => exact Or.inl h
  | @tail middle after _ hstep ih =>
      rcases ih with hpresent | hlacks
      · rcases hstep with hbinds | hdrops
        · exact Or.inl (hpresent.binds hbinds)
        · exact Or.inr (hpresent.drops hdrops).1
      · exact Or.inr (hlacks.acts (.single hstep))

theorem Present.actsCarefully (h : Present id next left right before)
    (hacts : ActsCarefully before after) :
    Present id next left right after ∨ Absent next left right after := by
  obtain ⟨middle, hbinds, hend⟩ := hacts
  have hmiddle : Present id next left right middle := by
    clear hend
    induction hbinds with
    | refl => exact h
    | tail _ hstep ih => exact ih.binds hstep
  rcases hend with rfl | hdrops
  · exact Or.inl hmiddle
  · exact Or.inr (hmiddle.drops hdrops).2

theorem Present.tracked (h : Present id next left right before) {careful : Prop}
    (hacts : Acts before after) (hcareful : careful → ActsCarefully before after) :
    Tracked careful id next left right after := by
  rcases h.acts hacts with hpresent | hlacks
  · exact Or.inl hpresent
  · by_cases hpresent : Present id next left right after
    · exact Or.inl hpresent
    · refine Or.inr ⟨hlacks, fun hcare => ?_⟩
      exact (h.actsCarefully (hcareful hcare)).resolve_left hpresent

/-- Branches that grow while one of them is worked on: it is replaced, and the new ones follow. -/
theorem Grows.list_eq (hgrows : Grows id before after) (hbefore : before.WellFormed)
    (hafter : after.WellFormed) {index : Nat} {branch : Branch K}
    (hbranch : before.list[index]? = some branch) (hid : branch.id = id) :
    ∃ bindings new, after.list = before.list.set index ⟨id, bindings⟩ ++ new ∧
      ∀ other ∈ new, before.nextId ≤ other.id := by
  obtain ⟨found, hfound, hsame⟩ := hgrows.places index branch hbranch
  refine ⟨found.bindings, after.list.drop before.list.length, ?_, ?_⟩
  · have hle : before.list.length ≤ after.list.length := by
      by_contra hshort
      have hlast : after.list.length < before.list.length := Nat.not_le.1 hshort
      obtain ⟨other, hother, _⟩ := hgrows.places _ _ (List.getElem?_eq_getElem hlast)
      exact absurd (List.getElem?_eq_some_iff.1 hother).1 (Nat.lt_irrefl _)
    have htake : after.list.take before.list.length =
        before.list.set index ⟨id, found.bindings⟩ := by
      apply List.ext_getElem?
      intro i
      rw [List.getElem?_take, List.getElem?_set]
      by_cases hi : i < before.list.length
      · rw [if_pos hi]
        by_cases hindex : index = i
        · subst hindex
          rw [if_pos rfl, if_pos hi, hfound, ← hid, ← hsame]
        · rw [if_neg hindex]
          have hold := List.getElem?_eq_getElem hi
          obtain ⟨other, hother, hkept⟩ := hgrows.places i _ hold
          have hne : (before.list[i]).id ≠ id := by
            intro hmine
            exact hindex (hbefore.index_unique hbranch hold (hid.trans hmine.symm))
          have hmem := hgrows.kept _ (List.getElem_mem hi) hne
          rw [hold, hother, hafter.branch_unique (List.mem_of_getElem? hother) hmem hkept]
      · rw [if_neg hi]
        split
        · rename_i hindex
          rw [if_neg (hindex ▸ hi)]
        · rw [List.getElem?_eq_none (Nat.not_lt.1 hi)]
    rw [← htake, List.take_append_drop]
  · intro other hother
    by_contra hold
    obtain ⟨first, hfirst, hsame'⟩ :=
      hgrows.older other (List.mem_of_mem_drop hother) (Nat.not_le.1 hold)
    obtain ⟨i, hi⟩ := List.mem_iff_getElem?.1 hfirst
    obtain ⟨again, hagain, hid'⟩ := hgrows.places i first hi
    obtain ⟨j, hj⟩ := List.mem_iff_getElem?.1 hother
    rw [List.getElem?_drop] at hj
    have hposition := hafter.index_unique hagain hj (hid'.trans hsame')
    have hlt := (List.getElem?_eq_some_iff.1 hi).1
    omega

theorem Present.grows (h : Present id next left right before) (hgrows : Grows id before after)
    (hafter : after.WellFormed) : Present id next left right after := by
  refine ⟨hafter, Nat.le_trans h.nextId hgrows.nextId, hgrows.current.trans h.current, ?_⟩
  obtain ⟨mine, hmine⟩ := h.getElem
  obtain ⟨bindings, new, hlist, hnew⟩ := hgrows.list_eq h.formed hafter hmine rfl
  obtain ⟨old, newer, hbefore, hnewer⟩ := h.list
  refine ⟨bindings, newer ++ new, ?_, ?_⟩
  · rw [hlist, hbefore]
    simp
  · intro branch hbranch
    rcases List.mem_append.1 hbranch with hearlier | hlater
    · exact hnewer branch hearlier
    · exact Nat.le_trans h.nextId (hnew branch hlater)

end Single

end Branches

namespace Worksheet

open Branches (Present Absent Lacks Tracked Acts ActsCarefully Binds Drops)

variable {K σ : Type} [Scalar K]

/-- What a running program may do to a worksheet, given what it may do to the branches. -/
structure Runs (R : Branches K → Branches K → Prop) (before after : Worksheet K σ) : Prop where
  running : after.inProcedure = true
  procedures : after.procedures = before.procedures
  formed : after.branches.WellFormed
  branches : R before.branches after.branches

/-- A program works along a relation on the branches. -/
def Working (R : Branches K → Branches K → Prop) (before after : Worksheet K σ) : Prop :=
  before.inProcedure = true → before.branches.WellFormed → Runs R before after

section Programs

variable {R : Branches K → Branches K → Prop}

omit [Scalar K] in
theorem Working.refl (hrefl : ∀ branches, R branches branches) (sheet : Worksheet K σ) :
    Working R sheet sheet :=
  fun hrunning hformed => ⟨hrunning, rfl, hformed, hrefl _⟩

omit [Scalar K] in
theorem Working.trans {S T : Branches K → Branches K → Prop}
    (hcomp : ∀ a b c, R a b → S b c → T a c) {a b c : Worksheet K σ} (hab : Working R a b)
    (hbc : Working S b c) : Working T a c := by
  intro hrunning hformed
  obtain ⟨hrunning', hprocedures, hformed', hbranches⟩ := hab hrunning hformed
  obtain ⟨hrunning'', hprocedures', hformed'', hbranches'⟩ := hbc hrunning' hformed'
  exact ⟨hrunning'', hprocedures'.trans hprocedures, hformed'', hcomp _ _ _ hbranches hbranches'⟩

/-- An action that leaves the worksheet as it is. -/
def Reads {α : Type} (action : Action K σ α) : Prop := ∀ sheet, (outcome action sheet).2 = sheet

namespace Reads

variable {α β : Type}

omit [Scalar K] in
theorem pure (x : α) : Reads (Pure.pure x : Action K σ α) := fun _ => rfl

omit [Scalar K] in
theorem ofExcept (result : Except (Failure K) α) :
    Reads (MonadExcept.ofExcept result : Action K σ α) := by
  intro sheet
  rw [outcome_ofExcept]

omit [Scalar K] in
theorem get {next : Worksheet K σ → Action K σ β} (h : ∀ sheet, Reads (next sheet)) :
    Reads (MonadState.get >>= next) := fun sheet => h sheet sheet

omit [Scalar K] in
theorem bind {action : Action K σ α} {next : α → Action K σ β} (hfirst : Reads action)
    (hnext : ∀ x, Reads (next x)) : Reads (action >>= next) := by
  intro sheet
  have hstep := hfirst sheet
  rcases outcome_bind_cases action next sheet with
    ⟨cause, middle, hrun, hall⟩ | ⟨x, middle, hrun, hall⟩
  · rw [hrun] at hstep
    rw [hall]
    exact hstep
  · rw [hrun] at hstep
    rw [hall, hnext x middle]
    exact hstep

omit [Scalar K] in
theorem mapM {f : α → Action K σ β} (h : ∀ x, Reads (f x)) (xs : List α) :
    Reads (xs.mapM f) := by
  induction xs with
  | nil => exact pure []
  | cons x rest ih =>
      rw [List.mapM_cons]
      exact bind (h x) (fun y => bind ih (fun ys => pure (y :: ys)))

theorem evaluate (formula : Formula K) :
    Reads (Worksheet.evaluate formula : Action K σ (Fraction K)) :=
  get (fun sheet => ofExcept (formula.eval sheet.value))

theorem number (formula : Formula K) : Reads (Worksheet.number formula : Action K σ K) :=
  bind (evaluate formula) (fun value => ofExcept value.toNumber)

theorem test (condition : Condition K) :
    Reads (Worksheet.test condition : Action K σ Bool) := by
  induction condition with
  | less value limit => exact bind (number value) (fun _ => pure _)
  | greater value limit => exact bind (number value) (fun _ => pure _)
  | measuredLess quantity target limit =>
      exact bind (evaluate quantity) (fun _ => bind (evaluate target)
        (fun _ => bind (ofExcept _) (fun _ => pure _)))
  | resolved values => exact bind (mapM evaluate values) (fun _ => pure _)
  | variableResolved name => exact get (fun sheet => ofExcept (sheet.isResolved name))
  | moreBranches count => exact get (fun _ => pure _)
  | not condition ih => exact bind ih (fun _ => pure _)
  | and first second ihfirst ihsecond =>
      refine bind ihfirst (fun holds => ?_)
      cases holds with
      | true => exact ihsecond
      | false => exact pure false

end Reads

omit [Scalar K] in
theorem working_of_reads {α : Type} {action : Action K σ α} (h : Reads action)
    (hrefl : ∀ branches, R branches branches) : Moves (Working R) action := by
  intro sheet
  rw [h sheet]
  exact Working.refl hrefl sheet

omit [Scalar K] in
/-- What is read first does not matter. -/
theorem working_bind {α β : Type} {action : Action K σ α} {next : α → Action K σ β}
    (hrefl : ∀ branches, R branches branches) (h : Reads action)
    (hnext : ∀ x, Moves (Working R) (next x)) : Moves (Working R) (action >>= next) := by
  have hfirst : Moves (fun before after => after = before) action := h
  refine hfirst.seq (fun a b hab => ?_) (fun a b c hab hbc => ?_) hnext
  · rw [hab]
    exact Working.refl hrefl a
  · rw [← hab]
    exact hbc

omit [Scalar K] in
/-- While a procedure is running, a binding goes to the current branch. -/
theorem working_assign (hrefl : ∀ branches, R branches branches)
    (hbinds : ∀ before after, Binds before after → R before after) (name : String)
    (value : Fraction K) : Moves (Working R) (assign name value : Action K σ Unit) := by
  intro sheet hrunning hformed
  unfold assign
  rw [outcome_get_bind, if_pos hrunning, outcome_onBranches]
  refine ⟨hrunning, rfl, Branches.preserves_set name value none _ hformed, ?_⟩
  dsimp only
  unfold Branches.set
  rw [outcome_get_bind]
  by_cases hname : name ∈ sheet.branches.names
  · obtain ⟨branch, hbranch⟩ := hformed.exists_current
    rw [hformed.requireName_ok hname, Branches.resolve_none hbranch]
    exact hbinds _ _ (.bound hname value)
  · have hundeclared : sheet.branches.requireName name = .error (.undeclared name) := by
      unfold Branches.requireName
      rw [if_neg (mt (hformed.declares_iff name).1 hname)]
      rfl
    rw [hundeclared]
    exact hrefl _

omit [Scalar K] in
theorem working_dropCurrent (hrefl : ∀ branches, R branches branches)
    (hdrops : ∀ before after, Drops before after → R before after) :
    Moves (Working R) (dropCurrent : Action K σ Unit) := by
  intro sheet hrunning hformed
  obtain ⟨branch, hbranch⟩ := hformed.exists_current
  unfold dropCurrent
  rw [outcome_get_bind]
  dsimp only
  by_cases hcount : sheet.branches.count = 1
  · rw [if_pos hcount]
    exact ⟨hrunning, rfl, hformed, hrefl _⟩
  · rw [if_neg hcount, Branches.identityAt_eq hbranch, outcome_ofExcept_bind_ok]
    obtain ⟨log, hlog⟩ := outcome_narrate ("Deleting branch id " ++ toString branch.id) sheet
    rw [outcome_bind_ok _ hlog, outcome_onBranches, Branches.outcome_remove hbranch hcount]
    exact ⟨hrunning, rfl, hformed.without hformed.current_lt hcount, hdrops _ _ (.dropped hcount)⟩

/-- A plain program works along every relation that has room for the bindings and the deletions it
may do. -/
theorem working_perform (hrefl : ∀ branches, R branches branches)
    (htrans : ∀ a b c, R a b → R b c → R a c) (program : Program K)
    (hplain : program.isPlain = true)
    (hbinds : program.binds = true → ∀ before after, Binds before after → R before after)
    (hdrops : program.deletes = true → ∀ before after, Drops before after → R before after) :
    Moves (Working R) (perform program : Action K σ Unit) := by
  have hcomp : ∀ a b c : Worksheet K σ, Working R a b → Working R b c → Working R a c :=
    fun _ _ _ => Working.trans htrans
  induction program with
  | skip => exact Working.refl hrefl
  | seq first second ihfirst ihsecond =>
      simp only [Program.isPlain, Bool.and_eq_true] at hplain
      simp only [Program.binds, Program.deletes, Bool.or_eq_true] at hbinds hdrops
      exact Moves.bind hcomp
        (ihfirst hplain.1 (fun h => hbinds (Or.inl h)) (fun h => hdrops (Or.inl h)))
        (fun _ => ihsecond hplain.2 (fun h => hbinds (Or.inr h)) (fun h => hdrops (Or.inr h)))
  | choose condition yes no ihyes ihno =>
      simp only [Program.isPlain, Bool.and_eq_true] at hplain
      simp only [Program.binds, Program.deletes, Bool.or_eq_true] at hbinds hdrops
      refine working_bind hrefl (.test condition) (fun holds => ?_)
      cases holds with
      | true => exact ihyes hplain.1 (fun h => hbinds (Or.inl h)) (fun h => hdrops (Or.inl h))
      | false => exact ihno hplain.2 (fun h => hbinds (Or.inr h)) (fun h => hdrops (Or.inr h))
  | set name value =>
      exact working_bind hrefl (.evaluate value)
        (fun found => working_assign hrefl (hbinds rfl) name found)
  | delete => exact working_dropCurrent hrefl (hdrops rfl)
  | clear name => cases hplain
  | need value =>
      exact working_of_reads (.bind (.number value) (fun _ => .pure ())) hrefl
  | rotate => cases hplain
  | switch index => cases hplain
  | declare names => cases hplain
  | giveUp report => exact Working.refl hrefl
  | fail report => exact Working.refl hrefl

theorem acts_perform (program : Program K) (hplain : program.isPlain = true) :
    Moves (Working Acts) (perform program : Action K σ Unit) := by
  refine working_perform (fun _ => .refl) (fun _ _ _ hab hbc => hab.trans hbc) program hplain ?_ ?_
  · exact fun _ before after h => .single (Or.inl h)
  · exact fun _ before after h => .single (Or.inr h)

/-- A careful program deletes the branch as the last thing it does, if at all. -/
theorem actsCarefully_perform (program : Program K) (hplain : program.isPlain = true)
    (hcareful : program.isCareful = true) :
    Moves (Working ActsCarefully) (perform program : Action K σ Unit) := by
  have hnothing (branches : Branches K) : ActsCarefully branches branches :=
    ⟨branches, .refl, Or.inl rfl⟩
  induction program with
  | skip => exact Working.refl hnothing
  | seq first second ihfirst ihsecond =>
      simp only [Program.isPlain, Bool.and_eq_true] at hplain
      simp only [Program.isCareful, Bool.and_eq_true, Bool.not_eq_true', Bool.and_eq_false_iff,
        Bool.or_eq_false_iff] at hcareful
      rcases hcareful.2 with hkeeps | ⟨hnobinds, hnodeletes⟩
      · -- the first part only binds, so the second one may delete
        have hfirst : Moves (Working (Relation.ReflTransGen Binds))
            (perform first : Action K σ Unit) :=
          working_perform (fun _ => .refl) (fun _ _ _ hab hbc => hab.trans hbc) first hplain.1
            (fun _ _ _ h => .single h) (fun h => absurd (hkeeps.symm.trans h) Bool.false_ne_true)
        refine hfirst.seq (fun a b hab => ?_) (fun a b c hab hbc => ?_)
          (fun _ => ihsecond hplain.2 hcareful.1.2)
        · refine hab.trans (fun x y z hxy hyz => ?_) (Working.refl (R := Eq) (fun _ => rfl) b)
          exact ⟨y, hxy, Or.inl hyz.symm⟩
        · refine hab.trans (fun x y z hxy hyz => ?_) hbc
          obtain ⟨middle, hbinds, hend⟩ := hyz
          exact ⟨middle, hxy.trans hbinds, hend⟩
      · -- the second part only reads
        have hsecond : Moves (Working Eq) (perform second : Action K σ Unit) :=
          working_perform (fun _ => rfl) (fun _ _ _ hab hbc => hab.trans hbc) second hplain.2
            (fun h => absurd (hnobinds.symm.trans h) Bool.false_ne_true)
            (fun h => absurd (hnodeletes.symm.trans h) Bool.false_ne_true)
        refine (ihfirst hplain.1 hcareful.1.1).seq (fun _ _ hab => hab) (fun a b c hab hbc => ?_)
          (fun _ => hsecond)
        exact hab.trans (fun x y z hxy hyz => hyz ▸ hxy) hbc
  | choose condition yes no ihyes ihno =>
      simp only [Program.isPlain, Program.isCareful, Bool.and_eq_true] at hplain hcareful
      refine working_bind hnothing (.test condition) (fun holds => ?_)
      cases holds with
      | true => exact ihyes hplain.1 hcareful.1
      | false => exact ihno hplain.2 hcareful.2
  | set name value =>
      refine working_bind hnothing (.evaluate value)
        (fun found => working_assign hnothing ?_ name found)
      exact fun before after h => ⟨after, .single h, Or.inl rfl⟩
  | delete =>
      exact working_dropCurrent hnothing (fun before after h => ⟨before, .refl, Or.inr h⟩)
  | clear name => cases hplain
  | need value => exact working_of_reads (.bind (.number value) (fun _ => .pure ())) hnothing
  | rotate => cases hplain
  | switch index => cases hplain
  | declare names => cases hplain
  | giveUp report => exact Working.refl hnothing
  | fail report => exact Working.refl hnothing

end Programs

section Procedures

variable {careful : Prop} {id next : Nat} {left right : List (Branch K)} {sheet : Worksheet K σ}

theorem tracked_perform (program : Program K) (hplain : program.isPlain = true)
    (hcareful : careful → program.isCareful = true) (hrunning : sheet.inProcedure = true)
    (hpresent : Present id next left right sheet.branches) :
    Runs (fun _ after => Tracked careful id next left right after) sheet
      (outcome (perform program) sheet).2 := by
  obtain ⟨hrunning', hprocedures, hformed, hacts⟩ :=
    acts_perform program hplain sheet hrunning hpresent.formed
  refine ⟨hrunning', hprocedures, hformed, hpresent.tracked hacts (fun hcare => ?_)⟩
  have hworking := actsCarefully_perform program hplain (hcareful hcare) sheet hrunning
  exact (hworking hpresent.formed).branches

/-- Passing over a procedure changes the log only. -/
theorem runs_performProcedure {R : Branches K → Branches K → Prop} (procedure : Procedure K)
    (hruns : Runs R sheet (outcome (perform procedure.body) sheet).2) :
    Runs R sheet (outcome (performProcedure procedure) sheet).2 := by
  unfold performProcedure
  rcases outcome_tryCatch (perform procedure.body : Action K σ Unit) _ sheet with
    ⟨failure, middle, hrun, hall⟩ | ⟨_, middle, hrun, hall⟩
  · rw [hall]
    rw [hrun] at hruns
    split
    · obtain ⟨log, hlog⟩ := outcome_narrate
        ("Procedure '" ++ procedure.name ++ "' skipped: " ++ failure.message) middle
      rw [hlog]
      exact ⟨hruns.running, hruns.procedures, hruns.formed, hruns.branches⟩
    · exact hruns
  · rw [hall]
    rw [hrun] at hruns
    exact hruns

/-- What is known after procedures have run on behalf of a branch: it is at its place if they say
that it still exists. -/
structure Performed (careful : Prop) (id next : Nat) (left right : List (Branch K))
    (before : Worksheet K σ) (run : Except (Failure K) Bool × Worksheet K σ) : Prop where
  procedures : run.2.procedures = before.procedures
  tracked : Tracked careful id next left right run.2.branches
  present : run.1 = .ok true → Present id next left right run.2.branches

theorem performed_performEach (procedures : List (Procedure K))
    (hplain : ∀ procedure ∈ procedures, procedure.body.isPlain = true)
    (hcareful : careful → ∀ procedure ∈ procedures, procedure.body.isCareful = true)
    (hrunning : sheet.inProcedure = true) (hpresent : Present id next left right sheet.branches) :
    Performed careful id next left right sheet (outcome (performEach id procedures) sheet) := by
  induction procedures generalizing sheet with
  | nil => exact ⟨rfl, Or.inl hpresent, fun _ => hpresent⟩
  | cons procedure rest ih =>
      have hruns := runs_performProcedure procedure
        (tracked_perform procedure.body (hplain procedure List.mem_cons_self)
          (fun hcare => hcareful hcare procedure List.mem_cons_self) hrunning hpresent)
      rw [performEach]
      rcases hrun : outcome (performProcedure procedure) sheet with ⟨failure | _, middle⟩
      · rw [outcome_bind_error _ hrun]
        rw [hrun] at hruns
        exact ⟨hruns.procedures, hruns.branches, fun h => by cases h⟩
      · rw [outcome_bind_ok _ hrun, outcome_get_bind]
        rw [hrun] at hruns
        dsimp only at hruns
        cases hindex : middle.branches.indexOf? id with
        | none => exact ⟨hruns.procedures, hruns.branches, fun h => by cases h⟩
        | some index =>
            -- the branch exists, so it is at its place and the other procedures follow
            obtain ⟨branch, hbranch, hid⟩ := Branches.indexOf?_some hindex
            have hstays : Present id next left right middle.branches :=
              hruns.branches.resolve_right
                (fun hgone => hgone.1 branch (List.mem_of_getElem? hbranch) hid)
            have hrest := ih (fun other hother => hplain other (List.mem_cons_of_mem _ hother))
              (fun hcare other hother => hcareful hcare other (List.mem_cons_of_mem _ hother))
              hruns.running hstays
            exact ⟨hrest.procedures.trans hruns.procedures, hrest.tracked, hrest.present⟩

/-- All procedures are run like each of them, in a worksheet that says so. -/
theorem exists_performEach {result : Except (Failure K) Bool} {after : Worksheet K σ}
    (hrun : outcome (performAll id) sheet = (result, after)) :
    ∃ last, outcome (performEach id sheet.procedures) { sheet with inProcedure := true } =
      (result, last) ∧ after = last.quiet := by
  unfold performAll setInProcedure at hrun
  rw [outcome_modify_bind, outcome_get_bind] at hrun
  rcases outcome_tryCatch
      (performEach id { sheet with inProcedure := true }.procedures : Action K σ Bool)
      (fun failure => do
        modify fun sheet => { sheet with inProcedure := false }
        throw failure) { sheet with inProcedure := true } with
    ⟨failure, middle, hstep, hall⟩ | ⟨found, middle, hstep, hall⟩
  · rw [outcome_bind_error _ hall] at hrun
    cases hrun
    exact ⟨middle, hstep, rfl⟩
  · rw [outcome_bind_ok _ hall, outcome_modify_bind] at hrun
    cases hrun
    exact ⟨middle, hstep, rfl⟩

theorem performed_performAll
    (hplain : ∀ procedure ∈ sheet.procedures, procedure.body.isPlain = true)
    (hcareful : careful → ∀ procedure ∈ sheet.procedures, procedure.body.isCareful = true)
    (hpresent : Present id next left right sheet.branches) :
    Performed careful id next left right sheet (outcome (performAll id) sheet) := by
  rcases hrun : outcome (performAll id) sheet with ⟨result, after⟩
  obtain ⟨last, hlast, rfl⟩ := exists_performEach hrun
  have hrest : Performed careful id next left right { sheet with inProcedure := true }
      (outcome (performEach id sheet.procedures) { sheet with inProcedure := true }) :=
    performed_performEach sheet.procedures hplain hcareful rfl hpresent
  rw [hlast] at hrest
  exact ⟨hrest.procedures, hrest.tracked, hrest.present⟩

/-- What a round of solving a branch can do when procedures run before and after it. -/
inductive FullRound (id steps : Nat) (sheet : Worksheet K σ) :
    Except (Failure K) Unit × Worksheet K σ → Prop
  /-- The round ends with the procedures. -/
  | halted {result : Except (Failure K) Bool} {after : Worksheet K σ}
    (hperform : outcome (performAll id) sheet = (result, after)) (hresult : result ≠ .ok true) :
    FullRound id steps sheet (result.map (fun _ => ()), after)
  /-- An equation cannot be stated or judged, or cannot hold. -/
  | stopped {performed after : Worksheet K σ}
    {result : Except (Failure K) (Option (List (Relation K)))}
    (hperform : outcome (performAll id) sheet = (.ok true, performed))
    (hgather : outcome (gather id performed.equations []) performed = (result, after))
    (hresult : ∀ relations, result ≠ .ok (some relations)) :
    FullRound id steps sheet (result.map (fun _ => ()), after)
  /-- An attempt fails. -/
  | broken {performed middle after : Worksheet K σ} {relations : List (Relation K)}
    {failure : Failure K} (hperform : outcome (performAll id) sheet = (.ok true, performed))
    (hgather : outcome (gather id performed.equations []) performed =
      (.ok (some relations), middle))
    (hsweep : outcome ((middle.trials relations).anyM (resolveBy id)) middle =
      (.error failure, after)) :
    FullRound id steps sheet (.error failure, after)
  /-- An attempt resolves variables, and the branch starts over. -/
  | again {performed middle after : Worksheet K σ} {relations : List (Relation K)}
    (hperform : outcome (performAll id) sheet = (.ok true, performed))
    (hgather : outcome (gather id performed.equations []) performed =
      (.ok (some relations), middle))
    (hsweep : outcome ((middle.trials relations).anyM (resolveBy id)) middle = (.ok true, after)) :
    FullRound id steps sheet (outcome (settle id steps) after)
  /-- No attempt resolves anything, and the procedures run once more. -/
  | settled {performed middle after last : Worksheet K σ} {relations : List (Relation K)}
    {result : Except (Failure K) Bool}
    (hperform : outcome (performAll id) sheet = (.ok true, performed))
    (hgather : outcome (gather id performed.equations []) performed =
      (.ok (some relations), middle))
    (hsweep : outcome ((middle.trials relations).anyM (resolveBy id)) middle = (.ok false, after))
    (hlast : outcome (performAll id) after = (result, last)) :
    FullRound id steps sheet (result.map (fun _ => ()), last)

theorem fullRound_settle (id steps : Nat) (sheet : Worksheet K σ) :
    FullRound id steps sheet (outcome (settle id (steps + 1)) sheet) := by
  rw [settle]
  rcases hperform : outcome (performAll id) sheet with ⟨failure | stays, performed⟩
  · rw [outcome_bind_error _ hperform]
    exact .halted hperform fun h => by cases h
  · rw [outcome_bind_ok _ hperform]
    cases stays with
    | false => exact .halted hperform fun h => by cases h
    | true =>
        change FullRound id steps sheet (outcome (get >>= _) performed)
        rw [outcome_get_bind]
        rcases hgather : outcome (gather id performed.equations []) performed with
          ⟨failure | _ | relations, middle⟩
        · rw [outcome_bind_error _ hgather]
          exact .stopped hperform hgather fun _ h => by cases h
        · rw [outcome_bind_ok _ hgather]
          exact .stopped hperform hgather fun _ h => by cases h
        · rw [outcome_bind_ok _ hgather]
          dsimp only
          rw [outcome_get_bind, anySubsetUpTo_eq_anyM]
          change FullRound id steps sheet
            (outcome ((middle.trials relations).anyM (resolveBy id) >>= _) middle)
          rcases hsweep : outcome ((middle.trials relations).anyM (resolveBy id)) middle with
            ⟨failure | _ | _, after⟩
          · rw [outcome_bind_error _ hsweep]
            exact .broken hperform hgather hsweep
          · rw [outcome_bind_ok _ hsweep]
            change FullRound id steps sheet (outcome (performAll id >>= fun _ => pure ()) after)
            rcases hlast : outcome (performAll id) after with ⟨failure | stays, last⟩
            · rw [outcome_bind_error _ hlast]
              exact .settled hperform hgather hsweep hlast
            · rw [outcome_bind_ok _ hlast]
              exact .settled hperform hgather hsweep hlast
          · rw [outcome_bind_ok _ hsweep]
            exact .again hperform hgather hsweep

omit [Scalar K] in
/-- Work on the branch at its place keeps it there. -/
theorem Works.present {before after : Worksheet K σ} (hworks : Works id before after)
    (hpresent : Present id next left right before.branches) :
    Present id next left right after.branches :=
  hpresent.grows hworks.branches hworks.formed

/-- Solving a branch keeps track of it. -/
theorem tracked_settle (steps : Nat)
    (hplain : ∀ procedure ∈ sheet.procedures, procedure.body.isPlain = true)
    (hcareful : careful → ∀ procedure ∈ sheet.procedures, procedure.body.isCareful = true)
    (hpresent : Present id next left right sheet.branches) :
    Tracked careful id next left right (outcome (settle id steps) sheet).2.branches := by
  induction steps generalizing sheet with
  | zero => exact Or.inl hpresent
  | succ steps ih =>
      have hfirst := performed_performAll hplain hcareful hpresent
      -- after procedures that leave the branch, gathering and sweeping work on it only
      have hgathered {performed middle : Worksheet K σ}
          {result : Except (Failure K) (Option (List (Relation K)))}
          (hperform : outcome (performAll id) sheet = (.ok true, performed))
          (hgather : outcome (gather id performed.equations []) performed = (result, middle)) :
          Present id next left right middle.branches ∧ middle.procedures = sheet.procedures := by
        rw [hperform] at hfirst
        have hworks := works_gather id performed.equations performed (hfirst.present rfl).formed
        rw [hgather] at hworks
        exact ⟨hworks.present (hfirst.present rfl), hworks.procedures.trans hfirst.procedures⟩
      have hswept {middle after : Worksheet K σ} {subsets : List (List (Relation K))}
          {result : Except (Failure K) Bool}
          (hmiddle : Present id next left right middle.branches ∧
            middle.procedures = sheet.procedures)
          (hsweep : outcome (subsets.anyM (resolveBy id)) middle = (result, after)) :
          Present id next left right after.branches ∧ after.procedures = sheet.procedures := by
        have hworks := works_sweep id subsets middle hmiddle.1.formed
        rw [hsweep] at hworks
        exact ⟨hworks.present hmiddle.1, hworks.procedures.trans hmiddle.2⟩
      have hround := fullRound_settle id steps sheet
      generalize outcome (settle id (steps + 1)) sheet = run at hround
      cases hround with
      | halted hperform =>
          rw [hperform] at hfirst
          exact hfirst.tracked
      | stopped hperform hgather => exact Or.inl (hgathered hperform hgather).1
      | broken hperform hgather hsweep =>
          exact Or.inl (hswept (hgathered hperform hgather) hsweep).1
      | again hperform hgather hsweep =>
          obtain ⟨hafter, hsame⟩ := hswept (hgathered hperform hgather) hsweep
          exact ih (hsame ▸ hplain) (hsame ▸ hcareful) hafter
      | settled hperform hgather hsweep hlast =>
          obtain ⟨hafter, hsame⟩ := hswept (hgathered hperform hgather) hsweep
          have hperformed := performed_performAll (hsame ▸ hplain) (hsame ▸ hcareful) hafter
          rw [hlast] at hperformed
          exact hperformed.tracked

/-- However solving a branch ends, the other branches stay as they are and where they are, and new
branches follow them, provided that the branch is still there or no procedure acts after a
deletion. -/
theorem settle_keeps_other_branches (id steps : Nat) (sheet : Worksheet K σ)
    (left right : List (Branch K)) (bindings : Bindings K) (hformed : sheet.branches.WellFormed)
    (hlist : sheet.branches.list = left ++ ⟨id, bindings⟩ :: right)
    (hcurrent : sheet.branches.current = left.length)
    (hplain : ∀ procedure ∈ sheet.procedures, procedure.body.isPlain = true)
    (hkept : (∃ branch ∈ (outcome (settle id steps) sheet).2.branches.list, branch.id = id) ∨
      ∀ procedure ∈ sheet.procedures, procedure.body.isCareful = true) :
    ∃ own new, (outcome (settle id steps) sheet).2.branches.list = left ++ own ++ right ++ new ∧
      (own = [] ∨ ∃ bindings', own = [⟨id, bindings'⟩]) ∧
      ∀ branch ∈ new, sheet.branches.nextId ≤ branch.id := by
  have hpresent : Present id sheet.branches.nextId left right sheet.branches := by
    refine ⟨hformed, Nat.le_refl _, hcurrent, bindings, [], ?_, List.forall_mem_nil _⟩
    rw [hlist, List.append_nil]
  have hend : Tracked (∀ procedure ∈ sheet.procedures, procedure.body.isCareful = true) id
      sheet.branches.nextId left right (outcome (settle id steps) sheet).2.branches :=
    tracked_settle steps hplain (fun hcareful => hcareful) hpresent
  rcases hend with hpresent' | ⟨hgone, habsent⟩
  · obtain ⟨bindings', new, hafter, hnew⟩ := hpresent'.list
    refine ⟨[⟨id, bindings'⟩], new, ?_, Or.inr ⟨bindings', rfl⟩, hnew⟩
    rw [hafter, List.append_cons]
  · rcases hkept with ⟨branch, hbranch, hid⟩ | hcareful
    · exact absurd hid (hgone branch hbranch)
    · obtain ⟨new, hafter, hnew⟩ := habsent hcareful
      refine ⟨[], new, ?_, Or.inl rfl, hnew⟩
      rw [hafter, List.append_nil]

end Procedures

section Roots

/-- Two branches, one for each square root of four. -/
def squareRoots : Branches Rat :=
  Branches.after [.declare ["x", "y"], .copy none, .set "x" (.const (-2)) (some 0),
    .set "x" (.const 2) (some 1)] .initial

theorem wellFormed_squareRoots : squareRoots.WellFormed :=
  (Branches.consistent_after _ Branches.consistent_initial).1.toWellFormed

/-- A worksheet with these branches and a procedure that acts where the root is negative. -/
def negativeRoot (program : Program Rat) : Worksheet Rat Twister :=
  { Rational.sheet Methods.standard ["x", "y"] [] with
    branches := squareRoots
    procedures := [⟨"negative", .choose (.less (.value "x") 0) program .skip⟩] }

/-- The variables of each branch, with its identity. -/
def rootsOf (branches : Branches Rat) :
    List (Nat × Option (Fraction Rat) × Option (Fraction Rat)) :=
  branches.list.map
    (fun branch => (branch.id, branch.bindings.find? "x", branch.bindings.find? "y"))

theorem deleted_root_leaves_the_other :
    rootsOf (outcome (settle 0 1) (negativeRoot .delete)).2.branches =
      [(1, some (.const 2), some (.ofSymbol ⟨"y", false⟩))] ∧
    ∃ own new, (outcome (settle 0 1) (negativeRoot .delete)).2.branches.list =
        [] ++ own ++ squareRoots.list.tail ++ new ∧
      (own = [] ∨ ∃ bindings, own = [⟨0, bindings⟩]) ∧
      ∀ branch ∈ new, squareRoots.nextId ≤ branch.id := by
  refine ⟨by decide +kernel, ?_⟩
  exact settle_keeps_other_branches 0 1 (negativeRoot .delete) [] squareRoots.list.tail
    (squareRoots.list.headD ⟨0, ∅⟩).bindings wellFormed_squareRoots rfl rfl
    (by decide +kernel) (Or.inr (by decide +kernel))

/-- What a procedure binds after a deletion is bound in another branch. -/
theorem binding_after_deletion_leaves_the_branch :
    squareRoots.WellFormed ∧ squareRoots.current = 0 ∧
    (∀ procedure ∈ (negativeRoot (.seq .delete (.set "y" (.number 7)))).procedures,
      procedure.body.isPlain = true) ∧
    rootsOf squareRoots =
      [(0, some (.const (-2)), some (.ofSymbol ⟨"y", false⟩)),
        (1, some (.const 2), some (.ofSymbol ⟨"y", false⟩))] ∧
    rootsOf (outcome (settle 0 1)
        (negativeRoot (.seq .delete (.set "y" (.number 7))))).2.branches =
      [(1, some (.const 2), some (.const 7))] := by
  refine ⟨wellFormed_squareRoots, rfl, ?_, ?_, ?_⟩ <;> decide +kernel

end Roots

end Worksheet

end Ramify
