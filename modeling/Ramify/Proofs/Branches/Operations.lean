import Mathlib.Data.List.Nodup
import Mathlib.Logic.Relation
import Ramify.Proofs.Branches

/-!
Any sequence of operations on a collection of branches. Whatever an operation does, also one that
fails half way, is a series of changes of six kinds; each kind of change keeps the invariant of the
collection and never brings an identity back, so no sequence of operations does.
-/

namespace Ramify.Branches

variable {K : Type}

inductive Operation (K : Type) where
  | declare (names : List String)
  | copy (source : Option Nat)
  | remove (index : Nat)
  | rotate
  | select (index : Nat)
  | set (name : String) (value : Fraction K) (index : Option Nat)
  | setEverywhere (name : String) (value : Fraction K)

def Operation.act [Scalar K] : Operation K → Action K Unit
  | .declare names => Branches.declare names
  | .copy source => do let _ ← Branches.copy source
  | .remove index => Branches.remove index
  | .rotate => modify Branches.rotate
  | .select index => Branches.select index
  | .set name value index => Branches.set name value index
  | .setEverywhere name value => Branches.setEverywhere name value

/-- The branches after a sequence of operations, each of which may have failed. -/
def after [Scalar K] (operations : List (Operation K)) (branches : Branches K) : Branches K :=
  operations.foldl (fun branches operation => (outcome operation.act branches).2) branches

inductive Change [Scalar K] : Branches K → Branches K → Prop
  | declared {branches : Branches K} {name : String} (unlocked : branches.locked = false)
      (fresh : name ∉ branches.names) : Change branches (branches.withVariable name)
  | forked {branches : Branches K} {branch : Branch K} (member : branch ∈ branches.list) :
      Change branches (branches.forked branch)
  | dropped {branches : Branches K} {index : Nat} (inside : index < branches.count)
      (several : branches.count ≠ 1) : Change branches (branches.without index)
  | moved {branches : Branches K} {index : Nat} (inside : index < branches.count) :
      Change branches { branches with current := index }
  | written {branches : Branches K} {name : String} (declared : name ∈ branches.names)
      (index : Nat) (value : Fraction K) : Change branches (branches.write index name value)
  | writtenEverywhere {branches : Branches K} {name : String} (declared : name ∈ branches.names)
      (value : Fraction K) : Change branches (branches.writeEverywhere name value)

/-- The full invariant: no name is declared twice, and there is one branch until the first copy. -/
structure Consistent (branches : Branches K) : Prop extends WellFormed branches where
  distinct : branches.names.Nodup
  single : branches.locked = false → branches.count = 1

/-- What is never undone: a lock stays, and an identity that is gone does not come back. -/
structure Succeeds (before after : Branches K) : Prop where
  locked : before.locked = true → after.locked = true
  nextId : before.nextId ≤ after.nextId
  older : ∀ branch ∈ after.list, branch.id < before.nextId →
    ∃ other ∈ before.list, other.id = branch.id

namespace Succeeds

variable {a b c : Branches K}

theorem refl (a : Branches K) : Succeeds a a :=
  ⟨id, Nat.le_refl _, fun branch hbranch _ => ⟨branch, hbranch, rfl⟩⟩

theorem trans (hab : Succeeds a b) (hbc : Succeeds b c) : Succeeds a c where
  locked := fun h => hbc.locked (hab.locked h)
  nextId := Nat.le_trans hab.nextId hbc.nextId
  older := by
    intro branch hbranch hold
    obtain ⟨middle, hmiddle, hid⟩ := hbc.older branch hbranch (Nat.lt_of_lt_of_le hold hab.nextId)
    obtain ⟨first, hfirst, hid'⟩ := hab.older middle hmiddle (hid ▸ hold)
    exact ⟨first, hfirst, hid'.trans hid⟩

/-- No new branch, and no identity but those there were. -/
theorem of_ids (hlocked : b.locked = a.locked) (hnext : b.nextId = a.nextId)
    (hids : ∀ id ∈ b.list.map Branch.id, id ∈ a.list.map Branch.id) : Succeeds a b where
  locked := fun h => hlocked.trans h
  nextId := Nat.le_of_eq hnext.symm
  older := fun branch hbranch _ =>
    List.mem_map.1 (hids branch.id (List.mem_map.2 ⟨branch, hbranch, rfl⟩))

end Succeeds

section Steps

theorem ids_writeEverywhere (branches : Branches K) (name : String) (value : Fraction K) :
    (branches.writeEverywhere name value).list.map Branch.id = branches.list.map Branch.id := by
  unfold writeEverywhere
  rw [List.map_map]
  rfl

theorem count_writeEverywhere (branches : Branches K) (name : String) (value : Fraction K) :
    (branches.writeEverywhere name value).count = branches.count :=
  List.length_map _

variable [Scalar K] {before after : Branches K}

theorem Change.succeeds (h : Change before after) : Succeeds before after := by
  cases h with
  | @declared name unlocked fresh =>
      exact .of_ids rfl rfl (fun _ hid => ids_writeEverywhere before name _ ▸ hid)
  | @forked branch member =>
      exact ⟨fun _ => rfl, Nat.le_succ _, (grows_forked 0 before branch).older⟩
  | dropped inside several =>
      exact .of_ids rfl rfl (fun _ hid => ((List.eraseIdx_sublist _ _).map Branch.id).subset hid)
  | moved inside => exact .of_ids rfl rfl (fun _ hid => hid)
  | written declared index value =>
      exact .of_ids rfl rfl (fun _ hid => (rewrites_write before index _ value).ids ▸ hid)
  | @writtenEverywhere name declared value =>
      exact .of_ids rfl rfl (fun _ hid => ids_writeEverywhere before name value ▸ hid)

theorem Change.wellFormed (h : Change before after) (hwf : WellFormed before) :
    WellFormed after := by
  cases h with
  | declared unlocked fresh => exact hwf.withVariable _
  | forked member => exact hwf.forked member
  | dropped inside several => exact hwf.without inside several
  | moved inside => exact hwf.select inside
  | written declared index value => exact hwf.write declared index value
  | @writtenEverywhere name declared value =>
      apply hwf.writeEverywhere name value
      intro other
      constructor
      · exact Or.inr
      · rintro (rfl | hother)
        · exact declared
        · exact hother

theorem Change.distinct (h : Change before after) (hdistinct : before.names.Nodup) :
    after.names.Nodup := by
  cases h with
  | declared unlocked fresh =>
      exact List.Nodup.append hdistinct (List.nodup_singleton _)
        (List.disjoint_singleton.2 fresh)
  | forked member => exact hdistinct
  | dropped inside several => exact hdistinct
  | moved inside => exact hdistinct
  | written declared index value => exact hdistinct
  | writtenEverywhere declared value => exact hdistinct

theorem Change.single (h : Change before after)
    (hsingle : before.locked = false → before.count = 1) :
    after.locked = false → after.count = 1 := by
  intro hopen
  cases h with
  | declared unlocked fresh => exact (count_writeEverywhere _ _ _).trans (hsingle unlocked)
  | forked member => cases hopen
  | dropped inside several => exact absurd (hsingle hopen) several
  | moved inside => exact hsingle hopen
  | written declared index value =>
      exact (rewrites_write before index _ value).length.trans (hsingle hopen)
  | writtenEverywhere declared value => exact (count_writeEverywhere _ _ _).trans (hsingle hopen)

theorem Change.consistent (h : Change before after) (hbefore : Consistent before) :
    Consistent after :=
  ⟨h.wellFormed hbefore.toWellFormed, h.distinct hbefore.distinct, h.single hbefore.single⟩

end Steps

/-!
What an action does to a consistent collection is a series of changes.
-/

section Actions

variable [Scalar K] {branches : Branches K}

/-- An action changes the branches step by step, whether or not it fails. -/
def Steps {α : Type} (action : Action K α) (branches : Branches K) : Prop :=
  Relation.ReflTransGen Change branches (outcome action branches).2

theorem steps_resolve {α : Type} {index : Option Nat} {next : Nat × Branch K → Action K α}
    (hnext : ∀ position branch, branches.list[position]? = some branch →
      Steps (next (position, branch)) branches) :
    Steps (MonadExcept.ofExcept (branches.resolve index) >>= next) branches := by
  cases hresolve : branches.resolve index with
  | error failure => exact .refl
  | ok found => exact hnext found.1 found.2 (resolve_ok hresolve)

theorem steps_requireName {α : Type} (h : WellFormed branches) {name : String}
    {next : Unit → Action K α} (hnext : name ∈ branches.names → Steps (next ()) branches) :
    Steps (MonadExcept.ofExcept (branches.requireName name) >>= next) branches := by
  unfold requireName
  split
  · rename_i hdeclares
    exact hnext ((h.declares_iff name).1 hdeclares)
  · exact .refl

/-- The names before one that is declared already stay declared. -/
theorem steps_declareEach (names : List String) (h : WellFormed branches)
    (hopen : branches.locked = false) : Steps (declareEach names) branches := by
  induction names generalizing branches with
  | nil => exact .refl
  | cons name rest ih =>
      unfold Steps declareEach
      rw [outcome_get_bind]
      by_cases hdeclares : branches.declares name = true
      · rw [if_pos hdeclares]
        exact .refl
      · rw [if_neg hdeclares]
        have hchange : Change branches (branches.withVariable name) :=
          .declared hopen (mt (h.declares_iff name).2 hdeclares)
        exact .head hchange (ih (h.withVariable name) hopen)

theorem Operation.steps (operation : Operation K) (h : WellFormed branches) :
    Steps operation.act branches := by
  cases operation with
  | declare names =>
      unfold Steps Operation.act Branches.declare
      rw [outcome_get_bind]
      by_cases hlocked : branches.locked = true
      · rw [if_pos hlocked]
        exact .refl
      · rw [if_neg hlocked]
        exact steps_declareEach names h (Bool.not_eq_true _ ▸ hlocked)
  | copy source =>
      unfold Steps Operation.act Branches.copy
      rw [outcome_bind_pure, outcome_get_bind]
      refine steps_resolve ?_
      intro position branch hbranch
      exact .single (.forked (List.mem_of_getElem? hbranch))
  | remove index =>
      unfold Steps Operation.act Branches.remove
      rw [outcome_get_bind]
      refine steps_resolve ?_
      intro position branch hbranch
      unfold Steps
      dsimp only
      by_cases hcount : branches.count = 1
      · rw [if_pos hcount]
        exact .refl
      · rw [if_neg hcount]
        exact .single (.dropped (List.getElem?_eq_some_iff.1 hbranch).1 hcount)
  | rotate =>
      exact .single (.moved (Nat.mod_lt _ (Nat.zero_lt_of_lt h.current_lt)))
  | select index =>
      unfold Steps Operation.act Branches.select
      rw [outcome_get_bind]
      refine steps_resolve ?_
      intro position branch hbranch
      exact .single (.moved (List.getElem?_eq_some_iff.1 hbranch).1)
  | set name value index =>
      unfold Steps Operation.act Branches.set
      rw [outcome_get_bind]
      refine steps_requireName h (fun hname => steps_resolve ?_)
      intro position branch _
      exact .single (.written hname position value)
  | setEverywhere name value =>
      unfold Steps Operation.act Branches.setEverywhere
      rw [outcome_get_bind]
      refine steps_requireName h (fun hname => ?_)
      exact .single (.writtenEverywhere hname value)

end Actions

section Runs

theorem consistent_initial : Consistent (initial : Branches K) :=
  ⟨wellFormed_initial, List.nodup_nil, fun _ => rfl⟩

/-- Removing a branch other than the current one removes nothing else, and the current branch stays
current. -/
theorem Consistent.remove_other {branches : Branches K} (h : Consistent branches) {index : Nat}
    (hother : index ≠ branches.current) :
    (outcome (remove index) branches).2.list = branches.list.eraseIdx index ∧
      (outcome (remove index) branches).2.list[(outcome (remove index) branches).2.current]? =
        branches.list[branches.current]? := by
  have hcurrent := h.current_lt
  by_cases hinside : index < branches.count
  · have hseveral : branches.count ≠ 1 := by omega
    rw [outcome_remove (List.getElem?_eq_getElem hinside) hseveral]
    refine ⟨rfl, ?_⟩
    have hlength : (branches.list.eraseIdx index).length = branches.count - 1 :=
      List.length_eraseIdx_of_lt hinside
    unfold without
    dsimp only
    rw [hlength]
    by_cases hbefore : index < branches.current
    · have hmin : (branches.current - 1).min (branches.count - 1 - 1) = branches.current - 1 :=
        Nat.min_eq_left (by omega)
      rw [if_pos hbefore, hmin, List.getElem?_eraseIdx_of_ge (by omega),
        Nat.sub_add_cancel (by omega)]
    · have hmin : branches.current.min (branches.count - 1 - 1) = branches.current :=
        Nat.min_eq_left (by omega)
      rw [if_neg hbefore, hmin, List.getElem?_eraseIdx_of_lt (by omega)]
  · have hnone : branches.list[index]? = none := List.getElem?_eq_none (Nat.not_lt.1 hinside)
    have hunchanged : (outcome (remove index) branches).2 = branches := by
      unfold remove resolve
      simp only [outcome_get_bind, Option.getD_some, hnone]
      rfl
    rw [hunchanged, List.eraseIdx_of_length_le (Nat.not_lt.1 hinside)]
    exact ⟨rfl, rfl⟩

variable [Scalar K]

/-- A series of changes keeps the invariant and undoes nothing. -/
theorem consistent_of_changes {before after : Branches K} (hbefore : Consistent before)
    (h : Relation.ReflTransGen Change before after) :
    Consistent after ∧ Succeeds before after := by
  induction h with
  | refl => exact ⟨hbefore, .refl before⟩
  | tail _ hchange ih => exact ⟨hchange.consistent ih.1, ih.2.trans hchange.succeeds⟩

/-- A sequence of operations keeps the invariant and undoes nothing. -/
theorem consistent_after (operations : List (Operation K)) {branches : Branches K}
    (h : Consistent branches) :
    Consistent (after operations branches) ∧ Succeeds branches (after operations branches) := by
  induction operations generalizing branches with
  | nil => exact ⟨h, .refl branches⟩
  | cons operation rest ih =>
      obtain ⟨hstep, hsince⟩ := consistent_of_changes h (operation.steps h.toWellFormed)
      obtain ⟨hrest, hlater⟩ := ih hstep
      exact ⟨hrest, hsince.trans hlater⟩

/-- The invariant of the branches after any sequence of operations, and what any further operations
cannot undo. -/
theorem invariant_of_operations (earlier later : List (Operation K)) :
    let branches := after earlier initial
    let next := after later branches
    (0 < branches.count ∧ branches.current < branches.count) ∧
    (branches.list.Pairwise (fun a b => a.id < b.id) ∧
      ∀ branch ∈ branches.list, branch.id < branches.nextId) ∧
    (∀ index, index < branches.count →
      ∃ id, branches.identityAt index = .ok id ∧ branches.indexOf? id = some index) ∧
    (∀ id, id < branches.nextId → id ∉ branches.list.map Branch.id →
      id < next.nextId ∧ id ∉ next.list.map Branch.id) ∧
    ((∀ branch ∈ branches.list, ∀ name,
        branch.bindings.contains name = true ↔ name ∈ branches.names) ∧
      branches.names.Nodup) ∧
    ((branches.locked = false → branches.count = 1) ∧
      (branches.locked = true → next.locked = true)) ∧
    (∀ index, index ≠ branches.current →
      let rest := (outcome (remove index) branches).2
      rest.list = branches.list.eraseIdx index ∧
      rest.identityAt rest.current = branches.identityAt branches.current) := by
  intro branches next
  have h : Consistent branches := (consistent_after earlier consistent_initial).1
  have hnext : Succeeds branches next := (consistent_after later h).2
  refine ⟨⟨Nat.zero_lt_of_lt h.current_lt, h.current_lt⟩, ⟨h.ids, h.fresh⟩, ?_, ?_,
    ⟨h.bound, h.distinct⟩, ⟨h.single, hnext.locked⟩, ?_⟩
  · intro index hindex
    have hbranch := List.getElem?_eq_getElem hindex
    exact ⟨_, identityAt_eq hbranch, h.indexOf?_eq hbranch⟩
  · intro id hid habsent
    refine ⟨Nat.lt_of_lt_of_le hid hnext.nextId, ?_⟩
    intro hback
    obtain ⟨branch, hbranch, rfl⟩ := List.mem_map.1 hback
    obtain ⟨other, hother, hsame⟩ := hnext.older branch hbranch hid
    exact habsent (List.mem_map.2 ⟨other, hother, hsame⟩)
  · intro index hother
    obtain ⟨hlist, hcurrent⟩ := h.remove_other hother
    obtain ⟨branch, hbranch⟩ := h.exists_current
    refine ⟨hlist, ?_⟩
    rw [identityAt_eq hbranch, identityAt_eq (hcurrent.trans hbranch)]

end Runs

end Ramify.Branches
