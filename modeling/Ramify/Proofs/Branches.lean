import Mathlib.Data.List.Basic
import Ramify.Branches
import Ramify.Proofs.Action
import Ramify.Proofs.SortedMap

/-!
The invariant of a collection of branches: there is a current branch, identities increase and stay
below the next one to be given out, and every branch binds exactly the declared names. Under it each
operation is described by the branches it leaves.
-/

namespace Ramify.Branches

variable {K : Type}

/-- A collection of branches as the operations on it keep it. -/
structure WellFormed (branches : Branches K) : Prop where
  current_lt : branches.current < branches.count
  ids : branches.list.Pairwise (fun a b => a.id < b.id)
  fresh : ∀ branch ∈ branches.list, branch.id < branches.nextId
  bound : ∀ branch ∈ branches.list, ∀ name,
    branch.bindings.contains name = true ↔ name ∈ branches.names

/-- The second collection differs from the first in the bindings of one branch only. -/
structure Rewrites (index : Nat) (before after : Branches K) : Prop where
  names : after.names = before.names
  current : after.current = before.current
  nextId : after.nextId = before.nextId
  ids : after.list.map Branch.id = before.list.map Branch.id
  elsewhere : ∀ i, i ≠ index → after.list[i]? = before.list[i]?

/-- What may happen to the branches while one of them is worked on: that branch gets other bindings,
and new branches join. -/
structure Grows (id : Nat) (before after : Branches K) : Prop where
  names : after.names = before.names
  current : after.current = before.current
  nextId : before.nextId ≤ after.nextId
  kept : ∀ branch ∈ before.list, branch.id ≠ id → branch ∈ after.list
  origin : ∀ branch ∈ after.list, branch.id ≠ id →
    branch ∈ before.list ∨ before.nextId ≤ branch.id
  places : ∀ (i : Nat) (branch : Branch K), before.list[i]? = some branch →
    ∃ other : Branch K, after.list[i]? = some other ∧ other.id = branch.id
  older : ∀ branch ∈ after.list, branch.id < before.nextId →
    ∃ other ∈ before.list, other.id = branch.id

namespace Rewrites

variable {index : Nat} {a b c : Branches K}

theorem refl (index : Nat) (a : Branches K) : Rewrites index a a :=
  ⟨rfl, rfl, rfl, rfl, fun _ _ => rfl⟩

theorem trans (hab : Rewrites index a b) (hbc : Rewrites index b c) : Rewrites index a c where
  names := hbc.names.trans hab.names
  current := hbc.current.trans hab.current
  nextId := hbc.nextId.trans hab.nextId
  ids := hbc.ids.trans hab.ids
  elsewhere := fun i hi => (hbc.elsewhere i hi).trans (hab.elsewhere i hi)

theorem length (h : Rewrites index a b) : b.list.length = a.list.length := by
  have hids := congrArg List.length h.ids
  rw [List.length_map, List.length_map] at hids
  exact hids

theorem getElem?_id (h : Rewrites index a b) (i : Nat) :
    b.list[i]?.map Branch.id = a.list[i]?.map Branch.id := by
  rw [← List.getElem?_map, ← List.getElem?_map, h.ids]

/-- The rewritten branch is still there, under its identity. -/
theorem at_index (h : Rewrites index a b) {branch : Branch K} (ha : a.list[index]? = some branch) :
    ∃ bindings, b.list[index]? = some ⟨branch.id, bindings⟩ := by
  have hid := h.getElem?_id index
  rw [ha] at hid
  obtain ⟨other, hother, hsame⟩ := Option.map_eq_some_iff.1 hid
  refine ⟨other.bindings, ?_⟩
  rw [hother, ← hsame]

end Rewrites

namespace Grows

variable {id : Nat} {a b c : Branches K}

theorem refl (id : Nat) (a : Branches K) : Grows id a a where
  names := rfl
  current := rfl
  nextId := Nat.le_refl _
  kept := fun _ h _ => h
  origin := fun _ h _ => Or.inl h
  places := fun _ branch h => ⟨branch, h, rfl⟩
  older := fun branch h _ => ⟨branch, h, rfl⟩

theorem trans (hab : Grows id a b) (hbc : Grows id b c) : Grows id a c where
  names := hbc.names.trans hab.names
  current := hbc.current.trans hab.current
  nextId := Nat.le_trans hab.nextId hbc.nextId
  kept := fun branch h hne => hbc.kept branch (hab.kept branch h hne) hne
  origin := by
    intro branch h hne
    rcases hbc.origin branch h hne with hb | hnew
    · exact hab.origin branch hb hne
    · exact Or.inr (Nat.le_trans hab.nextId hnew)
  places := by
    intro i branch h
    obtain ⟨middle, hmiddle, hid⟩ := hab.places i branch h
    obtain ⟨other, hother, hid'⟩ := hbc.places i middle hmiddle
    exact ⟨other, hother, hid'.trans hid⟩
  older := by
    intro branch h hold
    obtain ⟨middle, hmiddle, hid⟩ := hbc.older branch h (Nat.lt_of_lt_of_le hold hab.nextId)
    obtain ⟨other, hother, hid'⟩ := hab.older middle hmiddle (hid ▸ hold)
    exact ⟨other, hother, hid'.trans hid⟩

/-- No branch is lost. -/
theorem present (hab : Grows id a b) {branch : Branch K} (h : branch ∈ a.list) :
    ∃ other ∈ b.list, other.id = branch.id := by
  obtain ⟨i, hi⟩ := List.mem_iff_getElem?.1 h
  obtain ⟨other, hother, hid⟩ := hab.places i branch hi
  exact ⟨other, List.mem_of_getElem? hother, hid⟩

/-- Working on a branch that joined while another one was worked on belongs to the work on the
other one. -/
theorem trans_new {new : Nat} (ha : WellFormed a) (hab : Grows id a b) (hbc : Grows new b c)
    (hnew : a.nextId ≤ new) : Grows id a c where
  names := hbc.names.trans hab.names
  current := hbc.current.trans hab.current
  nextId := Nat.le_trans hab.nextId hbc.nextId
  kept := by
    intro branch h hne
    apply hbc.kept branch (hab.kept branch h hne)
    have hold := ha.fresh branch h
    omega
  origin := by
    intro branch h hne
    by_cases hbranch : branch.id = new
    · exact Or.inr (hbranch ▸ hnew)
    · rcases hbc.origin branch h hbranch with hb | hlater
      · exact hab.origin branch hb hne
      · exact Or.inr (Nat.le_trans hab.nextId hlater)
  places := by
    intro i branch h
    obtain ⟨middle, hmiddle, hid⟩ := hab.places i branch h
    obtain ⟨other, hother, hid'⟩ := hbc.places i middle hmiddle
    exact ⟨other, hother, hid'.trans hid⟩
  older := by
    intro branch h hold
    obtain ⟨middle, hmiddle, hid⟩ := hbc.older branch h (Nat.lt_of_lt_of_le hold hab.nextId)
    obtain ⟨other, hother, hid'⟩ := hab.older middle hmiddle (hid ▸ hold)
    exact ⟨other, hother, hid'.trans hid⟩

end Grows

section Positions

theorem resolve_some {branches : Branches K} {index : Nat} {branch : Branch K}
    (h : branches.list[index]? = some branch) :
    branches.resolve (some index) = .ok (index, branch) := by
  unfold resolve
  simp only [Option.getD_some, h]
  rfl

theorem resolve_none {branches : Branches K} {branch : Branch K}
    (h : branches.list[branches.current]? = some branch) :
    branches.resolve none = .ok (branches.current, branch) := by
  unfold resolve
  simp only [Option.getD_none, h]
  rfl

theorem identityAt_eq {branches : Branches K} {index : Nat} {branch : Branch K}
    (h : branches.list[index]? = some branch) : branches.identityAt index = .ok branch.id := by
  unfold identityAt
  rw [resolve_some h]
  rfl

theorem identityAt_none {branches : Branches K} {index : Nat} (h : branches.list[index]? = none) :
    branches.identityAt index = .error (.noSuchBranch index branches.count) := by
  unfold identityAt resolve
  simp only [Option.getD_some, h]
  rfl

end Positions

namespace WellFormed

variable {branches : Branches K}

theorem exists_current (h : WellFormed branches) :
    ∃ branch, branches.list[branches.current]? = some branch :=
  ⟨_, List.getElem?_eq_getElem h.current_lt⟩

/-- An identity belongs to one position. -/
theorem index_unique (h : WellFormed branches) {i j : Nat} {a b : Branch K}
    (ha : branches.list[i]? = some a) (hb : branches.list[j]? = some b) (hid : a.id = b.id) :
    i = j := by
  obtain ⟨hi, hai⟩ := List.getElem?_eq_some_iff.1 ha
  obtain ⟨hj, hbj⟩ := List.getElem?_eq_some_iff.1 hb
  have hlt := List.pairwise_iff_getElem.1 h.ids
  rcases Nat.lt_trichotomy i j with hij | hij | hij
  · have := hlt i j hi hj hij
    rw [hai, hbj] at this
    omega
  · exact hij
  · have := hlt j i hj hi hij
    rw [hai, hbj] at this
    omega

/-- An identity belongs to one branch. -/
theorem branch_unique (h : WellFormed branches) {a b : Branch K} (ha : a ∈ branches.list)
    (hb : b ∈ branches.list) (hid : a.id = b.id) : a = b := by
  obtain ⟨i, hi⟩ := List.mem_iff_getElem?.1 ha
  obtain ⟨j, hj⟩ := List.mem_iff_getElem?.1 hb
  have hij := h.index_unique hi hj hid
  rw [hij, hj] at hi
  exact (Option.some.inj hi).symm

/-- A branch that was there before is in the family of another one only if it is that one. -/
theorem eq_of_family (h : WellFormed branches) {branch other : Branch K}
    (hbranch : branch ∈ branches.list) (hother : other ∈ branches.list)
    (hfamily : other.id = branch.id ∨ branches.nextId ≤ other.id) : other = branch := by
  rcases hfamily with hid | hnew
  · exact h.branch_unique hother hbranch hid
  · exact absurd (h.fresh other hother) (Nat.not_lt.2 hnew)

theorem nodup_ids (h : WellFormed branches) : (branches.list.map Branch.id).Nodup := by
  rw [List.Nodup, List.pairwise_map]
  exact h.ids.imp (fun hlt => Nat.ne_of_lt hlt)

theorem indexOf?_eq (h : WellFormed branches) {index : Nat} {branch : Branch K}
    (hbranch : branches.list[index]? = some branch) :
    branches.indexOf? branch.id = some index := by
  unfold indexOf?
  obtain ⟨hlt, hget⟩ := List.getElem?_eq_some_iff.1 hbranch
  rw [List.findIdx?_eq_some_iff_getElem]
  refine ⟨hlt, by simp [hget], ?_⟩
  intro j hj
  have hless := List.pairwise_iff_getElem.1 h.ids j index (Nat.lt_trans hj hlt) hlt hj
  rw [hget] at hless
  simp only [beq_iff_eq]
  omega

theorem declares_iff (h : WellFormed branches) (name : String) :
    branches.declares name = true ↔ name ∈ branches.names := by
  have hlt := h.current_lt
  unfold declares
  unfold count at hlt
  cases hlist : branches.list with
  | nil =>
      rw [hlist] at hlt
      exact absurd hlt (Nat.not_lt_zero _)
  | cons first rest => exact h.bound first (hlist ▸ List.mem_cons_self) name

theorem requireName_ok (h : WellFormed branches) {name : String} (hname : name ∈ branches.names) :
    branches.requireName name = .ok () := by
  unfold requireName
  rw [if_pos ((h.declares_iff name).2 hname)]
  rfl

/-- Every branch has a value for every declared name. -/
theorem exists_value (h : WellFormed branches) {branch : Branch K}
    (hbranch : branch ∈ branches.list)
    {name : String} (hname : name ∈ branches.names) :
    ∃ value, branch.bindings.find? name = some value :=
  Option.isSome_iff_exists.1 ((h.bound branch hbranch name).2 hname)

end WellFormed

theorem indexOf?_some {branches : Branches K} {id index : Nat}
    (h : branches.indexOf? id = some index) :
    ∃ branch, branches.list[index]? = some branch ∧ branch.id = id := by
  unfold indexOf? at h
  obtain ⟨hlt, hid, _⟩ := List.findIdx?_eq_some_iff_getElem.1 h
  exact ⟨branches.list[index], List.getElem?_eq_getElem hlt, by simpa using hid⟩

theorem indexOf?_none {branches : Branches K} {id : Nat} (h : branches.indexOf? id = none) :
    ∀ branch ∈ branches.list, branch.id ≠ id := by
  unfold indexOf? at h
  rw [List.findIdx?_eq_none_iff] at h
  intro branch hbranch
  simpa using h branch hbranch

section Reading

theorem get_at {branches : Branches K} (h : WellFormed branches) {name : String}
    (hname : name ∈ branches.names) {index : Nat} {branch : Branch K}
    (hbranch : branches.list[index]? = some branch) {value : Fraction K}
    (hvalue : branch.bindings.find? name = some value) :
    branches.get name (some index) = .ok value := by
  unfold get
  rw [h.requireName_ok hname, resolve_some hbranch, except_ok_bind, except_ok_bind]
  simp only [hvalue]
  rfl

/-- Reading in the current branch looks the name up among its bindings. -/
theorem get_current {branches : Branches K} (h : WellFormed branches) {branch : Branch K}
    (hbranch : branches.list[branches.current]? = some branch) (name : String) :
    branches.get name none =
      match branch.bindings.find? name with
      | some value => .ok value
      | none => .error (.undeclared name) := by
  have hmem : branch ∈ branches.list := List.mem_of_getElem? hbranch
  unfold get requireName
  by_cases hname : name ∈ branches.names
  · rw [if_pos ((h.declares_iff name).2 hname), resolve_none hbranch]
    rfl
  · have hnone : branch.bindings.find? name = none := by
      have hnot := mt (h.bound branch hmem name).1 hname
      unfold SortedMap.contains at hnot
      simpa using hnot
    rw [if_neg (mt (h.declares_iff name).1 hname), hnone]
    rfl

end Reading

section Writing

variable {branches : Branches K}

theorem outcome_set (h : WellFormed branches) {name : String} (hname : name ∈ branches.names)
    (value : Fraction K) {index : Nat} {branch : Branch K}
    (hbranch : branches.list[index]? = some branch) :
    outcome (set name value (some index)) branches =
      (.ok (), branches.write index name value) := by
  unfold set
  simp only [outcome_get_bind, h.requireName_ok hname, resolve_some hbranch,
    outcome_ofExcept_bind_ok]
  rfl

theorem getElem?_write (index : Nat) (name : String) (value : Fraction K) (i : Nat) :
    (branches.write index name value).list[i]? =
      branches.list[i]?.map (fun branch =>
        if index = i then { branch with bindings := branch.bindings.insert name value }
        else branch) := by
  unfold write
  rw [List.getElem?_modify]
  split <;> simp_all

theorem rewrites_write (branches : Branches K) (index : Nat) (name : String) (value : Fraction K) :
    Rewrites index branches (branches.write index name value) where
  names := rfl
  current := rfl
  nextId := rfl
  ids := by
    apply List.ext_getElem?
    intro i
    rw [List.getElem?_map, List.getElem?_map, getElem?_write]
    cases branches.list[i]? with
    | none => rfl
    | some branch =>
        simp only [Option.map_some]
        split <;> rfl
  elsewhere := by
    intro i hi
    rw [getElem?_write]
    cases branches.list[i]? with
    | none => rfl
    | some branch => simp [Ne.symm hi]

/-- A rewriting keeps the invariant if the rewritten branch binds the declared names. -/
theorem WellFormed.of_rewrites {after : Branches K} {index : Nat} (h : WellFormed branches)
    (hrw : Rewrites index branches after)
    (hbound : ∀ branch, after.list[index]? = some branch → ∀ name,
      branch.bindings.contains name = true ↔ name ∈ branches.names) :
    WellFormed after where
  current_lt := by
    have hlt := h.current_lt
    unfold count at hlt ⊢
    rw [hrw.current, hrw.length]
    exact hlt
  ids := by
    have hids := h.ids
    rw [← List.pairwise_map (R := fun a b => a < b) (f := Branch.id)] at hids ⊢
    rw [hrw.ids]
    exact hids
  fresh := by
    intro branch hbranch
    have hid : branch.id ∈ branches.list.map Branch.id :=
      hrw.ids ▸ List.mem_map.2 ⟨branch, hbranch, rfl⟩
    obtain ⟨other, hother, hsame⟩ := List.mem_map.1 hid
    rw [hrw.nextId, ← hsame]
    exact h.fresh other hother
  bound := by
    intro branch hbranch name
    rw [hrw.names]
    obtain ⟨i, hi⟩ := List.mem_iff_getElem?.1 hbranch
    by_cases hindex : i = index
    · exact hbound branch (hindex ▸ hi) name
    · rw [hrw.elsewhere i hindex] at hi
      exact h.bound branch (List.mem_of_getElem? hi) name

theorem WellFormed.write (h : WellFormed branches) {name : String} (hname : name ∈ branches.names)
    (index : Nat) (value : Fraction K) : WellFormed (branches.write index name value) := by
  apply h.of_rewrites (rewrites_write branches index name value)
  intro branch hbranch other
  rw [getElem?_write] at hbranch
  obtain ⟨old, hold, rfl⟩ := Option.map_eq_some_iff.1 hbranch
  have hbound := h.bound old (List.mem_of_getElem? hold) other
  simp only [if_true, SortedMap.contains, SortedMap.find?_insert] at hbound ⊢
  by_cases hsame : name = other
  · subst hsame
    simp [hname]
  · simpa [hsame] using hbound

/-- The branches with a copy of one of them behind the last. -/
def forked (branches : Branches K) (branch : Branch K) : Branches K :=
  { branches with
    list := branches.list ++ [⟨branches.nextId, branch.bindings⟩]
    nextId := branches.nextId + 1
    locked := true }

theorem outcome_copy {index : Nat} {branch : Branch K}
    (hbranch : branches.list[index]? = some branch) :
    outcome (copy (some index)) branches = (.ok branches.count, branches.forked branch) := by
  unfold copy
  simp only [outcome_get_bind, resolve_some hbranch, outcome_ofExcept_bind_ok]
  rfl

theorem WellFormed.forked (h : WellFormed branches) {branch : Branch K}
    (hbranch : branch ∈ branches.list) : WellFormed (branches.forked branch) where
  current_lt := by
    have hlt := h.current_lt
    unfold count Branches.forked at *
    simp only [List.length_append, List.length_singleton]
    omega
  ids := by
    unfold Branches.forked
    rw [List.pairwise_append]
    refine ⟨h.ids, List.pairwise_singleton _ _, ?_⟩
    intro a ha b hb
    rw [List.mem_singleton.1 hb]
    exact h.fresh a ha
  fresh := by
    intro a ha
    unfold Branches.forked at ha ⊢
    rcases List.mem_append.1 ha with hold | hnew
    · exact Nat.lt_succ_of_lt (h.fresh a hold)
    · rw [List.mem_singleton.1 hnew]
      exact Nat.lt_succ_self _
  bound := by
    intro a ha name
    unfold Branches.forked at ha
    rcases List.mem_append.1 ha with hold | hnew
    · exact h.bound a hold name
    · rw [List.mem_singleton.1 hnew]
      exact h.bound branch hbranch name

theorem getElem?_forked_old {branch : Branch K} {i : Nat} (hi : i < branches.count) :
    (branches.forked branch).list[i]? = branches.list[i]? :=
  List.getElem?_append_left hi

theorem getElem?_forked_new (branches : Branches K) (branch : Branch K) :
    (branches.forked branch).list[branches.count]? = some ⟨branches.nextId, branch.bindings⟩ := by
  unfold forked count
  simp

theorem grows_forked (id : Nat) (branches : Branches K) (branch : Branch K) :
    Grows id branches (branches.forked branch) where
  names := rfl
  current := rfl
  nextId := Nat.le_succ _
  kept := fun a ha _ => List.mem_append_left _ ha
  origin := by
    intro a ha _
    rcases List.mem_append.1 ha with hold | hnew
    · exact Or.inl hold
    · rw [List.mem_singleton.1 hnew]
      exact Or.inr (Nat.le_refl _)
  places := by
    intro i a ha
    refine ⟨a, ?_, rfl⟩
    rw [getElem?_forked_old (List.getElem?_eq_some_iff.1 ha).1, ha]
  older := by
    intro a ha hlt
    rcases List.mem_append.1 ha with hold | hnew
    · exact ⟨a, hold, rfl⟩
    · rw [List.mem_singleton.1 hnew] at hlt
      exact absurd hlt (Nat.lt_irrefl _)

/-- Rewriting the branch of an identity is a case of working on it. -/
theorem Rewrites.grows {after : Branches K} {index : Nat} (hrw : Rewrites index branches after)
    {branch : Branch K} (hbranch : branches.list[index]? = some branch) :
    Grows branch.id branches after where
  names := hrw.names
  current := hrw.current
  nextId := Nat.le_of_eq hrw.nextId.symm
  kept := by
    intro a ha hne
    obtain ⟨i, hi⟩ := List.mem_iff_getElem?.1 ha
    have hindex : i ≠ index := by
      rintro rfl
      rw [hbranch] at hi
      exact hne (Option.some.inj hi ▸ rfl)
    rw [← hrw.elsewhere i hindex] at hi
    exact List.mem_of_getElem? hi
  origin := by
    intro a ha hne
    obtain ⟨i, hi⟩ := List.mem_iff_getElem?.1 ha
    have hindex : i ≠ index := by
      rintro rfl
      obtain ⟨bindings, hnew⟩ := hrw.at_index hbranch
      rw [hnew] at hi
      exact hne (Option.some.inj hi ▸ rfl)
    rw [hrw.elsewhere i hindex] at hi
    exact Or.inl (List.mem_of_getElem? hi)
  places := by
    intro i a ha
    have hid := hrw.getElem?_id i
    rw [ha] at hid
    exact Option.map_eq_some_iff.1 hid
  older := by
    intro a ha _
    have hid : a.id ∈ branches.list.map Branch.id := hrw.ids ▸ List.mem_map.2 ⟨a, ha, rfl⟩
    exact List.mem_map.1 hid

theorem outcome_select {index : Nat} {branch : Branch K}
    (hbranch : branches.list[index]? = some branch) :
    outcome (select index) branches = (.ok (), { branches with current := index }) := by
  unfold select
  simp only [outcome_get_bind, resolve_some hbranch, outcome_ofExcept_bind_ok]
  rfl

theorem WellFormed.select (h : WellFormed branches) {index : Nat}
    (hindex : index < branches.count) :
    WellFormed { branches with current := index } :=
  ⟨hindex, h.ids, h.fresh, h.bound⟩

theorem outcome_remove {index : Nat} {branch : Branch K}
    (hbranch : branches.list[index]? = some branch) (hcount : branches.count ≠ 1) :
    outcome (remove index) branches = (.ok (), branches.without index) := by
  unfold remove
  simp only [outcome_get_bind, resolve_some hbranch, outcome_ofExcept_bind_ok, if_neg hcount]
  rfl

theorem WellFormed.without (h : WellFormed branches) {index : Nat} (hindex : index < branches.count)
    (hcount : branches.count ≠ 1) : WellFormed (branches.without index) where
  current_lt := by
    unfold count Branches.without at *
    have hlength := List.length_eraseIdx_of_lt hindex
    have hmin : ∀ shifted, Nat.min shifted (branches.list.length - 1 - 1) ≤
        branches.list.length - 1 - 1 := fun shifted => Nat.min_le_right shifted _
    simp only [hlength]
    refine Nat.lt_of_le_of_lt (hmin _) ?_
    omega
  ids := h.ids.sublist (List.eraseIdx_sublist _ _)
  fresh := fun branch hbranch => h.fresh branch ((List.eraseIdx_sublist _ _).subset hbranch)
  bound := fun branch hbranch => h.bound branch ((List.eraseIdx_sublist _ _).subset hbranch)

end Writing

section Declaring

theorem wellFormed_initial : WellFormed (initial : Branches K) where
  current_lt := Nat.zero_lt_one
  ids := List.pairwise_singleton _ _
  fresh := by
    intro branch hbranch
    rw [List.mem_singleton.1 hbranch]
    exact Nat.zero_lt_one
  bound := by
    intro branch hbranch name
    rw [List.mem_singleton.1 hbranch]
    constructor
    · nofun
    · nofun

/-- Binding a name in every branch declares it. -/
theorem WellFormed.writeEverywhere {branches : Branches K} (h : WellFormed branches) (name : String)
    (value : Fraction K) {names : List String}
    (hnames : ∀ other, other ∈ names ↔ name = other ∨ other ∈ branches.names) :
    WellFormed { branches.writeEverywhere name value with names := names } where
  current_lt := by
    have hlt := h.current_lt
    unfold count Branches.writeEverywhere at *
    rw [List.length_map]
    exact hlt
  ids := by
    unfold Branches.writeEverywhere
    rw [List.pairwise_map]
    exact h.ids
  fresh := by
    intro branch hbranch
    obtain ⟨old, hold, rfl⟩ := List.mem_map.1 hbranch
    exact h.fresh old hold
  bound := by
    intro branch hbranch other
    obtain ⟨old, hold, rfl⟩ := List.mem_map.1 hbranch
    have hbound := h.bound old hold other
    unfold SortedMap.contains at hbound ⊢
    rw [SortedMap.find?_insert, hnames]
    by_cases hsame : name = other
    · simp [hsame]
    · rw [if_neg hsame, hbound]
      simp [hsame]

theorem WellFormed.withVariable [Scalar K] {branches : Branches K} (h : WellFormed branches)
    (name : String) : WellFormed (branches.withVariable name) := by
  apply h.writeEverywhere name
  intro other
  rw [List.mem_append, List.mem_singleton, or_comm, eq_comm]

end Declaring

/-!
Every operation preserves the form of the branches, whether or not it fails.
-/

section Operations

theorem resolve_ok {branches : Branches K} {index : Option Nat} {position : Nat} {branch : Branch K}
    (h : branches.resolve index = .ok (position, branch)) :
    branches.list[position]? = some branch := by
  unfold resolve at h
  dsimp only at h
  split at h
  · rename_i hfound
    cases h
    exact hfound
  · cases h

/-- An operation that begins by looking for a position preserves the form of the branches if what it
does there preserves it. -/
theorem preserves_resolve {α : Type} {index : Option Nat} {branches : Branches K}
    {next : Nat × Branch K → Action K α} (h : WellFormed branches)
    (hnext : ∀ position branch, branches.list[position]? = some branch →
      WellFormed (outcome (next (position, branch)) branches).2) :
    WellFormed (outcome (MonadExcept.ofExcept (branches.resolve index) >>= next) branches).2 := by
  cases hresolve : branches.resolve index with
  | error failure => exact h
  | ok found =>
      rw [outcome_ofExcept_bind_ok]
      exact hnext found.1 found.2 (resolve_ok hresolve)

/-- An operation on a name preserves the form of the branches if it does so for declared names. -/
theorem preserves_requireName {α : Type} {name : String} {branches : Branches K}
    {next : Unit → Action K α} (h : WellFormed branches)
    (hnext : name ∈ branches.names → WellFormed (outcome (next ()) branches).2) :
    WellFormed
      (outcome (MonadExcept.ofExcept (branches.requireName name) >>= next) branches).2 := by
  unfold requireName
  split
  · rename_i hdeclares
    exact hnext ((h.declares_iff name).1 hdeclares)
  · exact h

theorem preserves_set (name : String) (value : Fraction K) (index : Option Nat) :
    Preserves WellFormed (set name value index) := by
  intro branches h
  unfold set
  rw [outcome_get_bind]
  refine preserves_requireName h (fun hname => preserves_resolve h ?_)
  intro position branch _
  exact h.write hname position value

theorem preserves_setEverywhere (name : String) (value : Fraction K) :
    Preserves WellFormed (setEverywhere name value) := by
  intro branches h
  unfold setEverywhere
  rw [outcome_get_bind]
  refine preserves_requireName h (fun hname => ?_)
  apply h.writeEverywhere name value
  intro other
  constructor
  · exact Or.inr
  · rintro (rfl | hother)
    · exact hname
    · exact hother

theorem preserves_remove (index : Nat) : Preserves WellFormed (remove index : Action K Unit) := by
  intro branches h
  unfold remove
  rw [outcome_get_bind]
  refine preserves_resolve h ?_
  intro position branch hbranch
  dsimp only
  by_cases hcount : branches.count = 1
  · rw [if_pos hcount]
    exact h
  · rw [if_neg hcount]
    exact h.without (List.getElem?_eq_some_iff.1 hbranch).1 hcount

theorem preserves_select (index : Nat) : Preserves WellFormed (select index : Action K Unit) := by
  intro branches h
  unfold select
  rw [outcome_get_bind]
  refine preserves_resolve h ?_
  intro position branch hbranch
  exact h.select (List.getElem?_eq_some_iff.1 hbranch).1

theorem WellFormed.rotate {branches : Branches K} (h : WellFormed branches) :
    WellFormed branches.rotate :=
  h.select (Nat.mod_lt _ (Nat.zero_lt_of_lt h.current_lt))

end Operations

end Ramify.Branches
