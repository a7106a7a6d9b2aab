import Mathlib.Data.List.Forall2
import Mathlib.Logic.Relation
import Ramify.Proofs.Worksheet.Resolve

/-!
What an attempt makes of the values of a branch. Where candidates are taken over, the branch and its
copies come from the old branch by adopting one candidate each. An attempt that fails on the way
leaves branches that have adopted a candidate in part.
-/

namespace Ramify

theorem exists_left_of_forall₂ {α β : Type} {R : α → β → Prop} {xs : List α} {ys : List β}
    (h : List.Forall₂ R xs ys) {y : β} (hy : y ∈ ys) : ∃ x ∈ xs, R x y := by
  induction h with
  | nil => cases hy
  | @cons first _ rest _ hfirst _ ih =>
      rcases List.mem_cons.1 hy with rfl | hy
      · exact ⟨first, List.mem_cons_self, hfirst⟩
      · obtain ⟨x, hx, hrel⟩ := ih hy
        exact ⟨x, List.mem_cons_of_mem _ hx, hrel⟩

namespace Worksheet

variable {K σ : Type} [Scalar K]

/-- A value is turned into another one when a candidate is adopted. -/
def Takes (candidate : Solution K) (name : String) (old value : Fraction K) : Prop :=
  adopted candidate name old = .ok value

/-- Bindings on the way to adopt a candidate. A name that is listed twice is turned twice. -/
def Adopting (candidate : Solution K) (old new : Bindings K) : Prop :=
  ∀ name value, new.find? name = some value → ∃ start, old.find? name = some start ∧
    Relation.ReflTransGen (Takes candidate name) start value

/-- Bindings that have adopted a candidate: each value has been turned. -/
def Adopted (candidate : Solution K) (old new : Bindings K) : Prop :=
  ∀ name value, new.find? name = some value → ∃ start, old.find? name = some start ∧
    Relation.TransGen (Takes candidate name) start value

theorem Adopting.refl (candidate : Solution K) (bindings : Bindings K) :
    Adopting candidate bindings bindings :=
  fun _ value hvalue => ⟨value, hvalue, .refl⟩

section Adoption

variable {index : Nat} {branch : Branch K}

omit [Scalar K] in
theorem set_same {list : List (Branch K)} (hbranch : list[index]? = some branch) :
    list.set index branch = list := by
  obtain ⟨hlt, hget⟩ := List.getElem?_eq_some_iff.1 hbranch
  rw [← hget, List.set_getElem_self]

omit [Scalar K] in
theorem list_write {branches : Branches K} (hbranch : branches.list[index]? = some branch)
    (name : String) (value : Fraction K) :
    (branches.write index name value).list =
      branches.list.set index ⟨branch.id, branch.bindings.insert name value⟩ := by
  apply List.ext_getElem?
  intro i
  rw [Branches.getElem?_write, List.getElem?_set]
  by_cases hi : index = i
  · subst hi
    rw [if_pos rfl, if_pos (List.getElem?_eq_some_iff.1 hbranch).1, hbranch]
    simp
  · simp [hi]

/-- Adopting a candidate replaces one branch, whose values are turned name by name. -/
theorem adoptEach_adopting (candidate : Solution K) (names : List String) (sheet : Worksheet K σ)
    (hformed : sheet.branches.WellFormed) (hbranch : sheet.branches.list[index]? = some branch)
    (hnames : ∀ name ∈ names, name ∈ sheet.branches.names) :
    ∃ bindings, (outcome (adoptEach candidate index names) sheet).2.branches.list =
        sheet.branches.list.set index ⟨branch.id, bindings⟩ ∧
      Adopting candidate branch.bindings bindings ∧
      ((outcome (adoptEach candidate index names) sheet).1 = .ok () → ∀ name ∈ names, ∀ value,
        bindings.find? name = some value → ∃ start, branch.bindings.find? name = some start ∧
          Relation.TransGen (Takes candidate name) start value) := by
  induction names generalizing sheet branch with
  | nil =>
      refine ⟨branch.bindings, ?_, .refl candidate _, fun _ _ hname => by cases hname⟩
      exact (set_same hbranch).symm
  | cons name rest ih =>
      have hname := hnames name List.mem_cons_self
      obtain ⟨old, hold⟩ := hformed.exists_value (List.mem_of_getElem? hbranch) hname
      cases hvalue : adopted candidate name old with
      | error cause =>
          rw [outcome_adoptEach_error hformed hbranch hname hold hvalue]
          refine ⟨branch.bindings, (set_same hbranch).symm, .refl candidate _, nofun⟩
      | ok value =>
          obtain ⟨log, hstep⟩ := outcome_adoptEach_ok hformed hbranch hname hold hvalue rest
          have hlist := list_write hbranch name value
          have hlt := (List.getElem?_eq_some_iff.1 hbranch).1
          have hthere : (sheet.branches.write index name value).list[index]? =
              some ⟨branch.id, branch.bindings.insert name value⟩ := by
            rw [hlist, List.getElem?_set_self hlt]
          obtain ⟨bindings, hafter, hadopting, hadopted⟩ :=
            ih { sheet with branches := sheet.branches.write index name value, log := log }
              (hformed.write hname index value) hthere
              (fun other hother => hnames other (List.mem_cons_of_mem _ hother))
          rw [hstep]
          -- a value of the middle bindings is an old one, or the one that has just been written
          have hback (other : String) (start : Fraction K)
              (hstart : (branch.bindings.insert name value).find? other = some start) :
              ∃ first, branch.bindings.find? other = some first ∧
                Relation.ReflTransGen (Takes candidate other) first start ∧
                (other = name → Relation.TransGen (Takes candidate other) first start) := by
            rw [SortedMap.find?_insert] at hstart
            split at hstart
            · rename_i hsame
              subst hsame
              cases hstart
              exact ⟨old, hold, .single hvalue, fun _ => .single hvalue⟩
            · rename_i hother
              exact ⟨start, hstart, .refl, fun hsame => absurd hsame.symm hother⟩
          refine ⟨bindings, ?_, ?_, ?_⟩
          · rw [hafter, hlist, List.set_set]
          · intro other found hfound
            obtain ⟨start, hstart, hturned⟩ := hadopting other found hfound
            obtain ⟨first, hfirst, hbefore, _⟩ := hback other start hstart
            exact ⟨first, hfirst, hbefore.trans hturned⟩
          · intro hok other hother found hfound
            rcases List.mem_cons.1 hother with rfl | hlater
            · obtain ⟨start, hstart, hturned⟩ := hadopting other found hfound
              obtain ⟨first, hfirst, _, hhead⟩ := hback other start hstart
              exact ⟨first, hfirst, Relation.TransGen.trans_left (hhead rfl) hturned⟩
            · obtain ⟨start, hstart, hturned⟩ := hadopted hok other hlater found hfound
              obtain ⟨first, hfirst, hbefore, _⟩ := hback other start hstart
              exact ⟨first, hfirst, Relation.TransGen.trans_right hbefore hturned⟩

/-- Adopting a candidate in full turns every value of the branch. -/
theorem adopt_adopting (candidate : Solution K) (sheet : Worksheet K σ)
    (hformed : sheet.branches.WellFormed) (hbranch : sheet.branches.list[index]? = some branch) :
    ∃ bindings, (outcome (adopt candidate index) sheet).2.branches.list =
        sheet.branches.list.set index ⟨branch.id, bindings⟩ ∧
      Adopting candidate branch.bindings bindings ∧
      ((outcome (adopt candidate index) sheet).1 = .ok () →
        Adopted candidate branch.bindings bindings) := by
  obtain ⟨bindings, hlist, hadopting, hadopted⟩ := adoptEach_adopting candidate
    sheet.branches.names sheet hformed hbranch (fun _ hname => hname)
  refine ⟨bindings, hlist, hadopting, fun hok name value hvalue => ?_⟩
  refine hadopted hok name ?_ value hvalue
  obtain ⟨start, hstart, _⟩ := hadopting name value hvalue
  rw [← hformed.bound branch (List.mem_of_getElem? hbranch) name, SortedMap.contains, hstart]
  rfl

/-- Each copy that was made for a series of candidates has adopted one of them, and if the series
came to its end there is one for each. -/
theorem copyFor_adopting (id : Nat) (candidates : List (Solution K)) (sheet : Worksheet K σ)
    (hformed : sheet.branches.WellFormed) (hbranch : sheet.branches.list[index]? = some branch) :
    ∃ copies, (outcome (copyFor id index candidates) sheet).2.branches.list =
        sheet.branches.list ++ copies ∧
      (∀ copy ∈ copies, ∃ candidate ∈ candidates,
        Adopting candidate branch.bindings copy.bindings) ∧
      ((outcome (copyFor id index candidates) sheet).1 = .ok () →
        List.Forall₂ (fun candidate copy => Adopted candidate branch.bindings copy.bindings)
          candidates copies) := by
  induction candidates generalizing sheet with
  | nil => exact ⟨[], (List.append_nil _).symm, nofun, fun _ => .nil⟩
  | cons candidate rest ih =>
      have hmem := List.mem_of_getElem? hbranch
      obtain ⟨branches, log, hafter, _, hformed', hbranch'⟩ :=
        outcome_copy_adopt candidate hformed hbranch
      obtain ⟨bindings, hlist, hadopting, hadopted⟩ := adopt_adopting candidate
        { sheet with branches := sheet.branches.forked branch } (hformed.forked hmem)
        (Branches.getElem?_forked_new sheet.branches branch)
      -- the copy stands at the end of the list
      have hcopied :
          branches.list = sheet.branches.list ++ [⟨sheet.branches.nextId, bindings⟩] := by
        rw [hafter] at hlist
        refine hlist.trans ?_
        change (sheet.branches.list ++ [_]).set sheet.branches.list.length _ = _
        simp
      rcases copyFor_cons id candidate rest hformed hbranch with
        ⟨failure, hrun, _⟩ | ⟨log', hrun, hok⟩
      · rw [hrun, hafter]
        refine ⟨[⟨sheet.branches.nextId, bindings⟩], hcopied, ?_, nofun⟩
        intro copy hcopy
        rw [List.mem_singleton.1 hcopy]
        exact ⟨candidate, List.mem_cons_self, hadopting⟩
      · rw [hrun, hafter]
        obtain ⟨copies, hcopies, hsome, hall⟩ :=
          ih { sheet with branches := branches, log := log' } hformed' hbranch'
        refine ⟨⟨sheet.branches.nextId, bindings⟩ :: copies, ?_, ?_, ?_⟩
        · rw [hcopies]
          change branches.list ++ copies = _
          rw [hcopied, List.append_assoc]
          rfl
        · intro copy hcopy
          rcases List.mem_cons.1 hcopy with rfl | hcopy
          · exact ⟨candidate, List.mem_cons_self, hadopting⟩
          · obtain ⟨other, hother, hlater⟩ := hsome copy hcopy
            exact ⟨other, List.mem_cons_of_mem _ hother, hlater⟩
        · intro hend
          exact .cons (hadopted hok) (hall hend)

/-- What becomes of a branch whose candidates are taken over: the first one replaces it, and each
other one gets a copy. -/
theorem takeOver_adopting (id : Nat) (first : Solution K) (rest : List (Solution K))
    (sheet : Worksheet K σ) (hformed : sheet.branches.WellFormed)
    (hbranch : sheet.branches.list[index]? = some branch) :
    ∃ bindings copies, (outcome (do
          copyFor id index rest
          adopt first index
          pure true : Action K σ Bool) sheet).2.branches.list =
        sheet.branches.list.set index ⟨branch.id, bindings⟩ ++ copies ∧
      Adopting first branch.bindings bindings ∧
      (∀ copy ∈ copies, ∃ candidate ∈ rest, Adopting candidate branch.bindings copy.bindings) ∧
      ((outcome (do
          copyFor id index rest
          adopt first index
          pure true : Action K σ Bool) sheet).1 = .ok true →
        Adopted first branch.bindings bindings ∧
        List.Forall₂ (fun candidate copy => Adopted candidate branch.bindings copy.bindings)
          rest copies) := by
  obtain ⟨copies, hlist, hsome, hall⟩ := copyFor_adopting id rest sheet hformed hbranch
  obtain ⟨branches, log, hcopies, _, hformed', hbranch'⟩ :=
    outcome_copyFor id rest sheet hformed hbranch
  rcases outcome_bind_cases (copyFor id index rest : Action K σ Unit)
    (fun _ => do adopt first index; pure true) sheet with
    ⟨cause, middle, hrun, hend⟩ | ⟨x, middle, hrun, hend⟩
  · rw [hrun] at hlist
    rw [hend]
    refine ⟨branch.bindings, copies, ?_, .refl first _, hsome, nofun⟩
    rw [set_same hbranch]
    exact hlist
  · rw [hrun] at hcopies hlist hall
    change middle = _ at hcopies
    subst hcopies
    obtain ⟨bindings, hreplaced, hadopting, hadopted⟩ := adopt_adopting first
      { sheet with branches := branches, log := log } hformed' hbranch'
    have hlt := (List.getElem?_eq_some_iff.1 hbranch).1
    refine ⟨bindings, copies, ?_, hadopting, hsome, ?_⟩
    · rw [hend, outcome_bind_pure, hreplaced]
      change branches.list.set index _ = _
      rw [show branches.list = sheet.branches.list ++ copies from hlist,
        List.set_append_left _ _ hlt]
    · intro hok
      rw [hend] at hok
      refine ⟨hadopted ?_, hall rfl⟩
      rcases outcome_bind_cases (adopt first index : Action K σ Unit) (fun _ => pure true)
        { sheet with branches := branches, log := log } with
        ⟨cause, after, _, hfailed⟩ | ⟨_, after, hran, _⟩
      · rw [hfailed] at hok
        cases hok
      · rw [hran]

end Adoption

section Attempts

variable {id index : Nat} {subset : List (Relation K)} {branch : Branch K} {sheet : Worksheet K σ}

omit [Scalar K] in
/-- Of the branches after candidates were taken over, those with the identity of the branch or a new
one are the replaced branch and the copies. -/
theorem mem_family (hformed : sheet.branches.WellFormed)
    (hbranch : sheet.branches.list[index]? = some branch) {replaced other : Branch K}
    {copies : List (Branch K)}
    (hother : other ∈ sheet.branches.list.set index replaced ++ copies)
    (hfamily : other.id = branch.id ∨ sheet.branches.nextId ≤ other.id) :
    other = replaced ∨ other ∈ copies := by
  rcases List.mem_append.1 hother with hold | hcopy
  · obtain ⟨i, hi⟩ := List.mem_iff_getElem?.1 hold
    rw [List.getElem?_set] at hi
    split at hi
    · split at hi
      · exact Or.inl (Option.some.inj hi).symm
      · cases hi
    · rename_i hne
      rcases hfamily with hid | hnew
      · exact absurd (hformed.index_unique hbranch hi hid.symm) hne
      · have hfresh := hformed.fresh other (List.mem_of_getElem? hi)
        omega
  · exact Or.inr hcopy

/-- However an attempt ends, the branch and its copies are as the branch was, or on the way to adopt
a candidate that resolves variables. -/
theorem resolveBy_adopting (hformed : sheet.branches.WellFormed)
    (hbranch : branch ∈ sheet.branches.list) {other : Branch K}
    (hother : other ∈ (outcome (resolveBy branch.id subset) sheet).2.branches.list)
    (hfamily : other.id = branch.id ∨ sheet.branches.nextId ≤ other.id) :
    other = branch ∨ ∃ candidates, sheet.reply subset = .ok (.solved candidates) ∧
      ∃ candidate ∈ candidates.filter isNumeric,
        Adopting candidate branch.bindings other.bindings := by
  have hsame (hmem : other ∈ sheet.branches.list) : other = branch :=
    hformed.eq_of_family hbranch hmem hfamily
  have hstep := attempt_resolveBy branch.id subset sheet
  generalize outcome (resolveBy branch.id subset) sheet = run at hstep hother
  cases hstep with
  | idle => exact Or.inl (hsame hother)
  | failed => exact Or.inl (hsame hother)
  | undecided => exact Or.inl (hsame hother)
  | refused => exact Or.inl (hsame hother)
  | inconsistent => exact Or.inl (hsame hother)
  | @resolved candidates rest first index _ hreply hnumeric hindex =>
      right
      obtain ⟨found, hfound, hid⟩ := Branches.indexOf?_some hindex
      obtain rfl := hformed.branch_unique (List.mem_of_getElem? hfound) hbranch hid
      obtain ⟨bindings, copies, hlist, hfirst, hcopies, _⟩ :=
        takeOver_adopting found.id first rest (sheet.consulted subset) hformed hfound
      rw [hlist] at hother
      refine ⟨candidates, hreply, ?_⟩
      rw [hnumeric]
      rcases mem_family hformed hfound hother hfamily with rfl | hcopy
      · exact ⟨first, List.mem_cons_self, hfirst⟩
      · obtain ⟨candidate, hcandidate, hadopting⟩ := hcopies other hcopy
        exact ⟨candidate, List.mem_cons_of_mem _ hcandidate, hadopting⟩

/-- An attempt that resolves variables makes the branch and one copy for each further candidate out
of the branch, each by adopting its candidate. -/
theorem resolveBy_adopted (hformed : sheet.branches.WellFormed) {after : Worksheet K σ}
    (hrun : outcome (resolveBy id subset) sheet = (.ok true, after)) :
    ∃ candidates index branch bindings copies,
      sheet.reply subset = .ok (.solved candidates) ∧
      sheet.branches.list[index]? = some branch ∧ branch.id = id ∧
      after.branches.list = sheet.branches.list.set index ⟨id, bindings⟩ ++ copies ∧
      List.Forall₂ (Adopted · branch.bindings ·) (candidates.filter isNumeric)
        (bindings :: copies.map Branch.bindings) := by
  have hstep := attempt_resolveBy id subset sheet
  rw [hrun] at hstep
  generalize hpair : ((.ok true, after) : Except (Failure K) Bool × Worksheet K σ) = run at hstep
  cases hstep with
  | idle => cases hpair
  | failed => cases hpair
  | undecided => cases hpair
  | refused => cases hpair
  | inconsistent => cases hpair
  | @resolved candidates rest first index _ hreply hnumeric hindex =>
      obtain ⟨found, hfound, rfl⟩ := Branches.indexOf?_some hindex
      obtain ⟨bindings, copies, hlist, _, _, hall⟩ :=
        takeOver_adopting found.id first rest (sheet.consulted subset) hformed hfound
      rw [← hpair] at hlist hall
      obtain ⟨hfirst, hrest⟩ := hall rfl
      refine ⟨candidates, index, found, bindings, copies, hreply, hfound, rfl, hlist, ?_⟩
      rw [hnumeric]
      exact .cons hfirst (List.forall₂_map_right_iff.2 hrest)

/-- After an attempt that resolves variables, each branch of the family has adopted a candidate. -/
theorem resolveBy_family (hformed : sheet.branches.WellFormed)
    (hbranch : branch ∈ sheet.branches.list) {after : Worksheet K σ} {other : Branch K}
    (hrun : outcome (resolveBy branch.id subset) sheet = (.ok true, after))
    (hother : other ∈ after.branches.list)
    (hfamily : other.id = branch.id ∨ sheet.branches.nextId ≤ other.id) :
    ∃ candidates candidate, sheet.reply subset = .ok (.solved candidates) ∧
      candidate ∈ candidates ∧ isNumeric candidate = true ∧
      Adopted candidate branch.bindings other.bindings := by
  obtain ⟨candidates, index, found, bindings, copies, hreply, hfound, hid, hlist, hall⟩ :=
    resolveBy_adopted hformed hrun
  obtain rfl := hformed.branch_unique (List.mem_of_getElem? hfound) hbranch hid
  rw [hlist] at hother
  have hmember : other.bindings ∈ bindings :: copies.map Branch.bindings := by
    rcases mem_family hformed hfound hother hfamily with rfl | hcopy
    · exact List.mem_cons_self
    · exact List.mem_cons_of_mem _ (List.mem_map_of_mem hcopy)
  obtain ⟨candidate, hcandidate, hadopted⟩ := exists_left_of_forall₂ hall hmember
  obtain ⟨hcandidate, hnumeric⟩ := List.mem_filter.1 hcandidate
  exact ⟨candidates, candidate, hreply, hcandidate, hnumeric, hadopted⟩

end Attempts

end Worksheet

end Ramify
