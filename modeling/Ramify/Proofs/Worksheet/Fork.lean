import Ramify.Proofs.Branches.Operations
import Ramify.Proofs.Solver.RealRoots
import Ramify.Proofs.Solver.Shape
import Ramify.Proofs.Worksheet.Adopt
import Ramify.Proofs.Worksheet.Isolation
import Ramify.Proofs.Worksheet.Rational

/-!
What an attempt leaves of the branches, to the last binding. A branch that is resolved goes over to
the first candidate, and each further candidate joins with a copy; all values are read from the
branch as it was. If a value cannot be substituted, the attempt ends there: the copies made before
it and the names written before it stay.
-/

namespace Ramify

namespace Branches

variable {K : Type}

def replacing (branches : Branches K) (index : Nat) (branch : Branch K) : Branches K :=
  { branches with list := branches.list.set index branch }

/-- The branches with new ones behind the last, for which identities have been given out. -/
def joinedBy (branches : Branches K) (copies : List (Branch K)) : Branches K :=
  { branches with
    list := branches.list ++ copies
    nextId := branches.nextId + copies.length
    locked := branches.locked || !copies.isEmpty }

variable {branches : Branches K} {index : Nat} {branch : Branch K}

theorem replacing_same (hbranch : branches.list[index]? = some branch) :
    branches.replacing index branch = branches := by
  unfold replacing
  rw [Worksheet.set_same hbranch]

theorem replacing_write (hbranch : branches.list[index]? = some branch) (name : String)
    (value : Fraction K) (other : Branch K) :
    (branches.write index name value).replacing index other = branches.replacing index other := by
  have hlist := Worksheet.list_write hbranch name value
  unfold replacing
  rw [hlist, List.set_set]
  rfl

theorem joinedBy_nil (branches : Branches K) : branches.joinedBy [] = branches := by
  simp [joinedBy]

theorem joinedBy_eq_self_iff {copies : List (Branch K)} :
    branches.joinedBy copies = branches ↔ copies = [] := by
  constructor
  · intro h
    exact List.append_right_eq_self.1 (congrArg Branches.list h)
  · rintro rfl
    exact joinedBy_nil branches

/-- Nothing has changed exactly if no branch has joined and the replaced one is as it was. -/
theorem replacing_joinedBy_eq_self_iff (hbranch : branches.list[index]? = some branch)
    {bindings : Bindings K} {copies : List (Branch K)} :
    (branches.replacing index ⟨branch.id, bindings⟩).joinedBy copies = branches ↔
      copies = [] ∧ bindings = branch.bindings := by
  constructor
  · intro h
    have hlist : branches.list.set index ⟨branch.id, bindings⟩ ++ copies = branches.list :=
      congrArg Branches.list h
    have hlength := congrArg List.length hlist
    rw [List.length_append, List.length_set, Nat.add_eq_left] at hlength
    obtain rfl := List.eq_nil_of_length_eq_zero hlength
    rw [List.append_nil] at hlist
    have hthere := List.getElem?_set_self (a := ⟨branch.id, bindings⟩)
      (List.getElem?_eq_some_iff.1 hbranch).1
    rw [hlist, hbranch] at hthere
    exact ⟨rfl, (congrArg Branch.bindings (Option.some.inj hthere)).symm⟩
  · rintro ⟨rfl, rfl⟩
    rw [joinedBy_nil, replacing_same hbranch]

theorem joinedBy_cons (branches : Branches K) (copy : Branch K) (copies : List (Branch K)) :
    (branches.joinedBy [copy]).joinedBy copies = branches.joinedBy (copy :: copies) := by
  simp [joinedBy, Nat.add_assoc, Nat.add_comm]

/-- A copy that has been rewritten is a new branch. -/
theorem replacing_forked (branches : Branches K) (branch : Branch K) (bindings : Bindings K) :
    (branches.forked branch).replacing branches.count ⟨branches.nextId, bindings⟩ =
      branches.joinedBy [⟨branches.nextId, bindings⟩] := by
  simp [replacing, joinedBy, forked, count]

theorem replacing_joinedBy (hinside : index < branches.count) (branch : Branch K)
    (copies : List (Branch K)) :
    (branches.joinedBy copies).replacing index branch =
      (branches.replacing index branch).joinedBy copies := by
  unfold replacing joinedBy
  rw [List.set_append_left _ _ hinside]

end Branches

namespace Worksheet

variable {K σ : Type} [Scalar K]

/-- Bindings have adopted a candidate in some names: these have the values that their old ones are
turned into, and all others are as they were. -/
structure AdoptedIn (candidate : Solution K) (names : List String) (old new : Bindings K) :
    Prop where
  turned : ∀ name ∈ names, ∃ start value, old.find? name = some start ∧
    adopted candidate name start = .ok value ∧ new.find? name = some value
  kept : ∀ name, name ∉ names → new.find? name = old.find? name

/-- How the adoption of a candidate in some names can end, and the bindings that it leaves. -/
inductive Adoption (candidate : Solution K) (names : List String) (old : Bindings K) :
    Except (Failure K) Unit → Bindings K → Prop
  /-- Every name has been turned. -/
  | completed {new : Bindings K} (hnew : AdoptedIn candidate names old new) :
    Adoption candidate names old (.ok ()) new
  /-- A value cannot be substituted; the names before it have been turned. -/
  | stopped {earlier later : List String} {name : String} {start : Fraction K}
    {cause : AlgebraError} {new : Bindings K} (hnames : names = earlier ++ name :: later)
    (hstart : old.find? name = some start) (hcause : adopted candidate name start = .error cause)
    (hnew : AdoptedIn candidate earlier old new) :
    Adoption candidate names old (.error (.algebra cause)) new

/-- New branches, one for each of some candidates, that have adopted them. -/
structure Copied (names : List String) (old : Bindings K) (nextId : Nat)
    (candidates : List (Solution K)) (copies : List (Branch K)) : Prop where
  ids : copies.map Branch.id = List.range' nextId candidates.length
  adopted : List.Forall₂ (fun candidate copy => AdoptedIn candidate names old copy.bindings)
    candidates copies

/-- How a series of copies can end, and the new branches that it leaves. -/
inductive Copying (names : List String) (old : Bindings K) (nextId : Nat)
    (candidates : List (Solution K)) : Except (Failure K) Unit → List (Branch K) → Prop
  /-- Each candidate has its copy. -/
  | completed {copies : List (Branch K)} (hcopies : Copied names old nextId candidates copies) :
    Copying names old nextId candidates (.ok ()) copies
  /-- A candidate cannot be adopted; its copy has been made, and so have those before it. -/
  | stopped {earlier later : List (Solution K)} {candidate : Solution K}
    {copies : List (Branch K)} {failure : Failure K} {bindings : Bindings K}
    (hcandidates : candidates = earlier ++ candidate :: later)
    (hcopies : Copied names old nextId earlier copies)
    (hadoption : Adoption candidate names old (.error failure) bindings) :
    Copying names old nextId candidates (.error failure)
      (copies ++ [⟨nextId + earlier.length, bindings⟩])

section Adoptions

variable {candidate : Solution K} {name : String} {names : List String} {start value : Fraction K}
  {old new : Bindings K} {result : Except (Failure K) Unit}

theorem AdoptedIn.none (candidate : Solution K) (old : Bindings K) :
    AdoptedIn candidate [] old old :=
  ⟨fun _ hname => (List.not_mem_nil hname).elim, fun _ _ => rfl⟩

/-- Turning one more name first makes no difference to the others. -/
theorem AdoptedIn.cons (hstart : old.find? name = some start)
    (hvalue : Worksheet.adopted candidate name start = .ok value) (hfresh : name ∉ names)
    (h : AdoptedIn candidate names (old.insert name value) new) :
    AdoptedIn candidate (name :: names) old new where
  turned := by
    intro other hother
    rcases List.mem_cons.1 hother with rfl | hother
    · refine ⟨start, value, hstart, hvalue, ?_⟩
      rw [h.kept other hfresh, SortedMap.find?_insert_self]
    · have hne : name ≠ other := by
        rintro rfl
        exact hfresh hother
      obtain ⟨first, last, hfirst, hturned, hlast⟩ := h.turned other hother
      rw [SortedMap.find?_insert, if_neg hne] at hfirst
      exact ⟨first, last, hfirst, hturned, hlast⟩
  kept := by
    intro other hother
    rw [List.mem_cons, not_or] at hother
    rw [h.kept other hother.2, SortedMap.find?_insert, if_neg (Ne.symm hother.1)]

theorem Adoption.cons (hstart : old.find? name = some start)
    (hvalue : Worksheet.adopted candidate name start = .ok value) (hfresh : name ∉ names)
    (h : Adoption candidate names (old.insert name value) result new) :
    Adoption candidate (name :: names) old result new := by
  cases h with
  | completed hnew => exact .completed (hnew.cons hstart hvalue hfresh)
  | @stopped earlier later other first cause _ hnames hfirst hcause hnew =>
      subst hnames
      rw [List.mem_append, List.mem_cons, not_or, not_or] at hfresh
      rw [SortedMap.find?_insert, if_neg hfresh.2.1] at hfirst
      exact .stopped rfl hfirst hcause (hnew.cons hstart hvalue hfresh.1)

variable {index : Nat} {branch : Branch K}

/-- Adopting a candidate name by name. No name occurs twice, so each value is read from the branch
as it was. -/
theorem adoption_adoptEach (candidate : Solution K) (names : List String) (sheet : Worksheet K σ)
    (hformed : sheet.branches.WellFormed) (hbranch : sheet.branches.list[index]? = some branch)
    (hnames : ∀ name ∈ names, name ∈ sheet.branches.names) (hdistinct : names.Nodup) :
    ∃ bindings log, (outcome (adoptEach candidate index names) sheet).2 =
        { sheet with
          branches := sheet.branches.replacing index ⟨branch.id, bindings⟩, log := log } ∧
      Adoption candidate names branch.bindings
        (outcome (adoptEach candidate index names) sheet).1 bindings := by
  induction names generalizing sheet branch with
  | nil =>
      refine ⟨branch.bindings, sheet.log, ?_, .completed (.none candidate _)⟩
      rw [Branches.replacing_same hbranch]
      rfl
  | cons name rest ih =>
      obtain ⟨hfresh, hrest⟩ := List.nodup_cons.1 hdistinct
      have hname := hnames name List.mem_cons_self
      obtain ⟨start, hstart⟩ := hformed.exists_value (List.mem_of_getElem? hbranch) hname
      cases hvalue : Worksheet.adopted candidate name start with
      | error cause =>
          rw [outcome_adoptEach_error hformed hbranch hname hstart hvalue]
          refine ⟨branch.bindings, sheet.log, ?_,
            .stopped (List.nil_append _).symm hstart hvalue (.none candidate _)⟩
          rw [Branches.replacing_same hbranch]
      | ok value =>
          obtain ⟨log, hstep⟩ := outcome_adoptEach_ok hformed hbranch hname hstart hvalue rest
          have hwritten : (sheet.branches.write index name value).list[index]? =
              some ⟨branch.id, branch.bindings.insert name value⟩ := by
            rw [list_write hbranch,
              List.getElem?_set_self (List.getElem?_eq_some_iff.1 hbranch).1]
          obtain ⟨bindings, log', hafter, hadoption⟩ :=
            ih { sheet with branches := sheet.branches.write index name value, log := log }
              (hformed.write hname index value) hwritten
              (fun other hother => hnames other (List.mem_cons_of_mem _ hother)) hrest
          rw [hstep]
          refine ⟨bindings, log', ?_, hadoption.cons hstart hvalue hfresh⟩
          rw [hafter]
          dsimp only
          rw [Branches.replacing_write hbranch]

theorem adoption_adopt (candidate : Solution K) (sheet : Worksheet K σ)
    (hformed : sheet.branches.WellFormed) (hdistinct : sheet.branches.names.Nodup)
    (hbranch : sheet.branches.list[index]? = some branch) :
    ∃ bindings log, (outcome (adopt candidate index) sheet).2 =
        { sheet with
          branches := sheet.branches.replacing index ⟨branch.id, bindings⟩, log := log } ∧
      Adoption candidate sheet.branches.names branch.bindings
        (outcome (adopt candidate index) sheet).1 bindings :=
  adoption_adoptEach candidate sheet.branches.names sheet hformed hbranch (fun _ hname => hname)
    hdistinct

end Adoptions

section Copies

variable {names : List String} {old bindings : Bindings K} {nextId : Nat} {candidate : Solution K}
  {candidates : List (Solution K)} {copies : List (Branch K)} {result : Except (Failure K) Unit}

theorem Copied.cons (hcopy : AdoptedIn candidate names old bindings)
    (h : Copied names old (nextId + 1) candidates copies) :
    Copied names old nextId (candidate :: candidates) (⟨nextId, bindings⟩ :: copies) where
  ids := by
    rw [List.map_cons, h.ids]
    rfl
  adopted := .cons hcopy h.adopted

theorem Copied.eq_nil_iff (h : Copied names old nextId candidates copies) :
    copies = [] ↔ candidates = [] := by
  rw [← List.length_eq_zero_iff, ← List.length_eq_zero_iff, h.adopted.length_eq]

theorem Copying.cons (hcopy : AdoptedIn candidate names old bindings)
    (h : Copying names old (nextId + 1) candidates result copies) :
    Copying names old nextId (candidate :: candidates) result (⟨nextId, bindings⟩ :: copies) := by
  cases h with
  | completed hcopies => exact .completed (hcopies.cons hcopy)
  | @stopped earlier later other made failure half hcandidates hcopies hadoption =>
      subst hcandidates
      have h : Copying names old nextId (candidate :: (earlier ++ other :: later)) (.error failure)
          _ := .stopped List.cons_append.symm (hcopies.cons hcopy) hadoption
      rw [List.length_cons, Nat.add_comm _ 1, ← Nat.add_assoc] at h
      exact h

variable {index : Nat} {branch : Branch K}

/-- A series of copies adds branches behind the others, all made from the branch as it was. -/
theorem copying_copyFor (id : Nat) (candidates : List (Solution K)) (sheet : Worksheet K σ)
    (hformed : sheet.branches.WellFormed) (hdistinct : sheet.branches.names.Nodup)
    (hbranch : sheet.branches.list[index]? = some branch) :
    ∃ copies log, (outcome (copyFor id index candidates) sheet).2 =
        { sheet with branches := sheet.branches.joinedBy copies, log := log } ∧
      Copying sheet.branches.names branch.bindings sheet.branches.nextId candidates
        (outcome (copyFor id index candidates) sheet).1 copies := by
  induction candidates generalizing sheet with
  | nil =>
      refine ⟨[], sheet.log, ?_, .completed ⟨rfl, .nil⟩⟩
      rw [Branches.joinedBy_nil]
      rfl
  | cons candidate rest ih =>
      obtain ⟨_, _, hstate, _, hformed', hbranch'⟩ := outcome_copy_adopt candidate hformed hbranch
      obtain ⟨bindings, log, hafter, hadoption⟩ := adoption_adopt candidate
        { sheet with branches := sheet.branches.forked branch }
        (hformed.forked (List.mem_of_getElem? hbranch)) hdistinct
        (Branches.getElem?_forked_new sheet.branches branch)
      dsimp only at hafter
      -- the copy stands behind all other branches, so it has joined them with its new bindings
      rw [Branches.replacing_forked] at hafter
      obtain rfl := congrArg Worksheet.branches (hstate.symm.trans hafter)
      rcases copyFor_cons id candidate rest hformed hbranch with
        ⟨failure, hrun, hfailed⟩ | ⟨log', hrun, hok⟩
      · rw [hfailed] at hadoption
        rw [hrun, hafter]
        exact ⟨_, log, rfl, .stopped (List.nil_append _).symm ⟨rfl, .nil⟩ hadoption⟩
      · rw [hok] at hadoption
        cases hadoption with
        | completed hadopted =>
            obtain ⟨copies, log'', hrest, hcopying⟩ := ih
              { sheet with
                branches := sheet.branches.joinedBy [⟨sheet.branches.nextId, bindings⟩]
                log := log' } hformed' hdistinct hbranch'
            rw [hrun, hafter]
            refine ⟨⟨sheet.branches.nextId, bindings⟩ :: copies, log'', ?_, hcopying.cons hadopted⟩
            rw [hrest]
            dsimp only
            rw [Branches.joinedBy_cons]

end Copies

/-- How a branch can take over the candidates of an answer, and the branches that are left. -/
inductive TakesOver (branches : Branches K) (index : Nat) (branch : Branch K)
    (first : Solution K) (rest : List (Solution K)) :
    Except (Failure K) Bool → Branches K → Prop
  /-- The branch has adopted the first candidate, and a copy each of the others. -/
  | completed {bindings : Bindings K} {copies : List (Branch K)}
    (hbindings : AdoptedIn first branches.names branch.bindings bindings)
    (hcopies : Copied branches.names branch.bindings branches.nextId rest copies) :
    TakesOver branches index branch first rest (.ok true)
      ((branches.replacing index ⟨branch.id, bindings⟩).joinedBy copies)
  /-- A copy cannot adopt its candidate; the branch itself is as it was. -/
  | stoppedInCopy {copies : List (Branch K)} {failure : Failure K}
    (hcopies : Copying branches.names branch.bindings branches.nextId rest (.error failure)
      copies) :
    TakesOver branches index branch first rest (.error failure) (branches.joinedBy copies)
  /-- All copies have been made, but the branch cannot adopt the first candidate. -/
  | stoppedInBranch {bindings : Bindings K} {copies : List (Branch K)} {failure : Failure K}
    (hbindings : Adoption first branches.names branch.bindings (.error failure) bindings)
    (hcopies : Copied branches.names branch.bindings branches.nextId rest copies) :
    TakesOver branches index branch first rest (.error failure)
      ((branches.replacing index ⟨branch.id, bindings⟩).joinedBy copies)

section TakingOver

variable {id index : Nat} {branch : Branch K}

theorem Copying.completed_of_ok {names : List String} {old : Bindings K} {nextId : Nat}
    {candidates : List (Solution K)} {copies : List (Branch K)}
    (h : Copying names old nextId candidates (.ok ()) copies) :
    Copied names old nextId candidates copies := by
  cases h with
  | completed hcopies => exact hcopies

/-- The copies are made before the branch itself is rewritten. -/
theorem takesOver (first : Solution K) (rest : List (Solution K)) (sheet : Worksheet K σ)
    (hconsistent : sheet.branches.Consistent)
    (hbranch : sheet.branches.list[index]? = some branch) :
    let run := outcome (do
      copyFor id index rest
      adopt first index
      pure true : Action K σ Bool) sheet
    TakesOver sheet.branches index branch first rest run.1 run.2.branches := by
  intro run
  have hformed := hconsistent.toWellFormed
  have hinside := (List.getElem?_eq_some_iff.1 hbranch).1
  obtain ⟨copies, log, hcopies, hcopying⟩ :=
    copying_copyFor id rest sheet hformed hconsistent.distinct hbranch
  obtain ⟨_, _, hstate, _, hformed', hbranch'⟩ := outcome_copyFor id rest sheet hformed hbranch
  obtain rfl := congrArg Worksheet.branches (hstate.symm.trans hcopies)
  rcases outcome_bind_cases (copyFor id index rest : Action K σ Unit)
    (fun _ => do adopt first index; pure true) sheet with
    ⟨failure, middle, hcopied, hend⟩ | ⟨_, middle, hcopied, hend⟩
  · rw [hcopied] at hcopies hcopying
    obtain rfl : middle = _ := hcopies
    have hrun : run = _ := hend
    rw [hrun]
    exact .stoppedInCopy hcopying
  · rw [hcopied] at hcopies hcopying
    obtain rfl : middle = _ := hcopies
    obtain ⟨bindings, log', hafter, hadoption⟩ := adoption_adopt first
      { sheet with branches := sheet.branches.joinedBy copies, log := log } hformed'
      hconsistent.distinct hbranch'
    dsimp only at hafter
    rw [Branches.replacing_joinedBy hinside] at hafter
    have hrun : run = _ := hend
    rcases outcome_bind_cases (adopt first index : Action K σ Unit) (fun _ => pure true)
      { sheet with branches := sheet.branches.joinedBy copies, log := log } with
      ⟨failure, after, hadopt, hlast⟩ | ⟨_, after, hadopt, hlast⟩
    · rw [hadopt] at hafter hadoption
      obtain rfl : after = _ := hafter
      rw [hrun, hlast]
      exact .stoppedInBranch hadoption hcopying.completed_of_ok
    · rw [hadopt] at hafter hadoption
      obtain rfl : after = _ := hafter
      rw [hrun, hlast]
      cases hadoption with
      | completed hbindings => exact .completed hbindings hcopying.completed_of_ok

end TakingOver

section Attempts

variable {id : Nat} {subset : List (Relation K)} {sheet : Worksheet K σ}

/-- An attempt that resolves variables, or fails after the engine has listed candidates that do, has
taken them over as far as it came. -/
theorem takesOver_resolveBy (hconsistent : sheet.branches.Consistent)
    {candidates rest : List (Solution K)} {first : Solution K}
    (hreply : sheet.reply subset = .ok (.solved candidates))
    (hnumeric : candidates.filter isNumeric = first :: rest)
    (hends : (outcome (resolveBy id subset) sheet).1 ≠ .ok false) :
    ∃ index branch, sheet.branches.list[index]? = some branch ∧ branch.id = id ∧
      TakesOver sheet.branches index branch first rest (outcome (resolveBy id subset) sheet).1
        (outcome (resolveBy id subset) sheet).2.branches := by
  have hstep := attempt_resolveBy id subset sheet
  generalize outcome (resolveBy id subset) sheet = run at hstep hends ⊢
  cases hstep with
  | idle => exact absurd rfl hends
  | undecided => exact absurd rfl hends
  | inconsistent => exact absurd rfl hends
  | failed _ hfailed =>
      rw [hreply] at hfailed
      cases hfailed
  | refused _ hdenied =>
      rw [hreply] at hdenied
      cases hdenied
  | @resolved _ _ _ index _ hsolved hfilter hindex =>
      rw [hreply] at hsolved
      cases hsolved
      rw [hnumeric] at hfilter
      cases hfilter
      obtain ⟨branch, hbranch, hid⟩ := Branches.indexOf?_some hindex
      exact ⟨index, branch, hbranch, hid,
        takesOver first rest (sheet.consulted subset) hconsistent hbranch⟩

/-- Only candidates that resolve variables make an attempt say that it did. -/
theorem exists_numeric_of_resolved (h : (outcome (resolveBy id subset) sheet).1 = .ok true) :
    ∃ candidates first rest, sheet.reply subset = .ok (.solved candidates) ∧
      candidates.filter isNumeric = first :: rest := by
  have hstep := attempt_resolveBy id subset sheet
  generalize outcome (resolveBy id subset) sheet = run at hstep h
  cases hstep with
  | idle => cases h
  | failed => cases h
  | undecided => cases h
  | refused => cases h
  | inconsistent => cases h
  | resolved _ hreply hnumeric => exact ⟨_, _, _, hreply, hnumeric⟩

end Attempts

/-- The effect of an attempt on the branches. If it resolves variables, the branch has adopted the
first of the candidates that do, and behind the last branch there is a new one for each other
candidate, in their order, that has adopted it instead; both are made from the bindings that the
branch had before. Nothing else changes, and nothing at all if no variable is resolved. -/
theorem resolved_branch_adopts_and_forks (id : Nat) (subset : List (Relation K))
    (sheet : Worksheet K σ) (hconsistent : sheet.branches.Consistent) :
    let run := outcome (resolveBy id subset) sheet
    (run.1 = .ok true →
      ∃ candidates first rest, sheet.reply subset = .ok (.solved candidates) ∧
        candidates.filter isNumeric = first :: rest ∧
      ∃ index branch bindings copies, sheet.branches.list[index]? = some branch ∧
        branch.id = id ∧
        AdoptedIn first sheet.branches.names branch.bindings bindings ∧
        List.Forall₂
          (fun candidate copy =>
            AdoptedIn candidate sheet.branches.names branch.bindings copy.bindings) rest copies ∧
        copies.map Branch.id = List.range' sheet.branches.nextId rest.length ∧
        (∀ copy ∈ copies, ∀ other ∈ sheet.branches.list, copy.id ≠ other.id) ∧
        run.2.branches =
          { sheet.branches with
            list := sheet.branches.list.set index ⟨id, bindings⟩ ++ copies
            nextId := sheet.branches.nextId + rest.length
            locked := sheet.branches.locked || !rest.isEmpty }) ∧
    (run.1 = .ok false → run.2.branches = sheet.branches) := by
  intro run
  refine ⟨fun hresolved => ?_, fun hidle => ?_⟩
  · obtain ⟨candidates, first, rest, hreply, hnumeric⟩ := exists_numeric_of_resolved hresolved
    refine ⟨candidates, first, rest, hreply, hnumeric, ?_⟩
    obtain ⟨index, branch, hbranch, rfl, htaken⟩ :=
      takesOver_resolveBy hconsistent hreply hnumeric (by rw [hresolved]; nofun)
    change TakesOver _ _ _ _ _ run.1 run.2.branches at htaken
    rw [hresolved] at htaken
    generalize run.2.branches = after at htaken ⊢
    cases htaken with
    | @completed bindings copies hbindings hcopies =>
        refine ⟨index, branch, bindings, copies, hbranch, rfl, hbindings, hcopies.adopted,
          hcopies.ids, ?_, ?_⟩
        · intro copy hcopy other hother
          have hid : copy.id ∈ copies.map Branch.id := List.mem_map.2 ⟨copy, hcopy, rfl⟩
          rw [hcopies.ids, List.mem_range'_1] at hid
          have hold := hconsistent.fresh other hother
          omega
        · have hlength := hcopies.adopted.length_eq
          have hempty : copies.isEmpty = rest.isEmpty := by
            rw [Bool.eq_iff_iff, List.isEmpty_iff, List.isEmpty_iff, hcopies.eq_nil_iff]
          unfold Branches.joinedBy
          rw [hempty, ← hlength]
          rfl
  · obtain ⟨branches, _, _, _, hstate, _, _, hkept⟩ :=
      outcome_resolveBy id subset sheet hconsistent.toWellFormed
    rw [show run.2 = _ from hstate]
    exact hkept hidle

section Squares

def squareIs (number : Rat) : Relation Rat :=
  ⟨.ofMonomial (.single 1 ⟨"x", false⟩ 2), .const number, "square"⟩

/-- A worksheet with two variables, the second of which has a value in terms of the first. -/
noncomputable def boundSheet (value : Fraction Rat) : Worksheet Rat Twister :=
  { Rational.sheet RealRoots.exactNumerics ["x", "y"] [] with
    branches := Branches.after [.declare ["x", "y"], .setEverywhere "y" value] .initial }

theorem consistent_boundSheet (value : Fraction Rat) : (boundSheet value).branches.Consistent :=
  (Branches.consistent_after _ Branches.consistent_initial).1

/-- An attempt at this worksheet by the square of the first variable. -/
noncomputable def squareAttempt (value : Fraction Rat) (number : Rat) :
    Except (Failure Rat) Bool × Worksheet Rat Twister :=
  outcome (resolveBy 0 [squareIs number]) (boundSheet value)

def double : Fraction Rat := .ofMonomial (.single 2 ⟨"x", false⟩ 1)

/-- The branch takes the negative root, and a new one the other. -/
theorem roots_of_four_are_adopted :
    rootsOf (squareAttempt double 4).2.branches =
      [(0, some (.const (-2)), some (.const (-4))), (1, some (.const 2), some (.const 4))] ∧
    ∃ first rest,
      (∃ candidates, (boundSheet double).reply [squareIs 4] = .ok (.solved candidates) ∧
        candidates.filter isNumeric = first :: rest) ∧
      ∃ index branch bindings, ∃ copies : List (Branch Rat),
        (boundSheet double).branches.list[index]? = some branch ∧
        AdoptedIn first (boundSheet double).branches.names branch.bindings bindings ∧
        List.Forall₂
          (fun candidate copy => AdoptedIn candidate (boundSheet double).branches.names
            branch.bindings copy.bindings) rest copies ∧
        (squareAttempt double 4).2.branches.list =
          (boundSheet double).branches.list.set index ⟨0, bindings⟩ ++ copies := by
  refine ⟨by decide +kernel, ?_⟩
  have hresult : (squareAttempt double 4).1.toOption = some true := by decide +kernel
  have hresolved : (squareAttempt double 4).1 = .ok true := by
    cases hrun : (squareAttempt double 4).1 with
    | error failure =>
        rw [hrun] at hresult
        cases hresult
    | ok result =>
        rw [hrun] at hresult
        rw [Option.some.inj hresult]
  obtain ⟨candidates, first, rest, hreply, hnumeric, index, branch, bindings, copies, hbranch, _,
      hbindings, hcopies, _, _, hafter⟩ :=
    (resolved_branch_adopts_and_forks 0 [squareIs 4] (boundSheet double)
      (consistent_boundSheet double)).1 hresolved
  exact ⟨first, rest, ⟨candidates, hreply, hnumeric⟩, index, branch, bindings, copies, hbranch,
    hbindings, hcopies, congrArg Branches.list hafter⟩

end Squares

/-- What an attempt leaves if a value cannot be substituted. In a copy, that copy and those before
it have joined, so that there always is a trace. In the branch itself, all copies have joined and
the names before the value have been turned; only without a further candidate and without a change
in those names there is none. -/
theorem failed_attempt_leaves_what_was_written (id : Nat) (subset : List (Relation K))
    (sheet : Worksheet K σ) (hconsistent : sheet.branches.Consistent)
    {candidates rest : List (Solution K)} {first : Solution K}
    (hreply : sheet.reply subset = .ok (.solved candidates))
    (hnumeric : candidates.filter isNumeric = first :: rest) {failure : Failure K}
    (hfailure : (outcome (resolveBy id subset) sheet).1 = .error failure) :
    let after := (outcome (resolveBy id subset) sheet).2.branches
    ∃ index branch, sheet.branches.list[index]? = some branch ∧ branch.id = id ∧
      ((∃ copies, Copying sheet.branches.names branch.bindings sheet.branches.nextId rest
            (.error failure) copies ∧
          after = sheet.branches.joinedBy copies ∧ after ≠ sheet.branches) ∨
        ∃ copies bindings,
          Copied sheet.branches.names branch.bindings sheet.branches.nextId rest copies ∧
          Adoption first sheet.branches.names branch.bindings (.error failure) bindings ∧
          after = (sheet.branches.replacing index ⟨id, bindings⟩).joinedBy copies ∧
          (after = sheet.branches ↔ rest = [] ∧ bindings = branch.bindings)) := by
  intro after
  obtain ⟨index, branch, hbranch, rfl, htaken⟩ :=
    takesOver_resolveBy hconsistent hreply hnumeric (by rw [hfailure]; nofun)
  refine ⟨index, branch, hbranch, rfl, ?_⟩
  change TakesOver _ _ _ _ _ _ after at htaken
  rw [hfailure] at htaken
  generalize after = branches at htaken
  cases htaken with
  | @stoppedInCopy copies _ hcopies =>
      refine Or.inl ⟨copies, hcopies, rfl, ?_⟩
      rw [Ne, Branches.joinedBy_eq_self_iff]
      cases hcopies with
      | stopped => simp
  | @stoppedInBranch bindings copies _ hbindings hcopies =>
      refine Or.inr ⟨copies, bindings, hcopies, hbindings, rfl, ?_⟩
      rw [Branches.replacing_joinedBy_eq_self_iff hbranch]
      rw [hcopies.eq_nil_iff]

section Poles

/-- The quotient of one and the first variable less a number. -/
def poleAt (number : Rat) : Fraction Rat := ⟨1, .ofSymbol ⟨"x", false⟩ - .const number⟩

/-- The cause in the algebra for which an action failed. -/
def algebraicCause {α : Type} : Except (Failure Rat) α → Option AlgebraError
  | .error (.algebra cause) => some cause
  | _ => none

theorem eq_of_algebraicCause {α : Type} {result : Except (Failure Rat) α} {cause : AlgebraError}
    (h : algebraicCause result = some cause) : result = .error (.algebra cause) := by
  unfold algebraicCause at h
  split at h
  · rw [Option.some.inj h]
  · cases h

/-- With a pole at the negative root, the branch keeps the root without the value that depends on
it, and the copy with the other root stays. -/
theorem pole_at_the_first_root_leaves_a_trace :
    (squareAttempt (poleAt (-1)) 1).1 = .error (.algebra (.zeroDivisor .fraction)) ∧
    rootsOf (squareAttempt (poleAt (-1)) 1).2.branches =
      [(0, some (.const (-1)), some (poleAt (-1))), (1, some (.const 1), some (.const (1 / 2)))] ∧
    (squareAttempt (poleAt (-1)) 1).2.branches ≠ (boundSheet (poleAt (-1))).branches := by
  have hfailure : (squareAttempt (poleAt (-1)) 1).1 = .error (.algebra (.zeroDivisor .fraction)) :=
    eq_of_algebraicCause (by decide +kernel)
  refine ⟨hfailure, by decide +kernel, ?_⟩
  have htwo : ((Solver.candidatesOf ((boundSheet (poleAt (-1))).reply [squareIs 1])).filter
      isNumeric).length = 2 := by decide +kernel
  have hsome : Solver.candidatesOf ((boundSheet (poleAt (-1))).reply [squareIs 1]) ≠ [] := by
    intro hnone
    rw [hnone] at htwo
    cases htwo
  obtain ⟨first, rest, hnumeric⟩ := List.exists_cons_of_length_eq_add_one htwo
  have hsecond : rest ≠ [] := by
    rintro rfl
    rw [hnumeric] at htwo
    cases htwo
  obtain ⟨_, _, _, _, ⟨_, _, _, htrace⟩ | ⟨_, _, _, _, _, htrace⟩⟩ :=
    failed_attempt_leaves_what_was_written 0 [squareIs 1] (boundSheet (poleAt (-1)))
      (consistent_boundSheet (poleAt (-1))) (Solver.eq_solved hsome) hnumeric hfailure
  · exact htrace
  · exact fun hsame => hsecond (htrace.1 hsame).1

/-- With a pole at the second root, a copy stays that has the root and not the value that depends on
it, and no variable can be declared any more. -/
theorem pole_at_the_second_root_leaves_a_copy :
    (boundSheet (poleAt 1)).branches.Consistent ∧
    (squareAttempt (poleAt 1) 1).1 = .error (.algebra (.zeroDivisor .fraction)) ∧
    (boundSheet (poleAt 1)).branches.locked = false ∧
    (squareAttempt (poleAt 1) 1).2.branches.locked = true ∧
    rootsOf (boundSheet (poleAt 1)).branches =
      [(0, some (.ofSymbol ⟨"x", false⟩), some (poleAt 1))] ∧
    rootsOf (squareAttempt (poleAt 1) 1).2.branches =
      [(0, some (.ofSymbol ⟨"x", false⟩), some (poleAt 1)),
        (1, some (.const 1), some (poleAt 1))] := by
  refine ⟨consistent_boundSheet _, eq_of_algebraicCause ?_, ?_, ?_, ?_, ?_⟩ <;> decide +kernel

end Poles

end Worksheet

end Ramify
