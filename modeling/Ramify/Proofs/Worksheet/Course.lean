import Mathlib.Logic.Relation
import Ramify.Proofs.Worksheet.Look

/-!
The course of a run. A run visits branches one after the other, solves each in rounds, and goes
through equations and through subsets of relations one after the other. The relations of this module
say from which worksheet such a step sets out, so that a statement about a run can name the moment
at which something was done.
-/

namespace Ramify

section Subsets

variable {α : Type} {chosen elements : List α}

/-- The subsets of a list are sublists. -/
theorem sublist_of_mem_subsets {size : Nat}
    (h : chosen ∈ subsets size elements) : chosen.Sublist elements := by
  induction size, elements using subsets.induct generalizing chosen with
  | case1 elements =>
      rw [subsets, List.mem_singleton] at h
      rw [h]
      exact List.nil_sublist elements
  | case2 size =>
      rw [subsets] at h
      cases h
  | case3 size x rest ihtake ihskip =>
      rw [subsets, List.mem_append] at h
      rcases h with htaken | hskipped
      · obtain ⟨others, hothers, rfl⟩ := List.mem_map.1 htaken
        exact (ihtake hothers).cons_cons x
      · exact (ihskip hskipped).cons x

/-- Every sublist is among the subsets of its size. -/
theorem mem_subsets_of_sublist (h : chosen.Sublist elements) :
    chosen ∈ subsets chosen.length elements := by
  induction h with
  | slnil => exact List.mem_singleton.2 rfl
  | @cons chosen rest x _ ih =>
      cases chosen with
      | nil => exact List.mem_singleton.2 rfl
      | cons y others => exact List.mem_append_right _ ih
  | cons_cons x _ ih => exact List.mem_append_left _ (List.mem_map_of_mem ih)

end Subsets

section Series

variable {ε S α β : Type} {act : α → ExceptT ε (StateM S) β} {goesOn : β → Prop}

/-- A series of actions, one for each element of a list, which goes on while the results allow it,
comes to an element in a state. -/
inductive Reaches (act : α → ExceptT ε (StateM S) β) (goesOn : β → Prop) :
    List α → S → α → S → Prop
  | here (x : α) (rest : List α) (start : S) : Reaches act goesOn (x :: rest) start x start
  | later {x y : α} {rest : List α} {start middle moment : S} {result : β}
    (hstep : outcome (act x) start = (.ok result, middle)) (hgoes : goesOn result)
    (hrest : Reaches act goesOn rest middle y moment) :
    Reaches act goesOn (x :: rest) start y moment

/-- What holds at the start, and is kept by each action after which the series goes on, holds at
every element. -/
theorem Reaches.invariant {I : S → Prop}
    (hkeeps : ∀ x before result after, outcome (act x) before = (.ok result, after) →
      goesOn result → I before → I after)
    {xs : List α} {start moment : S} {y : α} (h : Reaches act goesOn xs start y moment)
    (hstart : I start) : I moment := by
  induction h with
  | here => exact hstart
  | later hstep hgoes _ ih => exact ih (hkeeps _ _ _ _ hstep hgoes hstart)

theorem Reaches.mem {xs : List α} {start moment : S} {y : α}
    (h : Reaches act goesOn xs start y moment) : y ∈ xs := by
  induction h with
  | here => exact List.mem_cons_self
  | later _ _ _ ih => exact List.mem_cons_of_mem _ ih

/-- A search that finds nothing comes to every element, and finds nothing there. -/
theorem reaches_of_anyM {test : α → ExceptT ε (StateM S) Bool} {xs : List α} {start last : S}
    (hrun : outcome (xs.anyM test) start = (.ok false, last)) :
    ∀ x ∈ xs, ∃ moment next, Reaches test (· = false) xs start x moment ∧
      outcome (test x) moment = (.ok false, next) := by
  induction xs generalizing start with
  | nil => exact nofun
  | cons first rest ih =>
      rw [List.anyM] at hrun
      obtain ⟨passed, middle, hstep, hrun⟩ := outcome_bind_eq_ok.1 hrun
      cases passed with
      | true => cases hrun
      | false =>
          intro x hx
          rcases List.mem_cons.1 hx with rfl | hlater
          · exact ⟨start, middle, .here x rest start, hstep⟩
          · obtain ⟨moment, next, hreaches, htest⟩ := ih hrun x hlater
            exact ⟨moment, next, .later hstep rfl hreaches, htest⟩

/-- A search that finds something or fails has come to an element, having found nothing before, and
ends as the test ends there. -/
theorem reaches_of_anyM_ne {test : α → ExceptT ε (StateM S) Bool} {xs : List α} {start last : S}
    {result : Except ε Bool} (hrun : outcome (xs.anyM test) start = (result, last))
    (hresult : result ≠ .ok false) :
    ∃ x moment, Reaches test (· = false) xs start x moment ∧
      outcome (test x) moment = (result, last) := by
  induction xs generalizing start with
  | nil =>
      cases hrun
      exact absurd rfl hresult
  | cons first rest ih =>
      rw [List.anyM] at hrun
      rcases hstep : outcome (test first) start with ⟨failure | passed, middle⟩
      · rw [outcome_bind_error _ hstep] at hrun
        cases hrun
        exact ⟨first, start, .here first rest start, hstep⟩
      rw [outcome_bind_ok _ hstep] at hrun
      cases passed with
      | true =>
          cases hrun
          exact ⟨first, start, .here first rest start, hstep⟩
      | false =>
          obtain ⟨x, moment, hreaches, htest⟩ := ih hrun
          exact ⟨x, moment, .later hstep rfl hreaches, htest⟩

end Series

namespace Worksheet

variable {K σ : Type} [Scalar K]

/-- Solving a branch begins a round with a worksheet: it is the first one, or the attempts of the
round before have resolved variables. -/
inductive RoundAt (id : Nat) : Worksheet K σ → Worksheet K σ → Prop
  | first (sheet : Worksheet K σ) : RoundAt id sheet sheet
  | again {sheet middle after moment : Worksheet K σ} {relations : List (Relation K)}
    (hgather : outcome (gather id sheet.equations []) sheet.quiet = (.ok (some relations), middle))
    (hsweep : outcome ((middle.trials relations).anyM (resolveBy id)) middle = (.ok true, after))
    (hrest : RoundAt id after moment) : RoundAt id sheet moment

/-- A visit to the branches that have not been visited comes to the branch with an identity, and
begins to solve it with a worksheet. -/
inductive VisitAt (limit : Nat) : List Nat → Worksheet K σ → Nat → Worksheet K σ → Prop
  | here {visited : List Nat} {sheet turned : Worksheet K σ} {index id : Nat}
    (hnext : nextUnvisited sheet.branches visited = some (index, id))
    (hturn : outcome (turn index id) sheet = (.ok (), turned)) :
    VisitAt limit visited sheet id turned
  | later {visited : List Nat} {sheet turned middle moment : Worksheet K σ} {index id other : Nat}
    (hnext : nextUnvisited sheet.branches visited = some (index, id))
    (hturn : outcome (turn index id) sheet = (.ok (), turned))
    (hsettle : outcome (settle id limit) turned = (.ok (), middle))
    (hrest : VisitAt limit (id :: visited) middle other moment) :
    VisitAt limit visited sheet other moment

/-- Solving a branch comes to an attempt: it has begun a round, gathered relations, and come to a
subset of them. -/
def TrialAt (id : Nat) (sheet : Worksheet K σ) (subset : List (Relation K))
    (here : Worksheet K σ) : Prop :=
  ∃ moment gathered relations, RoundAt id sheet moment ∧
    outcome (gather id moment.equations []) moment.quiet = (.ok (some relations), gathered) ∧
    Reaches (resolveBy id) (· = false) (gathered.trials relations) gathered subset here

/-- A run comes to an attempt: it has come to visit a branch, and solving the branch comes to the
attempt. -/
def AttemptAt (limit : Nat) (sheet : Worksheet K σ) (id : Nat) (subset : List (Relation K))
    (here : Worksheet K σ) : Prop :=
  ∃ visit, VisitAt limit [] sheet.opened id visit ∧ TrialAt id visit subset here

/-- Solving a branch comes to gather relations with a worksheet: the procedures have left the
branch, in the first round or in one that follows after attempts that resolved variables. -/
inductive FullRoundAt (id : Nat) : Worksheet K σ → Worksheet K σ → Prop
  | first {sheet performed : Worksheet K σ}
    (hperform : outcome (performAll id) sheet = (.ok true, performed)) :
    FullRoundAt id sheet performed
  | again {sheet performed middle after moment : Worksheet K σ} {relations : List (Relation K)}
    (hperform : outcome (performAll id) sheet = (.ok true, performed))
    (hgather : outcome (gather id performed.equations []) performed =
      (.ok (some relations), middle))
    (hsweep : outcome ((middle.trials relations).anyM (resolveBy id)) middle = (.ok true, after))
    (hrest : FullRoundAt id after moment) : FullRoundAt id sheet moment

/-- Solving a branch comes to an attempt, after procedures. -/
def FullTrialAt (id : Nat) (sheet : Worksheet K σ) (subset : List (Relation K))
    (here : Worksheet K σ) : Prop :=
  ∃ moment gathered relations, FullRoundAt id sheet moment ∧
    outcome (gather id moment.equations []) moment = (.ok (some relations), gathered) ∧
    Reaches (resolveBy id) (· = false) (gathered.trials relations) gathered subset here

/-- In the course of a visit a branch splits off from another one. -/
def SplitsOff (limit : Nat) (visited : List Nat) (sheet : Worksheet K σ) (parent child : Nat) :
    Prop :=
  ∃ visit, VisitAt limit visited sheet parent visit ∧ visit.branches.nextId ≤ child ∧
    child < (outcome (settle parent limit) visit).2.branches.nextId

/-- A branch descends from another one in a run: it is the same, or it has split off from one that
descends from it. -/
def Descends (steps : Nat) (sheet : Worksheet K σ) : Nat → Nat → Prop :=
  Relation.ReflTransGen (SplitsOff steps [] sheet.opened)

section Trials

variable {relations subset : List (Relation K)}

omit [Scalar K] in
theorem mem_of_mem_trials {sheet : Worksheet K σ}
    (h : subset ∈ sheet.trials relations) : ∀ r ∈ subset, r ∈ relations := by
  obtain ⟨size, _, hsubset⟩ := List.mem_flatMap.1 h
  exact fun r hr => (sublist_of_mem_subsets hsubset).subset hr

omit [Scalar K] in
/-- A nonempty sublist of the relations that is not too long is tried. -/
theorem mem_trials_of_sublist (sheet : Worksheet K σ)
    (hsub : subset.Sublist relations) (hsome : subset ≠ [])
    (hsize : sheet.options.maxSubset = 0 ∨ subset.length ≤ sheet.options.maxSubset) :
    subset ∈ sheet.trials relations := by
  have hlength := List.length_pos_of_ne_nil hsome
  have hle := hsub.length_le
  refine List.mem_flatMap.2 ⟨subset.length - 1, List.mem_range.2 ?_, ?_⟩
  · unfold largestSubset
    split
    · omega
    · have hbound := hsize.resolve_left ‹_›
      have hmin : subset.length ≤ Nat.min relations.length sheet.options.maxSubset :=
        Nat.le_min.2 ⟨hle, hbound⟩
      omega
  · rw [Nat.sub_add_cancel hlength]
    exact mem_subsets_of_sublist hsub

/-- As long as nothing is resolved, the branches stay as they are. -/
theorem unresolved_of_reaches {id : Nat} {subsets : List (List (Relation K))}
    {sheet here : Worksheet K σ} (hformed : sheet.branches.WellFormed)
    (h : Reaches (resolveBy id) (· = false) subsets sheet subset here) :
    here.branches = sheet.branches ∧ here.engine = sheet.engine := by
  refine Reaches.invariant
    (I := fun later => later.branches = sheet.branches ∧ later.engine = sheet.engine)
    ?_ h ⟨rfl, rfl⟩
  rintro other before result next hstep rfl hbefore
  obtain ⟨_, _, _, rfl⟩ := unresolved_resolveBy (hbefore.1 ▸ hformed) hstep
  exact hbefore

end Trials

/-- The branches whose identities are not among some. -/
def unvisited (branches : Branches K) (visited : List Nat) : List (Branch K) :=
  branches.list.filter (fun branch => !visited.contains branch.id)

omit [Scalar K] in
theorem mem_unvisited {branches : Branches K} {visited : List Nat} {branch : Branch K} :
    branch ∈ unvisited branches visited ↔ branch ∈ branches.list ∧ branch.id ∉ visited := by
  unfold unvisited
  simp

section Moments

variable {id limit : Nat} {visited : List Nat} {sheet moment : Worksheet K σ}

/-- Up to a round, there was work on the branch only. -/
theorem RoundAt.works (h : RoundAt id sheet moment) (hformed : sheet.branches.WellFormed) :
    Works id sheet moment := by
  induction h with
  | first sheet => exact ⟨rfl, rfl, rfl, rfl, rfl, hformed, .refl _ _, fun _ _ => rfl⟩
  | @again sheet middle after moment relations hgather hsweep _ ih =>
      have hgathered := (works_quiet id sheet hformed).trans
        (works_gather id sheet.equations sheet.quiet hformed)
      rw [hgather] at hgathered
      have hswept := hgathered.trans
        (works_sweep id (middle.trials relations) middle hgathered.formed)
      rw [hsweep] at hswept
      exact hswept.trans (ih hswept.formed)

/-- Up to an attempt, there was work on the branch only. -/
theorem TrialAt.works {subset : List (Relation K)} (h : TrialAt id sheet subset moment)
    (hformed : sheet.branches.WellFormed) : Works id sheet moment := by
  obtain ⟨start, gathered, relations, hround, hgather, hreaches⟩ := h
  have hstart := hround.works hformed
  have hgathered := hstart.trans ((works_quiet id start hstart.formed).trans
    (works_gather id start.equations start.quiet hstart.formed))
  rw [hgather] at hgathered
  refine hreaches.invariant (I := Works id sheet) ?_ hgathered
  intro other before result next hstep _ hbefore
  have hworks := works_resolveBy id other before hbefore.formed
  rw [hstep] at hworks
  exact hbefore.trans hworks

omit [Scalar K] in
/-- To turn to the next branch makes it current and changes nothing else. -/
theorem turnedTo_of_turn {index : Nat} {turned : Worksheet K σ}
    (hnext : nextUnvisited sheet.branches visited = some (index, id))
    (hturn : outcome (turn index id) sheet = (.ok (), turned)) :
    ∃ branch log, sheet.branches.list[index]? = some branch ∧ branch.id = id ∧
      turned = sheet.turnedTo index log := by
  obtain ⟨branch, log, hbranch, hid, _, hthen⟩ := exists_turn hnext
  rw [hthen] at hturn
  cases hturn
  exact ⟨branch, log, hbranch, hid, rfl⟩

/-- A visit comes to a branch only if there is a next one. -/
theorem VisitAt.exists_next (h : VisitAt limit visited sheet id moment) :
    ∃ next, nextUnvisited sheet.branches visited = some next := by
  cases h with
  | here hnext => exact ⟨_, hnext⟩
  | later hnext => exact ⟨_, hnext⟩

/-- When a visit comes to a branch, the branch is current and well formed like all others. -/
theorem VisitAt.passes (h : VisitAt limit visited sheet id moment)
    (hprocedures : sheet.procedures = []) (hformed : sheet.branches.WellFormed) :
    Passes sheet moment ∧ AtBranch id moment := by
  induction h with
  | here hnext hturn =>
      obtain ⟨branch, log, hbranch, hid, rfl⟩ := turnedTo_of_turn hnext hturn
      exact ⟨⟨rfl, rfl, rfl, rfl, rfl, formed_turnedTo hformed hbranch log, rfl⟩,
        branch, hbranch, hid⟩
  | later hnext hturn hsettle _ ih =>
      obtain ⟨branch, log, hbranch, rfl, rfl⟩ := turnedTo_of_turn hnext hturn
      have hpasses := passes_visit hprocedures hformed hbranch log limit
      rw [hsettle] at hpasses
      obtain ⟨hlater, hat⟩ := ih (hpasses.procedures.trans hprocedures) hpasses.formed
      exact ⟨hpasses.trans hlater, hat⟩

/-- When a run comes to an attempt, the branch that it is about is current. -/
theorem AttemptAt.passes {subset : List (Relation K)} (h : AttemptAt limit sheet id subset moment)
    (hprocedures : sheet.procedures = []) (hformed : sheet.branches.WellFormed) :
    Passes sheet moment ∧ AtBranch id moment := by
  obtain ⟨visit, hvisit, htrial⟩ := h
  obtain ⟨hpasses, hat⟩ := hvisit.passes hprocedures hformed
  have hworks := htrial.works hpasses.formed
  have hopened : Passes sheet sheet.opened := ⟨rfl, rfl, rfl, rfl, rfl, hformed, rfl⟩
  exact ⟨hopened.trans (hpasses.trans hworks.passes), hat.of_works hworks⟩

end Moments

section Families

variable {R : Branch K → Branch K → Prop} {sheet after : Worksheet K σ} {branch other : Branch K}

/-- If every attempt that does not leave the branches alone relates the branch to all that it makes
of it, then so does every round. -/
theorem round_relates {relations : List (Relation K)} {gathered swept : Worksheet K σ}
    {passed : Except (Failure K) Bool} (hformed : sheet.branches.WellFormed)
    (hbranch : sheet.branches.list[sheet.branches.current]? = some branch)
    (hgather : outcome (gather branch.id sheet.equations []) sheet.quiet =
      (.ok (some relations), gathered))
    (hsweep : outcome ((gathered.trials relations).anyM (resolveBy branch.id)) gathered =
      (passed, swept)) (hpassed : passed ≠ .ok false)
    (htrial : ∀ subset here, TrialAt branch.id sheet subset here →
      here.branches.list[here.branches.current]? = some branch →
      outcome (resolveBy branch.id subset) here = (passed, swept) →
      ∀ other ∈ swept.branches.list,
        (other.id = branch.id ∨ here.branches.nextId ≤ other.id) → R branch other)
    (hother : other ∈ swept.branches.list)
    (hfamily : other.id = branch.id ∨ sheet.branches.nextId ≤ other.id) : R branch other := by
  obtain ⟨subset, here, hreaches, hattempt⟩ := reaches_of_anyM_ne hsweep hpassed
  obtain ⟨_, hsame, _, _⟩ := gather_findings branch.id sheet.quiet hformed hbranch hgather
  have hhere : here.branches = sheet.branches :=
    (unresolved_of_reaches (hsame ▸ hformed) hreaches).1.trans hsame
  rw [← hhere] at hbranch hfamily
  exact htrial subset here ⟨sheet, gathered, relations, .first sheet, hgather, hreaches⟩ hbranch
    hattempt other hother hfamily

theorem TrialAt.again {relations subset : List (Relation K)} {id : Nat}
    {gathered between here : Worksheet K σ}
    (hgather : outcome (gather id sheet.equations []) sheet.quiet =
      (.ok (some relations), gathered))
    (hsweep : outcome ((gathered.trials relations).anyM (resolveBy id)) gathered =
      (.ok true, between))
    (h : TrialAt id between subset here) : TrialAt id sheet subset here := by
  obtain ⟨start, middle, retained, hstart, hrest⟩ := h
  exact ⟨start, middle, retained, .again hgather hsweep hstart, hrest⟩

/-- If every attempt that does not leave the branches alone relates the branch to all that it makes
of it, then solving the branch relates it to all that is made of it. Attempts that fail count only
where solving fails as well. -/
theorem settle_relates (hrefl : ∀ a, R a a) (htrans : ∀ a b c, R a b → R b c → R a c)
    (steps : Nat) {result : Except (Failure K) Unit} (hprocedures : sheet.procedures = [])
    (hformed : sheet.branches.WellFormed)
    (hbranch : sheet.branches.list[sheet.branches.current]? = some branch)
    (htrial : ∀ subset here found passed there, TrialAt branch.id sheet subset here →
      here.branches.list[here.branches.current]? = some found → found.id = branch.id →
      outcome (resolveBy branch.id subset) here = (passed, there) → passed ≠ .ok false →
      (∀ failure, passed = .error failure → result = .error failure) →
      ∀ other ∈ there.branches.list,
        (other.id = branch.id ∨ here.branches.nextId ≤ other.id) → R found other)
    (hrun : outcome (settle branch.id steps) sheet = (result, after))
    (hother : other ∈ after.branches.list)
    (hfamily : other.id = branch.id ∨ sheet.branches.nextId ≤ other.id) : R branch other := by
  induction steps generalizing sheet branch with
  | zero =>
      rw [settle] at hrun
      cases hrun
      obtain rfl := hformed.eq_of_family (List.mem_of_getElem? hbranch) hother hfamily
      exact hrefl other
  | succ steps ih =>
      have hunchanged (hlist : other ∈ sheet.branches.list) : R branch other := by
        obtain rfl := hformed.eq_of_family (List.mem_of_getElem? hbranch) hlist hfamily
        exact hrefl other
      have hround := round_settle branch.id steps sheet hprocedures hformed
      rw [hrun] at hround
      generalize hpair : (result, after) = run at hround
      cases hround with
      | failed hgather =>
          cases hpair
          obtain ⟨_, hsame, _, _⟩ := gather_findings branch.id sheet.quiet hformed hbranch hgather
          exact hunchanged (hsame ▸ hother)
      | contradicted hgather =>
          cases hpair
          obtain ⟨_, hsame, _, _⟩ := gather_findings branch.id sheet.quiet hformed hbranch hgather
          exact hunchanged (hsame ▸ hother)
      | broken hgather hsweep =>
          cases hpair
          refine round_relates hformed hbranch hgather hsweep (fun h => by cases h) ?_ hother
            hfamily
          intro subset here hhere hfound hattempt
          refine htrial subset here branch _ _ hhere hfound rfl hattempt (fun h => by cases h) ?_
          intro failure hfailed
          cases hfailed
          rfl
      | @settled relations middle between hgather hsweep =>
          cases hpair
          obtain ⟨_, hsame, _, _⟩ := gather_findings branch.id sheet.quiet hformed hbranch hgather
          obtain ⟨_, _, _, rfl⟩ := unresolved_sweep (hsame ▸ hformed) hsweep
          exact hunchanged (hsame ▸ hother)
      | @again relations middle between hgather hsweep =>
          have hworks : Works branch.id sheet between :=
            (RoundAt.again hgather hsweep (.first between)).works hformed
          obtain ⟨found, hfound, hid⟩ := AtBranch.of_works ⟨branch, hbranch, rfl⟩ hworks
          have hfirst {made : Branch K} (hmade : made ∈ between.branches.list)
              (hmadeFamily : made.id = branch.id ∨ sheet.branches.nextId ≤ made.id) :
              R branch made := by
            refine round_relates hformed hbranch hgather hsweep (fun h => by cases h) ?_ hmade
              hmadeFamily
            intro subset here hhere hthere hattempt
            exact htrial subset here branch _ _ hhere hthere rfl hattempt (fun h => by cases h)
              (fun _ h => by cases h)
          by_cases hlate : other.id = found.id ∨ between.branches.nextId ≤ other.id
          · refine htrans _ found _ (hfirst (List.mem_of_getElem? hfound) (Or.inl hid)) ?_
            refine ih (hworks.procedures.trans hprocedures) hworks.formed hfound ?_
              (hid ▸ hpair.symm) hlate
            rw [hid]
            exact fun subset here now passed there hthere =>
              htrial subset here now passed there (hthere.again hgather hsweep)
          · -- a copy that this round has made is not touched by the later ones
            obtain ⟨hne, hlt⟩ := not_or.1 hlate
            have hlater := works_settle found.id steps between
              (hworks.procedures.trans hprocedures) hworks.formed
            rw [hid, ← hpair] at hlater
            have hthere := (hlater.branches.origin other hother (hid ▸ hne)).resolve_right hlt
            exact hfirst hthere hfamily

/-- If every attempt that resolves variables relates the branch to all that it makes of it, then the
branch that solving sets out from is related to what it is at the beginning of each round. -/
theorem RoundAt.relates (hrefl : ∀ a, R a a) (htrans : ∀ a b c, R a b → R b c → R a c)
    {moment : Worksheet K σ} {id : Nat} (h : RoundAt id sheet moment)
    (hformed : sheet.branches.WellFormed)
    (htrial : ∀ subset here found there, TrialAt id sheet subset here →
      here.branches.list[here.branches.current]? = some found → found.id = id →
      outcome (resolveBy id subset) here = (.ok true, there) →
      ∀ other ∈ there.branches.list, (other.id = id ∨ here.branches.nextId ≤ other.id) →
        R found other)
    (hbranch : sheet.branches.list[sheet.branches.current]? = some branch) (hid : branch.id = id)
    (hother : moment.branches.list[moment.branches.current]? = some other) : R branch other := by
  induction h generalizing branch with
  | first sheet =>
      rw [hbranch] at hother
      cases hother
      exact hrefl other
  | @again sheet middle between moment relations hgather hsweep _ ih =>
      subst hid
      have hworks : Works branch.id sheet between :=
        (RoundAt.again hgather hsweep (.first between)).works hformed
      obtain ⟨found, hfound, hsame⟩ := AtBranch.of_works ⟨branch, hbranch, rfl⟩ hworks
      refine htrans _ found _ ?_ (ih hworks.formed ?_ hfound hsame hother)
      · refine round_relates hformed hbranch hgather hsweep nofun ?_ (List.mem_of_getElem? hfound)
          (Or.inl hsame)
        intro subset here hhere hthere hattempt
        exact htrial subset here branch _ hhere hthere rfl hattempt
      · exact fun subset here now there hthere =>
          htrial subset here now there (hthere.again hgather hsweep)

variable {limit steps : Nat} {visited : List Nat}

/-- What a visit to one branch makes of the branches. -/
private theorem visit_relates (hrefl : ∀ a, R a a) (hprocedures : sheet.procedures = [])
    (hformed : sheet.branches.WellFormed) {index : Nat} {log : Array String}
    (hbranch : sheet.branches.list[index]? = some branch)
    (hvisit : VisitAt limit visited sheet branch.id (sheet.turnedTo index log))
    (hsettle : ∀ other ∈
        (outcome (settle branch.id limit) (sheet.turnedTo index log)).2.branches.list,
      (other.id = branch.id ∨ sheet.branches.nextId ≤ other.id) → R branch other)
    (hother : other ∈
      (outcome (settle branch.id limit) (sheet.turnedTo index log)).2.branches.list) :
    ∃ origin ∈ sheet.branches.list,
      Relation.ReflTransGen (SplitsOff limit visited sheet) origin.id other.id ∧
        R origin other := by
  have hmem := List.mem_of_getElem? hbranch
  have hworks := works_settle branch.id limit (sheet.turnedTo index log) hprocedures
    (formed_turnedTo hformed hbranch log)
  by_cases hsame : other.id = branch.id
  · refine ⟨branch, hmem, ?_, hsettle other hother (Or.inl hsame)⟩
    rw [hsame]
  · rcases hworks.branches.origin other hother hsame with hthere | hlate
    · exact ⟨other, hthere, .refl, hrefl other⟩
    · exact ⟨branch, hmem, .single ⟨_, hvisit, hlate, hworks.formed.fresh other hother⟩,
        hsettle other hother (Or.inr hlate)⟩

theorem SplitsOff.later {turned middle : Worksheet K σ} {index id parent child : Nat}
    (hnext : nextUnvisited sheet.branches visited = some (index, id))
    (hturn : outcome (turn index id) sheet = (.ok (), turned))
    (hsettle : outcome (settle id limit) turned = (.ok (), middle))
    (h : SplitsOff limit (id :: visited) middle parent child) :
    SplitsOff limit visited sheet parent child := by
  obtain ⟨visit, hvisit, hspan⟩ := h
  exact ⟨visit, .later hnext hturn hsettle hvisit, hspan⟩

/-- If solving a branch relates it to all that is made of it, then whenever a visit comes to a
branch, every branch is related to one that was there before. -/
theorem VisitAt.relates (hrefl : ∀ a, R a a) (htrans : ∀ a b c, R a b → R b c → R a c)
    {id : Nat} {moment : Worksheet K σ} (h : VisitAt limit visited sheet id moment)
    (hprocedures : sheet.procedures = []) (hformed : sheet.branches.WellFormed)
    (hsettle : ∀ visit branch, VisitAt limit visited sheet branch.id visit →
      visit.branches.list[visit.branches.current]? = some branch →
      ∀ other ∈ (outcome (settle branch.id limit) visit).2.branches.list,
        (other.id = branch.id ∨ visit.branches.nextId ≤ other.id) → R branch other) :
    ∀ other ∈ moment.branches.list, ∃ origin ∈ sheet.branches.list, R origin other := by
  induction h with
  | here hnext hturn =>
      obtain ⟨branch, log, hbranch, _, rfl⟩ := turnedTo_of_turn hnext hturn
      exact fun other hother => ⟨other, hother, hrefl other⟩
  | @later visited sheet turned middle moment index id now hnext hturn hsolve _ ih =>
      obtain ⟨branch, log, hbranch, rfl, rfl⟩ := turnedTo_of_turn hnext hturn
      have hpasses := passes_visit hprocedures hformed hbranch log limit
      rw [hsolve] at hpasses
      intro other hother
      obtain ⟨between, hbetween, hrelated⟩ := ih (hpasses.procedures.trans hprocedures)
        hpasses.formed
        (fun visit found hvisit => hsettle visit found (.later hnext hturn hsolve hvisit)) other
        hother
      obtain ⟨origin, horigin, _, hrelated'⟩ := visit_relates hrefl hprocedures hformed
        hbranch (.here hnext hturn) (hsettle _ branch (.here hnext hturn) hbranch)
        (by rw [hsolve]; exact hbetween)
      exact ⟨origin, horigin, htrans _ between _ hrelated' hrelated⟩

/-- If solving a branch relates it to all that is made of it, then however a visit to the branches
ends, every branch descends from one that was there before and is related to it. -/
theorem visitAll_relates (hrefl : ∀ a, R a a) (htrans : ∀ a b c, R a b → R b c → R a c)
    (hprocedures : sheet.procedures = []) (hformed : sheet.branches.WellFormed)
    (hsettle : ∀ visit branch, VisitAt limit visited sheet branch.id visit →
      visit.branches.list[visit.branches.current]? = some branch →
      ∀ other ∈ (outcome (settle branch.id limit) visit).2.branches.list,
        (other.id = branch.id ∨ visit.branches.nextId ≤ other.id) → R branch other) :
    ∀ other ∈ (outcome (visitAll limit steps visited) sheet).2.branches.list,
      ∃ origin ∈ sheet.branches.list,
        Relation.ReflTransGen (SplitsOff limit visited sheet) origin.id other.id ∧
          R origin other := by
  induction steps generalizing sheet visited with
  | zero =>
      rw [visitAll]
      exact fun other hother => ⟨other, hother, .refl, hrefl other⟩
  | succ steps ih =>
      have hvisit := visit_visitAll limit steps visited sheet hformed
      generalize outcome (visitAll limit (steps + 1) visited) sheet = run at hvisit
      cases hvisit with
      | done => exact fun other hother => ⟨other, hother, .refl, hrefl other⟩
      | @broken index branch log failure after hbranch _ hsolve hnext hturn =>
          intro other hother
          refine visit_relates hrefl hprocedures hformed hbranch (.here hnext hturn)
            (hsettle _ branch (.here hnext hturn) hbranch) ?_
          rw [hsolve]
          exact hother
      | @next index branch log middle hbranch _ hsolve hnext hturn =>
          have hpasses := passes_visit hprocedures hformed hbranch log limit
          rw [hsolve] at hpasses
          intro other hother
          obtain ⟨between, hbetween, hpath, hrelated⟩ := ih
            (hpasses.procedures.trans hprocedures) hpasses.formed
            (fun visit found hvisit => hsettle visit found (.later hnext hturn hsolve hvisit))
            other hother
          obtain ⟨origin, horigin, hfirst, hrelated'⟩ := visit_relates hrefl hprocedures hformed
            hbranch (.here hnext hturn) (hsettle _ branch (.here hnext hturn) hbranch)
            (by rw [hsolve]; exact hbetween)
          refine ⟨origin, horigin, hfirst.trans ?_, htrans _ between _ hrelated' hrelated⟩
          exact Relation.ReflTransGen.mono (fun _ _ => SplitsOff.later hnext hturn hsolve) _ _ hpath

section Run

variable (hrefl : ∀ a, R a a) (htrans : ∀ a b c, R a b → R b c → R a c)
  (hprocedures : sheet.procedures = []) (hformed : sheet.branches.WellFormed)
  (hattempt : ∀ subset here found, AttemptAt steps sheet found.id subset here →
    here.branches.list[here.branches.current]? = some found →
    ∀ other ∈ (outcome (resolveBy found.id subset) here).2.branches.list,
      (other.id = found.id ∨ here.branches.nextId ≤ other.id) → R found other)

include hrefl htrans hprocedures hformed hattempt

private theorem settle_relates_of_attempts (visit : Worksheet K σ) (branch : Branch K)
    (hvisit : VisitAt steps [] sheet.opened branch.id visit)
    (hbranch : visit.branches.list[visit.branches.current]? = some branch) :
    ∀ other ∈ (outcome (settle branch.id steps) visit).2.branches.list,
      (other.id = branch.id ∨ visit.branches.nextId ≤ other.id) → R branch other := by
  intro other hother hfamily
  obtain ⟨hpasses, _⟩ := hvisit.passes hprocedures hformed
  refine settle_relates hrefl htrans steps (hpasses.procedures.trans hprocedures) hpasses.formed
    hbranch ?_ rfl hother hfamily
  intro subset here found passed there htrial hfound hid hrun _ _ made hmade hmadeFamily
  rw [← hid] at htrial hvisit hrun hmadeFamily
  exact hattempt subset here found ⟨visit, hvisit, htrial⟩ hfound made (hrun ▸ hmade) hmadeFamily

/-- If every attempt of a run relates the branch that it is about to all that it makes of it, then
whenever the run comes to an attempt, the branch that it is about is related to one that was there
before. -/
theorem AttemptAt.relates {subset : List (Relation K)} {here : Worksheet K σ}
    (h : AttemptAt steps sheet other.id subset here)
    (hother : here.branches.list[here.branches.current]? = some other) :
    ∃ origin ∈ sheet.branches.list, R origin other := by
  obtain ⟨visit, hvisit, moment, gathered, relations, hround, hgather, hreaches⟩ := h
  obtain ⟨hpasses, branch, hbranch, hid⟩ := hvisit.passes hprocedures hformed
  obtain ⟨origin, horigin, hrelated⟩ := hvisit.relates hrefl htrans hprocedures hformed
    (settle_relates_of_attempts hrefl htrans hprocedures hformed hattempt) branch
    (List.mem_of_getElem? hbranch)
  have hworks := hround.works hpasses.formed
  obtain ⟨current, hcurrent⟩ := hworks.formed.exists_current
  obtain ⟨_, hsame, _, _⟩ := gather_findings other.id moment.quiet hworks.formed hcurrent hgather
  have hhere : here.branches = moment.branches :=
    (unresolved_of_reaches (hsame ▸ hworks.formed) hreaches).1.trans hsame
  refine ⟨origin, horigin, htrans _ branch _ hrelated ?_⟩
  refine hround.relates hrefl htrans hpasses.formed ?_ hbranch hid (hhere ▸ hother)
  intro subset here found there htrial hfound hfoundId hrun made hmade hfamily
  rw [← hfoundId] at htrial hvisit hrun hfamily
  refine hattempt subset here found ⟨visit, hvisit, htrial⟩ hfound made ?_ hfamily
  rw [hrun]
  exact hmade

/-- If every attempt of a run relates the branch that it is about to all that it makes of it, then
however the run ends, every branch descends from one that was there before and is related to
it. -/
theorem solve_relates :
    ∀ other ∈ (outcome (solve steps) sheet).2.branches.list,
      ∃ origin ∈ sheet.branches.list,
        Descends steps sheet origin.id other.id ∧ R origin other := by
  have hvisits : ∀ other ∈ (outcome (visitAll steps steps []) sheet.opened).2.branches.list,
      ∃ origin ∈ sheet.branches.list,
        Descends steps sheet origin.id other.id ∧ R origin other :=
    visitAll_relates hrefl htrans hprocedures hformed
      (settle_relates_of_attempts hrefl htrans hprocedures hformed hattempt)
  have hshape := run_solve steps sheet hprocedures hformed
  have hpasses := passes_visitAll steps steps [] sheet.opened hprocedures hformed
  -- what a run removes after the visits does not matter
  have hremoved {middle ended : Worksheet K σ} {startId : Nat} {found : List Nat}
      (hpass : outcome (visitAll steps steps []) sheet.opened = (.ok found, middle))
      (hstays : ∃ branch ∈ middle.branches.list, branch.id ∉ middle.marked.keys)
      (hdiscard : outcome (discardMarked startId) middle = (.ok (), ended)) :
      ∀ other ∈ ended.branches.list, other ∈ middle.branches.list := by
    rw [hpass] at hpasses
    obtain ⟨branches, log, hdiscarded, hlist, _⟩ :=
      outcome_discardMarked_ok startId hpasses.formed hstays
    rw [hdiscarded] at hdiscard
    cases hdiscard
    exact fun other hother => List.mem_of_mem_filter (hlist ▸ hother)
  generalize outcome (solve steps) sheet = run at hshape
  cases hshape with
  | broken hpass =>
      rw [hpass] at hvisits
      exact hvisits
  | hopeless hpass =>
      rw [hpass] at hvisits
      exact hvisits
  | fruitless hpass hstays _ hdiscard =>
      rw [hpass] at hvisits
      exact fun other hother => hvisits other (hremoved hpass hstays hdiscard other hother)
  | finished _ hpass hstays _ hdiscard =>
      rw [hpass] at hvisits
      exact fun other hother => hvisits other (hremoved hpass hstays hdiscard other hother)

end Run

end Families

/-- What solving establishes of the branch that it solves, unless it marks it, holds in the end of
every branch that is not marked. -/
theorem visitAll_establishes {P : Branch K → Prop} (limit steps : Nat) (visited : List Nat)
    (sheet : Worksheet K σ) (hprocedures : sheet.procedures = [])
    (hformed : sheet.branches.WellFormed) (hold : ∀ id ∈ visited, id < sheet.branches.nextId)
    (hsolves : ∀ id moment settled, VisitAt limit visited sheet id moment →
      outcome (settle id limit) moment = (.ok (), settled) →
      ∀ branch ∈ settled.branches.list, branch.id = id →
        branch.id ∉ settled.marked.keys → P branch)
    (hvisited : ∀ branch ∈ sheet.branches.list, branch.id ∈ visited →
      branch.id ∉ sheet.marked.keys → P branch)
    {found : List Nat} {after : Worksheet K σ}
    (hrun : outcome (visitAll limit steps visited) sheet = (.ok found, after)) :
    ∀ branch ∈ after.branches.list, branch.id ∉ after.marked.keys → P branch := by
  induction steps generalizing sheet visited with
  | zero =>
      rw [visitAll] at hrun
      cases hrun
  | succ steps ih =>
      have hvisit := visit_visitAll limit steps visited sheet hformed
      rw [hrun] at hvisit
      generalize hpair : ((.ok found, after) : Except (Failure K) (List Nat) × _) = run at hvisit
      cases hvisit with
      | done hall =>
          cases hpair
          exact fun branch hbranch => hvisited branch hbranch (hall branch hbranch)
      | broken => cases hpair
      | @next index branch log middle hbranch hnew hsettle hnext hturn =>
          have hturned := formed_turnedTo hformed hbranch log
          have hworks := works_settle branch.id limit (sheet.turnedTo index log) hprocedures hturned
          rw [hsettle] at hworks
          have hnextId : sheet.branches.nextId ≤ middle.branches.nextId := hworks.branches.nextId
          refine ih (branch.id :: visited) middle (hworks.procedures.trans hprocedures)
            hworks.formed ?_ ?_ ?_ hpair.symm
          · intro id hid
            rcases List.mem_cons.1 hid with rfl | hid
            · exact Nat.lt_of_lt_of_le (hformed.fresh branch (List.mem_of_getElem? hbranch)) hnextId
            · exact Nat.lt_of_lt_of_le (hold id hid) hnextId
          · exact fun id moment settled hmoment =>
              hsolves id moment settled (.later hnext hturn hsettle hmoment)
          · intro other hother hid hfree
            by_cases hsame : other.id = branch.id
            · exact hsolves branch.id _ middle (.here hnext hturn) hsettle other hother hsame hfree
            · -- a branch that was visited earlier is as it was then, and so is its mark
              have hearlier := (List.mem_cons.1 hid).resolve_left hsame
              have hthere : other ∈ sheet.branches.list := by
                rcases hworks.branches.origin other hother hsame with hthere | hlate
                · exact hthere
                · exact absurd hlate (Nat.not_le.2 (hold other.id hearlier))
              refine hvisited other hthere hearlier (fun hmarked => hfree ?_)
              rw [SortedMap.mem_keys_iff] at hmarked ⊢
              rw [hworks.marks other.id hsame]
              exact hmarked

end Worksheet

end Ramify
