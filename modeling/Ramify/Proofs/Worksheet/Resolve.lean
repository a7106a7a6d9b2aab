import Ramify.Proofs.Worksheet.Gather

/-!
How candidates enter the branches. Adopting a candidate rewrites the bindings of one branch name by
name; the other candidates of an answer each get a copy of the branch first. Whatever fails on the
way, all other branches stay as they are.
-/

namespace Ramify.Worksheet

variable {K σ : Type} [Scalar K]

/-- The value that a name takes when a solution is put into a branch. -/
def adopted (solution : Solution K) (name : String) (old : Fraction K) :
    Except AlgebraError (Fraction K) :=
  match solution.find? ⟨name, false⟩ with
  | some value => .ok value
  | none => substituted old solution

section Step

variable {sheet : Worksheet K σ} {index : Nat} {branch : Branch K} {name : String}
  {old : Fraction K} {solution : Solution K}

/-- One name of an adoption: its new value is written, and the other names follow. -/
theorem outcome_adoptEach_ok (hformed : sheet.branches.WellFormed)
    (hbranch : sheet.branches.list[index]? = some branch) (hname : name ∈ sheet.branches.names)
    (hold : branch.bindings.find? name = some old) {value : Fraction K}
    (hvalue : adopted solution name old = .ok value) (rest : List String) :
    ∃ log, outcome (adoptEach solution index (name :: rest)) sheet =
      outcome (adoptEach solution index rest)
        { sheet with branches := sheet.branches.write index name value, log := log } := by
  have hset (value : Fraction K) : outcome (onBranches (Branches.set name value (some index)))
      sheet = (.ok (), { sheet with branches := sheet.branches.write index name value }) := by
    rw [outcome_onBranches, Branches.outcome_set hformed hname value hbranch]
  unfold adopted at hvalue
  cases hgiven : solution.find? ⟨name, false⟩ with
  | some given =>
      simp only [hgiven] at hvalue
      cases hvalue
      obtain ⟨log, hlog⟩ := outcome_narrate ("  " ++ name ++ " = " ++ value.text 6)
        { sheet with branches := sheet.branches.write index name value }
      refine ⟨log, ?_⟩
      simp only [adoptEach, hgiven]
      change outcome (onBranches _ >>= _) sheet = _
      rw [outcome_bind_ok _ (hset value), outcome_bind_ok _ hlog]
  | none =>
      simp only [hgiven] at hvalue
      refine ⟨sheet.log, ?_⟩
      simp only [adoptEach, hgiven]
      change outcome (get >>= _) sheet = _
      rw [outcome_get_bind, Branches.get_at hformed hname hbranch hold, outcome_ofExcept_bind_ok,
        hvalue]
      exact outcome_bind_ok _ (hset value)

/-- A value that cannot be substituted ends the adoption where it is. -/
theorem outcome_adoptEach_error (hformed : sheet.branches.WellFormed)
    (hbranch : sheet.branches.list[index]? = some branch) (hname : name ∈ sheet.branches.names)
    (hold : branch.bindings.find? name = some old) {cause : AlgebraError}
    (hvalue : adopted solution name old = .error cause) (rest : List String) :
    outcome (adoptEach solution index (name :: rest)) sheet =
      (.error (.algebra cause), sheet) := by
  unfold adopted at hvalue
  cases hgiven : solution.find? ⟨name, false⟩ with
  | some given =>
      simp only [hgiven] at hvalue
      cases hvalue
  | none =>
      simp only [hgiven] at hvalue
      simp only [adoptEach, hgiven]
      change outcome (get >>= _) sheet = _
      rw [outcome_get_bind, Branches.get_at hformed hname hbranch hold, outcome_ofExcept_bind_ok,
        hvalue]
      rfl

end Step

/-- Adopting a solution rewrites one branch and nothing else. -/
theorem outcome_adoptEach (solution : Solution K) (index : Nat) (names : List String)
    (sheet : Worksheet K σ) (hformed : sheet.branches.WellFormed) {branch : Branch K}
    (hbranch : sheet.branches.list[index]? = some branch)
    (hnames : ∀ name ∈ names, name ∈ sheet.branches.names) :
    ∃ branches log, (outcome (adoptEach solution index names) sheet).2 =
        { sheet with branches := branches, log := log } ∧
      sheet.branches.Rewrites index branches ∧ branches.WellFormed := by
  induction names generalizing sheet branch with
  | nil => exact ⟨sheet.branches, sheet.log, rfl, .refl _ _, hformed⟩
  | cons name rest ih =>
      have hname := hnames name List.mem_cons_self
      obtain ⟨old, hold⟩ := hformed.exists_value (List.mem_of_getElem? hbranch) hname
      cases hvalue : adopted solution name old with
      | error cause =>
          rw [outcome_adoptEach_error hformed hbranch hname hold hvalue]
          exact ⟨sheet.branches, sheet.log, rfl, .refl _ _, hformed⟩
      | ok value =>
          obtain ⟨log, hstep⟩ := outcome_adoptEach_ok hformed hbranch hname hold hvalue rest
          have hrw := Branches.rewrites_write sheet.branches index name value
          obtain ⟨bindings, hafter⟩ := hrw.at_index hbranch
          obtain ⟨branches, log', hrest, hrw', hformed'⟩ :=
            ih { sheet with branches := sheet.branches.write index name value, log := log }
              (hformed.write hname index value) hafter
              (fun other hother => hnames other (List.mem_cons_of_mem _ hother))
          rw [hstep, hrest]
          exact ⟨branches, log', rfl, hrw.trans hrw', hformed'⟩

/-- Adopting a solution that keeps a property of all values succeeds and keeps the property. -/
theorem adoptEach_keeps {P : String → Fraction K → Prop} (solution : Solution K) (index : Nat)
    (names : List String) (sheet : Worksheet K σ) (hformed : sheet.branches.WellFormed)
    {branch : Branch K} (hbranch : sheet.branches.list[index]? = some branch)
    (hnames : ∀ name ∈ names, name ∈ sheet.branches.names)
    (hsolution : ∀ name ∈ names, ∀ old, P name old →
      ∃ value, adopted solution name old = .ok value ∧ P name value)
    (hvalues : ∀ name value, branch.bindings.find? name = some value → P name value) :
    (outcome (adoptEach solution index names) sheet).1 = .ok () ∧
      ∃ after, (outcome (adoptEach solution index names) sheet).2.branches.list[index]? =
        some after ∧ ∀ name value, after.bindings.find? name = some value → P name value := by
  induction names generalizing sheet branch with
  | nil => exact ⟨rfl, branch, hbranch, hvalues⟩
  | cons name rest ih =>
      have hname := hnames name List.mem_cons_self
      obtain ⟨old, hold⟩ := hformed.exists_value (List.mem_of_getElem? hbranch) hname
      obtain ⟨value, hvalue, hgood⟩ :=
        hsolution name List.mem_cons_self old (hvalues name old hold)
      obtain ⟨log, hstep⟩ := outcome_adoptEach_ok hformed hbranch hname hold hvalue rest
      rw [hstep]
      have hafter : (sheet.branches.write index name value).list[index]? =
          some { branch with bindings := branch.bindings.insert name value } := by
        rw [Branches.getElem?_write, hbranch]
        simp
      apply ih { sheet with branches := sheet.branches.write index name value, log := log }
        (hformed.write hname index value) hafter
      · exact fun other hother => hnames other (List.mem_cons_of_mem _ hother)
      · exact fun other hother => hsolution other (List.mem_cons_of_mem _ hother)
      · intro other found hfound
        simp only [SortedMap.find?_insert] at hfound
        split at hfound
        · rename_i hsame
          cases hfound
          exact hsame ▸ hgood
        · exact hvalues other found hfound

section Copies

variable {sheet : Worksheet K σ} {index : Nat} {branch : Branch K}

/-- A copy of a branch that adopts a solution: a branch joins, and all others stay. -/
theorem outcome_copy_adopt (solution : Solution K) (hformed : sheet.branches.WellFormed)
    (hbranch : sheet.branches.list[index]? = some branch) :
    ∃ branches log,
      (outcome (adopt solution sheet.branches.count)
          { sheet with branches := sheet.branches.forked branch }).2 =
        { sheet with branches := branches, log := log } ∧
      sheet.branches.Grows branch.id branches ∧ branches.WellFormed ∧
      branches.list[index]? = some branch := by
  have hmem := List.mem_of_getElem? hbranch
  have hnew := Branches.getElem?_forked_new sheet.branches branch
  obtain ⟨branches, log, hafter, hrw, hformed'⟩ := outcome_adoptEach solution
    sheet.branches.count sheet.branches.names
    { sheet with branches := sheet.branches.forked branch } (hformed.forked hmem) hnew
    (fun _ h => h)
  refine ⟨branches, log, hafter, ?_, hformed', ?_⟩
  · have hgrows := Branches.grows_forked branch.id sheet.branches branch
    exact hgrows.trans_new hformed (hrw.grows hnew) (Nat.le_refl _)
  · have hlt := (List.getElem?_eq_some_iff.1 hbranch).1
    rw [hrw.elsewhere index (Nat.ne_of_lt hlt)]
    rw [Branches.getElem?_forked_old hlt, hbranch]

/-- One copy of a series: the copy fails, or it is made and the series goes on. -/
theorem copyFor_cons (id : Nat) (solution : Solution K) (rest : List (Solution K))
    (hformed : sheet.branches.WellFormed)
    (hbranch : sheet.branches.list[index]? = some branch) :
    (∃ failure, outcome (copyFor id index (solution :: rest)) sheet =
        (.error failure, (outcome (adopt solution sheet.branches.count)
          { sheet with branches := sheet.branches.forked branch }).2) ∧
      (outcome (adopt solution sheet.branches.count)
        { sheet with branches := sheet.branches.forked branch }).1 = .error failure) ∨
    (∃ log, outcome (copyFor id index (solution :: rest)) sheet =
        outcome (copyFor id index rest) { (outcome (adopt solution sheet.branches.count)
          { sheet with branches := sheet.branches.forked branch }).2 with log := log } ∧
      (outcome (adopt solution sheet.branches.count)
        { sheet with branches := sheet.branches.forked branch }).1 = .ok ()) := by
  have hcopy : outcome (onBranches (Branches.copy (some index))) sheet =
      (.ok sheet.branches.count, { sheet with branches := sheet.branches.forked branch }) := by
    rw [outcome_onBranches, Branches.outcome_copy hbranch]
  rw [copyFor, outcome_bind_ok _ hcopy]
  rcases hadopt : outcome (adopt solution sheet.branches.count)
    { sheet with branches := sheet.branches.forked branch } with ⟨failure | _, after⟩
  · exact Or.inl ⟨failure, outcome_bind_error _ hadopt, rfl⟩
  · right
    have hafter : after.branches.list[sheet.branches.count]? ≠ none := by
      obtain ⟨branches, log, hstate, hrw, _⟩ := outcome_adoptEach solution
        sheet.branches.count sheet.branches.names
        { sheet with branches := sheet.branches.forked branch }
          (hformed.forked (List.mem_of_getElem? hbranch))
        (Branches.getElem?_forked_new sheet.branches branch) (fun _ h => h)
      have hthere := hrw.at_index (Branches.getElem?_forked_new sheet.branches branch)
      have hsame : after = { sheet with branches := branches, log := log } :=
        (congrArg Prod.snd hadopt).symm.trans hstate
      rw [hsame]
      obtain ⟨bindings, hthere⟩ := hthere
      simp [hthere]
    obtain ⟨copy, hcopied⟩ := Option.ne_none_iff_exists'.1 hafter
    obtain ⟨log, hlog⟩ := outcome_narrate
      ("Forked branch id " ++ toString copy.id ++ " from id " ++ toString id) after
    refine ⟨log, ?_, rfl⟩
    rw [outcome_bind_ok _ hadopt, outcome_get_bind, Branches.identityAt_eq hcopied,
      outcome_ofExcept_bind_ok, outcome_bind_ok _ hlog]

/-- A series of copies: branches join, and all others stay. -/
theorem outcome_copyFor (id : Nat) (solutions : List (Solution K)) (sheet : Worksheet K σ)
    (hformed : sheet.branches.WellFormed)
    (hbranch : sheet.branches.list[index]? = some branch) :
    ∃ branches log, (outcome (copyFor id index solutions) sheet).2 =
        { sheet with branches := branches, log := log } ∧
      sheet.branches.Grows branch.id branches ∧ branches.WellFormed ∧
      branches.list[index]? = some branch := by
  induction solutions generalizing sheet with
  | nil => exact ⟨sheet.branches, sheet.log, rfl, .refl _ _, hformed, hbranch⟩
  | cons solution rest ih =>
      obtain ⟨branches, log, hafter, hgrows, hformed', hbranch'⟩ :=
        outcome_copy_adopt solution hformed hbranch
      rcases copyFor_cons id solution rest hformed hbranch with
        ⟨failure, hrun, _⟩ | ⟨log', hrun, _⟩
      · rw [hrun, hafter]
        exact ⟨branches, log, rfl, hgrows, hformed', hbranch'⟩
      · rw [hrun, hafter]
        obtain ⟨branches', log'', hrest, hgrows', hformed'', hbranch''⟩ :=
          ih { sheet with branches := branches, log := log' } hformed' hbranch'
        exact ⟨branches', log'', hrest, hgrows.trans hgrows', hformed'', hbranch''⟩

end Copies

/-- What the engine says to some relations of a worksheet. -/
def reply (sheet : Worksheet K σ) (subset : List (Relation K)) : Except (Failure K) (Answer K) :=
  (sheet.engine.ask subset (unknownsOf sheet.branches subset) sheet.engineState).1

/-- The worksheet after some of its relations have been given to the engine. -/
def consulted (sheet : Worksheet K σ) (subset : List (Relation K)) : Worksheet K σ :=
  sheet.asked subset (unknownsOf sheet.branches subset)

/-- Whether an answer has no candidate that resolves variables, and does not deny a solution. -/
def Undecided : Answer K → Prop
  | .indeterminate => True
  | .noSolution => False
  | .solved candidates => candidates.filter isNumeric = []

/-- What an attempt to resolve a branch by some relations can do. -/
inductive Attempt (id : Nat) (subset : List (Relation K)) (sheet : Worksheet K σ) :
    Except (Failure K) Bool × Worksheet K σ → Prop
  /-- There is nothing to ask for. -/
  | idle (hunknowns : unknownsOf sheet.branches subset = []) :
    Attempt id subset sheet (.ok false, sheet)
  /-- The engine fails. -/
  | failed {failure : Failure K} (hunknowns : unknownsOf sheet.branches subset ≠ [])
    (hreply : sheet.reply subset = .error failure) :
    Attempt id subset sheet (.error failure, sheet.consulted subset)
  /-- The answer resolves nothing. -/
  | undecided {answer : Answer K} (hunknowns : unknownsOf sheet.branches subset ≠ [])
    (hreply : sheet.reply subset = .ok answer)
    (hanswer : Undecided answer ∨
      (answer ≠ .noSolution ∧ sheet.branches.indexOf? id = none)) :
    Attempt id subset sheet (.ok false, sheet.consulted subset)
  /-- There is no solution, which ends the run. -/
  | refused (hunknowns : unknownsOf sheet.branches subset ≠ [])
    (hreply : sheet.reply subset = .ok .noSolution)
    (hraise : sheet.options.raiseOnUnsolvable = true) :
    Attempt id subset sheet (.error (.inconsistentSubset subset), sheet.consulted subset)
  /-- There is no solution, which is remembered. -/
  | inconsistent {log : Array String} (hunknowns : unknownsOf sheet.branches subset ≠ [])
    (hreply : sheet.reply subset = .ok .noSolution)
    (hraise : sheet.options.raiseOnUnsolvable = false) :
    Attempt id subset sheet
      (.ok false, { sheet.consulted subset with unsolvable := true, log := log })
  /-- Variables are resolved, in the branch and in a copy for each further candidate. -/
  | resolved {candidates rest : List (Solution K)} {first : Solution K} {index : Nat}
    (hunknowns : unknownsOf sheet.branches subset ≠ [])
    (hreply : sheet.reply subset = .ok (.solved candidates))
    (hnumeric : candidates.filter isNumeric = first :: rest)
    (hindex : sheet.branches.indexOf? id = some index) :
    Attempt id subset sheet (outcome (do
      copyFor id index rest
      adopt first index
      pure true) (sheet.consulted subset))

/-- An attempt does one of these things. -/
theorem attempt_resolveBy (id : Nat) (subset : List (Relation K)) (sheet : Worksheet K σ) :
    Attempt id subset sheet (outcome (resolveBy id subset) sheet) := by
  unfold resolveBy
  rw [outcome_get_bind]
  by_cases hunknowns : unknownsOf sheet.branches subset = []
  · simp only [hunknowns, List.isEmpty_nil, if_true]
    exact .idle hunknowns
  have hask := outcome_ask subset (unknownsOf sheet.branches subset) sheet
  simp only [List.isEmpty_iff, hunknowns, if_false]
  cases hreply : sheet.reply subset with
  | error failure =>
      have hasked := hask.trans (congrArg (·, sheet.consulted subset) hreply)
      rw [outcome_bind_error _ hasked]
      exact .failed hunknowns hreply
  | ok answer =>
      have hasked := hask.trans (congrArg (·, sheet.consulted subset) hreply)
      rw [outcome_bind_ok _ hasked]
      cases answer with
      | indeterminate => exact .undecided hunknowns hreply (Or.inl trivial)
      | noSolution =>
          dsimp only
          rw [outcome_get_bind]
          by_cases hraise : sheet.options.raiseOnUnsolvable = true
          · rw [if_pos (show (sheet.consulted subset).options.raiseOnUnsolvable = true from hraise)]
            exact .refused hunknowns hreply hraise
          · rw [if_neg
              (show ¬ (sheet.consulted subset).options.raiseOnUnsolvable = true from hraise)]
            obtain ⟨log, hlog⟩ := outcome_narrate
              ("Inconsistent subset of " ++ toString subset.length ++ " relation(s).")
              (sheet.consulted subset)
            change Attempt id subset sheet (outcome (narrate _ >>= _) (sheet.consulted subset))
            rw [outcome_bind_ok _ hlog]
            exact .inconsistent hunknowns hreply (by simpa using hraise)
      | solved candidates =>
          dsimp only
          rw [outcome_get_bind]
          cases hnumeric : candidates.filter isNumeric with
          | nil => exact .undecided hunknowns hreply (Or.inl hnumeric)
          | cons first rest =>
              cases hindex : (sheet.consulted subset).branches.indexOf? id with
              | none => exact .undecided hunknowns hreply (Or.inr ⟨(fun h => by cases h), hindex⟩)
              | some index => exact .resolved hunknowns hreply hnumeric hindex

/-- Taking over candidates: the branch is rewritten, branches join, and all others stay. -/
theorem outcome_takeOver (sheet : Worksheet K σ) {id index : Nat} (first : Solution K)
    (rest : List (Solution K)) (hformed : sheet.branches.WellFormed)
    (hindex : sheet.branches.indexOf? id = some index) :
    ∃ branches log, (outcome (do
        copyFor id index rest
        adopt first index
        pure true : Action K σ Bool) sheet).2 = { sheet with branches := branches, log := log } ∧
      sheet.branches.Grows id branches ∧ branches.WellFormed := by
  obtain ⟨branch, hbranch, rfl⟩ := Branches.indexOf?_some hindex
  obtain ⟨branches, log, hcopies, hgrows, hformed', hbranch'⟩ :=
    outcome_copyFor branch.id rest sheet hformed hbranch
  rcases outcome_bind_cases (copyFor branch.id index rest : Action K σ Unit)
    (fun _ => do adopt first index; pure true) sheet with
    ⟨cause, middle, hrun, hall⟩ | ⟨x, middle, hrun, hall⟩
  · rw [hrun] at hcopies
    rw [hall]
    exact ⟨branches, log, hcopies, hgrows, hformed'⟩
  · rw [hrun] at hcopies
    change middle = _ at hcopies
    subst hcopies
    obtain ⟨branches', log', hadopt, hrw, hformed''⟩ := outcome_adoptEach first index
      branches.names { sheet with branches := branches, log := log } hformed' hbranch'
        (fun _ h => h)
    refine ⟨branches', log', ?_, hgrows.trans (hrw.grows hbranch'), hformed''⟩
    rw [hall, outcome_bind_pure]
    exact hadopt

theorem takeOver_ne_false {id index : Nat} (first : Solution K)
    (rest : List (Solution K)) (sheet : Worksheet K σ) :
    (outcome (do
      copyFor id index rest
      adopt first index
      pure true : Action K σ Bool) sheet).1 ≠ .ok false := by
  rcases outcome_bind_cases (copyFor id index rest : Action K σ Unit)
    (fun _ => do adopt first index; pure true) sheet with
    ⟨cause, middle, _, hall⟩ | ⟨_, middle, _, hall⟩
  · rw [hall]
    nofun
  · rw [hall]
    rcases outcome_bind_cases (adopt first index : Action K σ Unit) (fun _ => pure true) middle
      with ⟨cause, after, _, hafter⟩ | ⟨_, after, _, hafter⟩
    · rw [hafter]
      nofun
    · rw [hafter]
      nofun

/-- An attempt at a branch keeps all other branches; one that resolves nothing keeps them all. -/
theorem outcome_resolveBy (id : Nat) (subset : List (Relation K)) (sheet : Worksheet K σ)
    (hformed : sheet.branches.WellFormed) :
    ∃ branches state unsolvable log, (outcome (resolveBy id subset) sheet).2 =
        { sheet with
          branches := branches, engineState := state, unsolvable := unsolvable, log := log } ∧
      sheet.branches.Grows id branches ∧ branches.WellFormed ∧
      ((outcome (resolveBy id subset) sheet).1 = .ok false → branches = sheet.branches) := by
  have hstep := attempt_resolveBy id subset sheet
  generalize outcome (resolveBy id subset) sheet = run at hstep
  cases hstep with
  | idle => exact ⟨_, _, _, _, rfl, .refl _ _, hformed, fun _ => rfl⟩
  | failed => exact ⟨_, _, _, _, rfl, .refl _ _, hformed, fun _ => rfl⟩
  | undecided => exact ⟨_, _, _, _, rfl, .refl _ _, hformed, fun _ => rfl⟩
  | refused => exact ⟨_, _, _, _, rfl, .refl _ _, hformed, fun _ => rfl⟩
  | inconsistent => exact ⟨_, _, _, _, rfl, .refl _ _, hformed, fun _ => rfl⟩
  | @resolved candidates rest first index hunknowns hreply hnumeric hindex =>
      obtain ⟨branches, log, hafter, hgrows, hformed'⟩ :=
        outcome_takeOver (sheet.consulted subset) first rest hformed hindex
      refine ⟨branches, _, _, log, hafter, hgrows, hformed', ?_⟩
      intro hresult
      exact absurd hresult (takeOver_ne_false first rest _)

/-- An attempt that resolves nothing leaves the branches as they are. -/
theorem unresolved_resolveBy {id : Nat} {subset : List (Relation K)} {sheet after : Worksheet K σ}
    (hformed : sheet.branches.WellFormed)
    (hrun : outcome (resolveBy id subset) sheet = (.ok false, after)) :
    ∃ state unsolvable log,
      after = { sheet with engineState := state, unsolvable := unsolvable, log := log } := by
  obtain ⟨branches, state, unsolvable, log, hafter, _, _, hsame⟩ :=
    outcome_resolveBy id subset sheet hformed
  rw [hrun] at hafter hsame
  obtain rfl := hsame rfl
  exact ⟨state, unsolvable, log, hafter⟩

/-- Without unknowns there is nothing to ask for. -/
theorem resolveBy_without_unknowns (id : Nat) {subset : List (Relation K)} {sheet : Worksheet K σ}
    (hnone : unknownsOf sheet.branches subset = []) :
    outcome (resolveBy id subset) sheet = (.ok false, sheet) := by
  have hattempt := attempt_resolveBy id subset sheet
  generalize outcome (resolveBy id subset) sheet = run at hattempt
  cases hattempt with
  | idle => rfl
  | failed hsome => exact absurd hnone hsome
  | undecided hsome => exact absurd hnone hsome
  | refused hsome => exact absurd hnone hsome
  | inconsistent hsome => exact absurd hnone hsome
  | resolved hsome => exact absurd hnone hsome

end Ramify.Worksheet
