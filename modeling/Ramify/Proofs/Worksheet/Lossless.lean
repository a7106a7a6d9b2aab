import Ramify.Proofs.Worksheet.Agreement
import Ramify.Proofs.Worksheet.Course
import Ramify.Proofs.Worksheet.Failures
import Ramify.Proofs.Worksheet.Rational
import Ramify.Proofs.Worksheet.Record

/-!
Solving loses no solution. Take numbers that satisfy all equations of a worksheet and agree with one
of its branches. As long as nothing is searched by chance, and no answer of the engine mixes
candidates that resolve variables with others, some branch that is not contradictory agrees with the
numbers at every moment of a run, and so at its end. The invariant speaks of the worksheet with a
recording engine, so that it can refer to the answers that were given so far.
-/

namespace Ramify

namespace Worksheet

section Copies

variable {K σ : Type} [Scalar K] {P : String → Fraction K → Prop} {index : Nat} {branch : Branch K}
  {candidate : Solution K}

/-- A copy of a branch that adopts a candidate has the values that the candidate gives. -/
theorem copy_keeps (sheet : Worksheet K σ) (hformed : sheet.branches.WellFormed)
    (hbranch : sheet.branches.list[index]? = some branch)
    (hvalues : ∀ name value, branch.bindings.find? name = some value → P name value)
    (hcandidate : ∀ name old, P name old →
      ∃ value, adopted candidate name old = .ok value ∧ P name value) :
    ∃ copy ∈ (outcome (adopt candidate sheet.branches.count)
        { sheet with branches := sheet.branches.forked branch }).2.branches.list,
      copy.id = sheet.branches.nextId ∧
      ∀ name value, copy.bindings.find? name = some value → P name value := by
  have hformed' := hformed.forked (List.mem_of_getElem? hbranch)
  have hnew := Branches.getElem?_forked_new sheet.branches branch
  obtain ⟨_, copy, hcopy, hgood⟩ := adoptEach_keeps (P := P) candidate sheet.branches.count
    sheet.branches.names { sheet with branches := sheet.branches.forked branch } hformed' hnew
    (fun _ h => h) (fun name _ => hcandidate name) hvalues
  obtain ⟨branches, log, hafter, hrw, _⟩ := outcome_adoptEach candidate sheet.branches.count
    sheet.branches.names { sheet with branches := sheet.branches.forked branch } hformed' hnew
    (fun _ h => h)
  refine ⟨copy, List.mem_of_getElem? hcopy, ?_, hgood⟩
  obtain ⟨bindings, hthere⟩ := hrw.at_index hnew
  rw [hafter] at hcopy
  have hsame := hthere.symm.trans hcopy
  cases hsame
  rfl

/-- A series of copies that comes to its end has made one for each candidate. -/
theorem copyFor_keeps (id : Nat) (solutions : List (Solution K)) (sheet : Worksheet K σ)
    (hformed : sheet.branches.WellFormed)
    (hbranch : sheet.branches.list[index]? = some branch)
    (hvalues : ∀ name value, branch.bindings.find? name = some value → P name value)
    (hcandidate : ∀ name old, P name old →
      ∃ value, adopted candidate name old = .ok value ∧ P name value)
    (hmem : candidate ∈ solutions) {after : Worksheet K σ}
    (hrun : outcome (copyFor id index solutions) sheet = (.ok (), after)) :
    ∃ copy ∈ after.branches.list, sheet.branches.nextId ≤ copy.id ∧
      ∀ name value, copy.bindings.find? name = some value → P name value := by
  induction solutions generalizing sheet with
  | nil => cases hmem
  | cons solution rest ih =>
      obtain ⟨branches, log, hstate, hgrows, hformed', hbranch'⟩ :=
        outcome_copy_adopt solution hformed hbranch
      rcases copyFor_cons id solution rest hformed hbranch with
        ⟨failure, hstep, _⟩ | ⟨log', hstep, _⟩
      · rw [hstep] at hrun
        cases hrun
      · rw [hstep, hstate] at hrun
        rcases List.mem_cons.1 hmem with rfl | hlater
        · obtain ⟨copy, hcopy, hid, hgood⟩ := copy_keeps sheet hformed hbranch hvalues hcandidate
          rw [hstate] at hcopy
          refine ⟨copy, ?_, Nat.le_of_eq hid.symm, hgood⟩
          obtain ⟨branches', log'', hrest, hgrows', _⟩ := outcome_copyFor id rest
            { sheet with branches := branches, log := log' } hformed' hbranch'
          rw [hrun] at hrest
          change after = _ at hrest
          rw [hrest]
          have hold := hformed.fresh branch (List.mem_of_getElem? hbranch)
          exact hgrows'.kept copy hcopy (by omega)
        · obtain ⟨copy, hcopy, hid, hgood⟩ := ih
            { sheet with branches := branches, log := log' } hformed' hbranch' hlater hrun
          exact ⟨copy, hcopy, Nat.le_trans hgrows.nextId hid, hgood⟩

/-- However the candidates are taken over, the values of the branch are kept there or in a copy,
unless they are changed as one of the candidates says. -/
theorem takeOver_keeps (sheet : Worksheet K σ) (id : Nat) (first : Solution K)
    (rest : List (Solution K)) (hformed : sheet.branches.WellFormed)
    (hbranch : sheet.branches.list[index]? = some branch)
    (hvalues : ∀ name value, branch.bindings.find? name = some value → P name value)
    (hcandidate : ∀ name old, P name old →
      ∃ value, adopted candidate name old = .ok value ∧ P name value)
    (hmem : candidate ∈ first :: rest) :
    ∃ kept ∈ (outcome (do
        copyFor id index rest
        adopt first index
        pure true : Action K σ Bool) sheet).2.branches.list,
      (kept.id = branch.id ∨ sheet.branches.nextId ≤ kept.id) ∧
      ∀ name value, kept.bindings.find? name = some value → P name value := by
  obtain ⟨branches, log, hcopies, hgrows, hformed', hbranch'⟩ :=
    outcome_copyFor id rest sheet hformed hbranch
  rcases outcome_bind_cases (copyFor id index rest : Action K σ Unit)
    (fun _ => do adopt first index; pure true) sheet with
    ⟨cause, middle, hrun, hall⟩ | ⟨x, middle, hrun, hall⟩
  · rw [hrun] at hcopies
    rw [hall, hcopies]
    exact ⟨branch, List.mem_of_getElem? hbranch', Or.inl rfl, hvalues⟩
  · rw [hrun] at hcopies
    change middle = _ at hcopies
    rw [hall, outcome_bind_pure]
    subst hcopies
    obtain ⟨branches', log', hadopt, hrw, _⟩ := outcome_adoptEach first index branches.names
      { sheet with branches := branches, log := log } hformed' hbranch' (fun _ h => h)
    rcases List.mem_cons.1 hmem with rfl | hlater
    · obtain ⟨_, after, hafter, hgood⟩ := adoptEach_keeps (P := P) candidate index branches.names
        { sheet with branches := branches, log := log } hformed' hbranch' (fun _ h => h)
        (fun name _ => hcandidate name) hvalues
      refine ⟨after, List.mem_of_getElem? hafter, Or.inl ?_, hgood⟩
      obtain ⟨bindings, hthere⟩ := hrw.at_index hbranch'
      rw [hadopt] at hafter
      have hsame := hthere.symm.trans hafter
      cases hsame
      rfl
    · obtain ⟨copy, hcopy, hid, hgood⟩ := copyFor_keeps id rest sheet hformed hbranch hvalues
        hcandidate hlater hrun
      have hold := hformed.fresh branch (List.mem_of_getElem? hbranch)
      refine ⟨copy, ?_, Or.inr hid, hgood⟩
      change copy ∈ (outcome (adoptEach first index branches.names) _).2.branches.list
      rw [hadopt]
      exact (hrw.grows hbranch').kept copy hcopy (by omega)

end Copies

end Worksheet

/-- Whether an answer does not mix candidates that resolve variables with others. -/
def Exchange.isUnmixed {K : Type} [Scalar K] (exchange : Exchange K) : Bool :=
  match exchange.reply with
  | .ok (.solved candidates) =>
    candidates.all Worksheet.isNumeric || candidates.all (fun c => !Worksheet.isNumeric c)
  | _ => true

theorem Exchange.isNumeric_of_isUnmixed {K : Type} [Scalar K] {exchange : Exchange K}
    (h : exchange.isUnmixed = true) {candidates : List (Solution K)}
    (hreply : exchange.reply = .ok (.solved candidates)) {first : Solution K}
    (hfirst : first ∈ candidates) (hnumeric : Worksheet.isNumeric first = true) :
    ∀ candidate ∈ candidates, Worksheet.isNumeric candidate = true := by
  unfold Exchange.isUnmixed at h
  rw [hreply] at h
  rcases Bool.or_eq_true_iff.1 h with hnumbers | hothers
  · exact List.all_eq_true.1 hnumbers
  · have hfalse := List.all_eq_true.1 hothers first hfirst
    rw [hnumeric] at hfalse
    cases hfalse

namespace Worksheet

variable {K : Type} [ExactScalar K]

/-- An exchange that did not come to a search, and whose answer is not mixed. -/
def Harmless (numerics : Numerics K) (settings : SolverSettings K) (exchange : Exchange K) : Prop :=
  Solver.reachesSearch numerics settings exchange.relations exchange.unknowns = false ∧
    exchange.isUnmixed = true

/-- A worksheet on its way through a run that has kept the numbers of the variables: as long as all
exchanges were harmless, a branch that is not marked agrees with them. -/
structure Retains (numerics : Numerics K) (settings : SolverSettings K) (names : List String)
    (s : String → K) (sheet : Worksheet K (Twister × List (Exchange K))) : Prop where
  engine : sheet.engine = (Engine.polynomial numerics settings).recording
  tolerance : sheet.judge.tolerance = 0
  declared : sheet.branches.names = names
  equations : ∀ equation ∈ sheet.equations, equation.SatisfiedBy names s
  procedures : sheet.procedures = []
  formed : sheet.branches.WellFormed
  marks : ∀ id ∈ sheet.marked.keys, id < sheet.branches.nextId
  branch : (∀ exchange ∈ sheet.engineState.2, Harmless numerics settings exchange) →
    ∃ branch ∈ sheet.branches.list, branch.id ∉ sheet.marked.keys ∧ branch.Agrees names s

/-- Relations that hold for the numbers if the branch with an identity agrees with them. -/
def HoldIn (names : List String) (s : String → K) (id : Nat) (branches : Branches K)
    (relations : List (Relation K)) : Prop :=
  ∀ branch ∈ branches.list, branch.id = id → branch.Agrees names s →
    ∀ r ∈ relations, r.HoldsAt (pointOf s) (Declared names)

section Retain

variable {numerics : Numerics K} {settings : SolverSettings K} {names : List String}
  {s : String → K} {sheet : Worksheet K (Twister × List (Exchange K))} {id : Nat}

/-- Gathering the relations of the current branch marks no branch that agrees with the numbers, and
the relations hold for them if the current branch agrees. -/
theorem retains_gather (h : Retains numerics settings names s sheet) (hat : AtBranch id sheet) :
    Retains numerics settings names s (outcome (gather id sheet.equations []) sheet).2 ∧
    ∀ relations, (outcome (gather id sheet.equations []) sheet).1 = .ok (some relations) →
      HoldIn names s id sheet.branches relations := by
  obtain ⟨current, hcurrent, rfl⟩ := hat
  obtain ⟨log, hgather⟩ := outcome_gather current.id sheet.equations [] sheet h.formed hcurrent
  have hextends := extends_sift current.bindings sheet.equations [] sheet.judge
  -- the branch with the identity of the current one is the current one
  have hsame (branch : Branch K) (hbranch : branch ∈ sheet.branches.list)
      (hid : branch.id = current.id) : branch = current :=
    h.formed.branch_unique hbranch (List.mem_of_getElem? hcurrent) hid
  have hsift (hagrees : current.Agrees names s) := sift_of_satisfied hagrees
    (fun name hname => h.formed.exists_value (List.mem_of_getElem? hcurrent)
      (by rw [h.declared]; exact hname))
    sheet.equations h.equations [] nofun sheet.judge h.tolerance
  rw [hgather]
  refine ⟨⟨h.engine, ?_, h.declared, h.equations, h.procedures, h.formed, ?_, ?_⟩, ?_⟩
  · rw [hextends.tolerance, h.tolerance]
  · intro id hid
    dsimp only at hid ⊢
    unfold marksAfter at hid
    split at hid
    · rw [SortedMap.mem_keys_iff, SortedMap.find?_insert] at hid
      split at hid
      · rename_i hmarked
        rw [← hmarked]
        exact h.formed.fresh current (List.mem_of_getElem? hcurrent)
      · exact h.marks id ((SortedMap.mem_keys_iff _ _).2 hid)
    · exact h.marks id hid
  · intro hharmless
    obtain ⟨branch, hbranch, hunmarked, hagrees⟩ := h.branch hharmless
    refine ⟨branch, hbranch, ?_, hagrees⟩
    by_cases hid : branch.id = current.id
    · rw [hsame branch hbranch hid] at hagrees
      obtain ⟨relations, after, hrun, _⟩ := hsift hagrees
      rw [hrun]
      exact hunmarked
    · dsimp only
      unfold marksAfter
      split
      · rw [SortedMap.mem_keys_iff, SortedMap.find?_insert, if_neg (Ne.symm hid),
          ← SortedMap.mem_keys_iff]
        exact hunmarked
      · exact hunmarked
  · intro relations hrelations branch hbranch hid hagrees
    rw [hsame branch hbranch hid] at hagrees
    obtain ⟨found, after, hrun, hholds⟩ := hsift hagrees
    dsimp only at hrelations
    rw [hrun] at hrelations
    cases hrelations
    exact hholds

/-- Relations that hold for the numbers are relations between the unknowns that the engine is asked
for. -/
theorem holdsAt_unknownsOf (hformed : sheet.branches.WellFormed)
    (hnames : sheet.branches.names = names) {subset : List (Relation K)}
    (hholds : ∀ r ∈ subset, r.HoldsAt (pointOf s) (Declared names)) :
    ∀ r ∈ subset, r.HoldsAt (pointOf s) (· ∈ unknownsOf sheet.branches subset) := by
  intro r hr
  have hside (a : Fraction K) (ha : a.Over (Declared names))
      (hsub : ∀ symbol ∈ a.unknowns, symbol ∈ r.unknowns) :
      a.Over (· ∈ unknownsOf sheet.branches subset) := by
    rw [Fraction.over_iff] at ha ⊢
    intro symbol hsymbol
    obtain ⟨hunit, hname⟩ := ha symbol hsymbol
    have hunknown : symbol ∈ a.unknowns := List.mem_filter.2 ⟨hsymbol, by rw [hunit]; rfl⟩
    refine List.mem_filter.2 ⟨?_, ?_⟩
    · rw [mem_ascending, List.mem_flatMap]
      exact ⟨r, hr, hsub symbol hunknown⟩
    · rw [hformed.declares_iff, hnames]
      exact hname
  refine ⟨hside r.lhs (hholds r hr).lhs_over ?_, hside r.rhs (hholds r hr).rhs_over ?_,
    (hholds r hr).equal⟩
  · intro symbol hsymbol
    exact (mem_ascending _ _).2 (List.mem_append_left _ hsymbol)
  · intro symbol hsymbol
    exact (mem_ascending _ _).2 (List.mem_append_right _ hsymbol)

omit [ExactScalar K] in
theorem isUnit_unknownsOf [Scalar K] (branches : Branches K) (subset : List (Relation K)) :
    ∀ symbol ∈ unknownsOf branches subset, symbol.isUnit = false := by
  intro symbol hsymbol
  have hmem := (List.mem_filter.1 hsymbol).1
  rw [mem_ascending, List.mem_flatMap] at hmem
  obtain ⟨r, _, hr⟩ := hmem
  rw [Relation.unknowns, mem_ascending, List.mem_append] at hr
  rcases hr with hr | hr
  · simpa using (List.mem_filter.1 hr).2
  · simpa using (List.mem_filter.1 hr).2

/-- The engine loses no numbers for which the relations hold that it is asked. -/
theorem covers_reply (hnumerics : RealRoots.FindsRealRoots numerics) (hsettings : settings.Exact)
    (h : Retains numerics settings names s sheet) {subset : List (Relation K)}
    (hholds : ∀ r ∈ subset, r.HoldsAt (pointOf s) (Declared names))
    (hsearch : Solver.reachesSearch numerics settings subset
      (unknownsOf sheet.branches subset) = false)
    {answer : Answer K} (hreply : sheet.reply subset = .ok answer) : answer.Covers (pointOf s) := by
  unfold reply at hreply
  rw [h.engine] at hreply
  exact Solver.covers_solve hnumerics hsettings (isUnit_unknownsOf sheet.branches subset) hsearch
    (holdsAt_unknownsOf h.formed h.declared hholds) ⟨sheet.engineState.1, #[]⟩ answer _
    (Prod.ext hreply rfl)

theorem exchanges_retained (h : Retains numerics settings names s sheet)
    (subset : List (Relation K)) :
    (sheet.consulted subset).engineState.2 = sheet.engineState.2 ++
      [⟨subset, unknownsOf sheet.branches subset, sheet.reply subset⟩] := by
  unfold consulted asked reply
  rw [h.engine]
  rfl

/-- A question changes nothing but the exchanges. -/
theorem retains_consulted (h : Retains numerics settings names s sheet)
    (subset : List (Relation K)) : Retains numerics settings names s (sheet.consulted subset) where
  engine := h.engine
  tolerance := h.tolerance
  declared := h.declared
  equations := h.equations
  procedures := h.procedures
  formed := h.formed
  marks := h.marks
  branch := by
    intro hharmless
    rw [exchanges_retained h] at hharmless
    exact h.branch (fun exchange hold => hharmless exchange (List.mem_append_left _ hold))

/-- An attempt at a branch keeps the numbers. If the branch agrees with them, one of the candidates
describes them, and all candidates are taken over. -/
theorem retains_resolveBy (hnumerics : RealRoots.FindsRealRoots numerics)
    (hsettings : settings.Exact) (h : Retains numerics settings names s sheet)
    {subset : List (Relation K)} (hholds : HoldIn names s id sheet.branches subset) :
    Retains numerics settings names s (outcome (resolveBy id subset) sheet).2 := by
  have hconsulted := retains_consulted h subset
  have hstep := attempt_resolveBy id subset sheet
  generalize outcome (resolveBy id subset) sheet = run at hstep
  cases hstep with
  | idle => exact h
  | failed => exact hconsulted
  | undecided => exact hconsulted
  | refused => exact hconsulted
  | inconsistent => exact { hconsulted with }
  | @resolved candidates rest first index _ hreply hnumeric hindex =>
      obtain ⟨worked, hworked, hid⟩ := Branches.indexOf?_some hindex
      obtain ⟨branches, log, hafter, hgrows, hformed'⟩ :=
        outcome_takeOver (sheet.consulted subset) first rest h.formed hindex
      have hkeeps (candidate : Solution K) (hmem : candidate ∈ first :: rest)
          (hagrees : worked.Agrees names s)
          (hcandidate : ∀ name old, old.StandsFor names s (s name) →
            ∃ value, adopted candidate name old = .ok value ∧
              value.StandsFor names s (s name)) :=
        takeOver_keeps (P := fun name value => value.StandsFor names s (s name))
          (sheet.consulted subset) id first rest h.formed hworked hagrees hcandidate hmem
      rw [hafter] at hkeeps ⊢
      refine ⟨h.engine, h.tolerance, hgrows.names.trans h.declared, h.equations, h.procedures,
        hformed', ?_, ?_⟩
      · intro other hother
        exact Nat.lt_of_lt_of_le (h.marks other hother) hgrows.nextId
      · intro hharmless
        obtain ⟨branch, hbranch, hunmarked, hagrees⟩ := hconsulted.branch hharmless
        by_cases hwhich : branch.id = id
        · -- the branch itself agrees, so the relations hold and the answer covers the numbers
          obtain rfl : branch = worked :=
            h.formed.branch_unique hbranch (List.mem_of_getElem? hworked) (hwhich.trans hid.symm)
          have hexchange : Harmless numerics settings
              ⟨subset, unknownsOf sheet.branches subset, sheet.reply subset⟩ := by
            apply hharmless
            change _ ∈ (sheet.consulted subset).engineState.2
            rw [exchanges_retained h]
            exact List.mem_append_right _ (List.mem_singleton_self _)
          obtain ⟨candidate, hcandidate, hdescribes⟩ := covers_reply hnumerics hsettings h
            (hholds branch hbranch hwhich hagrees) hexchange.1 hreply
          obtain ⟨hfirst, hfirstNumeric⟩ :=
            List.mem_filter.1 (hnumeric ▸ List.mem_cons_self : first ∈ candidates.filter isNumeric)
          have hall := Exchange.isNumeric_of_isUnmixed hexchange.2 hreply hfirst hfirstNumeric
          have hmem : candidate ∈ first :: rest := by
            rw [← hnumeric]
            exact List.mem_filter.2 ⟨hcandidate, hall candidate hcandidate⟩
          obtain ⟨kept, hkept, hwhere, hgood⟩ := hkeeps candidate hmem hagrees
            (fun name old hold => adopted_standsFor hdescribes (hall candidate hcandidate) hold)
          refine ⟨kept, hkept, ?_, hgood⟩
          rcases hwhere with hsame | hnew
          · rw [hsame]
            exact hunmarked
          · intro hmarked
            exact absurd (h.marks kept.id hmarked) (Nat.not_lt.2 hnew)
        · exact ⟨branch, hgrows.kept branch hbranch hwhich, hunmarked, hagrees⟩

/-- Attempts with some subsets keep the numbers. The relations still hold after an attempt that
resolves nothing, because it changes no branch. -/
theorem retains_sweep (hnumerics : RealRoots.FindsRealRoots numerics) (hsettings : settings.Exact)
    (subsets : List (List (Relation K))) (h : Retains numerics settings names s sheet)
    (hholds : ∀ subset ∈ subsets, HoldIn names s id sheet.branches subset) :
    Retains numerics settings names s (outcome (subsets.anyM (resolveBy id)) sheet).2 := by
  induction subsets generalizing sheet with
  | nil => exact h
  | cons subset rest ih =>
      have hstep := retains_resolveBy hnumerics hsettings h (hholds subset List.mem_cons_self)
      rw [List.anyM]
      rcases hrun : outcome (resolveBy id subset) sheet with ⟨failure | resolved, middle⟩
      · rw [outcome_bind_error _ hrun]
        rw [hrun] at hstep
        exact hstep
      · rw [outcome_bind_ok _ hrun]
        rw [hrun] at hstep
        cases resolved with
        | true => exact hstep
        | false =>
            obtain ⟨_, _, _, rfl⟩ := unresolved_resolveBy h.formed hrun
            exact ih hstep fun other hother => hholds other (List.mem_cons_of_mem subset hother)

/-- Attempts with the relations that were gathered keep the numbers. -/
theorem retains_gathered_sweep (hnumerics : RealRoots.FindsRealRoots numerics)
    (hsettings : settings.Exact) (h : Retains numerics settings names s sheet)
    (hat : AtBranch id sheet) {relations : List (Relation K)}
    {middle : Worksheet K (Twister × List (Exchange K))}
    (hgather : outcome (gather id sheet.equations []) sheet.quiet =
      (.ok (some relations), middle)) :
    Retains numerics settings names s
      (outcome ((middle.trials relations).anyM (resolveBy id)) middle).2 := by
  have hquiet : Retains numerics settings names s sheet.quiet := { h with }
  obtain ⟨hgathered, hrelations⟩ := retains_gather hquiet hat
  change Retains numerics settings names s
    (outcome (gather id sheet.equations []) sheet.quiet).2 at hgathered
  rw [hgather] at hgathered
  obtain ⟨branch, hbranch⟩ := h.formed.exists_current
  obtain ⟨_, hbranches, _, _⟩ := gather_findings id sheet.quiet h.formed hbranch hgather
  apply retains_sweep hnumerics hsettings _ hgathered
  intro subset hsubset branch hmem hid hagrees r hr
  rw [hbranches] at hmem
  exact hrelations relations (congrArg Prod.fst hgather) branch hmem hid hagrees r
    (mem_of_mem_trials hsubset r hr)

/-- Solving a branch keeps the numbers, whether or not it is the branch that agrees with them. -/
theorem retains_settle (hnumerics : RealRoots.FindsRealRoots numerics) (hsettings : settings.Exact)
    (steps : Nat) (h : Retains numerics settings names s sheet) (hat : AtBranch id sheet) :
    Retains numerics settings names s (outcome (settle id steps) sheet).2 := by
  induction steps generalizing sheet with
  | zero =>
      rw [settle]
      exact h
  | succ steps ih =>
      have hround := round_settle id steps sheet h.procedures h.formed
      have hquiet : Retains numerics settings names s sheet.quiet := { h with }
      have hgathered := (retains_gather hquiet hat).1
      have hworks := works_gather id sheet.equations sheet.quiet h.formed
      generalize outcome (settle id (steps + 1)) sheet = run at hround
      cases hround with
      | failed hgather =>
          change Retains numerics settings names s
            (outcome (gather id sheet.equations []) sheet.quiet).2 at hgathered
          rw [hgather] at hgathered
          exact hgathered
      | contradicted hgather =>
          change Retains numerics settings names s
            (outcome (gather id sheet.equations []) sheet.quiet).2 at hgathered
          rw [hgather] at hgathered
          exact hgathered
      | @broken relations middle after failure hgather hsweep =>
          have hend := retains_gathered_sweep hnumerics hsettings h hat hgather
          rw [hsweep] at hend
          exact hend
      | @again relations middle after hgather hsweep =>
          have hend := retains_gathered_sweep hnumerics hsettings h hat hgather
          rw [hsweep] at hend
          rw [hgather] at hworks
          have hworks' := works_sweep id (middle.trials relations) middle hworks.formed
          rw [hsweep] at hworks'
          exact ih hend (AtBranch.of_works hat
            (((works_quiet id sheet h.formed).trans hworks).trans hworks'))
      | @settled relations middle after hgather hsweep =>
          have hend := retains_gathered_sweep hnumerics hsettings h hat hgather
          rw [hsweep] at hend
          exact { hend with }

/-- Visiting all branches keeps the numbers. -/
theorem retains_visitAll (hnumerics : RealRoots.FindsRealRoots numerics)
    (hsettings : settings.Exact) (limit steps : Nat) (visited : List Nat)
    (h : Retains numerics settings names s sheet) :
    Retains numerics settings names s (outcome (visitAll limit steps visited) sheet).2 := by
  induction steps generalizing sheet visited with
  | zero =>
      rw [visitAll]
      exact h
  | succ steps ih =>
      have hvisit := visit_visitAll limit steps visited sheet h.formed
      have hsettled (index : Nat) (branch : Branch K) (log : Array String)
          (hbranch : sheet.branches.list[index]? = some branch) :
          Retains numerics settings names s
            (outcome (settle branch.id limit) (sheet.turnedTo index log)).2 :=
        retains_settle hnumerics hsettings limit
          { h with formed := formed_turnedTo h.formed hbranch log } ⟨branch, hbranch, rfl⟩
      generalize outcome (visitAll limit (steps + 1) visited) sheet = run at hvisit
      cases hvisit with
      | done => exact h
      | @broken index branch log failure after hbranch _ hsettle =>
          have hend := hsettled index branch log hbranch
          rw [hsettle] at hend
          exact hend
      | @next index branch log after hbranch _ hsettle =>
          have hend := hsettled index branch log hbranch
          rw [hsettle] at hend
          exact ih (branch.id :: visited) hend

end Retain

section Solve

variable {numerics : Numerics K} {settings : SolverSettings K} {s : String → K}
  {sheet : Worksheet K Twister} {steps : Nat}

/-- The branch that agrees with the numbers is not removed at the end of a run. -/
theorem live_agrees {names : List String} {middle : Worksheet K (Twister × List (Exchange K))}
    (hend : Retains numerics settings names s middle)
    (hharmless : ∀ exchange ∈ middle.engineState.2, Harmless numerics settings exchange)
    {branches : Branches K} (hlist : branches.list =
      middle.branches.list.filter (fun branch => !middle.marked.keys.contains branch.id)) :
    ∃ branch ∈ branches.list,
      branch.id ∉ (∅ : SortedMap Nat (List (Relation K))).keys ∧ branch.Agrees names s := by
  obtain ⟨branch, hmem, hunmarked, hagrees⟩ := hend.branch hharmless
  refine ⟨branch, ?_, nofun, hagrees⟩
  rw [hlist, List.mem_filter]
  exact ⟨hmem, by simpa using hunmarked⟩

/-- Numbers that satisfy the equations and agree with a branch before a run agree with one after it,
however it ends. The run does not end because all branches are contradictory; it can end because a
solution was denied to some relations, at once if the options ask for it, or after nothing has been
resolved. -/
theorem solve_loses_no_solution (hnumerics : RealRoots.FindsRealRoots numerics)
    (hsettings : settings.Exact) (hengine : sheet.engine = Engine.polynomial numerics settings)
    (htolerance : sheet.judge.tolerance = 0) (hprocedures : sheet.procedures = [])
    (hformed : sheet.branches.WellFormed)
    (hsolution : sheet.IsSolution s)
    (hsearch : ∀ exchange ∈ sheet.exchanges steps,
      Solver.reachesSearch numerics settings exchange.relations exchange.unknowns = false)
    (hunmixed : ∀ exchange ∈ sheet.exchanges steps, exchange.isUnmixed = true) :
    (∃ branch ∈ (outcome (solve steps) sheet).2.branches.list,
      branch.id ∉ (outcome (solve steps) sheet).2.marked.keys ∧
      branch.Agrees sheet.branches.names s) ∧
    ∀ failure, (outcome (solve steps) sheet).1 = .error failure → failure.kind = .unsolvable →
      (sheet.options.raiseOnUnsolvable = true ∧ ∃ subset, failure = .inconsistentSubset subset) ∨
      failure = .nothingSolved ∧
        ((outcome (solve steps) sheet).2.branches.snapshot == sheet.branches.snapshot) = true := by
  have hrecorded := outcome_solve_recording steps sheet
  have hrun := run_solve steps (sheet.recording []) hprocedures hformed
  have hstart : Retains numerics settings sheet.branches.names s (sheet.recording []).opened := by
    obtain ⟨branch, hmem, hagrees⟩ := hsolution.branch
    refine ⟨?_, htolerance, rfl, hsolution.equations, hprocedures, hformed, nofun,
      fun _ => ⟨branch, hmem, nofun, hagrees⟩⟩
    change sheet.engine.recording = _
    rw [hengine]
  have hend := retains_visitAll hnumerics hsettings steps steps [] hstart
  have hsteady : SteadyEngine (sheet.recording []).opened.engine := by
    intro relations unknowns state
    change ErrsWith _ ((sheet.engine.recording).ask relations unknowns state).1
    rw [hengine]
    exact steady_polynomial numerics settings relations unknowns state.1
  have herrs := errs_visitAll steps steps [] hsteady hprocedures hformed
  have hharmless (exchange : Exchange K) (hexchange : exchange ∈ sheet.exchanges steps) :
      Harmless numerics settings exchange :=
    ⟨hsearch exchange hexchange, hunmixed exchange hexchange⟩
  -- the run with the recording engine has the same result and the same branches
  change ∀ exchange ∈ (outcome (solve steps) (sheet.recording [])).2.engineState.2, _ at hharmless
  suffices hrecording :
      (∃ branch ∈ (outcome (solve steps) (sheet.recording [])).2.branches.list,
        branch.id ∉ (outcome (solve steps) (sheet.recording [])).2.marked.keys ∧
        branch.Agrees sheet.branches.names s) ∧
      ∀ failure, (outcome (solve steps) (sheet.recording [])).1 = .error failure →
        failure.kind = .unsolvable →
        (sheet.options.raiseOnUnsolvable = true ∧ ∃ subset, failure = .inconsistentSubset subset) ∨
        failure = .nothingSolved ∧ ((outcome (solve steps)
          (sheet.recording [])).2.branches.snapshot == sheet.branches.snapshot) = true by
    rw [hrecorded] at hrecording
    exact hrecording
  generalize outcome (solve steps) (sheet.recording []) = run at hrun hharmless
  cases hrun with
  | broken hpass =>
      rw [hpass] at hend herrs
      refine ⟨hend.branch hharmless, ?_⟩
      intro failure hfailed hkind
      cases hfailed
      rcases herrs _ rfl with (hincidental | hraised) | rfl
      · exact absurd hkind hincidental.kind_ne
      · exact Or.inl hraised
      · cases hkind
  | hopeless hpass hall =>
      rw [hpass] at hend
      obtain ⟨branch, hmem, hunmarked, _⟩ := hend.branch hharmless
      exact absurd (hall branch hmem) hunmarked
  | @fruitless _ middle after startId hpass hstays _ hdiscard _ hsame =>
      rw [hpass] at hend
      obtain ⟨branches, log, hstate, hlist, _⟩ := outcome_discardMarked_ok startId
        hend.formed hstays
      rw [hstate] at hdiscard
      cases hdiscard
      refine ⟨live_agrees hend hharmless hlist, ?_⟩
      intro failure hfailed _
      cases hfailed
      exact Or.inr ⟨rfl, hsame⟩
  | @finished _ middle after startId log' hpass hstays _ hdiscard _ =>
      rw [hpass] at hend
      obtain ⟨branches, log, hstate, hlist, _⟩ := outcome_discardMarked_ok startId
        hend.formed hstays
      rw [hstate] at hdiscard
      cases hdiscard
      exact ⟨live_agrees hend hharmless hlist, nofun⟩

end Solve

section Instances

noncomputable def squareThenSum : Worksheet Rat Twister :=
  Rational.sheet RealRoots.exactNumerics ["x", "y"]
    [⟨"square", [.mul (.value "x") (.value "x"), .number 4]⟩, Rational.sumEquation "sum" "x" "y" 3]

/-- Two for one variable, and one for any other. -/
def twoForX (name : String) : Rat := if name = "x" then 2 else 1

theorem two_and_one_are_kept :
    (outcome (solve 5) squareThenSum).2.branches.count = 2 ∧
    ∃ branch ∈ (outcome (solve 5) squareThenSum).2.branches.list,
      branch.Agrees squareThenSum.branches.names twoForX := by
  have hsolution : squareThenSum.IsSolution twoForX := by decide +kernel
  have hsearch : ∀ exchange ∈ squareThenSum.exchanges 5,
      Solver.reachesSearch RealRoots.exactNumerics Rational.settings exchange.relations
        exchange.unknowns = false := by decide +kernel
  have hunmixed : ∀ exchange ∈ squareThenSum.exchanges 5, exchange.isUnmixed = true := by
    decide +kernel
  have hsettings : Rational.settings.Exact := ⟨rfl, rfl, rfl, rfl⟩
  refine ⟨by decide +kernel, ?_⟩
  obtain ⟨⟨branch, hmem, _, hagrees⟩, _⟩ := solve_loses_no_solution
    RealRoots.exactNumerics_finds hsettings rfl rfl rfl
    (Rational.wellFormed_sheet RealRoots.exactNumerics ["x", "y"] squareThenSum.equations)
    hsolution hsearch hunmixed
  exact ⟨branch, hmem, hagrees⟩

noncomputable def commonFactor : Worksheet Rat Twister :=
  Rational.sheet RealRoots.exactNumerics ["x", "y", "z"]
    [⟨"products", [.mul (.value "x") (.value "y"), .mul (.value "x") (.value "z")]⟩]

/-- A square, and a product that only one of its roots allows. A solution that is denied to some
relations is to end the run. -/
noncomputable def squareAndProduct : Worksheet Rat Twister :=
  let sheet := Rational.sheet RealRoots.exactNumerics ["x", "y"]
    [⟨"square", [.mul (.value "x") (.value "x"), .number 4]⟩,
      ⟨"product", [.mul (.value "x") (.mul (.value "y") (.value "y")), .number 8]⟩]
  { sheet with options := { sheet.options with raiseOnUnsolvable := true } }

/-- The branches for the roots of a square, after which sums are registered that only one of the
roots allows. -/
noncomputable def rootsAndSums : Worksheet Rat Twister :=
  let sum := .add (.value "y") (.value "z")
  let register : Action Rat Twister Unit := do
    solve 5
    registerEquation "sum" (some [sum, .number 1])
    registerEquation "multiple" (some [.mul (.value "x") sum, .number 2])
  (outcome register (Rational.sheet RealRoots.exactNumerics ["x", "y", "z"]
    [⟨"square", [.mul (.value "x") (.value "x"), .number 4]⟩])).2

/-- Two for one variable, zero for another, and one for any other. -/
def twoAndZero (name : String) : Rat := if name = "x" then 2 else if name = "y" then 0 else 1

/-- A run can lose a solution that only a candidate with an unknown describes, and one that keeps a
solution can still report that the worksheet is unsolvable. -/
theorem common_factor_hides_other_solutions :
    (commonFactor.IsSolution (fun _ => 1) ∧
      (∀ exchange ∈ commonFactor.exchanges 5,
        Solver.reachesSearch RealRoots.exactNumerics Rational.settings exchange.relations
          exchange.unknowns = false) ∧
      (outcome (solve 5) commonFactor).1.isOk = true ∧
      ∀ branch ∈ (outcome (solve 5) commonFactor).2.branches.list,
        ¬ branch.Agrees commonFactor.branches.names (fun _ => 1)) ∧
    (squareAndProduct.IsSolution (fun _ => 2) ∧
      (∀ exchange ∈ squareAndProduct.exchanges 5,
        Solver.reachesSearch RealRoots.exactNumerics Rational.settings exchange.relations
          exchange.unknowns = false) ∧
      EndsUnsolvable (outcome (solve 5) squareAndProduct).1) ∧
    (rootsAndSums.IsSolution twoAndZero ∧
      (∀ exchange ∈ rootsAndSums.exchanges 5,
        Solver.reachesSearch RealRoots.exactNumerics Rational.settings exchange.relations
          exchange.unknowns = false) ∧
      EndsUnsolvable (outcome (solve 5) rootsAndSums).1) := by
  refine ⟨⟨?_, ?_, ?_, ?_⟩, ⟨?_, ?_, ?_⟩, ?_, ?_, ?_⟩ <;> decide +kernel

end Instances

end Worksheet

end Ramify
