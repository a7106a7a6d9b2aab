import Mathlib.Data.List.Perm.Subperm
import Ramify.Proofs.Worksheet.Settle

/-!
A solving run of a worksheet without procedures: every branch is visited, marked branches are
removed, and the run ends well unless relations had no solution and nothing changed. Each stage is
described by what it can do, so that a property of a run is shown stage by stage.
-/

namespace Ramify

namespace Worksheet

variable {K σ : Type} [Scalar K]

section Visit

omit [Scalar K] in
theorem nextUnvisited_some {branches : Branches K} {visited : List Nat} {index id : Nat}
    (h : nextUnvisited branches visited = some (index, id)) :
    ∃ branch, branches.list[index]? = some branch ∧ branch.id = id ∧ id ∉ visited := by
  unfold nextUnvisited at h
  obtain ⟨offset, _, hfound⟩ := List.exists_of_findSome?_eq_some h
  obtain ⟨branch, hbranch, hkeep⟩ := Option.bind_eq_some_iff.1 hfound
  split at hkeep
  · cases hkeep
  · rename_i hnew
    cases hkeep
    exact ⟨branch, hbranch, rfl, by simpa using hnew⟩

omit [Scalar K] in
/-- If no branch is left to visit, all have been visited. -/
theorem nextUnvisited_none {branches : Branches K} {visited : List Nat}
    (hformed : branches.WellFormed) (h : nextUnvisited branches visited = none) :
    ∀ branch ∈ branches.list, branch.id ∈ visited := by
  intro branch hbranch
  obtain ⟨i, hi⟩ := List.mem_iff_getElem?.1 hbranch
  have hlt : i < branches.count := (List.getElem?_eq_some_iff.1 hi).1
  have hcurrent := hformed.current_lt
  unfold nextUnvisited at h
  rw [List.findSome?_eq_none_iff] at h
  -- the offset that leads from the current position to this one
  have hoffset : ∃ offset, offset < branches.count ∧
      (branches.current + offset) % branches.count = i := by
    by_cases hle : branches.current ≤ i
    · refine ⟨i - branches.current, by omega, ?_⟩
      rw [Nat.mod_eq_of_lt (by omega)]
      omega
    · refine ⟨i + branches.count - branches.current, by omega, ?_⟩
      rw [show branches.current + (i + branches.count - branches.current) = i + branches.count by
        omega, Nat.add_mod_right, Nat.mod_eq_of_lt hlt]
  obtain ⟨offset, hoffset, hposition⟩ := hoffset
  have hnone := h offset (List.mem_range.2 hoffset)
  rw [hposition] at hnone
  dsimp only at hnone
  rw [hi] at hnone
  by_contra hnew
  simp [hnew] at hnone

/-- The worksheet with another branch current. -/
def turnedTo (index : Nat) (log : Array String) (sheet : Worksheet K σ) : Worksheet K σ :=
  { sheet with branches := { sheet.branches with current := index }, log := log }

/-- Turns to a branch, which is how a visit to it begins. -/
def turn (index id : Nat) : Action K σ Unit := do
  onBranches (Branches.select index)
  narrate ("Solving branch " ++ toString index ++ " (id " ++ toString id ++ ")")

omit [Scalar K] in
/-- The next branch can be turned to. -/
theorem exists_turn {sheet : Worksheet K σ} {visited : List Nat} {index id : Nat}
    (hnext : nextUnvisited sheet.branches visited = some (index, id)) :
    ∃ branch log, sheet.branches.list[index]? = some branch ∧ branch.id = id ∧ id ∉ visited ∧
      outcome (turn index id) sheet = (.ok (), sheet.turnedTo index log) := by
  obtain ⟨branch, hbranch, hid, hnew⟩ := nextUnvisited_some hnext
  have hselect : outcome (onBranches (Branches.select index)) sheet =
      (.ok (), { sheet with branches := { sheet.branches with current := index } }) := by
    rw [outcome_onBranches, Branches.outcome_select hbranch]
  obtain ⟨log, hlog⟩ := outcome_narrate
    ("Solving branch " ++ toString index ++ " (id " ++ toString id ++ ")")
    { sheet with branches := { sheet.branches with current := index } }
  refine ⟨branch, log, hbranch, hid, hnew, ?_⟩
  rw [turn, outcome_bind_ok _ hselect]
  exact hlog

theorem outcome_visitAll_done (limit steps : Nat) {visited : List Nat} {sheet : Worksheet K σ}
    (hnext : nextUnvisited sheet.branches visited = none) :
    outcome (visitAll limit (steps + 1) visited) sheet = (.ok visited, sheet) := by
  rw [visitAll, outcome_get_bind, hnext]
  rfl

theorem outcome_visitAll_next (limit steps : Nat) {visited : List Nat} {index id : Nat}
    {sheet turned : Worksheet K σ}
    (hnext : nextUnvisited sheet.branches visited = some (index, id))
    (hturn : outcome (turn index id) sheet = (.ok (), turned)) :
    outcome (visitAll limit (steps + 1) visited) sheet =
      outcome (settle id limit >>= fun _ => visitAll limit steps (id :: visited)) turned := by
  have hrest := outcome_bind_ok
    (fun _ => settle id limit >>= fun _ => visitAll limit steps (id :: visited)) hturn
  rw [visitAll, outcome_get_bind, hnext, ← hrest]
  simp only [turn, bind_assoc]

/-- What a visit to the branches can do. -/
inductive Visit (limit steps : Nat) (visited : List Nat) (sheet : Worksheet K σ) :
    Except (Failure K) (List Nat) × Worksheet K σ → Prop
  /-- All branches have been visited. -/
  | done (hall : ∀ branch ∈ sheet.branches.list, branch.id ∈ visited) :
    Visit limit steps visited sheet (.ok visited, sheet)
  /-- Solving a branch fails. -/
  | broken {index : Nat} {branch : Branch K} {log : Array String} {failure : Failure K}
    {after : Worksheet K σ} (hbranch : sheet.branches.list[index]? = some branch)
    (hnew : branch.id ∉ visited)
    (hsettle : outcome (settle branch.id limit) (sheet.turnedTo index log) =
      (.error failure, after))
    (hnext : nextUnvisited sheet.branches visited = some (index, branch.id))
    (hturn : outcome (turn index branch.id) sheet = (.ok (), sheet.turnedTo index log)) :
    Visit limit steps visited sheet (.error failure, after)
  /-- A branch is solved, and others follow. -/
  | next {index : Nat} {branch : Branch K} {log : Array String} {after : Worksheet K σ}
    (hbranch : sheet.branches.list[index]? = some branch) (hnew : branch.id ∉ visited)
    (hsettle : outcome (settle branch.id limit) (sheet.turnedTo index log) = (.ok (), after))
    (hnext : nextUnvisited sheet.branches visited = some (index, branch.id))
    (hturn : outcome (turn index branch.id) sheet = (.ok (), sheet.turnedTo index log)) :
    Visit limit steps visited sheet (outcome (visitAll limit steps (branch.id :: visited)) after)

/-- Branches are visited one after the other. -/
theorem visit_visitAll (limit steps : Nat) (visited : List Nat) (sheet : Worksheet K σ)
    (hformed : sheet.branches.WellFormed) :
    Visit limit steps visited sheet (outcome (visitAll limit (steps + 1) visited) sheet) := by
  cases hnext : nextUnvisited sheet.branches visited with
  | none =>
      rw [outcome_visitAll_done limit steps hnext]
      exact .done (nextUnvisited_none hformed hnext)
  | some pair =>
      obtain ⟨index, id⟩ := pair
      obtain ⟨branch, log, hbranch, rfl, hnew, hturn⟩ := exists_turn hnext
      rw [outcome_visitAll_next limit steps hnext hturn]
      rcases hsettle : outcome (settle branch.id limit) (sheet.turnedTo index log) with
        ⟨failure | _, after⟩
      · rw [outcome_bind_error _ hsettle]
        exact .broken hbranch hnew hsettle hnext hturn
      · rw [outcome_bind_ok _ hsettle]
        exact .next hbranch hnew hsettle hnext hturn

omit [Scalar K] in
theorem formed_turnedTo {sheet : Worksheet K σ} (hformed : sheet.branches.WellFormed) {index : Nat}
    {branch : Branch K} (hbranch : sheet.branches.list[index]? = some branch)
    (log : Array String) : (sheet.turnedTo index log).branches.WellFormed :=
  hformed.select (List.getElem?_eq_some_iff.1 hbranch).1

/-- What stays in a worksheet while its branches are visited. -/
structure Passes (before after : Worksheet K σ) : Prop where
  options : after.options = before.options
  engine : after.engine = before.engine
  equations : after.equations = before.equations
  procedures : after.procedures = before.procedures
  solved : after.solved = before.solved
  formed : after.branches.WellFormed
  names : after.branches.names = before.branches.names

omit [Scalar K] in
theorem Passes.trans {a b c : Worksheet K σ} (hab : Passes a b) (hbc : Passes b c) :
    Passes a c where
  options := hbc.options.trans hab.options
  engine := hbc.engine.trans hab.engine
  equations := hbc.equations.trans hab.equations
  procedures := hbc.procedures.trans hab.procedures
  solved := hbc.solved.trans hab.solved
  formed := hbc.formed
  names := hbc.names.trans hab.names

omit [Scalar K] in
theorem Works.passes {id : Nat} {before after : Worksheet K σ} (h : Works id before after) :
    Passes before after where
  options := h.options
  engine := h.engine
  equations := h.equations
  procedures := h.procedures
  solved := h.solved
  formed := h.formed
  names := h.branches.names

theorem passes_visit {sheet : Worksheet K σ} (hprocedures : sheet.procedures = [])
    (hformed : sheet.branches.WellFormed) {index : Nat} {branch : Branch K}
    (hbranch : sheet.branches.list[index]? = some branch) (log : Array String) (limit : Nat) :
    Passes sheet (outcome (settle branch.id limit) (sheet.turnedTo index log)).2 := by
  have hturned : Passes sheet (sheet.turnedTo index log) :=
    ⟨rfl, rfl, rfl, rfl, rfl, formed_turnedTo hformed hbranch log, rfl⟩
  have hworks := works_settle branch.id limit (sheet.turnedTo index log) hprocedures
    hturned.formed
  exact hturned.trans hworks.passes

theorem passes_visitAll (limit steps : Nat) (visited : List Nat) (sheet : Worksheet K σ)
    (hprocedures : sheet.procedures = []) (hformed : sheet.branches.WellFormed) :
    Passes sheet (outcome (visitAll limit steps visited) sheet).2 := by
  induction steps generalizing sheet visited with
  | zero =>
      rw [visitAll]
      exact ⟨rfl, rfl, rfl, rfl, rfl, hformed, rfl⟩
  | succ steps ih =>
      have hvisit := visit_visitAll limit steps visited sheet hformed
      generalize outcome (visitAll limit (steps + 1) visited) sheet = run at hvisit
      cases hvisit with
      | done => exact ⟨rfl, rfl, rfl, rfl, rfl, hformed, rfl⟩
      | @broken index branch log failure after hbranch hnew hsettle =>
          have hpasses := passes_visit hprocedures hformed hbranch log limit
          rw [hsettle] at hpasses
          exact hpasses
      | @next index branch log after hbranch hnew hsettle =>
          have hpasses := passes_visit hprocedures hformed hbranch log limit
          rw [hsettle] at hpasses
          exact hpasses.trans
            (ih (branch.id :: visited) after (hpasses.procedures.trans hprocedures) hpasses.formed)

end Visit

section Discard

variable {sheet : Worksheet K σ}

omit [Scalar K] in
private theorem filter_eraseIdx (ids : List Nat) {index : Nat} {branch : Branch K}
    {list : List (Branch K)} (hbranch : list[index]? = some branch) (hid : branch.id ∈ ids) :
    (list.eraseIdx index).filter (fun b => !ids.contains b.id) =
      list.filter (fun b => !ids.contains b.id) := by
  induction list generalizing index with
  | nil => rfl
  | cons head rest ih =>
      cases index with
      | zero =>
          obtain rfl : head = branch := by simpa using hbranch
          simp [hid]
      | succ index =>
          have hrest : rest[index]? = some branch := by simpa using hbranch
          simp only [List.eraseIdx_cons_succ, List.filter_cons, ih hrest]

omit [Scalar K] in
/-- A branch beside another one is not the last. -/
theorem count_ne_one {branches : Branches K} {branch other : Branch K}
    (hbranch : branch ∈ branches.list) (hother : other ∈ branches.list) (hne : other ≠ branch) :
    branches.count ≠ 1 := by
  intro hone
  obtain ⟨only, honly⟩ := List.length_eq_one_iff.1 hone
  rw [honly] at hbranch hother
  exact hne ((List.mem_singleton.1 hother).trans (List.mem_singleton.1 hbranch).symm)

/-- Removing branches by identity succeeds if one stays, and leaves those with other identities. -/
theorem outcome_discardEach (ids : List Nat) (sheet : Worksheet K σ)
    (hformed : sheet.branches.WellFormed)
    (hstays : ∃ branch ∈ sheet.branches.list, branch.id ∉ ids) :
    ∃ branches log, outcome (discardEach ids) sheet =
        (.ok (), { sheet with branches := branches, log := log }) ∧
      branches.list = sheet.branches.list.filter (fun branch => !ids.contains branch.id) ∧
      branches.WellFormed ∧ branches.names = sheet.branches.names ∧
      branches.nextId = sheet.branches.nextId := by
  induction ids generalizing sheet with
  | nil =>
      refine ⟨sheet.branches, sheet.log, rfl, ?_, hformed, rfl, rfl⟩
      exact (List.filter_eq_self.2 (fun _ _ => rfl)).symm
  | cons id rest ih =>
      obtain ⟨keeper, hkeeper, hnot⟩ := hstays
      have hkeeps : keeper.id ∉ rest := fun h => hnot (List.mem_cons_of_mem _ h)
      rw [discardEach, outcome_get_bind]
      dsimp only
      cases hindex : sheet.branches.indexOf? id with
      | none =>
          obtain ⟨branches, log, hrun, hlist, hrest⟩ := ih sheet hformed ⟨keeper, hkeeper, hkeeps⟩
          refine ⟨branches, log, hrun, ?_, hrest⟩
          rw [hlist]
          apply List.filter_congr
          intro branch hbranch
          have hne := Branches.indexOf?_none hindex branch hbranch
          simp [hne]
      | some index =>
          obtain ⟨branch, hbranch, rfl⟩ := Branches.indexOf?_some hindex
          have hlt := (List.getElem?_eq_some_iff.1 hbranch).1
          have hmem := List.mem_of_getElem? hbranch
          -- the branch that stays is another one, so this one is not the last
          have hne : keeper ≠ branch := by
            rintro rfl
            exact hnot List.mem_cons_self
          have hcount : sheet.branches.count ≠ 1 := count_ne_one hmem hkeeper hne
          have hkept : keeper ∈ (sheet.branches.without index).list := by
            obtain ⟨j, hj⟩ := List.mem_iff_getElem?.1 hkeeper
            refine List.mem_eraseIdx_iff_getElem?.2 ⟨j, ?_, hj⟩
            rintro rfl
            rw [hbranch] at hj
            exact hne (Option.some.inj hj).symm
          obtain ⟨fingerprint, hfingerprint⟩ :
              ∃ fingerprint, sheet.branches.fingerprint index = .ok fingerprint := by
            unfold Branches.fingerprint
            rw [Branches.resolve_some hbranch]
            exact ⟨_, rfl⟩
          obtain ⟨log, hlog⟩ := outcome_narrate ("Removing contradictory branch id " ++
            toString branch.id ++ " (fingerprint " ++ hex fingerprint.toNat ++ ")") sheet
          have hremove : outcome (onBranches (Branches.remove index)) { sheet with log := log } =
              (.ok (), { sheet with branches := sheet.branches.without index, log := log }) := by
            rw [outcome_onBranches, Branches.outcome_remove hbranch hcount]
          obtain ⟨branches, log', hrun, hlist, hrest⟩ := ih
            { sheet with branches := sheet.branches.without index, log := log }
            (hformed.without hlt hcount) ⟨keeper, hkept, hkeeps⟩
          refine ⟨branches, log', ?_, ?_, hrest⟩
          · dsimp only
            rw [hfingerprint, outcome_ofExcept_bind_ok, outcome_bind_ok _ hlog,
              outcome_bind_ok _ hremove, hrun]
          · rw [hlist]
            change ((sheet.branches.list.eraseIdx index).filter _) = _
            rw [← filter_eraseIdx (branch.id :: rest) hbranch List.mem_cons_self]
            apply List.filter_congr
            intro other hother
            have hother' : other.id ≠ branch.id := by
              obtain ⟨j, hj, hget⟩ := List.mem_eraseIdx_iff_getElem?.1 hother
              exact fun hsame => hj (hformed.index_unique hget hbranch hsame)
            simp [hother']

omit [Scalar K] in
/-- All live branches are marked exactly if there are as many live marks as branches. -/
theorem live_marks_eq_count {α : Type} (branches : Branches K) (hformed : branches.WellFormed)
    (marked : SortedMap Nat α) :
    (marked.keys.filter (fun id => (branches.indexOf? id).isSome)).length = branches.count ↔
      ∀ branch ∈ branches.list, branch.id ∈ marked.keys := by
  have hids := hformed.nodup_ids
  have hlive : (marked.keys.filter (fun id => (branches.indexOf? id).isSome)).Nodup :=
    (SortedMap.nodup_keys marked).filter _
  have hsub : marked.keys.filter (fun id => (branches.indexOf? id).isSome) ⊆
      branches.list.map Branch.id := by
    intro id hid
    obtain ⟨index, hindex⟩ := Option.isSome_iff_exists.1 (List.mem_filter.1 hid).2
    obtain ⟨branch, hbranch, rfl⟩ := Branches.indexOf?_some hindex
    exact List.mem_map.2 ⟨branch, List.mem_of_getElem? hbranch, rfl⟩
  have hcount : branches.count = (branches.list.map Branch.id).length := by
    rw [List.length_map]
    rfl
  constructor
  · intro hlength branch hbranch
    have hperm := (List.subperm_of_subset hlive hsub).perm_of_length_le
      (Nat.le_of_eq (hlength.trans hcount).symm)
    have hmem := hperm.mem_iff.2 (List.mem_map.2 ⟨branch, hbranch, rfl⟩)
    exact (List.mem_filter.1 hmem).1
  · intro hall
    apply Nat.le_antisymm
    · rw [hcount]
      exact (List.subperm_of_subset hlive hsub).length_le
    · rw [hcount]
      apply (List.subperm_of_subset hids ?_).length_le
      intro id hid
      obtain ⟨branch, hbranch, rfl⟩ := List.mem_map.1 hid
      refine List.mem_filter.2 ⟨hall branch hbranch, ?_⟩
      obtain ⟨i, hi⟩ := List.mem_iff_getElem?.1 hbranch
      rw [hformed.indexOf?_eq hi]
      rfl

/-- If every branch is marked, the run ends with all contradictions. -/
theorem outcome_discardMarked_error (startId : Nat) (hformed : sheet.branches.WellFormed)
    (hall : ∀ branch ∈ sheet.branches.list, branch.id ∈ sheet.marked.keys) :
    outcome (discardMarked startId) sheet =
      (.error (.allContradictory (sheet.marked.entries.map Prod.snd)),
        { sheet with marked := ∅ }) := by
  have hmarked : sheet.marked.isEmpty = false := by
    obtain ⟨branch, hbranch⟩ := hformed.exists_current
    have hkey := hall branch (List.mem_of_getElem? hbranch)
    rw [Bool.eq_false_iff]
    intro hempty
    have hnone := (SortedMap.isEmpty_iff sheet.marked).1 hempty branch.id
    rw [SortedMap.mem_keys_iff, hnone] at hkey
    cases hkey
  unfold discardMarked
  rw [outcome_get_bind]
  simp only [hmarked, Bool.not_false, if_true,
    if_pos ((live_marks_eq_count sheet.branches hformed sheet.marked).2 hall)]
  rfl

omit [Scalar K] in
private theorem eq_empty {marked : SortedMap Nat (List (Relation K))}
    (h : marked.isEmpty = true) : marked = ∅ :=
  SortedMap.ext_find? (fun key => (SortedMap.isEmpty_iff marked).1 h key)

omit [Scalar K] in
/-- The run returns to the branch it began in, if that is still there. -/
private theorem outcome_return (sheet : Worksheet K σ) (startId : Nat) {branches : Branches K}
    (hformed : branches.WellFormed)
    (log : Array String) :
    ∃ current, outcome (do
        match (← get).branches.indexOf? startId with
        | some index => onBranches (Branches.select index)
        | none => pure () : Action K σ Unit)
        { sheet with branches := branches, marked := ∅, log := log } =
      (.ok (), { sheet with
        branches := { branches with current := current }, marked := ∅, log := log }) ∧
      current < branches.count ∧
      ∀ index, branches.indexOf? startId = some index → current = index := by
  rw [outcome_get_bind]
  dsimp only
  cases hindex : branches.indexOf? startId with
  | none => exact ⟨branches.current, rfl, hformed.current_lt, nofun⟩
  | some index =>
      obtain ⟨branch, hbranch, _⟩ := Branches.indexOf?_some hindex
      refine ⟨index, ?_, (List.getElem?_eq_some_iff.1 hbranch).1, fun i h => Option.some.inj h⟩
      dsimp only
      rw [outcome_onBranches, Branches.outcome_select hbranch]

/-- If some branch is not marked, exactly the marked ones go. -/
theorem outcome_discardMarked_ok (startId : Nat) (hformed : sheet.branches.WellFormed)
    (hstays : ∃ branch ∈ sheet.branches.list, branch.id ∉ sheet.marked.keys) :
    ∃ branches log, outcome (discardMarked startId) sheet =
        (.ok (), { sheet with branches := branches, marked := ∅, log := log }) ∧
      branches.list =
        sheet.branches.list.filter (fun branch => !sheet.marked.keys.contains branch.id) ∧
      branches.WellFormed ∧ branches.names = sheet.branches.names ∧
      branches.nextId = sheet.branches.nextId ∧
      ∀ index, branches.indexOf? startId = some index → branches.current = index := by
  unfold discardMarked
  rw [outcome_get_bind]
  dsimp only
  by_cases hmarked : sheet.marked.isEmpty = true
  · have hempty := eq_empty hmarked
    obtain ⟨current, hreturn, hlt, hcurrent⟩ :=
      outcome_return sheet startId hformed sheet.log
    refine ⟨{ sheet.branches with current := current }, sheet.log, ?_, ?_, hformed.select hlt, rfl,
      rfl, hcurrent⟩
    · rw [hmarked]
      rw [← hempty] at hreturn ⊢
      exact hreturn
    · rw [hempty]
      exact (List.filter_eq_self.2 (fun _ _ => rfl)).symm
  · have hnot : ¬ (sheet.marked.keys.filter
        (fun id => (sheet.branches.indexOf? id).isSome)).length = sheet.branches.count := by
      rw [live_marks_eq_count sheet.branches hformed sheet.marked]
      intro hall
      obtain ⟨branch, hbranch, hid⟩ := hstays
      exact hid (hall branch hbranch)
    obtain ⟨branches, log, hdiscard, hlist, hformed', hnames, hnextId⟩ :=
      outcome_discardEach sheet.marked.keys sheet hformed hstays
    obtain ⟨current, hreturn, hlt, hcurrent⟩ :=
      outcome_return sheet startId hformed' log
    refine ⟨{ branches with current := current }, log, ?_, hlist, hformed'.select hlt, hnames,
      hnextId, hcurrent⟩
    simp only [hmarked, Bool.not_false, if_true, if_neg hnot]
    rw [outcome_bind_ok _ hdiscard]
    exact hreturn

end Discard

section Solve

def opened (sheet : Worksheet K σ) : Worksheet K σ :=
  { sheet with
    unsolvable := false
    marked := ∅
    log := if sheet.solved then sheet.log.push
        "Warning: solve() called on a system that is already solved. Solving again."
      else sheet.log }

/-- A run ends with the report that the worksheet is unsolvable. -/
def EndsUnsolvable (result : Except (Failure K) Unit) : Prop :=
  ∃ failure, result = .error failure ∧ failure.kind = .unsolvable

instance (result : Except (Failure K) Unit) : Decidable (EndsUnsolvable result) :=
  match result with
  | .ok _ => isFalse (fun ⟨_, hresult, _⟩ => nomatch hresult)
  | .error failure =>
    decidable_of_iff (failure.kind = .unsolvable)
      ⟨fun hkind => ⟨failure, rfl, hkind⟩, fun ⟨_, hresult, hkind⟩ => by cases hresult; exact hkind⟩

/-- What a solving run can do. -/
inductive Run (steps : Nat) (sheet : Worksheet K σ) :
    Except (Failure K) Unit × Worksheet K σ → Prop
  /-- The visit to the branches fails. -/
  | broken {failure : Failure K} {after : Worksheet K σ}
    (hpass : outcome (visitAll steps steps []) sheet.opened = (.error failure, after)) :
    Run steps sheet (.error failure, after)
  /-- Every branch is contradictory. -/
  | hopeless {visited : List Nat} {middle : Worksheet K σ}
    (hpass : outcome (visitAll steps steps []) sheet.opened = (.ok visited, middle))
    (hall : ∀ branch ∈ middle.branches.list, branch.id ∈ middle.marked.keys) :
    Run steps sheet (.error (.allContradictory (middle.marked.entries.map Prod.snd)),
      { middle with marked := ∅ })
  /-- Some relations have no solution, and nothing was solved. -/
  | fruitless {visited : List Nat} {middle after : Worksheet K σ} {startId : Nat}
    (hpass : outcome (visitAll steps steps []) sheet.opened = (.ok visited, middle))
    (hstays : ∃ branch ∈ middle.branches.list, branch.id ∉ middle.marked.keys)
    (hstart : AtBranch startId sheet)
    (hdiscard : outcome (discardMarked startId) middle = (.ok (), after))
    (hunsolvable : middle.unsolvable = true)
    (hsame : (after.branches.snapshot == sheet.branches.snapshot) = true) :
    Run steps sheet (.error .nothingSolved, after)
  /-- The run ends well. -/
  | finished {visited : List Nat} {middle after : Worksheet K σ} {startId : Nat}
    (log : Array String)
    (hpass : outcome (visitAll steps steps []) sheet.opened = (.ok visited, middle))
    (hstays : ∃ branch ∈ middle.branches.list, branch.id ∉ middle.marked.keys)
    (hstart : AtBranch startId sheet)
    (hdiscard : outcome (discardMarked startId) middle = (.ok (), after))
    (hgood : middle.unsolvable = false ∨
      (after.branches.snapshot == sheet.branches.snapshot) = false) :
    Run steps sheet (.ok (), { after with solved := true, log := log })

/-- What a run does when all branches have been visited: marked ones are removed, and the run ends
well unless relations had no solution and the bindings are what they were before. -/
def close (startId : Nat) (before : List (Bindings K)) : Action K σ Unit := do
  discardMarked startId
  let after ← get
  if after.unsolvable && after.branches.snapshot == before then throw .nothingSolved
  modify fun sheet => { sheet with solved := true }
  narrate ("Solve finished with " ++ toString after.branches.count ++ " branch(es).")

theorem outcome_solve (steps : Nat) {sheet : Worksheet K σ} {branch : Branch K}
    (hbranch : sheet.branches.list[sheet.branches.current]? = some branch) :
    outcome (solve steps) sheet =
      outcome (visitAll steps steps [] >>= fun _ => close branch.id sheet.branches.snapshot)
        sheet.opened := by
  unfold solve opened
  rw [outcome_get_bind]
  dsimp only
  by_cases hsolved : sheet.solved = true
  · rw [if_pos hsolved, if_pos hsolved, outcome_bind_ok _ (outcome_tell _ sheet),
      outcome_get_bind, Branches.identityAt_eq hbranch, outcome_ofExcept_bind_ok,
      outcome_modify_bind]
    rfl
  · rw [if_neg hsolved, if_neg hsolved, outcome_get_bind, Branches.identityAt_eq hbranch,
      outcome_ofExcept_bind_ok, outcome_modify_bind]
    rfl

/-- A run does one of these things. -/
theorem run_solve (steps : Nat) (sheet : Worksheet K σ) (hprocedures : sheet.procedures = [])
    (hformed : sheet.branches.WellFormed) : Run steps sheet (outcome (solve steps) sheet) := by
  obtain ⟨branch, hbranch⟩ := hformed.exists_current
  have hstart : AtBranch branch.id sheet := ⟨branch, hbranch, rfl⟩
  have hpasses := passes_visitAll steps steps [] sheet.opened hprocedures hformed
  rw [outcome_solve steps hbranch]
  rcases hpass : outcome (visitAll steps steps []) sheet.opened with ⟨failure | visited, middle⟩
  · rw [outcome_bind_error _ hpass]
    exact .broken hpass
  · rw [outcome_bind_ok _ hpass]
    rw [hpass] at hpasses
    unfold close
    by_cases hall : ∀ branch ∈ middle.branches.list, branch.id ∈ middle.marked.keys
    · rw [outcome_bind_error _ (outcome_discardMarked_error branch.id hpasses.formed hall)]
      exact .hopeless hpass hall
    · push Not at hall
      obtain ⟨branches, log, hdiscard, _⟩ :=
        outcome_discardMarked_ok branch.id hpasses.formed hall
      rw [outcome_bind_ok _ hdiscard, outcome_get_bind]
      dsimp only
      cases hend : middle.unsolvable && branches.snapshot == sheet.branches.snapshot with
      | true =>
          obtain ⟨hunsolvable, hsame⟩ := Bool.and_eq_true_iff.1 hend
          exact .fruitless hpass hall hstart hdiscard hunsolvable hsame
      | false =>
          obtain ⟨log', hlog⟩ := outcome_narrate
            ("Solve finished with " ++ toString branches.count ++ " branch(es).")
            { middle with branches := branches, marked := ∅, log := log, solved := true }
          simp only [Bool.false_eq_true, if_false]
          rw [outcome_modify_bind, hlog]
          have hfinished := Run.finished log' hpass hall hstart hdiscard
            (Bool.and_eq_false_iff.1 hend)
          exact hfinished

end Solve

end Worksheet

end Ramify
