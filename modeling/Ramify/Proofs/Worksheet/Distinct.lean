import Ramify.Proofs.Worksheet.Stable
import Ramify.Proofs.Worksheet.Unsolvable

/-!
No branch comes about twice. Two branches are apart if they pin some variable to different
quantities, and what is pinned stays pinned, so branches that are apart stay apart. The candidates
of an answer put new branches apart if any two of them give different values to a common unknown.
From a single branch a run then makes branches that are all apart, and no two of them have the same
bindings. Candidates for different unknowns give no such guarantee.
-/

namespace Ramify

section Candidates

variable {K : Type} [Scalar K]

/-- Whether two candidates give different values to a common unknown. -/
def Solution.excludes (candidate other : Solution K) : Bool :=
  candidate.entries.any (fun entry =>
    match other.find? entry.1 with
    | some value => value != entry.2
    | none => false)

/-- Whether any two different candidates of a reply that resolve variables exclude each other. -/
def Exchange.isExclusive (exchange : Exchange K) : Bool :=
  match exchange.reply with
  | .ok (.solved candidates) =>
    let numeric := candidates.filter Worksheet.isNumeric
    numeric.all (fun candidate => numeric.all (fun other =>
      candidate == other || Solution.excludes candidate other))
  | _ => true

end Candidates

/-- Different elements of a list without repetition are behind different positions of a related
list. -/
theorem pairwise_of_forall₂ {α β : Type} {R : α → β → Prop} {xs : List α} {ys : List β}
    (h : List.Forall₂ R xs ys) (hnodup : xs.Nodup) :
    ys.Pairwise (fun y z => ∃ x ∈ xs, ∃ w ∈ xs, x ≠ w ∧ R x y ∧ R w z) := by
  induction h with
  | nil => exact .nil
  | @cons first y rest zs hfirst hrest ih =>
      obtain ⟨hnew, hnodup⟩ := List.nodup_cons.1 hnodup
      refine .cons (fun z hz => ?_) ((ih hnodup).imp ?_)
      · obtain ⟨w, hw, hrelated⟩ := exists_left_of_forall₂ hrest hz
        refine ⟨first, List.mem_cons_self, w, List.mem_cons_of_mem _ hw, ?_, hfirst, hrelated⟩
        rintro rfl
        exact hnew hw
      · rintro _ _ ⟨x, hx, w, hw, hboth⟩
        exact ⟨x, List.mem_cons_of_mem _ hx, w, List.mem_cons_of_mem _ hw, hboth⟩

variable {K σ : Type} [ExactScalar K]

theorem Solution.exists_of_excludes {candidate other : Solution K}
    (h : Solution.excludes candidate other = true) :
    ∃ symbol value found, candidate.find? symbol = some value ∧ other.find? symbol = some found ∧
      value ≠ found := by
  obtain ⟨⟨symbol, value⟩, hentry, hdiffer⟩ := List.any_eq_true.1 h
  have hvalue := (candidate.mem_entries_iff (symbol, value)).1 hentry
  split at hdiffer
  · rename_i found hfound
    exact ⟨symbol, value, found, hvalue, hfound, (bne_iff_ne.1 hdiffer).symm⟩
  · cases hdiffer

/-- Two branches pin some variable to different quantities. -/
def Branch.Apart (branch other : Branch K) : Prop :=
  ∃ name value found, branch.Pins name value ∧ other.Pins name found ∧ value ≠ found

theorem Branch.Apart.symm {branch other : Branch K} (h : branch.Apart other) :
    other.Apart branch := by
  obtain ⟨name, value, found, hbranch, hother, hne⟩ := h
  exact ⟨name, found, value, hother, hbranch, hne.symm⟩

theorem Branch.Apart.bindings_ne {branch other : Branch K} (h : branch.Apart other) :
    branch.bindings ≠ other.bindings := by
  obtain ⟨name, value, found, hbranch, hother, hne⟩ := h
  intro hsame
  have hbound := hbranch.bound
  rw [hsame, hother.bound] at hbound
  exact hne (Option.some.inj hbound).symm

/-- Any two branches are apart. -/
def Branches.AllApart (branches : Branches K) : Prop :=
  ∀ a ∈ branches.list, ∀ b ∈ branches.list, a.id ≠ b.id → a.Apart b

theorem Engine.Confined.recording {engine : Engine K σ} (h : engine.Confined) :
    engine.recording.Confined :=
  fun relations unknowns state => h relations unknowns state.1

omit [ExactScalar K] in
theorem Engine.Repeatless.recording {engine : Engine K σ} (h : engine.Repeatless) :
    engine.recording.Repeatless :=
  fun relations unknowns state => h relations unknowns state.1

namespace Worksheet

section Attempts

variable {names : List String} {unknowns : List Symbol} {candidate : Solution K}
  {subset : List (Relation K)} {branch other : Branch K} {sheet after : Worksheet K σ}

/-- A branch that has adopted a numeric candidate pins what the candidate gives a value to. -/
theorem Adopted.pins {name : String} {value : Fraction K}
    (h : Adopted candidate branch.bindings other.bindings)
    (hcandidate : CandidateFor unknowns candidate) (hnumeric : isNumeric candidate = true)
    (hvalue : candidate.find? ⟨name, false⟩ = some value)
    (hbound : ∃ found, other.bindings.find? name = some found) : other.Pins name value where
  bound := by
    obtain ⟨found, hfound⟩ := hbound
    obtain ⟨_, _, htakes⟩ := h name found hfound
    obtain ⟨_, _, hlast⟩ := Relation.TransGen.tail'_iff.1 htakes
    unfold Takes adopted at hlast
    rw [hvalue] at hlast
    cases hlast
    exact hfound
  quantity := isQuantity_of_isNumeric hnumeric hvalue
  reduced := (hcandidate _ value hvalue).2.reduced
  unmentioned := by
    intro hmentions
    have hopen : name ∈ other.openNames [name] :=
      Branch.mem_openNames.2 ⟨List.mem_singleton_self name, hmentions⟩
    have hnone := (h.open_of_open hnumeric hopen).1
    rw [hvalue] at hnone
    cases hnone

/-- Branches that have adopted candidates that exclude each other are apart. -/
theorem apart_of_excludes {other made : Branch K} {second : Solution K}
    (hother : Adopted candidate branch.bindings other.bindings)
    (hmade : Adopted second branch.bindings made.bindings)
    (hcandidate : CandidateFor unknowns candidate) (hsecond : CandidateFor unknowns second)
    (hnumeric : isNumeric candidate = true) (hnumeric' : isNumeric second = true)
    (hexcludes : Solution.excludes candidate second = true)
    (hbound : ∀ symbol ∈ unknowns, symbol.isUnit = false ∧
      (∃ found, other.bindings.find? symbol.name = some found) ∧
      ∃ found, made.bindings.find? symbol.name = some found) : other.Apart made := by
  obtain ⟨⟨name, isUnit⟩, value, found, hvalue, hfound, hne⟩ :=
    Solution.exists_of_excludes hexcludes
  obtain ⟨hunit, hotherBound, hmadeBound⟩ := hbound _ (hcandidate _ value hvalue).1
  cases hunit
  exact ⟨name, value, found, hother.pins hcandidate hnumeric hvalue hotherBound,
    hmade.pins hsecond hnumeric' hfound hmadeBound, hne⟩

theorem excludes_of_isExclusive {candidates : List (Solution K)}
    (hreply : sheet.reply subset = .ok (.solved candidates))
    (hexclusive : (⟨subset, unknownsOf sheet.branches subset, sheet.reply subset⟩ :
      Exchange K).isExclusive = true) :
    ∀ c ∈ candidates.filter isNumeric, ∀ d ∈ candidates.filter isNumeric, c ≠ d →
      Solution.excludes c d = true := by
  intro c hc d hd hne
  unfold Exchange.isExclusive at hexclusive
  rw [hreply] at hexclusive
  have hboth := List.all_eq_true.1 (List.all_eq_true.1 hexclusive c hc) d hd
  rw [beq_eq_false_iff_ne.2 hne, Bool.false_or] at hboth
  exact hboth

/-- An attempt that resolves variables by candidates that exclude each other puts the branch and the
copies that it makes apart. -/
theorem resolveBy_apart (hformed : sheet.branches.WellFormed) (hengine : sheet.engine.Confined)
    (hrepeatless : sheet.engine.Repeatless) (hbranch : branch ∈ sheet.branches.list)
    (hsubset : ∀ r ∈ subset, r.Over (MayOccur sheet.branches.names branch))
    (hexclusive : (⟨subset, unknownsOf sheet.branches subset, sheet.reply subset⟩ :
      Exchange K).isExclusive = true)
    (hrun : outcome (resolveBy branch.id subset) sheet = (.ok true, after)) {a b : Branch K}
    (ha : a ∈ after.branches.list) (hb : b ∈ after.branches.list) (hne : a ≠ b)
    (hafam : a.id = branch.id ∨ sheet.branches.nextId ≤ a.id)
    (hbfam : b.id = branch.id ∨ sheet.branches.nextId ≤ b.id) : a.Apart b := by
  have hworks := works_resolveBy branch.id subset sheet hformed
  rw [hrun] at hworks
  obtain ⟨candidates, index, found, bindings, copies, hreply, hfound, hid, hlist, hadopted⟩ :=
    resolveBy_adopted hformed hrun
  obtain rfl := hformed.branch_unique (List.mem_of_getElem? hfound) hbranch hid
  -- the members of the family have adopted different candidates
  have hpairs := pairwise_of_forall₂ hadopted ((hrepeatless _ _ _ _ hreply).filter _)
  rw [← List.map_cons (f := Branch.bindings) (a := ⟨found.id, bindings⟩), List.pairwise_map]
    at hpairs
  have hmember {c : Branch K} (hc : c ∈ after.branches.list)
      (hcfam : c.id = found.id ∨ sheet.branches.nextId ≤ c.id) :
      c ∈ (⟨found.id, bindings⟩ :: copies : List (Branch K)) :=
    List.mem_cons.2 (mem_family hformed hfound (hlist ▸ hc) hcfam)
  have hsymm : Std.Symm (fun a b : Branch K =>
      ∃ c ∈ candidates.filter isNumeric, ∃ d ∈ candidates.filter isNumeric, c ≠ d ∧
        Adopted c found.bindings a.bindings ∧ Adopted d found.bindings b.bindings) :=
    ⟨fun _ _ ⟨c, hc, d, hd, hdiffer, hac, hbd⟩ => ⟨d, hd, c, hc, hdiffer.symm, hbd, hac⟩⟩
  obtain ⟨c, hc, d, hd, hdiffer, hac, hbd⟩ :=
    hpairs.forall (hmember ha hafam) (hmember hb hbfam) hne
  obtain ⟨hcmem, hcnumeric⟩ := List.mem_filter.1 hc
  obtain ⟨hdmem, hdnumeric⟩ := List.mem_filter.1 hd
  refine apart_of_excludes hac hbd (hengine _ _ _ _ hreply c hcmem) (hengine _ _ _ _ hreply d hdmem)
    hcnumeric hdnumeric (excludes_of_isExclusive hreply hexclusive c hc d hd hdiffer) ?_
  intro symbol hsymbol
  obtain ⟨hunit, hopen⟩ := open_of_mem_unknownsOf hformed hsubset hsymbol
  have hname : symbol.name ∈ after.branches.names :=
    hworks.passes.names ▸ (Branch.mem_openNames.1 hopen).1
  exact ⟨hunit, hworks.formed.exists_value ha hname, hworks.formed.exists_value hb hname⟩

/-- Whatever an attempt makes of a branch is apart from what the branch was apart from. -/
theorem resolveBy_stays_apart (hformed : sheet.branches.WellFormed)
    (hengine : sheet.engine.Confined) (hbranch : branch ∈ sheet.branches.list)
    (hsubset : ∀ r ∈ subset, r.Over (MayOccur sheet.branches.names branch))
    {a : Branch K} (ha : a ∈ (outcome (resolveBy branch.id subset) sheet).2.branches.list)
    (hafam : a.id = branch.id ∨ sheet.branches.nextId ≤ a.id) (h : branch.Apart other) :
    a.Apart other := by
  obtain ⟨name, value, found, hpins, hother, hdiffer⟩ := h
  have hname : name ∈ sheet.branches.names := by
    rw [← hformed.bound branch hbranch, SortedMap.contains_iff, SortedMap.mem_keys_iff, hpins.bound]
    rfl
  have hsingle : ∀ r ∈ subset, r.Over (MayOccur [name] branch) := fun r hr =>
    ⟨(hsubset r hr).1.imp fun _ hsymbol => hsymbol.single hname,
      (hsubset r hr).2.imp fun _ hsymbol => hsymbol.single hname⟩
  exact ⟨name, value, found,
    resolveBy_pins hformed hengine.keysWithin hbranch hsingle ha hafam hpins, hother, hdiffer⟩

/-- An attempt that resolves variables by candidates that exclude each other keeps all branches
apart. -/
theorem resolveBy_allApart (hformed : sheet.branches.WellFormed) (hengine : sheet.engine.Confined)
    (hrepeatless : sheet.engine.Repeatless) (hbranch : branch ∈ sheet.branches.list)
    (hsubset : ∀ r ∈ subset, r.Over (MayOccur sheet.branches.names branch))
    (hexclusive : (⟨subset, unknownsOf sheet.branches subset, sheet.reply subset⟩ :
      Exchange K).isExclusive = true)
    (hrun : outcome (resolveBy branch.id subset) sheet = (.ok true, after))
    (h : sheet.branches.AllApart) : after.branches.AllApart := by
  have hworks := works_resolveBy branch.id subset sheet hformed
  rw [hrun] at hworks
  have hothers {a : Branch K} (ha : a ∈ after.branches.list)
      (hafam : ¬ (a.id = branch.id ∨ sheet.branches.nextId ≤ a.id)) :
      a ∈ sheet.branches.list ∧ a.id ≠ branch.id := by
    obtain ⟨hne, hold⟩ := not_or.1 hafam
    exact ⟨(hworks.branches.origin a ha hne).resolve_right hold, hne⟩
  have hmixed {a b : Branch K} (ha : a ∈ after.branches.list) (hb : b ∈ after.branches.list)
      (hafam : a.id = branch.id ∨ sheet.branches.nextId ≤ a.id)
      (hbfam : ¬ (b.id = branch.id ∨ sheet.branches.nextId ≤ b.id)) : a.Apart b := by
    obtain ⟨hthere, hne⟩ := hothers hb hbfam
    refine resolveBy_stays_apart hformed hengine hbranch hsubset ?_ hafam
      (h branch hbranch b hthere hne.symm)
    rw [hrun]
    exact ha
  intro a ha b hb hne
  by_cases hafam : a.id = branch.id ∨ sheet.branches.nextId ≤ a.id
  · by_cases hbfam : b.id = branch.id ∨ sheet.branches.nextId ≤ b.id
    · exact resolveBy_apart hformed hengine hrepeatless hbranch hsubset hexclusive hrun ha hb
        (fun hsame => hne (congrArg Branch.id hsame)) hafam hbfam
    · exact hmixed ha hb hafam hbfam
  · by_cases hbfam : b.id = branch.id ∨ sheet.branches.nextId ≤ b.id
    · exact (hmixed hb ha hbfam hafam).symm
    · exact h a (hothers ha hafam).1 b (hothers hb hbfam).1 hne

end Attempts

section Runs

variable {engine : Engine K σ} {branch : Branch K} {subset : List (Relation K)}
  {sheet after : Worksheet K (σ × List (Exchange K))}

/-- A worksheet with a recording engine, without procedures, whose equations only read the
variables, and whose branches are all apart if candidates have excluded each other in all exchanges
so far. -/
structure Separates (engine : Engine K σ) (sheet : Worksheet K (σ × List (Exchange K))) : Prop where
  engine : sheet.engine = engine.recording
  procedures : sheet.procedures = []
  formed : sheet.branches.WellFormed
  reads : ∀ equation ∈ sheet.equations, equation.ReadsOnly sheet.branches.names
  apart : (∀ exchange ∈ sheet.engineState.2, exchange.isExclusive = true) →
    sheet.branches.AllApart

omit [ExactScalar K] in
/-- An attempt adds to the exchanges what it asks the engine. -/
theorem exchanges_resolveBy [Scalar K] (hengine : sheet.engine = engine.recording)
    (hformed : sheet.branches.WellFormed) (id : Nat) (subset : List (Relation K)) :
    ∃ more, (outcome (resolveBy id subset) sheet).2.engineState.2 = sheet.engineState.2 ++ more ∧
      ((outcome (resolveBy id subset) sheet).1 = .ok true →
        ⟨subset, unknownsOf sheet.branches subset, sheet.reply subset⟩ ∈ more) := by
  have hconsulted := exchanges_consulted hengine subset
  have hstep := attempt_resolveBy id subset sheet
  generalize outcome (resolveBy id subset) sheet = run at hstep
  cases hstep with
  | idle => exact ⟨[], (List.append_nil _).symm, nofun⟩
  | failed => exact ⟨_, hconsulted, nofun⟩
  | undecided => exact ⟨_, hconsulted, nofun⟩
  | refused => exact ⟨_, hconsulted, nofun⟩
  | inconsistent => exact ⟨_, hconsulted, nofun⟩
  | @resolved candidates rest first index _ _ _ hindex =>
      obtain ⟨branches, log, hafter, _⟩ :=
        outcome_takeOver (sheet.consulted subset) first rest hformed hindex
      rw [hafter]
      exact ⟨_, hconsulted, fun _ => List.mem_singleton_self _⟩

theorem separates_resolveBy (h : Separates engine sheet) (hengine : engine.Confined)
    (hrepeatless : engine.Repeatless) (hbranch : branch ∈ sheet.branches.list)
    (hsubset : ∀ r ∈ subset, r.Over (MayOccur sheet.branches.names branch)) {passed : Bool}
    (hrun : outcome (resolveBy branch.id subset) sheet = (.ok passed, after)) :
    Separates engine after := by
  have hworks := works_resolveBy branch.id subset sheet h.formed
  obtain ⟨more, hmore, hasked⟩ := exchanges_resolveBy h.engine h.formed branch.id subset
  rw [hrun] at hworks hmore hasked
  refine ⟨hworks.engine.trans h.engine, hworks.procedures.trans h.procedures, hworks.formed, ?_, ?_⟩
  · rw [hworks.equations, hworks.passes.names]
    exact h.reads
  · intro hall
    rw [hmore] at hall
    have hbefore := h.apart fun exchange hexchange =>
      hall exchange (List.mem_append_left _ hexchange)
    cases passed with
    | false =>
        obtain ⟨_, _, _, rfl⟩ := unresolved_resolveBy h.formed hrun
        exact hbefore
    | true =>
        have hexclusive := hall _ (List.mem_append_right _ (hasked rfl))
        exact resolveBy_allApart h.formed (h.engine ▸ hengine.recording)
          (h.engine ▸ hrepeatless.recording) hbranch hsubset hexclusive hrun hbefore

theorem separates_sweep (subsets : List (List (Relation K))) (h : Separates engine sheet)
    (hengine : engine.Confined) (hrepeatless : engine.Repeatless)
    (hbranch : branch ∈ sheet.branches.list)
    (hsubsets : ∀ subset ∈ subsets, ∀ r ∈ subset, r.Over (MayOccur sheet.branches.names branch))
    {passed : Bool}
    (hrun : outcome (subsets.anyM (resolveBy branch.id)) sheet = (.ok passed, after)) :
    Separates engine after := by
  induction subsets generalizing sheet with
  | nil =>
      cases hrun
      exact h
  | cons subset rest ih =>
      rw [List.anyM] at hrun
      obtain ⟨resolved, middle, hstep, hrun⟩ := outcome_bind_eq_ok.1 hrun
      have hmiddle := separates_resolveBy h hengine hrepeatless hbranch
        (hsubsets subset List.mem_cons_self) hstep
      cases resolved with
      | true =>
          cases hrun
          exact hmiddle
      | false =>
          obtain ⟨_, _, _, rfl⟩ := unresolved_resolveBy h.formed hstep
          exact ih hmiddle hbranch
            (fun other hother => hsubsets other (List.mem_cons_of_mem _ hother)) hrun

theorem separates_gather {id : Nat} {relations? : Option (List (Relation K))}
    (h : Separates engine sheet)
    (hgather : outcome (gather id sheet.equations []) sheet.quiet = (.ok relations?, after)) :
    Separates engine after := by
  obtain ⟨branch, hbranch⟩ := h.formed.exists_current
  obtain ⟨log, hstate⟩ := outcome_gather id sheet.equations [] sheet.quiet h.formed hbranch
  rw [hgather] at hstate
  obtain rfl := congrArg Prod.snd hstate
  exact ⟨h.engine, h.procedures, h.formed, h.reads, h.apart⟩

/-- Solving a branch without a failure keeps branches apart. -/
theorem separates_settle (steps : Nat) (h : Separates engine sheet) (hengine : engine.Confined)
    (hrepeatless : engine.Repeatless)
    (hbranch : sheet.branches.list[sheet.branches.current]? = some branch)
    (hrun : outcome (settle branch.id steps) sheet = (.ok (), after)) : Separates engine after := by
  induction steps generalizing sheet branch with
  | zero =>
      rw [settle] at hrun
      cases hrun
  | succ steps ih =>
      have hround := round_settle branch.id steps sheet h.procedures h.formed
      rw [hrun] at hround
      generalize hpair : ((.ok (), after) : Except (Failure K) Unit × _) = run at hround
      have hswept {relations : List (Relation K)} {middle between} {passed : Bool}
          (hgather : outcome (gather branch.id sheet.equations []) sheet.quiet =
            (.ok (some relations), middle))
          (hsweep : outcome ((middle.trials relations).anyM (resolveBy branch.id)) middle =
            (.ok passed, between)) : Separates engine between := by
        obtain ⟨_, hsame, _, _⟩ := gather_findings branch.id sheet.quiet h.formed hbranch hgather
        have hsame : middle.branches = sheet.branches := hsame
        have hover := over_gathered h.formed h.reads hbranch hgather
        refine separates_sweep _ (separates_gather h hgather) hengine hrepeatless ?_ ?_ hsweep
        · rw [hsame]
          exact List.mem_of_getElem? hbranch
        · rw [hsame]
          exact fun subset hsubset r hr => hover r (mem_of_mem_trials hsubset r hr)
      cases hround with
      | failed => cases hpair
      | contradicted hgather =>
          cases hpair
          exact separates_gather h hgather
      | broken => cases hpair
      | @again relations middle between hgather hsweep =>
          have hworks : Works branch.id sheet between :=
            (RoundAt.again hgather hsweep (.first between)).works h.formed
          obtain ⟨found, hfound, hid⟩ := AtBranch.of_works ⟨branch, hbranch, rfl⟩ hworks
          exact ih (hswept hgather hsweep) hfound (hid ▸ hpair.symm)
      | @settled relations middle between hgather hsweep =>
          cases hpair
          have hend := hswept hgather hsweep
          exact ⟨hend.engine, hend.procedures, hend.formed, hend.reads, hend.apart⟩

/-- Visiting the branches without a failure keeps branches apart. -/
theorem separates_visitAll (limit steps : Nat) (visited : List Nat) (h : Separates engine sheet)
    (hengine : engine.Confined) (hrepeatless : engine.Repeatless) {found : List Nat}
    (hrun : outcome (visitAll limit steps visited) sheet = (.ok found, after)) :
    Separates engine after := by
  induction steps generalizing sheet visited with
  | zero =>
      rw [visitAll] at hrun
      cases hrun
  | succ steps ih =>
      have hvisit := visit_visitAll limit steps visited sheet h.formed
      rw [hrun] at hvisit
      generalize hpair : ((.ok found, after) : Except (Failure K) (List Nat) × _) = run at hvisit
      cases hvisit with
      | done =>
          cases hpair
          exact h
      | broken => cases hpair
      | @next index branch log middle hbranch _ hsettle =>
          have hturned : Separates engine (sheet.turnedTo index log) :=
            ⟨h.engine, h.procedures, formed_turnedTo h.formed hbranch log, h.reads, h.apart⟩
          exact ih (branch.id :: visited)
            (separates_settle limit hturned hengine hrepeatless hbranch hsettle) hpair.symm

end Runs

section Solve

/-- Branches that are all apart have different bindings. -/
theorem nodup_snapshot {branches : Branches K} (hformed : branches.WellFormed)
    (h : branches.AllApart) : branches.snapshot.Nodup := by
  unfold Branches.snapshot
  refine List.pairwise_map.2 ((List.pairwise_map.1 hformed.nodup_ids).imp_of_mem ?_)
  exact fun ha hb hne => (h _ ha _ hb hne).bindings_ne

/-- A run from a single branch makes no branch twice, with the polynomial engine and with any other
engine that lists no candidate twice and whose candidates give calculated values to what it was
asked for, provided that the equations only read the variables and that in every answer of the run
any two different candidates that resolve variables give different values to a common unknown. -/
theorem solve_makes_no_duplicates :
    (∀ (numerics : Numerics K) (settings : SolverSettings K),
      (Engine.polynomial numerics settings).Confined ∧
      (Engine.polynomial numerics settings).Repeatless) ∧
    ∀ (sheet after : Worksheet K σ) (steps : Nat), sheet.engine.Confined →
      sheet.engine.Repeatless → sheet.procedures = [] → sheet.branches.WellFormed →
      (∀ equation ∈ sheet.equations, equation.ReadsOnly sheet.branches.names) →
      sheet.branches.count = 1 →
      (∀ exchange ∈ sheet.exchanges steps, exchange.isExclusive = true) →
      outcome (solve steps) sheet = (.ok (), after) → after.branches.snapshot.Nodup := by
  refine ⟨fun numerics settings => ⟨Engine.confined_polynomial numerics settings,
    Engine.repeatless_polynomial numerics settings⟩, ?_⟩
  intro sheet after steps hengine hrepeatless hprocedures hformed hreads hsingle hexclusive hrun
  have hshape := run_solve steps sheet hprocedures hformed
  rw [hrun] at hshape
  generalize hpair : ((.ok (), after) : Except (Failure K) Unit × _) = run at hshape
  cases hshape with
  | broken => cases hpair
  | hopeless => cases hpair
  | fruitless => cases hpair
  | @finished visited middle between startId log hpass hstays _ hdiscard _ =>
      have hrecorded := outcome_visitAll_recording hprocedures hformed hpass
      have hstart : Separates sheet.engine (sheet.recording []).opened := by
        refine ⟨rfl, hprocedures, hformed, hreads, fun _ a ha b hb hne => ?_⟩
        obtain ⟨only, honly⟩ := List.length_eq_one_iff.1 hsingle
        change a ∈ sheet.branches.list at ha
        change b ∈ sheet.branches.list at hb
        rw [honly, List.mem_singleton] at ha hb
        exact absurd (ha.trans hb.symm) (fun hsame => hne (congrArg Branch.id hsame))
      have hend := separates_visitAll steps steps [] hstart hengine hrepeatless hrecorded
      have hapart : middle.branches.AllApart := hend.apart hexclusive
      have hmiddle : middle.branches.WellFormed := hend.formed
      obtain ⟨branches, log', hdiscarded, hlist, hformed', _⟩ :=
        outcome_discardMarked_ok startId hmiddle hstays
      rw [hdiscarded] at hdiscard
      cases hdiscard
      cases hpair
      refine nodup_snapshot hformed' fun a ha b hb => ?_
      rw [hlist] at ha hb
      exact hapart a (List.mem_of_mem_filter ha) b (List.mem_of_mem_filter hb)

noncomputable def twoSquares : Worksheet Rat Twister :=
  Rational.sheet RealRoots.exactNumerics ["x", "y"]
    [⟨"first", [.mul (.value "x") (.value "x"), .number 4]⟩,
      ⟨"second", [.mul (.value "y") (.value "y"), .number 16]⟩]

theorem two_squares_make_four_branches :
    (outcome (solve 5) twoSquares).2.branches.count = 4 ∧
    (outcome (solve 5) twoSquares).2.branches.snapshot.Nodup := by
  refine ⟨by decide +kernel, ?_⟩
  have hexclusive : ∀ exchange ∈ twoSquares.exchanges 5, exchange.isExclusive = true := by
    decide +kernel
  have hends : (outcome (solve 5) twoSquares).1.isOk = true := by decide +kernel
  obtain ⟨hpolynomial, hall⟩ := solve_makes_no_duplicates (K := Rat) (σ := Twister)
  obtain ⟨hconfined, hrepeatless⟩ := hpolynomial RealRoots.exactNumerics Rational.settings
  exact hall twoSquares _ 5 hconfined hrepeatless rfl
    (Rational.wellFormed_sheet RealRoots.exactNumerics ["x", "y"] twoSquares.equations)
    (by decide +kernel) rfl hexclusive (Prod.ext (except_eq_ok_of_isOk hends) rfl)

/-- A product that leaves two ways out, which the sum joins again: the only solution is zero and
one. -/
noncomputable def productAndSum : Worksheet Rat Twister :=
  Rational.sheet RealRoots.exactNumerics ["x", "y"]
    [⟨"product", [.mul (.value "x") (.value "y"), .value "x"]⟩,
      Rational.sumEquation "sum" "x" "y" 1]

/-- Candidates for different unknowns can lead to the same branch. -/
theorem product_and_sum_make_a_branch_twice :
    productAndSum.branches.count = 1 ∧
    (∀ equation ∈ productAndSum.equations, equation.ReadsOnly ["x", "y"]) ∧
    (outcome (solve 5) productAndSum).1.isOk = true ∧
    (outcome (solve 5) productAndSum).2.branches.list.map
        (fun branch => (branch.id, branch.bindings.find? "x", branch.bindings.find? "y")) =
      [(0, some (.const 0), some (.const 1)), (1, some (.const 0), some (.const 1))] ∧
    ¬ (outcome (solve 5) productAndSum).2.branches.snapshot.Nodup := by
  refine ⟨rfl, ?_, ?_, ?_, ?_⟩ <;> decide +kernel

end Solve

end Worksheet

end Ramify
