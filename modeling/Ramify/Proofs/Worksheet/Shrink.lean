import Ramify.Proofs.Solver.Candidates
import Ramify.Proofs.Worksheet.Adopt
import Ramify.Proofs.Worksheet.Course
import Ramify.Proofs.Worksheet.Look
import Ramify.Proofs.Worksheet.Reading

/-!
Resolving variables leaves fewer unknowns. The relations of a branch mention no declared unknown but
those that occur in its bindings, the engine gives values to unknowns of the relations, and where a
value has been put in, its unknown is gone. So each time an attempt resolves variables, fewer
declared unknowns occur in the bindings of the branch, and in those of every copy made of it.
-/

namespace Ramify

/-- An engine whose candidates give values only to symbols that it was asked for. -/
def Engine.KeysWithin {K σ : Type} (engine : Engine K σ) : Prop :=
  ∀ relations unknowns state candidates,
    (engine.ask relations unknowns state).1 = .ok (.solved candidates) →
    ∀ candidate ∈ candidates, ∀ symbol ∈ candidate.keys, symbol ∈ unknowns

theorem Engine.Confined.keysWithin {K σ : Type} [Scalar K] {engine : Engine K σ}
    (h : engine.Confined) : engine.KeysWithin := by
  intro relations unknowns state candidates hanswer candidate hcandidate symbol hsymbol
  rw [SortedMap.mem_keys_iff] at hsymbol
  obtain ⟨value, hvalue⟩ := Option.isSome_iff_exists.1 hsymbol
  exact (h relations unknowns state _ hanswer candidate hcandidate symbol value hvalue).1

namespace Worksheet

variable {K σ : Type} [Scalar K]

section Values

variable {candidate : Solution K} {name : String} {old value : Fraction K}

omit [Scalar K] in
theorem exists_key_of_isNumeric (h : isNumeric candidate = true) :
    ∃ symbol, symbol ∈ candidate.keys := by
  unfold isNumeric at h
  obtain ⟨hsome, _⟩ := Bool.and_eq_true_iff.1 h
  by_contra hnone
  have hempty : candidate.isEmpty = true := (SortedMap.isEmpty_iff candidate).2 fun symbol => by
    have hkey : ¬ (candidate.find? symbol).isSome := by
      rw [← SortedMap.mem_keys_iff]
      exact fun hmem => hnone ⟨symbol, hmem⟩
    exact Option.not_isSome_iff_eq_none.1 hkey
  rw [hempty] at hsome
  cases hsome

omit [Scalar K] in
theorem isQuantity_of_isNumeric (h : isNumeric candidate = true) {symbol : Symbol}
    (hvalue : candidate.find? symbol = some value) : value.isQuantity = true := by
  unfold isNumeric at h
  obtain ⟨_, hall⟩ := Bool.and_eq_true_iff.1 h
  exact List.all_eq_true.1 hall (symbol, value) ((candidate.mem_entries_iff _).2 hvalue)

/-- What may occur in a value into which a candidate has been put. -/
def MayRemain (candidate : Solution K) (old : Fraction K) (symbol : Symbol) : Prop :=
  symbol.isUnit = true ∨ candidate.find? symbol = none ∧ symbol ∈ old.symbols

theorem over_takes (hnumeric : isNumeric candidate = true) (h : Takes candidate name old value) :
    value.Over (MayRemain candidate old) := by
  have hquantity (symbol : Symbol) (found : Fraction K)
      (hfound : candidate.find? symbol = some found) : found.Over (MayRemain candidate old) := by
    refine Fraction.over_iff.2 fun other hother => Or.inl ?_
    exact List.all_eq_true.1 (isQuantity_of_isNumeric hnumeric hfound) other hother
  unfold Takes adopted at h
  split at h
  · rename_i found hfound
    cases h
    exact hquantity _ value hfound
  · obtain ⟨middle, hsubst, hcanonical⟩ := except_bind_eq_ok.1 h
    refine Fraction.Over.canonical (Fraction.Over.subst hquantity ?_ hsubst) hcanonical
    exact Fraction.over_iff.2 fun symbol hsymbol hnone => Or.inr ⟨hnone, hsymbol⟩

theorem over_takes_all (hnumeric : isNumeric candidate = true)
    (h : Relation.TransGen (Takes candidate name) old value) :
    value.Over (MayRemain candidate old) := by
  induction h with
  | single h => exact over_takes hnumeric h
  | tail _ hlast ih =>
      refine (over_takes hnumeric hlast).imp fun symbol hsymbol => ?_
      rcases hsymbol with htag | ⟨_, hmiddle⟩
      · exact Or.inl htag
      · exact Fraction.over_iff.1 ih symbol hmiddle

end Values

section Attempts

variable {names : List String} {subset : List (Relation K)} {branch other : Branch K}
  {sheet after : Worksheet K σ}

/-- What is open after a candidate has been adopted was open before, and got no value. -/
theorem Adopted.open_of_open {candidate : Solution K}
    (h : Adopted candidate branch.bindings other.bindings) (hnumeric : isNumeric candidate = true)
    {name : String} (hname : name ∈ other.openNames names) :
    candidate.find? ⟨name, false⟩ = none ∧ name ∈ branch.openNames names := by
  obtain ⟨hdeclared, bound, value, hvalue, hsymbol⟩ := Branch.mem_openNames.1 hname
  obtain ⟨start, hstart, htakes⟩ := h bound value hvalue
  rcases Fraction.over_iff.1 (over_takes_all hnumeric htakes) _ hsymbol with htag | ⟨hnone, hold⟩
  · cases htag
  · exact ⟨hnone, Branch.mem_openNames.2 ⟨hdeclared, bound, start, hstart, hold⟩⟩

/-- What a candidate gives values to is open in a branch. -/
def Fits (names : List String) (branch : Branch K) (candidate : Solution K) : Prop :=
  ∀ symbol ∈ candidate.keys, symbol.isUnit = false ∧ symbol.name ∈ branch.openNames names

omit [Scalar K] in
/-- The candidates of an engine fit the branch whose relations it was asked about. -/
theorem fits_of_reply (hformed : sheet.branches.WellFormed) (hengine : sheet.engine.KeysWithin)
    (hsubset : ∀ r ∈ subset, r.Over (MayOccur sheet.branches.names branch))
    {candidates : List (Solution K)} (hreply : sheet.reply subset = .ok (.solved candidates))
    {candidate : Solution K} (hcandidate : candidate ∈ candidates) :
    Fits sheet.branches.names branch candidate :=
  fun symbol hsymbol => open_of_mem_unknownsOf hformed hsubset
    (hengine _ _ _ candidates hreply candidate hcandidate symbol hsymbol)

/-- A branch that has adopted values for open unknowns has fewer of them. -/
theorem Adopted.openNames_ssubset {candidate : Solution K}
    (h : Adopted candidate branch.bindings other.bindings) (hnumeric : isNumeric candidate = true)
    (hfits : Fits names branch candidate) :
    other.openNames names ⊂ branch.openNames names := by
  obtain ⟨⟨name, isUnit⟩, hkey⟩ := exists_key_of_isNumeric hnumeric
  obtain ⟨hunit, hopen⟩ := hfits _ hkey
  refine Finset.ssubset_iff_subset_ne.2
    ⟨fun _ hname => (h.open_of_open hnumeric hname).2, fun hsame => ?_⟩
  rw [← hsame] at hopen
  -- the name of a key is open before, and a value has been put in for it
  have hnone := (h.open_of_open hnumeric hopen).1
  cases hunit
  rw [SortedMap.mem_keys_iff, hnone] at hkey
  cases hkey

/-- An attempt that resolves variables leaves fewer open unknowns, in the branch and in each copy
that it makes. -/
theorem resolveBy_shrinks (hformed : sheet.branches.WellFormed) (hengine : sheet.engine.KeysWithin)
    (hbranch : branch ∈ sheet.branches.list)
    (hsubset : ∀ r ∈ subset, r.Over (MayOccur sheet.branches.names branch))
    (hrun : outcome (resolveBy branch.id subset) sheet = (.ok true, after))
    (hother : other ∈ after.branches.list)
    (hfamily : other.id = branch.id ∨ sheet.branches.nextId ≤ other.id) :
    other.openNames sheet.branches.names ⊂ branch.openNames sheet.branches.names := by
  obtain ⟨candidates, candidate, hreply, hcandidate, hnumeric, hadopted⟩ :=
    resolveBy_family hformed hbranch hrun hother hfamily
  exact hadopted.openNames_ssubset hnumeric
    (fits_of_reply hformed hengine hsubset hreply hcandidate)

end Attempts

section Rounds

/-- What the progress of a run rests on: there are no procedures, the equations only read the
variables, and the engine gives values to what it is asked for. -/
structure Tractable (sheet : Worksheet K σ) : Prop where
  procedures : sheet.procedures = []
  formed : sheet.branches.WellFormed
  reads : ∀ equation ∈ sheet.equations, equation.ReadsOnly sheet.branches.names
  engine : sheet.engine.KeysWithin

omit [Scalar K] in
theorem Tractable.passes {before after : Worksheet K σ} (h : Tractable before)
    (hpasses : Passes before after) : Tractable after where
  procedures := hpasses.procedures.trans h.procedures
  formed := hpasses.formed
  reads := by
    rw [hpasses.equations, hpasses.names]
    exact h.reads
  engine := hpasses.engine ▸ h.engine

omit [Scalar K] in
theorem tractable_opened {sheet : Worksheet K σ} (h : Tractable sheet) : Tractable sheet.opened :=
  h.passes ⟨rfl, rfl, rfl, rfl, rfl, h.formed, rfl⟩

variable {id : Nat} {branch other : Branch K} {subset relations : List (Relation K)}
  {sheet here gathered after : Worksheet K σ}

/-- The relations that are gathered in a branch mention no unknown of some names but the open
ones. -/
theorem over_gathered {names : List String} (hformed : sheet.branches.WellFormed)
    (hreads : ∀ equation ∈ sheet.equations, equation.ReadsOnly names)
    (hbranch : sheet.branches.list[sheet.branches.current]? = some branch)
    (hgather : outcome (gather id sheet.equations []) sheet.quiet =
      (.ok (some relations), gathered)) :
    ∀ r ∈ relations, r.Over (MayOccur names branch) := by
  obtain ⟨_, _, _, hsifted⟩ := gather_findings id sheet.quiet hformed hbranch hgather
  exact over_sift hreads (fun _ hr => (List.not_mem_nil hr).elim) (hsifted relations rfl)

/-- What an attempt is about mentions no unknown of some names but the open ones. -/
theorem TrialAt.over {names : List String} (h : TrialAt id sheet subset here)
    (hformed : sheet.branches.WellFormed)
    (hreads : ∀ equation ∈ sheet.equations, equation.ReadsOnly names)
    (hbranch : here.branches.list[here.branches.current]? = some branch) :
    ∀ r ∈ subset, r.Over (MayOccur names branch) := by
  obtain ⟨moment, gathered, relations, hround, hgather, hreaches⟩ := h
  have hworks := hround.works hformed
  obtain ⟨current, hcurrent⟩ := hworks.formed.exists_current
  obtain ⟨_, hsame, _, _⟩ := gather_findings id moment.quiet hworks.formed hcurrent hgather
  have hhere : here.branches = moment.branches :=
    (unresolved_of_reaches (hsame ▸ hworks.formed) hreaches).1.trans hsame
  rw [hhere] at hbranch
  intro r hr
  exact over_gathered hworks.formed (hworks.equations ▸ hreads) hbranch hgather r
    (mem_of_mem_trials hreaches.mem r hr)

theorem AttemptAt.over {names : List String} {limit : Nat}
    (h : AttemptAt limit sheet id subset here) (hprocedures : sheet.procedures = [])
    (hformed : sheet.branches.WellFormed)
    (hreads : ∀ equation ∈ sheet.equations, equation.ReadsOnly names)
    (hbranch : here.branches.list[here.branches.current]? = some branch) :
    ∀ r ∈ subset, r.Over (MayOccur names branch) := by
  obtain ⟨visit, hvisit, htrial⟩ := h
  obtain ⟨hpasses, _⟩ := hvisit.passes hprocedures hformed
  have hequations : visit.equations = sheet.equations := hpasses.equations
  exact htrial.over hpasses.formed (hequations ▸ hreads) hbranch

/-- Whatever attempt resolves variables, it leaves fewer open unknowns. -/
theorem TrialAt.shrinks (htrial : TrialAt branch.id sheet subset here) (h : Tractable sheet)
    (hbranch : here.branches.list[here.branches.current]? = some branch)
    (hrun : outcome (resolveBy branch.id subset) here = (.ok true, after))
    (hother : other ∈ after.branches.list)
    (hfamily : other.id = branch.id ∨ here.branches.nextId ≤ other.id) :
    other.openNames sheet.branches.names ⊂ branch.openNames sheet.branches.names := by
  have hsubset := htrial.over h.formed h.reads hbranch
  have hpasses := (htrial.works h.formed).passes
  rw [← hpasses.names] at hsubset ⊢
  exact resolveBy_shrinks hpasses.formed (hpasses.engine ▸ h.engine)
    (List.mem_of_getElem? hbranch) hsubset hrun hother hfamily

/-- A round that resolves variables leaves fewer open unknowns. -/
theorem round_shrinks (h : Tractable sheet)
    (hbranch : sheet.branches.list[sheet.branches.current]? = some branch)
    (hgather : outcome (gather branch.id sheet.equations []) sheet.quiet =
      (.ok (some relations), gathered))
    (hsweep : outcome ((gathered.trials relations).anyM (resolveBy branch.id)) gathered =
      (.ok true, after))
    (hother : other ∈ after.branches.list)
    (hfamily : other.id = branch.id ∨ sheet.branches.nextId ≤ other.id) :
    other.openNames sheet.branches.names ⊂ branch.openNames sheet.branches.names := by
  obtain ⟨subset, here, hreaches, hrun⟩ := reaches_of_anyM_ne hsweep nofun
  obtain ⟨_, hsame, _, _⟩ := gather_findings branch.id sheet.quiet h.formed hbranch hgather
  have hhere : here.branches = sheet.branches :=
    (unresolved_of_reaches (hsame ▸ h.formed) hreaches).1.trans hsame
  rw [← hhere] at hbranch hfamily
  exact TrialAt.shrinks ⟨sheet, gathered, relations, .first sheet, hgather, hreaches⟩ h hbranch hrun
    hother hfamily

/-- To solve a branch never adds open unknowns, and leaves fewer of them in each new branch. -/
theorem settle_shrinks (steps : Nat) (h : Tractable sheet)
    (hbranch : sheet.branches.list[sheet.branches.current]? = some branch)
    (hrun : outcome (settle branch.id steps) sheet = (.ok (), after))
    (hother : other ∈ after.branches.list)
    (hfamily : other.id = branch.id ∨ sheet.branches.nextId ≤ other.id) :
    other = branch ∨
      other.openNames sheet.branches.names ⊂ branch.openNames sheet.branches.names := by
  refine settle_relates (R := fun a b => b = a ∨
      b.openNames sheet.branches.names ⊂ a.openNames sheet.branches.names)
    (fun _ => Or.inl rfl) ?_ steps h.procedures h.formed hbranch ?_ hrun hother hfamily
  · rintro a b c (rfl | hab) (rfl | hbc)
    · exact Or.inl rfl
    · exact Or.inr hbc
    · exact Or.inr hab
    · exact Or.inr (hbc.trans hab)
  · intro subset here found passed there htrial hfound hid hattempt hpassed hfails made hmade hlate
    rw [← hid] at htrial hattempt hlate
    match passed with
    | .error failure => cases hfails failure rfl
    | .ok false => exact absurd rfl hpassed
    | .ok true => exact Or.inr (htrial.shrinks h hfound hattempt hmade hlate)

end Rounds

end Worksheet

end Ramify
