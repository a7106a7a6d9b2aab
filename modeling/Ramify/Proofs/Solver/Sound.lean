import Ramify.Proofs.Solver.Linear
import Ramify.Proofs.Solver.Search

/-!
What the solver says about relations in its unknowns alone. Over exact numbers, and without a search
by chance, no point at which all relations hold is lost: the relations are not said to contradict
each other, and one of the candidates describes the point.
-/

namespace Ramify

variable {K : Type} [ExactScalar K] {z : Symbol → K} {unknowns : List Symbol}

/-- A relation between symbols with a property that holds at a point: both sides are defined and
equal. -/
structure Relation.HoldsAt (z : Symbol → K) (P : Symbol → Prop) (r : Relation K) : Prop where
  lhs_over : r.lhs.Over P
  rhs_over : r.rhs.Over P
  equal : ∃ v, r.lhs.HasValue z v ∧ r.rhs.HasValue z v

def Answer.Covers (z : Symbol → K) : Answer K → Prop
  | .noSolution => False
  | .solved candidates => ∃ candidate ∈ candidates, Describes z candidate
  | .indeterminate => True

namespace Solver

open Elimination (Vanishes Keeps)

variable {relations : List (Relation K)}

/-- Relations that hold give polynomials that vanish. -/
theorem vanishes_polynomialsOf (hunits : ∀ s ∈ unknowns, s.isUnit = false)
    (h : ∀ r ∈ relations, r.HoldsAt z (· ∈ unknowns)) {polys : List (Polynomial K)}
    (hrun : polynomialsOf relations = .ok polys) : Vanishes z unknowns polys := by
  unfold polynomialsOf at hrun
  obtain ⟨differences, hdifferences, hrun⟩ := except_bind_eq_ok.1 hrun
  cases hrun
  have hdifference (a : Fraction K) (ha : a ∈ differences) :
      a.Within (· ∈ unknowns) ∧ a.HasValue z 0 := by
    obtain ⟨r, hr, hsub⟩ := except_mapM_mem hdifferences a ha
    obtain ⟨d, hd, hcanonical⟩ := except_bind_eq_ok.1 hsub
    obtain ⟨v, hleft, hright⟩ := (h r hr).equal
    obtain ⟨d', hd', hvalue⟩ := Fraction.hasValue_sub hleft hright
    rw [hd] at hd'
    cases hd'
    obtain ⟨a', ha', hvalue⟩ := Fraction.hasValue_canonical hvalue
    rw [hcanonical] at ha'
    cases ha'
    rw [sub_self] at hvalue
    have hover := (Fraction.within_sub (h r hr).lhs_over (h r hr).rhs_over hd).over
    exact ⟨Fraction.within_canonical hover hcanonical, hvalue⟩
  refine ⟨hunits, ?_, ?_⟩
  · intro p hp
    obtain ⟨a, ha, rfl⟩ := List.mem_map.1 hp
    exact (hdifference a (List.mem_of_mem_filter ha)).1.num
  · intro p hp
    obtain ⟨a, ha, rfl⟩ := List.mem_map.1 hp
    rw [(hdifference a (List.mem_of_mem_filter ha)).2.eq, zero_mul]

section Verification

variable {candidate : Solution K}

/-- A number has itself for its value in base units. -/
theorem baseValue_of_no_symbols {a : Fraction K} (h : a.Within (fun _ => False)) {v : K}
    (hv : a.HasValue z v) : Units.baseValue a = .ok (some v) := by
  have hnone : a.symbols = [] := by
    rw [List.eq_nil_iff_forall_not_mem]
    exact Fraction.over_iff.1 h.over
  unfold Units.baseValue Units.scales
  rw [hnone, List.foldlM_nil, except_pure, except_ok_bind, Fraction.eval_of_no_symbols h hv]
  rfl

/-- Putting a candidate that describes a point into a side of a relation keeps its value there. -/
theorem subst_of_describes (hunits : ∀ s ∈ unknowns, s.isUnit = false)
    (hcandidate : Describes z candidate) {a : Fraction K} (ha : a.Over (· ∈ unknowns)) {v : K}
    (hv : a.HasValue z v) :
    ∃ b, a.subst candidate = .ok b ∧ b.HasValue z v ∧ b.Within (fun s => s.isUnit = false) := by
  obtain ⟨b, hb, hvalue⟩ :=
    Fraction.hasValue_subst (fun symbol value hfound => (hcandidate symbol value hfound).1) hv
  refine ⟨b, hb, hvalue, ?_⟩
  apply Fraction.within_subst (fun symbol value hfound => (hcandidate symbol value hfound).2) ?_ hb
  exact ⟨ha.1.imp (fun e he s hs _ => hunits s (he s hs)),
    ha.2.imp (fun e he s hs _ => hunits s (he s hs))⟩

theorem within_of_isQuantity {a : Fraction K} (h : a.Within (fun s => s.isUnit = false))
    (hquantity : a.isQuantity = true) : a.Within (fun _ => False) := by
  have hnone : a.Over (fun _ => False) := by
    rw [Fraction.over_iff]
    intro symbol hsymbol
    have hunit := List.all_eq_true.1 hquantity symbol hsymbol
    rw [Fraction.over_iff.1 h.over symbol hsymbol] at hunit
    cases hunit
  exact { h with num_over := hnone.1, den_over := hnone.2 }

/-- A relation that holds at a point is not refuted by a candidate that describes it. -/
theorem holdsAt_of_describes (hunits : ∀ s ∈ unknowns, s.isUnit = false)
    (hcandidate : Describes z candidate) {r : Relation K} (h : r.HoldsAt z (· ∈ unknowns)) :
    holdsAt 0 candidate r = .ok true := by
  obtain ⟨v, hleft, hright⟩ := h.equal
  obtain ⟨left, hl, hlValue, hlWithin⟩ := subst_of_describes hunits hcandidate h.lhs_over hleft
  obtain ⟨right, hr, hrValue, hrWithin⟩ := subst_of_describes hunits hcandidate h.rhs_over hright
  unfold holdsAt
  rw [hl, hr]
  change (if left.isQuantity && right.isQuantity then _ else _) = _
  split
  · rename_i hquantities
    obtain ⟨hlQuantity, hrQuantity⟩ := Bool.and_eq_true_iff.1 hquantities
    rw [baseValue_of_no_symbols (within_of_isQuantity hlWithin hlQuantity) hlValue,
      baseValue_of_no_symbols (within_of_isQuantity hrWithin hrQuantity) hrValue]
    have hsame : agree (0 : K) (some v) (some v) = true := by
      unfold agree
      simp
    rw [except_ok_bind, except_ok_bind, hsame]
    rfl
  · rfl

theorem confirms_of_describes (hunits : ∀ s ∈ unknowns, s.isUnit = false)
    (hcandidate : Describes z candidate) (h : ∀ r ∈ relations, r.HoldsAt z (· ∈ unknowns)) :
    confirms 0 relations candidate = .ok true := by
  have hall (rest : List (Relation K)) (hrest : ∀ r ∈ rest, r.HoldsAt z (· ∈ unknowns)) :
      allHold 0 candidate rest = .ok true := by
    induction rest with
    | nil => rfl
    | cons r rest ih =>
        unfold allHold
        rw [holdsAt_of_describes hunits hcandidate (hrest r List.mem_cons_self)]
        exact ih (fun other hother => hrest other (List.mem_cons_of_mem r hother))
  unfold confirms
  split
  · rfl
  · exact hall relations h

/-- Verification keeps a candidate that describes a point at which the relations hold. -/
theorem verify_keeps (hunits : ∀ s ∈ unknowns, s.isUnit = false)
    {settings : SolverSettings K} (hsettings : settings.Exact)
    (h : ∀ r ∈ relations, r.HoldsAt z (· ∈ unknowns)) (candidates verified : List (Solution K))
    (hsome : ∃ candidate ∈ verified ++ candidates, Describes z candidate) :
    Yields (fun result => ∃ candidate ∈ result, Describes z candidate)
      (verify settings relations candidates verified) := by
  induction candidates generalizing verified with
  | nil =>
      rw [List.append_nil] at hsome
      exact .pure hsome
  | cons first rest ih =>
      obtain ⟨candidate, hmem, hdescribes⟩ := hsome
      unfold verify
      rw [hsettings.residual]
      cases hconfirms : confirms 0 relations first with
      | error failure => exact .throw failure
      | ok holds =>
          have hrest (kept : List (Solution K))
              (hkept : candidate ∈ verified ++ rest → candidate ∈ kept ++ rest)
              (hfirst : candidate = first → candidate ∈ kept) :
              Yields (fun result => ∃ candidate ∈ result, Describes z candidate)
                (verify settings relations rest kept) := by
            apply ih kept
            refine ⟨candidate, ?_, hdescribes⟩
            rcases List.mem_append.1 hmem with hold | hnew
            · exact hkept (List.mem_append_left rest hold)
            · rcases List.mem_cons.1 hnew with hsame | hlater
              · exact List.mem_append_left rest (hfirst hsame)
              · exact List.mem_append_right kept hlater
          cases holds with
          | false =>
              have hnot : candidate ≠ first := by
                rintro rfl
                rw [confirms_of_describes hunits hdescribes h] at hconfirms
                cases hconfirms
              dsimp only
              split
              · refine Yields.bind (Q := fun _ => True) (fun _ _ _ _ => trivial) (fun _ _ => ?_)
                exact hrest verified id (fun hsame => absurd hsame hnot)
              · exact hrest verified id (fun hsame => absurd hsame hnot)
          | true =>
              dsimp only
              split
              · rename_i hcontains
                exact hrest verified id (fun hsame => hsame ▸ List.contains_iff_mem.1 hcontains)
              · apply hrest
                · intro hbefore
                  rw [List.append_assoc]
                  rcases List.mem_append.1 hbefore with hold | hlater
                  · exact List.mem_append_left _ hold
                  · exact List.mem_append_right _ (List.mem_cons_of_mem first hlater)
                · intro hsame
                  rw [hsame]
                  exact List.mem_append_right _ (List.mem_singleton_self first)

end Verification

section Answers

variable {settings : SolverSettings K} {polys : List (Polynomial K)}

omit [ExactScalar K] in
/-- A line that may be told changes no result. -/
theorem yields_tell {α : Type} {Q : α → Prop} (verbose : Bool) (line : String) {x : α} (h : Q x) :
    Yields Q (do
      if verbose then Elimination.tell line
      return x : SolverAction K α) := by
  split
  · exact Yields.bind (Q := fun _ => True) (fun _ _ _ _ => trivial) (fun _ _ => .pure h)
  · exact .pure h

theorem covers_linearAnswer (hsettings : settings.Exact) (h : Vanishes z unknowns polys)
    (hlinear : Linear.applies unknowns polys = true) :
    Yields (Answer.Covers z) (linearAnswer settings unknowns polys) := by
  refine Yields.bind (Q := Linear.Outcome.Covers z) ?_ (fun outcome houtcome => ?_)
  · rw [hsettings.zero]
    cases hsolve : Linear.solve 0 unknowns polys with
    | error cause => exact .throw _
    | ok outcome => exact .pure (Linear.covers_solve h hlinear hsolve)
  · cases outcome with
    | solved solution => exact .pure ⟨solution, List.mem_singleton_self solution, houtcome⟩
    | undetermined => exact .pure trivial
    | inconsistent residue => exact absurd houtcome id

theorem covers_ofCandidates {candidates : List (Solution K)}
    (h : ∃ candidate ∈ candidates, Describes z candidate) :
    (Answer.ofCandidates candidates).Covers z := by
  cases candidates with
  | nil =>
      obtain ⟨candidate, hmem, _⟩ := h
      cases hmem
  | cons first rest => exact h

theorem covers_eliminationAnswer {fallback : Elimination.Continuation K}
    (hfallback : Keeps z fallback) {numerics : Numerics K}
    (hnumerics : RealRoots.FindsRealRoots numerics) (hsettings : settings.Exact)
    (h : Vanishes z unknowns polys) :
    Yields (Answer.Covers z) (eliminationAnswer fallback numerics settings unknowns polys) := by
  refine Yields.bind (Elimination.keeps_eliminate hfallback
    (RealRoots.findsAll_of_exact hnumerics hsettings) rounds unknowns polys h)
    (fun outcome houtcome => ?_)
  cases outcome with
  | solved solutions => exact .pure (covers_ofCandidates houtcome)
  | inconsistent => exact absurd houtcome id
  | unknown => exact .pure trivial

theorem covers_conclude (hunits : ∀ s ∈ unknowns, s.isUnit = false) (hsettings : settings.Exact)
    (h : ∀ r ∈ relations, r.HoldsAt z (· ∈ unknowns)) {answer : Answer K}
    (hanswer : answer.Covers z) :
    Yields (Answer.Covers z) (conclude settings relations answer) := by
  cases answer with
  | noSolution => exact absurd hanswer id
  | indeterminate => exact yields_tell _ _ trivial
  | solved candidates =>
      refine Yields.bind (verify_keeps hunits hsettings h candidates [] hanswer)
        (fun verified hverified => ?_)
      exact yields_tell _ _ (covers_ofCandidates hverified)

/-- No point at which the relations hold is lost, if the search that takes over loses none. -/
theorem covers_solveWith {fallback : Elimination.Continuation K} (hfallback : Keeps z fallback)
    {numerics : Numerics K} (hnumerics : RealRoots.FindsRealRoots numerics)
    (hsettings : settings.Exact) (hunits : ∀ s ∈ unknowns, s.isUnit = false)
    (h : ∀ r ∈ relations, r.HoldsAt z (· ∈ unknowns)) :
    Yields (Answer.Covers z) (solveWith fallback numerics settings relations unknowns) := by
  unfold solveWith
  split
  · exact .pure trivial
  · refine Yields.bind (Q := Vanishes z unknowns) ?_ (fun polys hpolys => ?_)
    · cases hread : polynomialsOf relations with
      | error cause => exact .throw _
      | ok polys => exact .pure (vanishes_polynomialsOf hunits h hread)
    · split
      · exact .pure trivial
      · split
        · rename_i hlinear
          exact .bind (covers_linearAnswer hsettings hpolys hlinear)
            (fun answer hanswer => covers_conclude hunits hsettings h hanswer)
        · exact .bind (covers_eliminationAnswer hfallback hnumerics hsettings hpolys)
            (fun answer hanswer => covers_conclude hunits hsettings h hanswer)

/-- A question that does not come to a search loses no point at which the relations hold. -/
theorem covers_solve {numerics : Numerics K} (hnumerics : RealRoots.FindsRealRoots numerics)
    (hsettings : settings.Exact) (hunits : ∀ s ∈ unknowns, s.isUnit = false)
    (hsearch : reachesSearch numerics settings relations unknowns = false)
    (h : ∀ r ∈ relations, r.HoldsAt z (· ∈ unknowns)) :
    Yields (Answer.Covers z) (solve numerics settings relations unknowns) := by
  intro state answer after hrun
  have hrefused : Keeps z (refuse : Elimination.Continuation K) := fun _ _ _ => .throw _
  have hsame := solve_of_not_reachesSearch hsearch state
  rw [hrun] at hsame
  rcases hwith : outcome (solveWith refuse numerics settings relations unknowns) (start 0) with
    ⟨result, last⟩
  rw [hwith] at hsame
  cases hsame
  exact covers_solveWith hrefused hnumerics hsettings hunits h (start 0) answer last hwith

end Answers

end Solver

end Ramify
