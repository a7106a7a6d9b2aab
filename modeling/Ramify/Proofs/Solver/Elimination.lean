import Ramify.Proofs.Algebra.Substitution
import Ramify.Proofs.Solver.Moves
import Ramify.Proofs.Solver.PurePower

/-!
Elimination loses no common zero. At a point where all polynomials of a system vanish, whatever an
elimination finds out is true of the point: the system is not called inconsistent, and one of the
solutions describes the point. Each round preserves this, by the move that it makes.
-/

namespace Ramify

/-- A solution describes a point if its values are those of the point; unit tags do not occur in
them. -/
def Describes {K : Type} [ExactScalar K] (z : Symbol → K) (solution : Solution K) : Prop :=
  ∀ symbol value, solution.find? symbol = some value →
    value.HasValue z (z symbol) ∧ value.Over (fun s => s.isUnit = false)

namespace Elimination

variable {K : Type} [ExactScalar K] {z : Symbol → K}

theorem describes_insert {solution : Solution K} (h : Describes z solution) {symbol : Symbol}
    {value : Fraction K} (hvalue : value.HasValue z (z symbol))
    (hunits : value.Over (fun s => s.isUnit = false)) :
    Describes z (solution.insert symbol value) := by
  intro other found hfound
  rw [SortedMap.find?_insert] at hfound
  split at hfound
  · rename_i hsame
    cases hfound
    rw [← hsame]
    exact ⟨hvalue, hunits⟩
  · exact h other found hfound

/-- What an elimination says is true of a point. -/
def Covers (z : Symbol → K) : Elimination K → Prop
  | .solved solutions => ∃ solution ∈ solutions, Describes z solution
  | .inconsistent => False
  | .unknown => True

/-- A system that vanishes at a point; unit tags are none of its unknowns. -/
structure Vanishes (z : Symbol → K) (unknowns : List Symbol) (polys : List (Polynomial K)) :
    Prop where
  units : ∀ symbol ∈ unknowns, symbol.isUnit = false
  within : ∀ p ∈ polys, p.Within (· ∈ unknowns)
  value : ∀ p ∈ polys, p.value z = 0

/-- A treatment of systems that loses no zero. -/
def Keeps (z : Symbol → K) (next : Continuation K) : Prop :=
  ∀ unknowns polys, Vanishes z unknowns polys → Yields (Covers z) (next unknowns polys)

theorem covers_ofSolutions {solutions : List (Solution K)} {solution : Solution K}
    (hmem : solution ∈ solutions) (h : Describes z solution) :
    Covers z (ofSolutions solutions) := by
  cases solutions with
  | nil => cases hmem
  | cons first rest => exact ⟨solution, hmem, h⟩

theorem covers_either {left right : Elimination K} (h : Covers z left ∨ Covers z right) :
    Covers z (either left right) := by
  cases left with
  | unknown => trivial
  | inconsistent =>
      cases right with
      | unknown => trivial
      | inconsistent => exact h.elim id id
      | solved solutions => exact h.resolve_left id
  | solved solutions =>
      cases right with
      | unknown => trivial
      | inconsistent => exact h.resolve_right id
      | solved more =>
          rcases h with ⟨solution, hmem, hdescribes⟩ | ⟨solution, hmem, hdescribes⟩
          · exact ⟨solution, List.mem_append_left _ hmem, hdescribes⟩
          · exact ⟨solution, List.mem_append_right _ hmem, hdescribes⟩

section Reduce

variable {unknowns : List Symbol} {symbol : Symbol} {value : Fraction K}

/-- A polynomial in which a symbol is replaced is one in the other unknowns. -/
theorem within_reduce (hvalue : value.Within (fun s => s ∈ unknowns ∧ s ≠ symbol)) {tolerance : K}
    {p q : Polynomial K} (hp : p.Within (· ∈ unknowns))
    (h : reduce tolerance (.single symbol value) p = .ok q) :
    q.Within (· ∈ unknowns.filter (· ≠ symbol)) := by
  have hfilter (s : Symbol) (hs : s ∈ unknowns ∧ s ≠ symbol) :
      s ∈ unknowns.filter (· ≠ symbol) := by simpa using hs
  unfold reduce at h
  obtain ⟨a, ha, h⟩ := except_bind_eq_ok.1 h
  have hwithin : a.Within (· ∈ unknowns.filter (· ≠ symbol)) := by
    apply Fraction.within_subst ?_ ?_ ha
    · intro other found hfound
      rw [SortedMap.find?_single] at hfound
      split at hfound
      · cases hfound
        exact ⟨hvalue.num_over.imp (fun e he s hs => hfilter s (he s hs)),
          hvalue.den_over.imp (fun e he s hs => hfilter s (he s hs))⟩
      · cases hfound
    · have hover := (Fraction.within_ofPolynomial hp.over).over
      have hkept (e : Exponents) (he : e.Over (· ∈ unknowns)) : e.Over (fun s =>
          (SortedMap.single symbol value).find? s = none → s ∈ unknowns.filter (· ≠ symbol)) := by
        intro s hs hnone
        refine hfilter s ⟨he s hs, ?_⟩
        rintro rfl
        rw [SortedMap.find?_single, if_pos rfl] at hnone
        cases hnone
      exact ⟨hover.1.imp hkept, hover.2.imp hkept⟩
  dsimp only at h
  split at h
  · cases h
    exact ⟨nofun, nofun, nofun⟩
  · cases h
    exact hwithin.num

/-- Replacing a symbol by a fraction with its value succeeds and keeps a zero. -/
theorem value_reduce (hvalue : value.HasValue z (z symbol)) (tolerance : K) {p : Polynomial K}
    (hp : p.All Powers.Natural) (hz : p.value z = 0) :
    ∃ q, reduce tolerance (.single symbol value) p = .ok q ∧ q.value z = 0 := by
  have hpoly := Fraction.hasValue_ofPolynomial (hp.imp (fun _ he => he.definedAt z))
  obtain ⟨a, ha, haValue⟩ := Fraction.hasValue_subst (Fraction.matches_single hvalue) hpoly
  have hnum : a.num.value z = 0 := by
    rw [haValue.eq, hz, zero_mul]
  unfold reduce
  rw [ha, except_ok_bind]
  dsimp only
  split
  · exact ⟨0, rfl, rfl⟩
  · exact ⟨a.num, rfl, hnum⟩

/-- A system stays one that vanishes when a symbol is replaced by a fraction with its value. -/
theorem vanishes_reduce {polys reduced : List (Polynomial K)} (h : Vanishes z unknowns polys)
    (hvalue : value.HasValue z (z symbol))
    (hwithin : value.Within (fun s => s ∈ unknowns ∧ s ≠ symbol)) {tolerance : K}
    (hreduced : polys.mapM (reduce tolerance (.single symbol value)) = .ok reduced) :
    Vanishes z (unknowns.filter (· ≠ symbol)) reduced where
  units := fun s hs => h.units s (List.mem_filter.1 hs).1
  within := by
    intro q hq
    obtain ⟨p, hp, hpq⟩ := except_mapM_mem hreduced q hq
    exact within_reduce hwithin (h.within p hp) hpq
  value := by
    intro q hq
    obtain ⟨p, hp, hpq⟩ := except_mapM_mem hreduced q hq
    obtain ⟨q', hq', hzero⟩ :=
      value_reduce hvalue tolerance (h.within p hp).natural (h.value p hp)
    rw [hpq] at hq'
    cases hq'
    exact hzero

theorem reduce_total {polys : List (Polynomial K)} (h : Vanishes z unknowns polys)
    (hvalue : value.HasValue z (z symbol)) (tolerance : K) :
    ∃ reduced, polys.mapM (reduce tolerance (.single symbol value)) = .ok reduced := by
  apply except_mapM_total
  intro p hp
  obtain ⟨q, hq, _⟩ := value_reduce hvalue tolerance (h.within p hp).natural (h.value p hp)
  exact ⟨q, hq⟩

theorem Vanishes.subset {polys fewer : List (Polynomial K)} (h : Vanishes z unknowns polys)
    (hsubset : ∀ p ∈ fewer, p ∈ polys) : Vanishes z unknowns fewer :=
  ⟨h.units, fun p hp => h.within p (hsubset p hp), fun p hp => h.value p (hsubset p hp)⟩

theorem Vanishes.append (h : Vanishes z unknowns polys) {more : List (Polynomial K)}
    (hmore : ∀ p ∈ more, p.Within (· ∈ unknowns) ∧ p.value z = 0) :
    Vanishes z unknowns (polys ++ more) := by
  refine ⟨h.units, fun p hp => ?_, fun p hp => ?_⟩
  · rcases List.mem_append.1 hp with hp | hp
    · exact h.within p hp
    · exact (hmore p hp).1
  · rcases List.mem_append.1 hp with hp | hp
    · exact h.value p hp
    · exact (hmore p hp).2

theorem units_over {a : Fraction K} (hunits : ∀ s ∈ unknowns, s.isUnit = false)
    (h : a.Within (fun s => s ∈ unknowns ∧ s ≠ symbol)) : a.Over (fun s => s.isUnit = false) :=
  ⟨h.num_over.imp (fun _ he s hs => hunits s (he s hs).1),
    h.den_over.imp (fun _ he s hs => hunits s (he s hs).1)⟩

end Reduce

section Moves

variable {unknowns : List Symbol} {polys active : List (Polynomial K)}

/-- If a polynomial in the unknowns has none of them, it has no symbols. -/
theorem no_symbols {p : Polynomial K} (hp : p.Within (· ∈ unknowns))
    (h : unknownsAmong unknowns p = []) : p.All (Powers.Over (fun _ => False)) := by
  intro m hm symbol hne
  have hmem : symbol ∈ unknownsAmong unknowns p :=
    mem_unknownsAmong.2 ⟨Polynomial.mem_symbols.2 ⟨m, hm, hne⟩, hp.over m hm symbol hne⟩
  rw [h] at hmem
  cases hmem

/-- A system that vanishes somewhere is not inconsistent, and what is active belongs to it. -/
theorem standing_vanishes (h : Vanishes z unknowns polys) :
    standing unknowns polys ≠ .inconsistent ∧
      ∀ active, standing unknowns polys = .active active →
        ∀ p ∈ active, p ∈ polys ∧ p.isZero = false := by
  unfold standing
  dsimp only
  split
  · rename_i hany
    obtain ⟨p, hp, _⟩ := List.any_eq_true.1 hany
    obtain ⟨hp, hfree⟩ := List.mem_filter.1 hp
    obtain ⟨hp, hnonzero⟩ := List.mem_filter.1 hp
    have hnone := no_symbols (h.within p hp) (List.isEmpty_iff.1 hfree)
    have hne := Polynomial.value_ne_zero_of_no_symbols (h.within p hp).proper hnone
      (by simpa using hnonzero) z
    exact absurd (h.value p hp) hne
  · split
    · exact ⟨nofun, nofun⟩
    · rename_i found hfound
      refine ⟨nofun, ?_⟩
      intro active hactive p hp
      cases hactive
      obtain ⟨hp, _⟩ := List.mem_filter.1 hp
      obtain ⟨hp, hnonzero⟩ := List.mem_filter.1 hp
      exact ⟨hp, by simpa using hnonzero⟩

/-- A polynomial in the unknowns that has only one of them is one in this symbol alone. -/
theorem within_only {p : Polynomial K} {symbol : Symbol} (hp : p.Within (· ∈ unknowns))
    (honly : unknownsAmong unknowns p = [symbol]) : p.Within (· = symbol) := by
  refine ⟨hp.proper, hp.natural, fun m hm s hs => ?_⟩
  have hmem : s ∈ unknownsAmong unknowns p :=
    mem_unknownsAmong.2 ⟨Polynomial.mem_symbols.2 ⟨m, hm, hs⟩, hp.over m hm s hs⟩
  rw [honly] at hmem
  exact List.mem_singleton.1 hmem

theorem within_symbol {P : Symbol → Prop} {p : Polynomial K} {symbol : Symbol} (hp : p.Within P)
    (honly : p.symbols = [symbol]) : p.Within (· = symbol) := by
  refine ⟨hp.proper, hp.natural, fun m hm s hs => ?_⟩
  have hmem : s ∈ p.symbols := Polynomial.mem_symbols.2 ⟨m, hm, hs⟩
  rw [honly] at hmem
  exact List.mem_singleton.1 hmem

/-- The value of a polynomial in one symbol, from its coefficients. -/
theorem value_of_coefficients {p : Polynomial K} {symbol : Symbol} (hp : p.Within (· = symbol))
    {parts : List (Polynomial K)} (hparts : p.splitBy symbol = .ok parts) (z : Symbol → K) :
    RealRoots.valueAt (parts.map Polynomial.constantCoeff) (z symbol) = p.value z := by
  have hcoeffs := Polynomial.within_splitBy hp hparts
  have hconstant : parts.map (Polynomial.value z) = parts.map Polynomial.constantCoeff := by
    apply List.map_congr_left
    intro c hc
    apply Polynomial.value_of_no_symbols
    exact fun m hm other hother =>
      ((hcoeffs c hc).over m hm other hother).2 ((hcoeffs c hc).over m hm other hother).1
  rw [← hconstant]
  exact Polynomial.value_splitBy hp.natural hparts z

/-- What a move says is true of a point. -/
def Sound (z : Symbol → K) (unknowns : List Symbol) : Move K → Prop
  | .split _ symbol values =>
    (∃ value ∈ values, value.HasValue z (z symbol)) ∧
      ∀ value ∈ values, value.Within (fun s => s ∈ unknowns ∧ s ≠ symbol)
  | .express _ symbol slope offset =>
    slope.Within (fun s => s ∈ unknowns ∧ s ≠ symbol) ∧
      offset.Within (fun s => s ∈ unknowns ∧ s ≠ symbol) ∧
      offset.value z + z symbol * slope.value z = 0
  | .search => True

/-- A move that is chosen for a system that vanishes is sound. -/
theorem Chosen.sound {numerics : Numerics K} {settings : SolverSettings K} {move : Move K}
    (hmove : Chosen numerics settings unknowns active move) (h : Vanishes z unknowns active)
    (hactive : ∀ p ∈ active, p.isZero = false)
    (hfinds : RealRoots.FindsAll numerics settings) : Sound z unknowns move := by
  cases hmove with
  | purePower hp honly hroots =>
      have hp := List.mem_of_getElem? hp
      have hwithin := within_only (h.within _ hp) honly
      exact ⟨PurePower.exists_roots hwithin hroots (h.value _ hp),
        PurePower.within_roots _ hwithin hroots⟩
  | univariate hp honly _ hparts =>
      have hp := List.mem_of_getElem? hp
      have hwithin := within_symbol (h.within _ hp) honly
      have hvalue := value_of_coefficients hwithin hparts z
      rw [h.value _ hp] at hvalue
      have hroot := hfinds _ (Polynomial.exists_coefficient hwithin (hactive _ hp) hparts) _ hvalue
      refine ⟨⟨.const (z _), List.mem_map.2 ⟨_, hroot, rfl⟩, Fraction.hasValue_const z _⟩, ?_⟩
      intro value hvalue
      obtain ⟨root, _, rfl⟩ := List.mem_map.1 hvalue
      exact Fraction.within_const _ root
  | linear hp _ hparts =>
      have hp := List.mem_of_getElem? hp
      have hwithin := Polynomial.within_splitBy (h.within _ hp) hparts
      have hvalue := Polynomial.value_splitBy (h.within _ hp).natural hparts z
      refine ⟨hwithin _ (by simp), hwithin _ (by simp), ?_⟩
      rw [h.value _ hp] at hvalue
      simpa using hvalue
  | search => trivial

end Moves

section Rounds

variable {next : Continuation K} {unknowns : List Symbol} {rest : List (Polynomial K)}
  {symbol : Symbol}

/-- Splitting on values loses no zero if the value of the symbol is among them, or a solution has
been found before. -/
theorem covers_splitOn (hnext : Keeps z next) (h : Vanishes z unknowns rest) (tolerance : K)
    (values : List (Fraction K)) (found : List (Solution K))
    (hwithin : ∀ value ∈ values, value.Within (fun s => s ∈ unknowns ∧ s ≠ symbol))
    (hvalue : (∃ value ∈ values, value.HasValue z (z symbol)) ∨
      ∃ solution ∈ found, Describes z solution) :
    Yields (Covers z) (splitOn tolerance next unknowns symbol rest values found) := by
  induction values generalizing found with
  | nil =>
      obtain ⟨solution, hmem, hdescribes⟩ := hvalue.resolve_left (by simp)
      exact .pure (covers_ofSolutions hmem hdescribes)
  | cons value values ih =>
      have hwithin' := fun v hv => hwithin v (List.mem_cons_of_mem value hv)
      have hhere := hwithin value List.mem_cons_self
      unfold splitOn
      by_cases hthis : value.HasValue z (z symbol)
      · obtain ⟨reduced, hreduced⟩ := reduce_total h hthis tolerance
        rw [hreduced]
        refine Yields.bind (hnext _ _ (vanishes_reduce h hthis hhere hreduced))
          (fun outcome hcovers => ?_)
        cases outcome with
        | unknown => exact .pure trivial
        | inconsistent => exact hcovers.elim
        | solved solutions =>
            obtain ⟨solution, hmem, hdescribes⟩ := hcovers
            apply ih _ hwithin'
            right
            exact ⟨solution.insert symbol value,
              List.mem_append_right _ (List.mem_map.2 ⟨solution, hmem, rfl⟩),
              describes_insert hdescribes hthis (units_over h.units hhere)⟩
      · have hlater (more : List (Solution K)) : (∃ value ∈ values, value.HasValue z (z symbol)) ∨
            ∃ solution ∈ found ++ more, Describes z solution := by
          rcases hvalue with ⟨v, hv, hvalue⟩ | ⟨solution, hmem, hdescribes⟩
          · rcases List.mem_cons.1 hv with rfl | hv
            · exact absurd hvalue hthis
            · exact Or.inl ⟨v, hv, hvalue⟩
          · exact Or.inr ⟨solution, List.mem_append_left _ hmem, hdescribes⟩
        have hsame := hlater []
        rw [List.append_nil] at hsame
        cases rest.mapM (reduce tolerance (.single symbol value)) with
        | error cause =>
            dsimp only
            split
            · exact ih found hwithin' hsame
            · exact .throw _
        | ok reduced =>
            refine Yields.bind (Q := fun _ => True) (fun _ _ _ _ => trivial) (fun outcome _ => ?_)
            cases outcome with
            | unknown => exact .pure trivial
            | inconsistent => exact ih found hwithin' hsame
            | solved solutions => exact ih _ hwithin' (hlater _)

/-- The solution that describes a point is completed, not dropped. -/
theorem exists_complete {value : Fraction K} (hvalue : value.HasValue z (z symbol))
    (hunits : value.Over (fun s => s.isUnit = false)) {solutions completed : List (Solution K)}
    (h : complete symbol value solutions = .ok completed) {solution : Solution K}
    (hmem : solution ∈ solutions) (hdescribes : Describes z solution) :
    ∃ result ∈ completed, Describes z result := by
  induction solutions generalizing completed with
  | nil => cases hmem
  | cons first others ih =>
      unfold complete at h
      rcases hfirst : (do (← value.subst first).canonical : Except AlgebraError (Fraction K)) with
        cause | result
      · rw [hfirst] at h
        dsimp only at h
        rcases List.mem_cons.1 hmem with rfl | hmem
        · obtain ⟨a, ha, haValue⟩ :=
            Fraction.hasValue_subst (fun s v hv => (hdescribes s v hv).1) hvalue
          obtain ⟨b, hb, _⟩ := Fraction.hasValue_canonical haValue
          rw [ha, except_ok_bind, hb] at hfirst
          cases hfirst
        · split at h
          · exact ih h hmem
          · cases h
      · rw [hfirst] at h
        obtain ⟨later, hlater, h⟩ := except_bind_eq_ok.1 h
        cases h
        rcases List.mem_cons.1 hmem with rfl | hmem
        · obtain ⟨a, ha, hcanonical⟩ := except_bind_eq_ok.1 hfirst
          obtain ⟨a', ha', haValue⟩ :=
            Fraction.hasValue_subst (fun s v hv => (hdescribes s v hv).1) hvalue
          rw [ha] at ha'
          cases ha'
          obtain ⟨b, hb, hbValue⟩ := Fraction.hasValue_canonical haValue
          rw [hcanonical] at hb
          cases hb
          have hkeep (e : Exponents) (he : e.Over (fun s => s.isUnit = false)) :
              e.Over (fun s => solution.find? s = none → s.isUnit = false) :=
            fun s hs _ => he s hs
          have hover := (Fraction.within_subst (fun s v hv => (hdescribes s v hv).2)
            ⟨hunits.1.imp hkeep, hunits.2.imp hkeep⟩ ha).over
          exact ⟨_, List.mem_cons_self, describes_insert hdescribes hbValue
            (Fraction.within_canonical hover hcanonical).over⟩
        · obtain ⟨found, hfound, hdescribes'⟩ := ih hlater hmem
          exact ⟨found, List.mem_cons_of_mem _ hfound, hdescribes'⟩

theorem covers_substitute (hnext : Keeps z next) (h : Vanishes z unknowns rest) (tolerance : K)
    {value : Fraction K} (hvalue : value.HasValue z (z symbol))
    (hwithin : value.Within (fun s => s ∈ unknowns ∧ s ≠ symbol)) :
    Yields (Covers z) (substitute tolerance next unknowns symbol value rest) := by
  unfold substitute
  refine Yields.bind (yields_lift _) (fun reduced hreduced => ?_)
  refine Yields.bind (hnext _ _ (vanishes_reduce h hvalue hwithin hreduced))
    (fun outcome hcovers => ?_)
  cases outcome with
  | unknown => exact .pure trivial
  | inconsistent => exact .pure hcovers
  | solved solutions =>
      obtain ⟨solution, hmem, hdescribes⟩ := hcovers
      refine Yields.bind (yields_lift _) (fun completed hcompleted => ?_)
      obtain ⟨result, hresult, hdescribes'⟩ :=
        exists_complete hvalue (units_over h.units hwithin) hcompleted hmem hdescribes
      exact .pure (covers_ofSolutions hresult hdescribes')

/-- Nothing can be divided by a polynomial without terms. -/
theorem not_div_zero {a b : Fraction K} {p : Polynomial K} (h : p.isZero = true)
    (hdiv : a.div (.ofPolynomial p) = .ok b) : False := by
  have hzero : (Fraction.ofPolynomial p).num.isZero = true := by
    have hcollected : p.collected.isZero = true := by
      unfold Polynomial.collected
      rw [List.isEmpty_iff.1 h]
      rfl
    unfold Fraction.ofPolynomial Fraction.lowestTerms
    rw [if_pos hcollected]
    rfl
  unfold Fraction.div at hdiv
  rw [if_pos hzero] at hdiv
  cases hdiv

/-- A slope that vanishes at the point and can be divided by is not a number. -/
theorem slope_not_quantity (h : Vanishes z unknowns rest) {slope offset : Polynomial K}
    {value : Fraction K} (hslope : slope.Within (· ∈ unknowns)) (hzero : slope.value z = 0)
    (hdiv : (Fraction.ofPolynomial offset).div (.ofPolynomial slope) = .ok value) :
    ¬(slope.isSymbolFree || Polynomial.isQuantity slope) = true := by
  intro hnumber
  have hnone : slope.All (Powers.Over (fun _ => False)) := by
    rcases Bool.or_eq_true_iff.1 hnumber with hfree | hquantity
    · exact Polynomial.isSymbolFree_iff.1 hfree
    · intro m hm s hs
      have hunit := List.all_eq_true.1 hquantity s (Polynomial.mem_symbols.2 ⟨m, hm, hs⟩)
      rw [h.units s (hslope.over m hm s hs)] at hunit
      cases hunit
  cases hempty : slope.isZero with
  | false => exact Polynomial.value_ne_zero_of_no_symbols hslope.proper hnone hempty z hzero
  | true => exact not_div_zero hempty hdiv

/-- Expressing a symbol loses no zero: where the slope vanishes, the offset does too. -/
theorem covers_expressOn (hnext : Keeps z next) (h : Vanishes z unknowns rest) (tolerance : K)
    {slope offset : Polynomial K} (hslope : slope.Within (fun s => s ∈ unknowns ∧ s ≠ symbol))
    (hoffset : offset.Within (fun s => s ∈ unknowns ∧ s ≠ symbol))
    (hz : offset.value z + z symbol * slope.value z = 0) :
    Yields (Covers z) (expressOn tolerance next unknowns symbol slope offset rest) := by
  have hdefined (p : Polynomial K) (hp : p.All Powers.Natural) : p.All (Powers.DefinedAt z) :=
    hp.imp (fun _ he => he.definedAt z)
  have hslopeValue := Fraction.hasValue_ofPolynomial (hdefined slope hslope.natural)
  have hoffsetValue : (Fraction.ofPolynomial (-offset)).HasValue z (-offset.value z) := by
    rw [← Polynomial.value_neg]
    exact Fraction.hasValue_ofPolynomial
      (hdefined (-offset) (Polynomial.all_mapCoeffs hoffset.natural _))
  unfold expressOn
  refine Yields.bind (yields_lift _) (fun value hdiv => ?_)
  have hwithin : value.Within (fun s => s ∈ unknowns ∧ s ≠ symbol) :=
    Fraction.within_div
      (Fraction.within_ofPolynomial (Polynomial.all_mapCoeffs hoffset.over _)).over
      (Fraction.within_ofPolynomial hslope.over).over hdiv
  by_cases hzero : slope.value z = 0
  · -- the slope vanishes at the point, so it is not a number
    have hwiden {p : Polynomial K} (hp : p.Within (fun s => s ∈ unknowns ∧ s ≠ symbol)) :
        p.Within (· ∈ unknowns) :=
      ⟨hp.proper, hp.natural, hp.over.imp (fun _ he s hs => (he s hs).1)⟩
    refine Yields.bind (Q := fun _ => True) (fun _ _ _ _ => trivial) (fun regular _ => ?_)
    rw [if_neg (slope_not_quantity h (hwiden hslope) hzero hdiv)]
    have hoffsetZero : offset.value z = 0 := by
      rw [hzero, mul_zero, add_zero] at hz
      exact hz
    have hmore : Vanishes z unknowns (rest ++ [slope, offset]) := by
      refine h.append (List.forall_mem_cons.2 ⟨⟨hwiden hslope, hzero⟩, ?_⟩)
      exact List.forall_mem_singleton.2 ⟨hwiden hoffset, hoffsetZero⟩
    refine Yields.bind (hnext _ _ hmore) (fun vanishing hvanishing => ?_)
    exact .pure (covers_either (Or.inr hvanishing))
  · have hvalue : value.HasValue z (z symbol) := by
      obtain ⟨v, hv, hvValue⟩ := Fraction.hasValue_div hoffsetValue hslopeValue hzero
      rw [hdiv] at hv
      cases hv
      have hquotient : -offset.value z / slope.value z = z symbol := by
        rw [div_eq_iff hzero]
        linear_combination -hz
      rw [hquotient] at hvValue
      exact hvValue
    refine Yields.bind (covers_substitute hnext h tolerance hvalue hwithin)
      (fun regular hregular => ?_)
    split
    · exact .pure hregular
    · refine Yields.bind (Q := fun _ => True) (fun _ _ _ _ => trivial) (fun vanishing _ => ?_)
      exact .pure (covers_either (Or.inl hregular))

/-- Elimination loses no zero, if what takes over from it does not. -/
theorem keeps_eliminate {fallback : Continuation K} (hfallback : Keeps z fallback)
    {numerics : Numerics K} {settings : SolverSettings K}
    (hfinds : RealRoots.FindsAll numerics settings) (rounds : Nat) :
    Keeps z (eliminate fallback numerics settings rounds) := by
  have hothers {unknowns : List Symbol} {polys active : List (Polynomial K)}
      (h : Vanishes z unknowns polys) (hstanding : standing unknowns polys = .active active) :
      Vanishes z unknowns active ∧ (∀ p ∈ active, p.isZero = false) ∧
        ∀ index, Vanishes z unknowns (others index active) := by
    have hmem := (standing_vanishes h).2 active hstanding
    have hvanishes := h.subset (fun p hp => (hmem p hp).1)
    exact ⟨hvanishes, fun p hp => (hmem p hp).2,
      fun index => hvanishes.subset (fun p hp => List.mem_of_mem_eraseIdx hp)⟩
  refine yields_eliminate (Vanishes z) (fun _ _ => Covers z) ?_ ?_ ?_ ?_ ?_ ?_ rounds
  · exact fun unknowns polys h hstanding => absurd hstanding (standing_vanishes h).1
  · exact fun _ _ _ _ => ⟨∅, List.mem_singleton_self _, fun _ _ hnone => by cases hnone⟩
  · exact fun _ _ => trivial
  · intro rounds hnext unknowns polys active index symbol values h hstanding hmove
    obtain ⟨hvanishes, hnonzero, hrest⟩ := hothers h hstanding
    have hsound := hmove.sound hvanishes hnonzero hfinds
    exact covers_splitOn hnext (hrest index) _ values [] hsound.2 (Or.inl hsound.1)
  · intro rounds hnext unknowns polys active index symbol slope offset h hstanding hmove
    obtain ⟨hvanishes, hnonzero, hrest⟩ := hothers h hstanding
    have hsound := hmove.sound hvanishes hnonzero hfinds
    exact covers_expressOn hnext (hrest index) _ hsound.1 hsound.2.1 hsound.2.2
  · exact fun unknowns polys active h hstanding => hfallback unknowns active (hothers h hstanding).1

end Rounds

end Elimination

end Ramify
