import Ramify.Proofs.Algebra.Generic
import Ramify.Proofs.Scalar.Real
import Ramify.Proofs.Solver.SolvedForm

/-!
Elimination describes the common zeros of a system, neither more nor less. That no zero is lost has
been seen; here it is shown that no solution describes anything else. At a point at which all the
values that were put in are defined, this can be followed from round to round. A completed solution
is also defined at other points, since factors are cancelled, but there are none of them in general
position.
-/

namespace Ramify

variable {K : Type} [ExactScalar K]

theorem Fraction.Made.within {P : Symbol → Prop} {a : Fraction K} (h : a.Made) (hover : a.Over P) :
    a.Within P := by
  have hwithin : a.Within (fun _ => True) := by
    rcases h with ⟨x, rfl⟩ | ⟨num, den, hmake⟩
    · exact within_const _ x
    · exact within_make hmake (fun _ _ _ _ => trivial) (fun _ _ _ _ => trivial)
  exact { hwithin with num_over := hover.1, den_over := hover.2 }

theorem Fraction.made_substPolynomial {K : Type} [Scalar K] {p : Polynomial K}
    {replacements : SortedMap Symbol (Fraction K)} {a : Fraction K}
    (h : substPolynomial p replacements = .ok a) : a.Made := by
  unfold substPolynomial at h
  refine except_foldlM (Q := Fraction.Made) ?_ (made_const 0) h
  intro m _ before after _ hstep
  unfold addSubst at hstep
  obtain ⟨_, _, hstep⟩ := except_bind_eq_ok.1 hstep
  obtain ⟨product, _, hadd⟩ := except_bind_eq_ok.1 hstep
  exact made_make hadd

namespace Elimination

variable {unknowns : List Symbol} {symbol : Symbol} {polys rest : List (Polynomial K)}

/-- Only common zeros of some polynomials are described by a solution. -/
def Genuine (polys : List (Polynomial K)) (solution : Solution K) : Prop :=
  ∀ z, Fraction.Matches z solution → ∀ p ∈ polys, p.value z = 0

/-- A system of polynomials in unknowns alone. -/
structure Closed (unknowns : List Symbol) (polys : List (Polynomial K)) : Prop where
  units : ∀ s ∈ unknowns, s.isUnit = false
  within : ∀ p ∈ polys, p.Within (· ∈ unknowns)

/-- A treatment of such systems that invents no zeros. -/
def Truthful (next : Continuation K) : Prop :=
  ∀ unknowns polys, Closed unknowns polys → Yields (Every (Genuine polys)) (next unknowns polys)

theorem Closed.subset {fewer : List (Polynomial K)} (h : Closed unknowns polys)
    (hsubset : ∀ p ∈ fewer, p ∈ polys) : Closed unknowns fewer :=
  ⟨h.units, fun p hp => h.within p (hsubset p hp)⟩

/-- Every polynomial of the system that is not zero is active. -/
theorem Closed.mem_active {active : List (Polynomial K)} (h : Closed unknowns polys)
    (hstanding : standing unknowns polys = .active active) {p : Polynomial K} (hp : p ∈ polys)
    (hne : p.isZero = false) : p ∈ active := by
  have hleft : p ∈ polys.filter (fun p => !p.isZero) :=
    List.mem_filter.2 ⟨hp, by simpa using hne⟩
  unfold standing at hstanding
  dsimp only at hstanding
  split at hstanding
  · cases hstanding
  rename_i hfree
  split at hstanding
  · cases hstanding
  · cases hstanding
    refine List.mem_filter.2 ⟨hleft, ?_⟩
    by_contra hnone
    have hempty : unknownsAmong unknowns p = [] := by simpa using hnone
    -- without unknowns it would be a number, and the system inconsistent
    refine hfree (List.any_eq_true.2 ⟨p, List.mem_filter.2 ⟨hleft, by rw [hempty]; rfl⟩, ?_⟩)
    refine List.all_eq_true.2 fun s hs => ?_
    obtain ⟨m, hm, hget⟩ := Polynomial.mem_symbols.1 hs
    exact absurd hget (fun hget => no_symbols (h.within p hp) hempty m hm s hget)

omit [ExactScalar K] in
theorem isZero_eq_false {p : Polynomial K} (h : symbol ∈ p.symbols) : p.isZero = false := by
  obtain ⟨m, hm, _⟩ := Polynomial.mem_symbols.1 h
  by_contra hzero
  have hnil : p.terms = [] := List.isEmpty_iff.1 (Bool.of_not_eq_false hzero)
  rw [hnil] at hm
  cases hm

section Replacing

variable {z : Symbol → K} {value : Fraction K}

theorem matches_of_insert {solution : Solution K} (hfresh : solution.find? symbol = none)
    (h : Fraction.Matches z (solution.insert symbol value)) :
    Fraction.Matches z solution ∧ value.HasValue z (z symbol) := by
  refine ⟨fun other found hfound => h other found ?_, h symbol value ?_⟩
  · rw [SortedMap.find?_insert, if_neg]
    · exact hfound
    · rintro rfl
      rw [hfresh] at hfound
      cases hfound
  · rw [SortedMap.find?_insert, if_pos rfl]

/-- Where a replacement has the value of the symbol, a polynomial vanishes if the reduced one does,
without a tolerance. -/
theorem value_of_reduce (hvalue : value.HasValue z (z symbol)) {p q : Polynomial K}
    (hp : p.All Powers.Natural) (h : reduce 0 (.single symbol value) p = .ok q)
    (hq : q.value z = 0) : p.value z = 0 := by
  obtain ⟨a, ha, haValue⟩ := Fraction.hasValue_subst (Fraction.matches_single hvalue)
    (Fraction.hasValue_ofPolynomial (hp.imp (fun _ he => he.definedAt z)))
  unfold reduce at h
  rw [ha, except_ok_bind] at h
  dsimp only at h
  have hnum : a.num.value z = 0 := by
    split at h
    · -- a number is taken for zero only if it is zero
      rename_i hsmall
      simp only [Bool.and_eq_true, decide_eq_true_eq, zero_mul, ExactScalar.scalar_abs] at hsmall
      obtain ⟨⟨_, hfree⟩, hle⟩ := hsmall
      have hnone := Polynomial.isSymbolFree_iff.1 (Bool.and_eq_true_iff.1 hfree).1
      rw [Polynomial.value_of_no_symbols hnone]
      exact abs_nonpos_iff.1 hle
    · cases h
      exact hq
  have heq := haValue.eq
  rw [hnum] at heq
  exact (mul_eq_zero.1 heq.symm).resolve_right haValue.den_ne

/-- The polynomials of a system vanish where the reduced ones do. -/
theorem values_of_reduced (h : Closed unknowns rest) (hvalue : value.HasValue z (z symbol))
    {reduced : List (Polynomial K)}
    (hreduced : rest.mapM (reduce 0 (.single symbol value)) = .ok reduced)
    (hzero : ∀ q ∈ reduced, q.value z = 0) : ∀ p ∈ rest, p.value z = 0 := by
  intro p hp
  obtain ⟨q, hq, hpq⟩ := except_mapM_image hreduced p hp
  exact value_of_reduce hvalue (h.within p hp).natural hpq (hzero q hq)

theorem Closed.reduced (h : Closed unknowns rest)
    (hvalue : value.Within (fun s => s ∈ unknowns ∧ s ≠ symbol)) {tolerance : K}
    {reduced : List (Polynomial K)}
    (hreduced : rest.mapM (reduce tolerance (.single symbol value)) = .ok reduced) :
    Closed (unknowns.filter (· ≠ symbol)) reduced := by
  refine ⟨fun s hs => h.units s (mem_of_mem_others hs), fun q hq => ?_⟩
  obtain ⟨p, hp, hpq⟩ := except_mapM_mem hreduced q hq
  exact within_reduce hvalue (h.within p hp) hpq

/-- A polynomial vanishes at all points that a completed solution describes, if it does so at those
at which the value that completes it is defined. -/
theorem value_of_completed {solution : Solution K} (hsymbol : symbol ∈ unknowns)
    (hunit : symbol.isUnit = false)
    (hcandidate : CandidateFor (unknowns.filter (· ≠ symbol)) solution)
    (hsolved : SolvedForm (fun s => True ∧ s ≠ symbol) solution)
    (hvalue : value.Within (fun s => s ∈ unknowns ∧ s ≠ symbol)) {a result : Fraction K}
    (hsubst : value.subst solution = .ok a) (hcanonical : a.canonical = .ok result)
    {q : Polynomial K} (hq : q.All Powers.Natural)
    (h : ∀ w, Fraction.Matches w solution → value.HasValue w (w symbol) → q.value w = 0)
    (hz : Fraction.Matches z (solution.insert symbol result)) : q.value z = 0 := by
  have hover : value.Over (fun s => True ∧ s ≠ symbol) :=
    hvalue.over.imp fun _ hs => ⟨trivial, hs.2⟩
  have hcompleted : SolvedForm (fun _ => True) (solution.insert symbol result) :=
    hsolved.insert hunit ((hsolved.subst hover hsubst).canonical hcanonical)
  have hmade : CandidateFor unknowns (solution.insert symbol result) :=
    hcandidate.insert (fun _ => mem_of_mem_others) hsymbol (Fraction.made_make hcanonical)
  have hfresh := hcandidate.find?_eq_none (not_mem_others unknowns symbol)
  -- the value is defined where the denominator does not vanish after the substitution
  have hsubst' := hsubst
  unfold Fraction.subst at hsubst'
  obtain ⟨num, _, hsubst'⟩ := except_bind_eq_ok.1 hsubst'
  obtain ⟨den, hden, hdiv⟩ := except_bind_eq_ok.1 hsubst'
  have hne : den.num.isZero = false := by
    unfold Fraction.div at hdiv
    split at hdiv
    · cases hdiv
    · rename_i hne
      simpa using hne
  have hdenOver : den.Over (fun s => (solution.insert symbol result).find? s = none) := by
    refine Fraction.over_substPolynomial (fun s found hfound => ?_) ?_ hden
    · refine (hsolved s found hfound).2.imp fun other hother => ?_
      rw [SortedMap.find?_insert, if_neg (Ne.symm hother.1.2)]
      exact hother.2
    · refine hvalue.den_over.imp fun _ he s hs hnone => ?_
      rw [SortedMap.find?_insert, if_neg (Ne.symm (he s hs).2)]
      exact hnone
  refine Fraction.value_eq_zero_of_generic (fun s found hfound =>
      (hmade s found hfound).2.within ((hcompleted s found hfound).2.imp fun _ hs => hs.2)) hz
    ((Fraction.made_substPolynomial hden).within hdenOver).num hne hq (fun w hw hguard => ?_)
  obtain ⟨hmatches, hresult⟩ := matches_of_insert hfresh hw
  refine h w hmatches ?_
  have hdenNe : value.den.value w ≠ 0 := by
    obtain ⟨den', hden', hdenValue⟩ :=
      Fraction.hasValue_substPolynomial hmatches (hvalue.defined (z := w)).2
    rw [hden] at hden'
    cases hden'
    intro hzero
    rw [hdenValue.eq, hzero, zero_mul] at hguard
    exact hguard rfl
  have hdefined := hvalue.hasValue hdenNe
  obtain ⟨b, hb, hbValue⟩ := Fraction.hasValue_subst hmatches hdefined
  rw [hsubst] at hb
  cases hb
  obtain ⟨c, hc, hcValue⟩ := Fraction.hasValue_canonical hbValue
  rw [hcanonical] at hc
  cases hc
  rw [hresult.unique hcValue]
  exact hdefined

/-- The value of an expressed symbol solves its equation wherever it is defined, also where the
slope vanishes. -/
theorem value_of_quotient {P : Symbol → Prop} {slope offset : Polynomial K}
    (hslope : slope.Within P)
    (hoffset : offset.Within P)
    (hdiv : (Fraction.ofPolynomial (-offset)).div (.ofPolynomial slope) = .ok value) {x : K}
    (hx : value.HasValue z x) : offset.value z + x * slope.value z = 0 := by
  have hwithin : value.Within P := Fraction.within_div
    (Fraction.within_ofPolynomial (Polynomial.all_mapCoeffs hoffset.over _)).over
    (Fraction.within_ofPolynomial hslope.over).over hdiv
  have hne : slope.isZero = false := by
    by_contra hzero
    exact not_div_zero (by simpa using hzero) hdiv
  have hmul {p q : Polynomial K} (hp : p.All Powers.Natural) (hq : q.All Powers.Natural) :
      (p * q).All Powers.Natural := Polynomial.all_mul (fun _ _ => Powers.Natural.mul) hp hq
  have hvalues {p q : Polynomial K} (hp : p.All Powers.Natural) (hq : q.All Powers.Natural)
      (w : Symbol → K) : (p * q).value w = p.value w * q.value w :=
    Polynomial.value_mul (hp.imp fun _ he => he.definedAt w) (hq.imp fun _ he => he.definedAt w)
  -- numerators and denominators agree crosswise, first where the slope does not vanish
  have hcross : (offset * value.den + value.num * slope).value z = 0 := by
    have hguard : slope.Within (fun s => (∅ : Solution K).find? s = none) :=
      ⟨hslope.proper, hslope.natural, fun _ _ _ _ => rfl⟩
    refine Fraction.value_eq_zero_of_generic (fun _ _ hnone => by cases hnone)
      (fun _ _ hnone => by cases hnone) hguard hne
      (Polynomial.all_add (hmul hoffset.natural hwithin.den_natural)
        (hmul hwithin.num_natural hslope.natural)) (fun w _ hw => ?_)
    have hnum : (Fraction.ofPolynomial (-offset)).HasValue w (-offset.value w) := by
      rw [← Polynomial.value_neg]
      exact Fraction.hasValue_ofPolynomial
        ((Polynomial.all_mapCoeffs hoffset.natural _).imp fun _ he => he.definedAt w)
    obtain ⟨v, hv, hvalue⟩ := Fraction.hasValue_div hnum
      (Fraction.hasValue_ofPolynomial (hslope.natural.imp fun _ he => he.definedAt w)) hw
    rw [hdiv] at hv
    cases hv
    rw [Polynomial.value_add, hvalues hoffset.natural hwithin.den_natural,
      hvalues hwithin.num_natural hslope.natural, hvalue.eq]
    field_simp
    ring
  rw [Polynomial.value_add, hvalues hoffset.natural hwithin.den_natural,
    hvalues hwithin.num_natural hslope.natural, hx.eq] at hcross
  have hproduct : value.den.value z * (offset.value z + x * slope.value z) = 0 := by
    linear_combination hcross
  exact (mul_eq_zero.1 hproduct).resolve_left hx.den_ne

end Replacing

section Rounds

variable {next : Continuation K} {p : Polynomial K}

/-- Splitting on roots of a polynomial invents no zero. -/
theorem genuine_splitOn (hnext : Truthful next) (hconfined : Confined next)
    (h : Closed unknowns rest) (values : List (Fraction K))
    (hvalues : ∀ value ∈ values, value.Within (fun s => s ∈ unknowns ∧ s ≠ symbol))
    (hroots : ∀ value ∈ values, ∀ z, value.HasValue z (z symbol) → p.value z = 0) :
    Yields (Every (Genuine (p :: rest))) (splitOn 0 next unknowns symbol rest values []) := by
  refine every_splitOn values (fun value hvalue reduced hreduced => ?_) (List.forall_mem_nil _)
  refine ((hnext _ reduced (h.reduced (hvalues value hvalue) hreduced)).and
    (hconfined _ reduced)).imp fun result hresult => ?_
  refine (hresult.1.and (among_iff.1 hresult.2)).imp fun solution hsolution z hz => ?_
  obtain ⟨hmatches, hsymbol⟩ :=
    matches_of_insert (hsolution.2.find?_eq_none (not_mem_others unknowns symbol)) hz
  exact List.forall_mem_cons.2 ⟨hroots value hvalue z hsymbol,
    values_of_reduced h hsymbol hreduced (hsolution.1 z hmatches)⟩

/-- Putting in the value of a symbol invents no zero, if the value solves a polynomial wherever it
is defined. -/
theorem genuine_substitute (hnext : Truthful next) (hconfined : Confined next)
    (hshaping : Shaping next) (h : Closed unknowns rest) (hsymbol : symbol ∈ unknowns)
    {value : Fraction K} (hvalue : value.Within (fun s => s ∈ unknowns ∧ s ≠ symbol))
    (hp : p.All Powers.Natural) (hzero : ∀ z, value.HasValue z (z symbol) → p.value z = 0) :
    Yields (Every (Genuine (p :: rest))) (substitute 0 next unknowns symbol value rest) := by
  have hsetting : Setting (fun _ => True) unknowns symbol rest :=
    ⟨fun _ _ => trivial, h.units, h.units symbol hsymbol, fun _ _ _ _ _ _ => trivial⟩
  refine every_substitute fun reduced hreduced => ?_
  refine (((hnext _ reduced (h.reduced hvalue hreduced)).and (hconfined _ reduced)).and
    (hsetting.yields_next hshaping (hvalue.over.imp fun _ hs => ⟨trivial, hs.2⟩) hreduced)).imp
    fun result hresult => ?_
  refine ((hresult.1.1.and (among_iff.1 hresult.1.2)).and hresult.2).imp
    fun solution hsolution a completed hsubst hcanonical z hz => ?_
  obtain ⟨⟨hgenuine, hcandidate⟩, hsolved, _⟩ := hsolution
  -- a polynomial that vanishes where the value is defined vanishes everywhere on the solution
  have hextend {q : Polynomial K} (hq : q.All Powers.Natural) (hall : ∀ w,
      Fraction.Matches w solution → value.HasValue w (w symbol) → q.value w = 0) : q.value z = 0 :=
    value_of_completed hsymbol hsetting.symbol hcandidate hsolved hvalue hsubst hcanonical hq
      hall hz
  refine List.forall_mem_cons.2 ⟨hextend hp fun w _ hw => hzero w hw, fun q hq => ?_⟩
  exact hextend (h.within q hq).natural fun w hmatches hw =>
    values_of_reduced h hw hreduced (hgenuine w hmatches) q hq

theorem genuine_expressOn (hnext : Truthful next) (hconfined : Confined next)
    (hshaping : Shaping next) (h : Closed unknowns rest) (hsymbol : symbol ∈ unknowns)
    (hp : p.Within (· ∈ unknowns)) {slope offset : Polynomial K}
    (hparts : p.splitBy symbol = .ok [offset, slope]) :
    Yields (Every (Genuine (p :: rest)))
      (expressOn 0 next unknowns symbol slope offset rest) := by
  have hwithin := Polynomial.within_splitBy hp hparts
  have hslope := hwithin slope (by simp)
  have hoffset := hwithin offset (by simp)
  have hvalue (z : Symbol → K) : p.value z = offset.value z + z symbol * slope.value z := by
    rw [← Polynomial.value_splitBy hp.natural hparts z]
    simp
  refine every_expressOn (fun value hdiv => ?_) (fun _ => ?_)
  · have hquotient : value.Within (fun s => s ∈ unknowns ∧ s ≠ symbol) := Fraction.within_div
      (Fraction.within_ofPolynomial (Polynomial.all_mapCoeffs hoffset.over _)).over
      (Fraction.within_ofPolynomial hslope.over).over hdiv
    exact genuine_substitute hnext hconfined hshaping h hsymbol hquotient hp.natural fun z hz =>
      (hvalue z).trans (value_of_quotient hslope hoffset hdiv hz)
  · have hwiden {c : Polynomial K} (hc : c.Within (fun s => s ∈ unknowns ∧ s ≠ symbol)) :
        c.Within (· ∈ unknowns) :=
      ⟨hc.proper, hc.natural, hc.over.imp fun _ he s hs => (he s hs).1⟩
    have hclosed : Closed unknowns (rest ++ [slope, offset]) :=
      ⟨h.units, List.forall_mem_append.2 ⟨h.within, List.forall_mem_cons.2 ⟨hwiden hslope,
        List.forall_mem_singleton.2 (hwiden hoffset)⟩⟩⟩
    refine (hnext unknowns _ hclosed).imp fun _ hresult =>
      hresult.imp fun solution hsolution z hz => ?_
    obtain ⟨hrest, hboth⟩ := List.forall_mem_append.1 (hsolution z hz)
    obtain ⟨hslopeZero, hoffsetZero⟩ := List.forall_mem_cons.1 hboth
    refine List.forall_mem_cons.2 ⟨?_, hrest⟩
    rw [hvalue, hslopeZero, List.forall_mem_singleton.1 hoffsetZero, mul_zero, add_zero]

/-- The values of a split are numbers, and roots of the polynomial that is used up. -/
theorem Chosen.splits {active : List (Polynomial K)} {numerics : Numerics K}
    {settings : SolverSettings K} {index : Nat} {values : List (Fraction K)}
    (hmove : Chosen numerics settings unknowns active (.split index symbol values))
    (hroots : ExactScalar.HasRoots K) (hfinds : RealRoots.FindsExactly numerics settings)
    (h : Closed unknowns active) (hactive : ∀ p ∈ active, p.isZero = false) :
    ∃ p, active[index]? = some p ∧ ∀ value ∈ values,
      value.Within (fun s => s ∈ unknowns ∧ s ≠ symbol) ∧
        ∀ z, value.HasValue z (z symbol) → p.value z = 0 := by
  cases hmove with
  | @purePower p _ _ _ hp honly hvalues =>
      have hwithin := within_only (h.within p (List.mem_of_getElem? hp)) honly
      refine ⟨p, hp, fun value hvalue =>
        ⟨PurePower.within_roots _ hwithin hvalues value hvalue, ?_⟩⟩
      exact fun z hz => PurePower.value_of_roots hroots hwithin hvalues hvalue hz
  | @univariate p _ _ parts hp honly _ hparts =>
      have hmem := List.mem_of_getElem? hp
      have hwithin := within_symbol (h.within p hmem) honly
      refine ⟨p, hp, fun value hvalue => ?_⟩
      obtain ⟨root, hroot, rfl⟩ := List.mem_map.1 hvalue
      refine ⟨Fraction.within_const _ root, fun z hz => ?_⟩
      have hcoeffs := Polynomial.exists_coefficient hwithin (hactive p hmem) hparts
      rw [← value_of_coefficients hwithin hparts z, hz.unique (Fraction.hasValue_const z root)]
      exact (hfinds _ hcoeffs root).1 hroot

/-- Elimination without a search invents no zero. -/
theorem truthful_eliminate (hroots : ExactScalar.HasRoots K) {numerics : Numerics K}
    {settings : SolverSettings K} (hfinds : RealRoots.FindsExactly numerics settings)
    (hresidual : settings.residualTolerance = 0) (rounds : Nat) :
    Truthful (eliminate Solver.refuse numerics settings rounds) := by
  have hconfined (rounds : Nat) : Confined (eliminate Solver.refuse numerics settings rounds) :=
    confined_eliminate (fun _ _ => .throw _) numerics settings rounds
  have hshaping (rounds : Nat) : Shaping (eliminate Solver.refuse numerics settings rounds) :=
    shaping_eliminate (fun _ _ _ _ _ _ => .throw _) numerics settings rounds
  have hall {unknowns : List Symbol} {polys active : List (Polynomial K)} {index : Nat}
      {p : Polynomial K} (h : Closed unknowns polys)
      (hstanding : standing unknowns polys = .active active) (hp : active[index]? = some p)
      (solution : Solution K) (hsolution : Genuine (p :: others index active) solution) :
      Genuine polys solution := by
    intro z hz q hq
    cases hzero : q.isZero with
    | true => exact Polynomial.value_of_isZero hzero z
    | false =>
        rcases eq_or_mem_others hp (h.mem_active hstanding hq hzero) with rfl | hother
        · exact hsolution z hz q List.mem_cons_self
        · exact hsolution z hz q (List.mem_cons_of_mem _ hother)
  refine yields_eliminate Closed (fun _ polys => Every (Genuine polys)) ?_ ?_ ?_ ?_ ?_ ?_ rounds
  · exact fun _ _ _ _ => trivial
  · intro unknowns polys _ hstanding
    exact List.forall_mem_singleton.2 fun z _ p hp =>
      Polynomial.value_of_isZero (standing_settled hstanding p hp) z
  · exact fun _ _ => trivial
  · intro rounds hnext unknowns polys active index symbol values h hstanding hmove
    have hactive := (standing_active hstanding).1
    have hclosed := h.subset fun p hp => (hactive p hp).1
    obtain ⟨p, hp, hvalues⟩ := hmove.splits hroots hfinds hclosed fun p hp => by
      obtain ⟨_, s, _, hs⟩ := hactive p hp
      exact isZero_eq_false hs
    rw [hresidual]
    refine (genuine_splitOn hnext (hconfined rounds)
      (hclosed.subset fun q hq => List.mem_of_mem_eraseIdx hq) values
      (fun value hvalue => (hvalues value hvalue).1)
      (fun value hvalue => (hvalues value hvalue).2)).imp fun _ hresult => ?_
    exact hresult.imp (hall h hstanding hp)
  · intro rounds hnext unknowns polys active index symbol slope offset h hstanding hmove
    have hactive := (standing_active hstanding).1
    have hclosed := h.subset fun p hp => (hactive p hp).1
    rw [hresidual]
    cases hmove with
    | @linear p _ _ _ _ hp hsymbol hparts =>
        refine (genuine_expressOn hnext (hconfined rounds) (hshaping rounds)
          (hclosed.subset fun q hq => List.mem_of_mem_eraseIdx hq) (mem_unknownsAmong.1 hsymbol).2
          (hclosed.within p (List.mem_of_getElem? hp)) hparts).imp fun _ hresult => ?_
        exact hresult.imp (hall h hstanding hp)
  · exact fun _ _ _ _ _ => .throw _

end Rounds

def comesToSearch (numerics : Numerics K) (settings : SolverSettings K) (rounds : Nat)
    (unknowns : List Symbol) (polys : List (Polynomial K)) : Bool :=
  match (outcome (eliminate Solver.refuse numerics settings rounds unknowns polys)
    (Solver.start 0)).1 with
  | .error .stepsExhausted => true
  | _ => false

/-- An elimination that does not come to a search ends as it does where a search is refused. -/
theorem run_of_not_comesToSearch {numerics : Numerics K} {settings : SolverSettings K}
    {rounds : Nat}
    (hsearch : comesToSearch numerics settings rounds unknowns polys = false)
    {state after : SolverState} {result : Elimination K}
    (hrun : outcome (eliminate (search numerics settings) numerics settings rounds unknowns polys)
      state = (.ok result, after)) :
    ∃ last, outcome (eliminate Solver.refuse numerics settings rounds unknowns polys)
      (Solver.start 0) = (.ok result, last) := by
  rcases Solver.lockstep_eliminate (fun _ _ _ _ _ => trivial)
    (Solver.lockstep_refuse (search numerics settings)) numerics settings settings.verbose rounds
    unknowns polys (Solver.start 0) state trivial with ⟨failure, hout, rfl⟩ | ⟨hsame, _⟩
  · unfold comesToSearch at hsearch
    rw [hout] at hsearch
    cases hsearch
  · rw [hrun] at hsame
    rcases hrefused : outcome (eliminate Solver.refuse numerics settings rounds unknowns polys)
      (Solver.start 0) with ⟨ended, last⟩
    rw [hrefused] at hsame
    exact ⟨last, congrArg (·, last) hsame.symm⟩

/-- An elimination that does not come to a search describes all common zeros, and nothing else. -/
theorem eliminate_describes_the_zeros (hroots : ExactScalar.HasRoots K) {numerics : Numerics K}
    {settings : SolverSettings K} (hfinds : RealRoots.FindsExactly numerics settings)
    (hresidual : settings.residualTolerance = 0) (hunits : ∀ s ∈ unknowns, s.isUnit = false)
    (hpolys : ∀ p ∈ polys, p.Within (· ∈ unknowns)) {rounds : Nat}
    (hsearch : comesToSearch numerics settings rounds unknowns polys = false)
    {state after : SolverState} {result : Elimination K}
    (hrun : outcome (eliminate (search numerics settings) numerics settings rounds unknowns polys)
      state = (.ok result, after)) :
    (result = .inconsistent → ¬∃ z : Symbol → K, ∀ p ∈ polys, p.value z = 0) ∧
      ∀ solutions, result = .solved solutions → ∀ z : Symbol → K,
        (∀ p ∈ polys, p.value z = 0) ↔
          ∃ solution ∈ solutions, ∀ key value, solution.find? key = some value →
            value.HasValue z (z key) := by
  obtain ⟨last, hrefused⟩ := run_of_not_comesToSearch hsearch hrun
  have hcovers (z : Symbol → K) (hz : ∀ p ∈ polys, p.value z = 0) : Covers z result :=
    keeps_eliminate (fun _ _ _ => .throw _) (fun coeffs hcoeffs x => (hfinds coeffs hcoeffs x).2)
      rounds unknowns polys ⟨hunits, hpolys, hz⟩ _ result last hrefused
  refine ⟨?_, ?_⟩
  · rintro rfl ⟨z, hz⟩
    exact hcovers z hz
  · rintro solutions rfl z
    refine ⟨fun hz => ?_, ?_⟩
    · obtain ⟨solution, hmem, hdescribes⟩ := hcovers z hz
      exact ⟨solution, hmem, fun key value hfind => (hdescribes key value hfind).1⟩
    · rintro ⟨solution, hmem, hmatches⟩
      exact truthful_eliminate hroots hfinds hresidual rounds unknowns polys ⟨hunits, hpolys⟩ _ _
        last hrefused solution hmem z hmatches

section Instances

def width : Symbol := ⟨"x", false⟩

def height : Symbol := ⟨"y", false⟩

def area : Polynomial K :=
  ⟨[⟨1, (Powers.single width 1).mul (Powers.single height 1)⟩], List.pairwise_singleton _ _⟩

theorem within_area : (area : Polynomial K).Within (· ∈ [width, height]) where
  proper := List.forall_mem_singleton.2 one_ne_zero
  natural := List.forall_mem_singleton.2
    ((Fraction.natural_single width).mul (Fraction.natural_single height))
  «over» := by
    have hover : ((Powers.single width 1).mul (Powers.single height 1)).Over
        (· ∈ [width, height]) := by decide
    exact List.forall_mem_singleton.2 hover

theorem within_height : (.ofSymbol height : Polynomial K).Within (· = height) where
  proper := List.forall_mem_singleton.2 one_ne_zero
  natural := List.forall_mem_singleton.2 (Fraction.natural_single height)
  «over» := by
    have hover : (Powers.single height 1).Over (· = height) := by decide
    exact List.forall_mem_singleton.2 hover

theorem splitBy_area :
    (area : Polynomial K).splitBy width = .ok [0, .ofSymbol height] ∧
      (area : Polynomial K).splitBy height = .ok [0, .ofSymbol width] := by
  have hslope (symbol other : Symbol)
      (hterms : ((area : Polynomial K).terms.filter
        (fun m => m.degree symbol == ((1 : Nat) : Int))).map
          (fun m => (⟨m.coeff, m.exponents.erase symbol⟩ : Monomial K)) = [.ofSymbol other]) :
      (area : Polynomial K).coefficient symbol 1 = .ofSymbol other := by
    apply Polynomial.ext
    unfold Polynomial.coefficient
    rw [hterms]
    exact Polynomial.terms_ofTerms (List.forall_mem_singleton.2 one_ne_zero)
      (List.pairwise_singleton _ _)
  rw [Polynomial.splitBy_eq within_area.natural, Polynomial.splitBy_eq within_area.natural]
  refine ⟨?_, ?_⟩
  · rw [← hslope width height rfl]
    rfl
  · rw [← hslope height width rfl]
    rfl

/-- No unknown of the product has a number for its slope, and the first one is expressed. -/
theorem chooseMove_area (numerics : Numerics K) (settings : SolverSettings K) :
    chooseMove numerics settings [width, height] [area] =
      pure (.express 0 width (.ofSymbol height) 0) := by
  have hunknowns : unknownsAmong [width, height] (area : Polynomial K) = [width, height] := rfl
  obtain ⟨hwidth, hheight⟩ := splitBy_area (K := K)
  have hpower : purePowerMove [width, height] [(area : Polynomial K)] = .ok none := rfl
  have hsingle : univariate [width, height] [(area : Polynomial K)] = .ok none := rfl
  have hnumeric : linearMove true [width, height] [(area : Polynomial K)] = .ok none := by
    simp only [linearMove, List.zipIdx_cons, List.zipIdx_nil, List.findSomeM?, hunknowns, hwidth,
      hheight]
    rfl
  have hlinear : linearMove false [width, height] [(area : Polynomial K)] =
      .ok (some (.express 0 width (.ofSymbol height) 0)) := by
    simp only [linearMove, List.zipIdx_cons, List.zipIdx_nil, List.findSomeM?, hunknowns, hwidth]
    rfl
  unfold chooseMove
  rw [hpower, hsingle, hnumeric, hlinear]
  rfl

/-- If the slope vanishes, the second unknown is zero. -/
theorem chooseMove_height (numerics : Numerics K) (settings : SolverSettings K) :
    chooseMove numerics settings [width, height] [.ofSymbol height] =
      pure (.split 0 height [.const 0]) := by
  have hone : (Polynomial.ofSymbol height : Polynomial K).coefficient height 1 = 1 := by
    apply Polynomial.ext
    exact Polynomial.terms_ofTerms (List.forall_mem_singleton.2 one_ne_zero)
      (List.pairwise_singleton _ _)
  have hsplit : (Polynomial.ofSymbol height : Polynomial K).splitBy height = .ok [0, 1] := by
    rw [Polynomial.splitBy_eq within_height.natural, ← hone]
    rfl
  have hroots : PurePower.roots (.ofSymbol height : Polynomial K) height =
      .ok (some [.const 0]) := by
    unfold PurePower.roots PurePower.split
    rw [hsplit]
    rfl
  have hpower : purePowerMove [width, height] [(.ofSymbol height : Polynomial K)] =
      .ok (some (.split 0 height [.const 0])) := by
    have hunknowns : unknownsAmong [width, height] (.ofSymbol height : Polynomial K) = [height] :=
      rfl
    simp only [purePowerMove, List.zipIdx_cons, List.zipIdx_nil, List.findSomeM?, hunknowns, hroots]
    rfl
  unfold chooseMove
  rw [hpower]
  rfl

/-- Nothing divided by an unknown is zero. -/
theorem quotient_area :
    (Fraction.ofPolynomial (-(0 : Polynomial K))).div (.ofPolynomial (.ofSymbol height)) =
      .ok .zero := by
  have hproper := (within_height (K := K)).proper
  have hne : ¬(⟨.ofSymbol height, 1⟩ : Fraction K).num.isZero = true := fun hzero => by cases hzero
  have hden : (Fraction.ofPolynomial (-(0 : Polynomial K))).den = 1 := rfl
  rw [Fraction.ofPolynomial_eq hproper within_height.natural]
  unfold Fraction.div
  rw [if_neg hne]
  dsimp only
  rw [hden, Polynomial.one_mul_eq hproper]
  unfold Fraction.make
  rw [Fraction.collected_eq hproper]
  rfl

section Run

variable (fallback : Continuation K) (numerics : Numerics K) (settings : SolverSettings K)

/-- In the regular case the first unknown is zero. -/
theorem substitute_area :
    substitute settings.residualTolerance (eliminate fallback numerics settings 1) [width, height]
      width .zero [] = (pure (.solved [.single width .zero]) : SolverAction K (Elimination K)) := by
  have hreduced : (Fraction.zero : Fraction K).Reduced :=
    Fraction.reduced_over_one (List.forall_mem_nil _) (List.forall_mem_nil _)
  have hsubst : (Fraction.zero : Fraction K).subst ∅ = .ok .zero :=
    hreduced.subst_of_disjoint ⟨List.forall_mem_nil _, fun _ _ _ _ => rfl⟩
  have hcomplete : complete width (.zero : Fraction K) [∅] = .ok [.single width .zero] := by
    unfold complete
    rw [hsubst, except_ok_bind, hreduced.canonical]
    rfl
  have hothers : [width, height].filter (· ≠ width) = [height] := rfl
  have hreduce : [].mapM (reduce settings.residualTolerance (.single width (.zero : Fraction K))) =
      .ok [] := rfl
  have hstop : eliminate fallback numerics settings 1 [height] [] = pure (.solved [∅]) := rfl
  unfold substitute
  rw [hreduce, hothers]
  change (pure [] >>= fun reduced =>
    eliminate fallback numerics settings 1 [height] reduced >>= _) = _
  rw [pure_bind, hstop, pure_bind]
  dsimp only
  rw [hcomplete]
  rfl

theorem eliminate_area (state : SolverState) :
    outcome (eliminate fallback numerics settings 2 [width, height] [area]) state =
      (.ok (.solved [.single width .zero, .single height (.const 0)]), state) := by
  have hvanishing : eliminate fallback numerics settings 1 [width, height] [.ofSymbol height, 0] =
      pure (.solved [.single height (.const 0)]) := by
    have hstanding : standing [width, height] [(.ofSymbol height : Polynomial K), 0] =
        .active [.ofSymbol height] := rfl
    unfold eliminate
    rw [hstanding]
    dsimp only
    rw [chooseMove_height]
    rfl
  have hstanding : standing [width, height] [(area : Polynomial K)] = .active [area] := rfl
  have hcan : ¬((Polynomial.ofSymbol height : Polynomial K).isSymbolFree ||
      (Polynomial.ofSymbol height : Polynomial K).isQuantity) = true := fun h => by cases h
  unfold eliminate
  rw [hstanding]
  dsimp only
  rw [chooseMove_area]
  change outcome (expressOn _ _ _ _ _ _ []) _ = _
  unfold expressOn
  rw [quotient_area]
  change outcome (pure _ >>= fun value => substitute _ _ _ _ value _ >>= _) _ = _
  rw [pure_bind, substitute_area, pure_bind, if_neg hcan]
  change outcome (eliminate fallback numerics settings 1 [width, height] [.ofSymbol height, 0] >>=
    fun vanishing => pure (either _ vanishing)) _ = _
  rw [hvanishing, pure_bind]
  rfl

end Run

/-- A product of real numbers is zero where one of them is, and nowhere else. -/
theorem zeros_of_area_are_described :
    let numerics : Numerics ℝ := RealRoots.exactNumerics
    let settings := RealNumbers.settings
    let solutions : List (Solution ℝ) := [.single width .zero, .single height (.const 0)]
    outcome (eliminate (search numerics settings) numerics settings 2 [width, height] [area])
      (Solver.start 42) = (.ok (.solved solutions), Solver.start 42) ∧
    ∀ z : Symbol → ℝ, (∀ p ∈ [area], p.value z = 0) ↔
      ∃ solution ∈ solutions, ∀ key value, solution.find? key = some value →
        value.HasValue z (z key) := by
  intro numerics settings solutions
  have hsettings : settings.Exact := ⟨rfl, rfl, rfl, rfl⟩
  have hrun := eliminate_area (search numerics settings) numerics settings (Solver.start 42)
  have hsearch : comesToSearch numerics settings 2 [width, height] [area] = false := by
    unfold comesToSearch
    rw [eliminate_area]
  exact ⟨hrun, (eliminate_describes_the_zeros RealNumbers.hasRoots
    (RealRoots.exactNumerics_findsExactly hsettings) rfl (by decide)
    (List.forall_mem_singleton.2 within_area) hsearch hrun).2 _ rfl⟩

end Instances

end Elimination

end Ramify
