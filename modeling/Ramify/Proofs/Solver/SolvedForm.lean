import Ramify.Proofs.Algebra.Symbols
import Ramify.Proofs.Solver.Candidates

/-!
Solved form. A candidate is in solved form if nothing that it gives a value to occurs in any of its
values, so that there is nothing left to replace once it has been substituted. Elimination builds
candidates from the inside out: the symbol of a move is gone from all polynomials of the rounds
within, so it does not occur in what they find, and what they give values to is replaced in its own
value. This holds over whatever type of numbers, and whether or not it comes to a search.
-/

namespace Ramify

variable {K : Type} [Scalar K]

/-- A candidate that gives values to unknowns; of the symbols with a property, those that it gives
no value to may occur in the values. -/
def SolvedForm (P : Symbol → Prop) (candidate : Solution K) : Prop :=
  ∀ symbol value, candidate.find? symbol = some value →
    symbol.isUnit = false ∧ value.Over (fun other => P other ∧ candidate.find? other = none)

namespace SolvedForm

variable {P : Symbol → Prop} {candidate : Solution K}

omit [Scalar K] in
theorem empty (P : Symbol → Prop) : SolvedForm P (∅ : Solution K) := by
  intro symbol value h
  cases h

omit [Scalar K] in
theorem units_free (h : SolvedForm P candidate) {symbol : Symbol} (hunit : symbol.isUnit = true) :
    candidate.find? symbol = none := by
  cases hfind : candidate.find? symbol with
  | none => rfl
  | some value => rw [(h symbol value hfind).1] at hunit; cases hunit

omit [Scalar K] in
/-- A candidate without a symbol is completed by a value for it in which nothing occurs that has a
value. -/
theorem insert {symbol : Symbol} (h : SolvedForm (fun s => P s ∧ s ≠ symbol) candidate)
    (hsymbol : symbol.isUnit = false) {value : Fraction K}
    (hvalue : value.Over (fun s => (P s ∧ s ≠ symbol) ∧ candidate.find? s = none)) :
    SolvedForm P (candidate.insert symbol value) := by
  have hfree (s : Symbol) (hs : (P s ∧ s ≠ symbol) ∧ candidate.find? s = none) :
      P s ∧ (candidate.insert symbol value).find? s = none := by
    refine ⟨hs.1.1, ?_⟩
    rw [SortedMap.find?_insert, if_neg (Ne.symm hs.1.2)]
    exact hs.2
  intro other found hfound
  rw [SortedMap.find?_insert] at hfound
  split at hfound
  · rename_i hsame
    cases hfound
    exact ⟨hsame ▸ hsymbol, hvalue.imp hfree⟩
  · obtain ⟨hunit, hover⟩ := h other found hfound
    exact ⟨hunit, hover.imp hfree⟩

omit [Scalar K] in
/-- A quantity can always be put in. -/
theorem insert_quantity {symbol : Symbol} (h : SolvedForm (fun s => P s ∧ s ≠ symbol) candidate)
    (hsymbol : symbol.isUnit = false) (hunits : ∀ s, s.isUnit = true → P s) {value : Fraction K}
    (hvalue : value.Over (fun s => s.isUnit = true)) :
    SolvedForm P (candidate.insert symbol value) := by
  refine h.insert hsymbol (hvalue.imp fun s hs => ⟨⟨hunits s hs, ?_⟩, h.units_free hs⟩)
  rintro rfl
  rw [hsymbol] at hs
  cases hs

/-- What has a value is gone after the substitution. -/
theorem subst (h : SolvedForm P candidate) {a b : Fraction K} (ha : a.Over P)
    (hsubst : a.subst candidate = .ok b) :
    b.Over (fun s => P s ∧ candidate.find? s = none) :=
  Fraction.Over.subst (fun symbol value hfind => (h symbol value hfind).2)
    (ha.imp fun _ hs hnone => ⟨hs, hnone⟩) hsubst

end SolvedForm

section Symbols

variable {P : Symbol → Prop} {symbol : Symbol}

/-- The coefficients of the powers of a symbol do not mention it. -/
theorem Polynomial.over_splitBy {p : Polynomial K} (hp : p.All (Powers.Over P))
    {coeffs : List (Polynomial K)} (h : p.splitBy symbol = .ok coeffs) :
    ∀ c ∈ coeffs, c.All (Powers.Over (fun s => P s ∧ s ≠ symbol)) := by
  unfold splitBy at h
  split at h
  · cases h
  · cases h
    intro c hc
    obtain ⟨k, _, rfl⟩ := List.mem_map.1 hc
    apply all_ofTerms
    intro m hm s hs
    obtain ⟨n, hn, rfl⟩ := List.mem_map.1 hm
    change (n.exponents.erase symbol).get s ≠ 0 at hs
    rw [Powers.get_erase] at hs
    split at hs
    · exact absurd rfl hs
    · rename_i hne
      exact ⟨hp n (List.mem_filter.1 hn).1 s hs, Ne.symm hne⟩

/-- A symbol is gone from a polynomial in which it has been replaced. -/
theorem Elimination.over_reduce {value : Fraction K}
    (hvalue : value.Over (fun s => P s ∧ s ≠ symbol)) {tolerance : K} {p q : Polynomial K}
    (hp : p.All (Powers.Over P)) (h : reduce tolerance (.single symbol value) p = .ok q) :
    q.All (Powers.Over (fun s => P s ∧ s ≠ symbol)) := by
  unfold reduce at h
  obtain ⟨a, ha, h⟩ := except_bind_eq_ok.1 h
  have hover : a.Over (fun s => P s ∧ s ≠ symbol) := by
    refine Fraction.Over.subst ?_ ((Fraction.over_ofPolynomial hp).imp ?_) ha
    · intro other found hfound
      rw [SortedMap.find?_single] at hfound
      split at hfound
      · cases hfound
        exact hvalue
      · cases hfound
    · intro s hs hnone
      refine ⟨hs, ?_⟩
      rintro rfl
      rw [SortedMap.find?_single, if_pos rfl] at hnone
      cases hnone
  dsimp only at h
  split at h
  · cases h
    exact List.forall_mem_nil _
  · cases h
    exact hover.1

end Symbols

namespace PurePower

abbrev UnitsOnly (exponents : Exponents) : Prop := exponents.Over (fun s => s.isUnit = true)

theorem unitsOnly_raise {exponents : Exponents} (h : UnitsOnly exponents) {symbol : Symbol}
    (hunit : symbol.isUnit = true) (power : Int) : UnitsOnly (exponents.raise symbol power) := by
  intro s hs
  rw [Powers.get_raise] at hs
  by_cases hsame : symbol = s
  · exact hsame ▸ hunit
  · rw [if_neg hsame] at hs
    exact h s (by simpa using hs)

theorem unitsOnly_set {exponents : Exponents} (h : UnitsOnly exponents) {symbol : Symbol}
    (hunit : symbol.isUnit = true) (power : Int) : UnitsOnly (exponents.set symbol power) := by
  intro s hs
  rw [Powers.get_set] at hs
  split at hs
  · rename_i hsame
    exact hsame ▸ hunit
  · exact h s hs

theorem unitsOnly_entry {exponents : Exponents} (h : UnitsOnly exponents) {entry : Symbol × Int}
    (hentry : entry ∈ exponents.entries) : entry.1.isUnit = true := by
  obtain ⟨hget, hne⟩ := (Powers.mem_entries_iff exponents entry).1 hentry
  exact h entry.1 (hget ▸ hne)

/-- Over the base dimensions there are still unit tags only. -/
theorem unitsOnly_overBase {exponents : Exponents} (h : UnitsOnly exponents) :
    UnitsOnly (overBase exponents : K × Exponents).2 := by
  unfold overBase
  refine List.foldlRecOn (motive := fun acc : K × Exponents => UnitsOnly acc.2) _ _
    (Fraction.over_empty _) (fun acc hacc entry hentry => ?_)
  have hunit := unitsOnly_entry h hentry
  split
  · exact unitsOnly_raise hacc hunit entry.2
  · refine List.foldlRecOn (motive := UnitsOnly) _ _ hacc (fun powers hpowers base _ => ?_)
    exact unitsOnly_raise hpowers rfl _

theorem unitsOnly_rootPart {exponents : Exponents} (h : UnitsOnly exponents) (degree : Nat)
    (positive : Bool) : UnitsOnly (rootPart degree exponents positive : Monomial K).exponents := by
  unfold rootPart
  refine List.foldlRecOn (motive := UnitsOnly) _ _ (Fraction.over_empty _)
    (fun acc hacc entry hentry => ?_)
  split
  · exact unitsOnly_set hacc (unitsOnly_entry h hentry) _
  · exact hacc

theorem units_rootsOf {degree : Nat} {ratio : K} {exponents : Exponents} (h : UnitsOnly exponents)
    {values : List (Fraction K)} (hroots : rootsOf degree ratio exponents = .ok values) :
    ∀ value ∈ values, value.Over (fun s => s.isUnit = true) := by
  unfold rootsOf at hroots
  obtain ⟨unit, hunit, hroots⟩ := except_bind_eq_ok.1 hroots
  have hover : unit.Over (fun s => s.isUnit = true) :=
    Fraction.over_make (Polynomial.all_ofMonomial (unitsOnly_rootPart h degree true))
      (Polynomial.all_ofMonomial (unitsOnly_rootPart h degree false)) hunit
  have hmul {x : K} {a : Fraction K} (ha : (Fraction.const x).mul unit = .ok a) :
      a.Over (fun s => s.isUnit = true) := (Fraction.over_const _ x).mul hover ha
  split at hroots
  · split at hroots
    · cases hroots
      exact List.forall_mem_nil _
    · obtain ⟨left, hleft, hroots⟩ := except_bind_eq_ok.1 hroots
      obtain ⟨right, hright, hroots⟩ := except_bind_eq_ok.1 hroots
      cases hroots
      exact List.forall_mem_cons.2 ⟨hmul hleft, List.forall_mem_singleton.2 (hmul hright)⟩
  · obtain ⟨root, hroot, hroots⟩ := except_bind_eq_ok.1 hroots
    cases hroots
    exact List.forall_mem_singleton.2 (hmul hroot)

omit [Scalar K] in
theorem unitsOnly_of_isQuantity {p : Polynomial K} (h : p.isQuantity = true) {m : Monomial K}
    (hm : m ∈ p.terms) : UnitsOnly m.exponents := by
  intro s hs
  exact List.all_eq_true.1 h s (Polynomial.mem_symbols.2 ⟨m, hm, hs⟩)

/-- The two terms of a pure power are quantities, apart from the power. -/
theorem units_split {p : Polynomial K} {symbol : Symbol} {degree : Nat} {a : Monomial K}
    {b : Option (Monomial K)} (h : split p symbol = .ok (some (degree, a, b))) :
    UnitsOnly a.exponents ∧ ∀ m ∈ b, UnitsOnly m.exponents := by
  unfold split at h
  obtain ⟨coeffs, _, h⟩ := except_bind_eq_ok.1 h
  split at h
  · cases h
  · cases h
  · rename_i offset higher _
    dsimp only at h
    split at h
    · rename_i hform
      obtain ⟨hform, hoffset⟩ := Bool.and_eq_true_iff.1 hform
      obtain ⟨_, hleading⟩ := Bool.and_eq_true_iff.1 hform
      split at h
      · rename_i hterm hnone
        cases h
        refine ⟨unitsOnly_of_isQuantity hleading (hterm ▸ List.mem_singleton_self _), ?_⟩
        intro m hm
        cases hm
      · rename_i hterm hother
        cases h
        refine ⟨unitsOnly_of_isQuantity hleading (hterm ▸ List.mem_singleton_self _), ?_⟩
        intro m hm
        cases hm
        exact unitsOnly_of_isQuantity hoffset (hother ▸ List.mem_singleton_self _)
      · cases h
    · cases h

/-- The roots of a pure power are quantities. -/
theorem units_roots {p : Polynomial K} {symbol : Symbol} {values : List (Fraction K)}
    (h : roots p symbol = .ok (some values)) :
    ∀ value ∈ values, value.Over (fun s => s.isUnit = true) := by
  unfold roots at h
  obtain ⟨parts, hparts, h⟩ := except_bind_eq_ok.1 h
  split at h
  · cases h
  · cases h
    exact List.forall_mem_singleton.2 (Fraction.over_const _ 0)
  · rename_i degree a b
    obtain ⟨ha, hb⟩ := units_split hparts
    have hquotient : UnitsOnly (b.exponents.div a.exponents) := by
      intro s hs
      rw [Powers.get_div] at hs
      by_cases hzero : b.exponents.get s = 0
      · exact ha s (fun hnone => hs (by rw [hzero, hnone, sub_zero]))
      · exact hb b rfl s hzero
    have hlast (ratio : K) {exponents : Exponents} (hunits : UnitsOnly exponents)
        (h : (if divisible degree exponents then some <$> rootsOf degree ratio exponents
          else pure none) = .ok (some values)) :
        ∀ value ∈ values, value.Over (fun s => s.isUnit = true) := by
      split at h
      · cases hroots : rootsOf degree ratio exponents with
        | error cause =>
            rw [hroots] at h
            cases h
        | ok found =>
            rw [hroots] at h
            cases h
            exact units_rootsOf hunits hroots
      · cases h
    dsimp only at h
    by_cases hwhole : divisible degree (b.exponents.div a.exponents) = true
    · rw [if_pos hwhole] at h
      exact hlast _ hquotient h
    · rw [if_neg hwhole] at h
      exact hlast _ (unitsOnly_overBase hquotient) h

end PurePower

namespace Elimination

variable {P : Symbol → Prop} {unknowns : List Symbol} {active : List (Polynomial K)}

/-- The solutions of an elimination are in solved form, and under a condition none is empty. -/
def Shaped (P : Symbol → Prop) (nonempty : Prop) : Elimination K → Prop :=
  Every fun solution => SolvedForm P solution ∧ (nonempty → solution.isEmpty = false)

/-- A treatment of systems whose solutions are in solved form; if an unknown occurs somewhere, none
of them is empty. -/
def Shaping (next : Continuation K) : Prop :=
  ∀ (P : Symbol → Prop) unknowns polys, (∀ s, s.isUnit = true → P s) →
    (∀ s ∈ unknowns, s.isUnit = false) → (∀ p ∈ polys, p.All (Powers.Over P)) →
    Yields (Shaped P (∃ p ∈ polys, p.isQuantity = false)) (next unknowns polys)

/-- A move that brings no symbol in. -/
def Clean (P : Symbol → Prop) (unknowns : List Symbol) : Move K → Prop
  | .split _ symbol values =>
    symbol ∈ unknowns ∧ ∀ value ∈ values, value.Over (fun s => s.isUnit = true)
  | .express _ symbol slope offset =>
    symbol ∈ unknowns ∧ slope.All (Powers.Over (fun s => P s ∧ s ≠ symbol)) ∧
      offset.All (Powers.Over (fun s => P s ∧ s ≠ symbol))
  | .search => True

omit [Scalar K] in
theorem Shaped.imp {condition weaker : Prop} {result : Elimination K}
    (h : Shaped P condition result) (himp : weaker → condition) : Shaped P weaker result :=
  Every.imp h fun _ hsolution => ⟨hsolution.1, fun hweaker => hsolution.2 (himp hweaker)⟩

theorem Chosen.clean {numerics : Numerics K} {settings : SolverSettings K} {move : Move K}
    (h : Chosen numerics settings unknowns active move)
    (hactive : ∀ p ∈ active, p.All (Powers.Over P)) : Clean P unknowns move := by
  cases h with
  | purePower hp honly hroots => exact ⟨mem_of_only honly, PurePower.units_roots hroots⟩
  | univariate hp honly hsymbol hparts =>
      refine ⟨hsymbol, fun value hvalue => ?_⟩
      obtain ⟨root, _, rfl⟩ := List.mem_map.1 hvalue
      exact Fraction.over_const _ root
  | linear hp hsymbol hparts =>
      have hover := Polynomial.over_splitBy (hactive _ (List.mem_of_getElem? hp)) hparts
      exact ⟨(mem_unknownsAmong.1 hsymbol).2, hover _ (by simp), hover _ (by simp)⟩
  | search => trivial

section Standing

variable {polys : List (Polynomial K)}

omit [Scalar K] in
/-- If nothing is left to do and nothing is unclear, all polynomials are zero. -/
theorem standing_settled (h : standing unknowns polys = .settled false) :
    ∀ p ∈ polys, p.isZero = true := by
  unfold standing at h
  dsimp only at h
  split at h
  · cases h
  split at h
  · rename_i hactive
    have hfree : (polys.filter (fun p => !p.isZero)).filter
        (fun p => (unknownsAmong unknowns p).isEmpty) = [] := by
      simpa using h
    intro p hp
    by_contra hzero
    -- a polynomial with terms would be left over, with unknowns or without
    have hleft : p ∈ polys.filter (fun p => !p.isZero) :=
      List.mem_filter.2 ⟨hp, by simpa using hzero⟩
    have hsome := List.filter_eq_nil_iff.1 hfree p hleft
    have hnone := List.filter_eq_nil_iff.1 hactive p hleft
    simp only [Bool.not_eq_true', Bool.not_eq_false] at hnone
    exact hsome hnone
  · cases h

omit [Scalar K] in
theorem isQuantity_of_isZero {p : Polynomial K} (h : p.isZero = true) : p.isQuantity = true := by
  unfold Polynomial.isQuantity Polynomial.symbols
  rw [List.isEmpty_iff.1 h]
  rfl

omit [Scalar K] in
/-- The polynomials that are active belong to the system, and unknowns occur in them. -/
theorem standing_active (h : standing unknowns polys = .active active) :
    (∀ p ∈ active, p ∈ polys ∧ ∃ s ∈ unknowns, s ∈ p.symbols) ∧ active ≠ [] := by
  unfold standing at h
  dsimp only at h
  split at h
  · cases h
  split at h
  · cases h
  · rename_i found hfound hne
    cases h
    refine ⟨fun p hp => ?_, fun hnil => hne hnil⟩
    obtain ⟨hp, hsome⟩ := List.mem_filter.1 hp
    refine ⟨(List.mem_filter.1 hp).1, ?_⟩
    obtain ⟨s, hs⟩ := List.exists_mem_of_ne_nil _ (by simpa using hsome)
    exact ⟨s, (mem_unknownsAmong.1 hs).2, (mem_unknownsAmong.1 hs).1⟩

omit [Scalar K] in
theorem isQuantity_eq_false {p : Polynomial K} {symbol : Symbol} (hmem : symbol ∈ p.symbols)
    (hunit : symbol.isUnit = false) : p.isQuantity = false := by
  unfold Polynomial.isQuantity
  rw [List.all_eq_false]
  exact ⟨symbol, hmem, by simp [hunit]⟩

end Standing

/-- What a search finds are numbers for all symbols that there are. -/
theorem shaping_search (numerics : Numerics K) (settings : SolverSettings K) :
    Shaping (search numerics settings) := by
  intro P unknowns active hunits hunknowns hactive
  unfold search
  dsimp only
  split
  · exact .pure trivial
  rename_i hpresent
  split
  · exact .pure trivial
  refine Yields.bind (keys_searchPoints numerics settings _ _ (List.forall_mem_nil _))
    (fun found hfound => ?_)
  have hsolved : Shaped P (∃ p ∈ active, p.isQuantity = false) (.solved
      ((found.foldl (fun acc point => insertPoint point acc) []).map
        (fun point => point.mapValues Fraction.const))) := by
    intro solution hsolution
    obtain ⟨point, hpoint, rfl⟩ := List.mem_map.1 hsolution
    have hkeys := hfound point ((mem_sorted hpoint).resolve_right List.not_mem_nil)
    refine ⟨fun symbol value hvalue => ?_, fun hunclear => ?_⟩
    · obtain ⟨⟨key, x⟩, hentry, hsame⟩ :=
        List.mem_map.1 ((SortedMap.mem_entries_iff _ (symbol, value)).2 hvalue)
      cases hsame
      refine ⟨?_, Fraction.over_const _ x⟩
      -- the search is made only if no unit tag occurs
      have hin := (hkeys key).1 (List.mem_map.2 ⟨(key, x), hentry, rfl⟩)
      by_contra hunit
      exact hpresent (List.any_eq_true.2 ⟨key, hin, by simpa using Or.inl hunit⟩)
    · obtain ⟨p, hp, hquantity⟩ := hunclear
      obtain ⟨symbol, hsymbol, _⟩ := List.all_eq_false.1 hquantity
      have hkey : symbol ∈ point.keys :=
        (hkeys symbol).2 ((mem_ascending _ _).2 (List.mem_flatMap.2 ⟨p, hp, hsymbol⟩))
      obtain ⟨entry, hentry, _⟩ := List.mem_map.1 hkey
      change (point.entries.map (fun entry => (entry.1, Fraction.const entry.2))).isEmpty = false
      rw [List.isEmpty_eq_false_iff_exists_mem]
      exact ⟨_, List.mem_map.2 ⟨entry, hentry, rfl⟩⟩
  have hend : Yields (Shaped P (∃ p ∈ active, p.isQuantity = false))
      (if found.isEmpty then pure .unknown else pure (.solved
        ((found.foldl (fun acc point => insertPoint point acc) []).map
          (fun point => point.mapValues Fraction.const))) : SolverAction K (Elimination K)) := by
    split
    · exact .pure trivial
    · exact .pure hsolved
  split
  · exact .bind (Q := fun _ => True) (fun _ _ _ _ => trivial) (fun _ _ => hend)
  · exact hend

section Rounds

variable {next : Continuation K} {symbol : Symbol} {rest : List (Polynomial K)}

/-- What is known where a symbol is eliminated: unit tags may occur, unknowns are no unit tags, and
the symbol is one of them. -/
structure Setting (P : Symbol → Prop) (unknowns : List Symbol) (symbol : Symbol)
    (rest : List (Polynomial K)) : Prop where
  units : ∀ s, s.isUnit = true → P s
  unknowns : ∀ s ∈ unknowns, s.isUnit = false
  symbol : symbol.isUnit = false
  rest : ∀ p ∈ rest, p.All (Powers.Over P)

/-- The solutions of a system in which the symbol has been replaced do not mention it. -/
theorem Setting.yields_next (h : Setting P unknowns symbol rest) (hnext : Shaping next)
    {value : Fraction K} (hvalue : value.Over (fun s => P s ∧ s ≠ symbol)) {tolerance : K}
    {reduced : List (Polynomial K)}
    (hreduced : rest.mapM (reduce tolerance (.single symbol value)) = .ok reduced) :
    Yields (Shaped (fun s => P s ∧ s ≠ symbol) (∃ p ∈ reduced, p.isQuantity = false))
      (next (unknowns.filter (· ≠ symbol)) reduced) := by
  apply hnext
  · intro s hs
    refine ⟨h.units s hs, ?_⟩
    rintro rfl
    rw [h.symbol] at hs
    cases hs
  · exact fun s hs => h.unknowns s (mem_of_mem_others hs)
  · intro q hq
    obtain ⟨p, hp, hpq⟩ := except_mapM_mem hreduced q hq
    exact over_reduce hvalue (h.rest p hp) hpq

omit [Scalar K] in
theorem Setting.of_quantity (h : Setting P unknowns symbol rest) {value : Fraction K}
    (hvalue : value.Over (fun s => s.isUnit = true)) : value.Over (fun s => P s ∧ s ≠ symbol) := by
  refine hvalue.imp fun s hs => ⟨h.units s hs, ?_⟩
  rintro rfl
  rw [h.symbol] at hs
  cases hs

theorem shaped_splitOn (h : Setting P unknowns symbol rest) (hnext : Shaping next) (tolerance : K)
    (values : List (Fraction K))
    (hvalues : ∀ value ∈ values, value.Over (fun s => s.isUnit = true)) :
    Yields (Shaped P True) (splitOn tolerance next unknowns symbol rest values []) := by
  refine every_splitOn values (fun value hvalue reduced hreduced => ?_) (List.forall_mem_nil _)
  have hover := hvalues value hvalue
  exact (h.yields_next hnext (h.of_quantity hover) hreduced).imp fun _ houtcome =>
    Every.imp houtcome fun before hbefore =>
      ⟨hbefore.1.insert_quantity h.symbol h.units hover,
        fun _ => SortedMap.isEmpty_insert before symbol value⟩

theorem shaped_substitute (h : Setting P unknowns symbol rest) (hnext : Shaping next)
    (tolerance : K) {value : Fraction K} (hvalue : value.Over (fun s => P s ∧ s ≠ symbol)) :
    Yields (Shaped P True) (substitute tolerance next unknowns symbol value rest) := by
  refine every_substitute fun reduced hreduced => ?_
  refine (h.yields_next hnext hvalue hreduced).imp fun _ houtcome =>
    Every.imp houtcome fun before hbefore a result hsubst hcanonical => ?_
  exact ⟨hbefore.1.insert h.symbol ((hbefore.1.subst hvalue hsubst).canonical hcanonical),
    fun _ => SortedMap.isEmpty_insert before symbol result⟩

/-- Where the slope can vanish an unknown occurs in it, so that case gives no empty solution
either. -/
theorem shaped_expressOn (h : Setting P unknowns symbol rest) (hnext : Shaping next)
    (tolerance : K) {slope offset : Polynomial K}
    (hslope : slope.All (Powers.Over (fun s => P s ∧ s ≠ symbol)))
    (hoffset : offset.All (Powers.Over (fun s => P s ∧ s ≠ symbol))) :
    Yields (Shaped P True) (expressOn tolerance next unknowns symbol slope offset rest) := by
  refine every_expressOn (fun value hdiv => ?_) (fun hunclear => ?_)
  · have hvalue : value.Over (fun s => P s ∧ s ≠ symbol) :=
      (Fraction.over_ofPolynomial (Polynomial.all_mapCoeffs hoffset _)).div
        (Fraction.over_ofPolynomial hslope) hdiv
    exact shaped_substitute h hnext tolerance hvalue
  · have hpolys : ∀ p ∈ rest ++ [slope, offset], p.All (Powers.Over P) := by
      intro p hp
      rcases List.mem_append.1 hp with hp | hp
      · exact h.rest p hp
      · simp only [List.mem_cons, List.not_mem_nil, or_false] at hp
        rcases hp with rfl | rfl
        · exact hslope.imp (fun _ he s hs => (he s hs).1)
        · exact hoffset.imp (fun _ he s hs => (he s hs).1)
    exact (hnext P unknowns _ h.units h.unknowns hpolys).imp fun _ hvanishing =>
      hvanishing.imp fun _ => ⟨slope, by simp, hunclear⟩

/-- Elimination gives solutions in solved form, if what takes over from it does. -/
theorem shaping_eliminate {fallback : Continuation K} (hfallback : Shaping fallback)
    (numerics : Numerics K) (settings : SolverSettings K) (rounds : Nat) :
    Shaping (eliminate fallback numerics settings rounds) := by
  have hover {P : Symbol → Prop} {unknowns : List Symbol} {polys active : List (Polynomial K)}
      (hstanding : standing unknowns polys = .active active)
      (hpolys : ∀ p ∈ polys, p.All (Powers.Over P)) : ∀ p ∈ active, p.All (Powers.Over P) :=
    fun p hp => hpolys p ((standing_active hstanding).1 p hp).1
  have hsetting {P : Symbol → Prop} {unknowns : List Symbol} {active : List (Polynomial K)}
      (hunits : ∀ s, s.isUnit = true → P s) (hunknowns : ∀ s ∈ unknowns, s.isUnit = false)
      (hactive : ∀ p ∈ active, p.All (Powers.Over P)) (index : Nat) {symbol : Symbol}
      (hsymbol : symbol ∈ unknowns) : Setting P unknowns symbol (others index active) :=
    ⟨hunits, hunknowns, hunknowns symbol hsymbol,
      fun p hp => hactive p ((List.eraseIdx_sublist _ _).subset hp)⟩
  intro P unknowns polys hunits hunknowns hpolys
  refine (yields_eliminate (fun unknowns _ => ∀ s ∈ unknowns, s.isUnit = false)
    (fun _ polys result => ∀ P : Symbol → Prop, (∀ s, s.isUnit = true → P s) →
      (∀ p ∈ polys, p.All (Powers.Over P)) → Shaped P (∃ p ∈ polys, p.isQuantity = false) result)
    ?_ ?_ ?_ ?_ ?_ ?_ rounds unknowns polys hunknowns).imp fun _ h => h P hunits hpolys
  · exact fun _ _ _ _ _ _ _ => trivial
  · intro unknowns polys _ hstanding P _ _
    refine List.forall_mem_singleton.2 ⟨.empty P, ?_⟩
    rintro ⟨p, hp, hquantity⟩
    rw [isQuantity_of_isZero (standing_settled hstanding p hp)] at hquantity
    cases hquantity
  · exact fun _ _ _ _ _ => trivial
  · intro rounds hnext unknowns polys active index symbol values hunknowns hstanding hmove
      state result
      after hrun P hunits hpolys
    have hactive := hover hstanding hpolys
    obtain ⟨hsymbol, hvalues⟩ := hmove.clean hactive
    have hshaping : Shaping (eliminate fallback numerics settings rounds) :=
      fun P unknowns polys hunits hunknowns hpolys =>
        (hnext unknowns polys hunknowns).imp fun _ h => h P hunits hpolys
    exact (shaped_splitOn (hsetting hunits hunknowns hactive index hsymbol) hshaping _ values
      hvalues
      state result after hrun).imp fun _ => trivial
  · intro rounds hnext unknowns polys active index symbol slope offset hunknowns hstanding
      hmove state
      result after hrun P hunits hpolys
    have hactive := hover hstanding hpolys
    obtain ⟨hsymbol, hslope, hoffset⟩ := hmove.clean hactive
    have hshaping : Shaping (eliminate fallback numerics settings rounds) :=
      fun P unknowns polys hunits hunknowns hpolys =>
        (hnext unknowns polys hunknowns).imp fun _ h => h P hunits hpolys
    exact (shaped_expressOn (hsetting hunits hunknowns hactive index hsymbol) hshaping _ hslope
      hoffset
      state result after hrun).imp fun _ => trivial
  · intro unknowns polys active hunknowns hstanding state result after hrun P hunits hpolys
    obtain ⟨hin, hsome⟩ := standing_active hstanding
    refine (hfallback P unknowns active hunits hunknowns (hover hstanding hpolys) state result after
      hrun).imp fun _ => ?_
    obtain ⟨p, hp⟩ := List.exists_mem_of_ne_nil _ hsome
    obtain ⟨_, s, hs, hmem⟩ := hin p hp
    exact ⟨p, hp, isQuantity_eq_false hmem (hunknowns s hs)⟩

end Rounds

end Elimination

end Ramify
