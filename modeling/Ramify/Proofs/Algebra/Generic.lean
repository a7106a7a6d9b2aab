import Mathlib.Algebra.CharZero.Infinite
import Mathlib.Algebra.MvPolynomial.Funext
import Mathlib.Algebra.MvPolynomial.NoZeroDivisors
import Ramify.Proofs.Algebra.Normal
import Ramify.Proofs.Algebra.Substitution

/-!
Generic points. A polynomial that is not zero takes a value other than zero somewhere, and there is
a point at which any number of such polynomials do. So what holds wherever some denominators do not
vanish holds everywhere, also among the points that a solution describes: these are given by the
symbols to which the solution gives no value.
-/

namespace Ramify

variable {K : Type}

namespace Polynomial

section Algebraic

variable [ExactField K]

/-- The exponents of a product of powers; negative ones are left out. -/
noncomputable def exponentsOf (exponents : Exponents) : Symbol →₀ ℕ :=
  Finsupp.onFinset exponents.support (fun symbol => (exponents.get symbol).toNat) (by
    intro symbol hne
    rw [Powers.mem_support]
    rintro hzero
    exact hne (by rw [hzero]; rfl))

/-- The polynomial of abstract algebra with the same terms. -/
noncomputable def algebraic (p : Polynomial K) : MvPolynomial Symbol K :=
  (p.terms.map (fun m => MvPolynomial.monomial (exponentsOf m.exponents) m.coeff)).sum

theorem eval_algebraic {p : Polynomial K} (hp : p.All Powers.Natural) (z : Symbol → K) :
    MvPolynomial.eval z p.algebraic = p.value z := by
  unfold algebraic value
  rw [map_list_sum, List.map_map]
  congr 1
  apply List.map_congr_left
  intro m hm
  rw [Function.comp_apply, MvPolynomial.eval_monomial, exponentsOf,
    Finsupp.onFinset_prod _ (fun symbol => pow_zero (z symbol))]
  unfold Monomial.value
  rw [Powers.value_eq_prod z m.exponents.support (fun symbol => Powers.mem_support.2)]
  congr 1
  apply Finset.prod_congr rfl
  intro symbol _
  have hcast : m.exponents.get symbol = ((m.exponents.get symbol).toNat : Int) :=
    (Int.toNat_of_nonneg (hp m hm symbol)).symm
  rw [hcast, zpow_natCast, Int.toNat_natCast]

theorem algebraic_ne_zero {p : Polynomial K} (hproper : p.Proper) (hp : p.All Powers.Natural)
    (hne : p.isZero = false) : p.algebraic ≠ 0 := by
  cases hterms : p.terms with
  | nil =>
      unfold isZero at hne
      rw [hterms] at hne
      cases hne
  | cons first rest =>
      have hfirst : first ∈ p.terms := hterms ▸ List.mem_cons_self
      -- no other term has the exponents of the first one
      have hothers : ∀ m ∈ rest, exponentsOf m.exponents ≠ exponentsOf first.exponents := by
        intro m hm hsame
        have hmem : m ∈ p.terms := hterms ▸ List.mem_cons_of_mem first hm
        have hexponents : first.exponents = m.exponents := by
          apply Powers.ext_get
          intro symbol
          have hget : (m.exponents.get symbol).toNat = (first.exponents.get symbol).toNat :=
            DFunLike.congr_fun hsame symbol
          have hnonneg := hp m hmem symbol
          have hnonneg' := hp first hfirst symbol
          omega
        have hnodup := nodup_exponents p.increasing
        rw [hterms, List.map_cons, List.nodup_cons] at hnodup
        exact hnodup.1 (hexponents ▸ List.mem_map.2 ⟨m, hm, rfl⟩)
      have hcoeff : MvPolynomial.coeff (exponentsOf first.exponents) p.algebraic = first.coeff := by
        unfold algebraic
        rw [hterms, List.map_cons, List.sum_cons, MvPolynomial.coeff_add,
          MvPolynomial.coeff_monomial, if_pos rfl]
        have hrest : MvPolynomial.coeff (exponentsOf first.exponents) (rest.map (fun m =>
            MvPolynomial.monomial (exponentsOf m.exponents) m.coeff)).sum = 0 := by
          clear hterms
          induction rest with
          | nil => exact MvPolynomial.coeff_zero _
          | cons m rest ih =>
              rw [List.map_cons, List.sum_cons, MvPolynomial.coeff_add,
                MvPolynomial.coeff_monomial, if_neg (hothers m List.mem_cons_self), zero_add]
              exact ih (fun n hn => hothers n (List.mem_cons_of_mem m hn))
        rw [hrest, add_zero]
      intro hzero
      rw [hzero, MvPolynomial.coeff_zero] at hcoeff
      exact hproper first hfirst hcoeff.symm

/-- A polynomial over an infinite field that is not written as zero does not vanish everywhere. -/
theorem exists_value_ne_zero [Infinite K] {p : Polynomial K} (hproper : p.Proper)
    (hp : p.All Powers.Natural) (hne : p.isZero = false) : ∃ z, p.value z ≠ 0 := by
  by_contra hnone
  apply algebraic_ne_zero hproper hp hne
  apply MvPolynomial.funext
  intro z
  rw [eval_algebraic hp, map_zero]
  by_contra hvalue
  exact hnone ⟨z, hvalue⟩

/-- What vanishes wherever none of some other polynomials does vanishes everywhere. -/
theorem value_eq_zero_of_guarded [Infinite K] {p : Polynomial K} (hp : p.All Powers.Natural)
    (guards : List (Polynomial K))
    (hguards : ∀ g ∈ guards, g.All Powers.Natural ∧ ∃ w, g.value w ≠ 0)
    (h : ∀ w, (∀ g ∈ guards, g.value w ≠ 0) → p.value w = 0) (z : Symbol → K) :
    p.value z = 0 := by
  have hproduct : p.algebraic * (guards.map algebraic).prod = 0 := by
    apply MvPolynomial.funext
    intro w
    rw [map_mul, map_list_prod, map_zero, eval_algebraic hp, mul_eq_zero]
    by_cases hall : ∀ g ∈ guards, g.value w ≠ 0
    · exact Or.inl (h w hall)
    · right
      simp only [not_forall, not_not] at hall
      obtain ⟨g, hg, hzero⟩ := hall
      rw [List.prod_eq_zero_iff, List.map_map]
      exact List.mem_map.2 ⟨g, hg, (eval_algebraic (hguards g hg).1 w).trans hzero⟩
  rcases mul_eq_zero.1 hproduct with hzero | hzero
  · rw [← eval_algebraic hp, hzero, map_zero]
  · obtain ⟨g, hg, hnone⟩ := List.mem_map.1 (List.prod_eq_zero_iff.1 hzero)
    obtain ⟨hnatural, w, hw⟩ := hguards g hg
    rw [← eval_algebraic hnatural, hnone, map_zero] at hw
    exact absurd rfl hw

end Algebraic

end Polynomial

namespace Fraction

variable [ExactScalar K]

/-- A fraction in normal form has a value wherever its denominator does not vanish. -/
theorem Within.hasValue {P : Symbol → Prop} {a : Fraction K} (h : a.Within P) {z : Symbol → K}
    (hne : a.den.value z ≠ 0) : a.HasValue z (a.num.value z / a.den.value z) where
  num_defined := h.defined.1
  den_defined := h.defined.2
  den_ne := hne
  eq := (div_mul_cancel₀ _ hne).symm

section Completion

variable {replacements : SortedMap Symbol (Fraction K)}

/-- The point with the values of some replacements, and otherwise like a given one. -/
def completed (replacements : SortedMap Symbol (Fraction K)) (w : Symbol → K)
    (symbol : Symbol) : K :=
  match replacements.find? symbol with
  | some value => value.num.value w / value.den.value w
  | none => w symbol

theorem completed_of_none {w : Symbol → K} {symbol : Symbol}
    (h : replacements.find? symbol = none) : completed replacements w symbol = w symbol := by
  unfold completed
  rw [h]

/-- Wherever the replacements are defined, they match the point that they complete. -/
theorem matches_completed (hsolved : ∀ symbol value, replacements.find? symbol = some value →
      value.Within (fun other => replacements.find? other = none)) {w : Symbol → K}
    (hdefined : ∀ entry ∈ replacements.entries, entry.2.den.value w ≠ 0) :
    Matches (completed replacements w) replacements := by
  intro symbol value hfind
  have hwithin := hsolved symbol value hfind
  have hsame {p : Polynomial K} (hp : p.All (Powers.Over
      (fun other => replacements.find? other = none))) :
      p.value (completed replacements w) = p.value w :=
    Polynomial.value_congr hp fun _ hnone => completed_of_none hnone
  have hne := hdefined (symbol, value) ((SortedMap.mem_entries_iff _ _).2 hfind)
  have hvalue := hwithin.hasValue (z := completed replacements w)
    (by rw [hsame hwithin.den_over]; exact hne)
  have hpoint : completed replacements w symbol = value.num.value w / value.den.value w := by
    unfold completed
    rw [hfind]
  rw [hsame hwithin.num_over, hsame hwithin.den_over, ← hpoint] at hvalue
  exact hvalue

/-- A polynomial vanishes at all points that replacements match if it does so at those of them at
which some other polynomial, in the symbols that are not replaced, does not vanish. -/
theorem value_eq_zero_of_generic {z : Symbol → K} (hsolved : ∀ symbol value,
      replacements.find? symbol = some value →
        value.Within (fun other => replacements.find? other = none))
    (hz : Matches z replacements) {guard : Polynomial K}
    (hguard : guard.Within (fun other => replacements.find? other = none))
    (hne : guard.isZero = false) {q : Polynomial K} (hq : q.All Powers.Natural)
    (h : ∀ w, Matches w replacements → guard.value w ≠ 0 → q.value w = 0) : q.value z = 0 := by
  have : Infinite K := CharZero.infinite K
  have hpoly (w : Symbol → K) : (ofPolynomial q).HasValue w (q.value w) :=
    hasValue_ofPolynomial (hq.imp (fun _ he => he.definedAt w))
  obtain ⟨r, hr, hrz⟩ := hasValue_subst hz (hpoly z)
  have hwithin : r.Within (fun other => replacements.find? other = none) :=
    within_subst (fun symbol value hfind => (hsolved symbol value hfind).over)
      ⟨fun _ _ _ _ hnone => hnone, fun _ _ _ _ hnone => hnone⟩ hr
  -- the numerator after the substitution is a polynomial in the symbols that are free
  have hnum : r.num.value z = 0 := by
    refine Polynomial.value_eq_zero_of_guarded hwithin.num_natural
      (guard :: replacements.entries.map (fun entry => entry.2.den)) ?_ ?_ z
    · refine List.forall_mem_cons.2 ⟨⟨hguard.natural,
        Polynomial.exists_value_ne_zero hguard.proper hguard.natural hne⟩, ?_⟩
      intro den hden
      obtain ⟨entry, hentry, rfl⟩ := List.mem_map.1 hden
      have hfind := (SortedMap.mem_entries_iff _ entry).1 hentry
      exact ⟨(hsolved entry.1 entry.2 hfind).den_natural, z, (hz entry.1 entry.2 hfind).den_ne⟩
    · intro w hw
      obtain ⟨hguardValue, hdens⟩ := List.forall_mem_cons.1 hw
      have hmatches := matches_completed hsolved (w := w)
        (fun entry hentry => hdens _ (List.mem_map.2 ⟨entry, hentry, rfl⟩))
      have hsame {p : Polynomial K} (hp : p.All (Powers.Over
          (fun other => replacements.find? other = none))) :
          p.value (completed replacements w) = p.value w :=
        Polynomial.value_congr hp fun _ hnone => completed_of_none hnone
      have hzero := h _ hmatches (by rw [hsame hguard.over]; exact hguardValue)
      obtain ⟨r', hr', hvalue⟩ := hasValue_subst hmatches (hpoly (completed replacements w))
      rw [hr] at hr'
      cases hr'
      rw [← hsame hwithin.num_over, hvalue.eq, hzero, zero_mul]
  have heq := hrz.eq
  rw [hnum] at heq
  exact (mul_eq_zero.1 heq.symm).resolve_right hrz.den_ne

end Completion

end Fraction

end Ramify
