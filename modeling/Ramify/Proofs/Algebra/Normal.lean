import Ramify.Proofs.Algebra.Canonical
import Ramify.Proofs.Algebra.Coefficients
import Ramify.Proofs.Algebra.Symbols

/-!
Fractions in lowest terms. Over exact numbers, what the constructor of fractions gives is in lowest
terms: no coefficient is zero, no exponent is negative, no power is shared by all terms, and the
denominator is monic. Such a fraction is its own canonical form, and to replace symbols that do not
occur in it leaves it as it is.
-/

namespace Ramify

namespace Fraction

variable {K : Type} [ExactScalar K]

structure Reduced (a : Fraction K) : Prop where
  within : a.Within (fun _ => True)
  /-- No power of a symbol is shared by all terms. -/
  unshared : (content (a.num.terms ++ a.den.terms)).isOne = true
  den_ne : a.den.isZero = false
  zero : a.num.isZero = true → a.den = 1

section Canonical

variable {p num den : Polynomial K} {a : Fraction K}

/-- A canonical fraction is in lowest terms. -/
theorem Canonical.reduced (h : a.Canonical) : a.Reduced := by
  have hnatural (m : Monomial K) (hm : m ∈ a.num.terms ++ a.den.terms) : m.exponents.Natural :=
    fun symbol => (h.least symbol).2 ⟨m, hm, rfl⟩
  refine ⟨⟨h.num_proper, h.den_proper, fun m hm => hnatural m (List.mem_append_left _ hm),
    fun m hm => hnatural m (List.mem_append_right _ hm), fun _ _ _ _ => trivial,
    fun _ _ _ _ => trivial, h.monic⟩, ?_, h.den_ne, h.zero⟩
  rw [Powers.isOne_iff]
  intro symbol
  rw [get_content]
  obtain ⟨m, hm, hzero⟩ := (h.least symbol).1
  have hle : leastDegree symbol (a.num.terms ++ a.den.terms) ≤ m.degree symbol := leastDegree_le hm
  by_contra hne
  obtain ⟨n, hn, hattained⟩ := exists_leastDegree hne
  have hge : 0 ≤ n.degree symbol := hnatural n hn symbol
  omega

/-- A fraction in lowest terms is canonical. -/
theorem Reduced.toCanonical (h : a.Reduced) : a.Canonical where
  num_proper := h.within.num_proper
  den_proper := h.within.den_proper
  den_ne := h.den_ne
  zero := h.zero
  monic := h.within.monic
  least symbol := by
    have hzero : leastDegree symbol (a.num.terms ++ a.den.terms) = 0 := by
      rw [← get_content]
      exact (Powers.isOne_iff _).1 h.unshared symbol
    constructor
    · rw [← hzero]
      apply exists_leastDegree_of_ne_nil
      intro hnil
      have hden := h.den_ne
      rw [Polynomial.isZero, (List.append_eq_nil_iff.1 hnil).2] at hden
      cases hden
    · rintro d ⟨m, hm, rfl⟩
      rw [← hzero]
      exact leastDegree_le hm

/-- A fraction in lowest terms is its own canonical form. -/
theorem Reduced.canonical (h : a.Reduced) : a.canonical = .ok a := h.toCanonical.canonical_eq

/-- A polynomial over one is in lowest terms. -/
theorem reduced_over_one (hproper : p.Proper) (hnatural : p.All Powers.Natural) :
    (⟨p, 1⟩ : Fraction K).Reduced := (canonical_over_one hproper hnatural).reduced

theorem make_over_one (hproper : p.Proper) (hnatural : p.All Powers.Natural) :
    make p 1 = .ok ⟨p, 1⟩ := (canonical_over_one hproper hnatural).canonical_eq

theorem reduced_const (x : K) : (const x).Reduced := (canonical_const x).reduced

theorem reduced_ofSymbol (symbol : Symbol) : (ofSymbol symbol : Fraction K).Reduced :=
  (canonical_ofSymbol symbol).reduced

/-- What the constructor gives is in lowest terms. -/
theorem reduced_make (h : make num den = .ok a) : a.Reduced := (canonical_make h).reduced

/-- A quotient is what the constructor gives. -/
theorem reduced_div {b c : Fraction K} (h : a.div b = .ok c) : c.Reduced := by
  unfold div at h
  split at h
  · cases h
  · exact reduced_make h

end Canonical

section Substitution

variable {p : Polynomial K} {replacements : SortedMap Symbol (Fraction K)}

omit [ExactScalar K] in
/-- Powers that are written one by one are the product of them. -/
private theorem foldl_set_entries (exponents : Exponents) :
    exponents.entries.foldl (fun (acc : Exponents) entry => acc.set entry.1 entry.2) ∅ =
      exponents := by
  have hentries : exponents.entries =
      exponents.map.keys.map (fun symbol => (symbol, exponents.get symbol)) := by
    change exponents.entries = (exponents.entries.map Prod.fst).map _
    rw [List.map_map, eq_comm]
    conv_rhs => rw [← List.map_id exponents.entries]
    refine List.map_congr_left fun entry hentry => Prod.ext rfl ?_
    exact ((Powers.mem_entries_iff exponents entry).1 hentry).1
  rw [hentries, List.foldl_map]
  apply Powers.ext_get
  intro symbol
  rw [get_foldl_set exponents.get]
  split
  · rfl
  · rename_i hnone
    rw [Powers.mem_keys_iff, not_not] at hnone
    rw [hnone, Powers.get_one]

omit [ExactScalar K] in
private theorem foldlM_substPower [Scalar K] {entries : List (Symbol × Int)}
    (h : ∀ entry ∈ entries, replacements.find? entry.1 = none) (kept : Monomial K)
    (replaced : Fraction K) :
    entries.foldlM (substPower replacements) (kept, replaced) =
      .ok (⟨kept.coeff, entries.foldl (fun acc entry => acc.set entry.1 entry.2) kept.exponents⟩,
        replaced) := by
  induction entries generalizing kept with
  | nil => rfl
  | cons entry rest ih =>
      have hstep : substPower replacements (kept, replaced) entry =
          .ok (⟨kept.coeff, kept.exponents.set entry.1 entry.2⟩, replaced) := by
        unfold substPower
        rw [h entry List.mem_cons_self]
        rfl
      rw [List.foldlM_cons, hstep, except_ok_bind, List.foldl_cons]
      exact ih (fun other hother => h other (List.mem_cons_of_mem _ hother)) _

/-- A term in which nothing is replaced stays. -/
theorem substTerm_of_disjoint {m : Monomial K}
    (h : m.exponents.Over (fun symbol => replacements.find? symbol = none)) :
    substTerm m replacements = .ok (m, const 1) := by
  unfold substTerm
  rw [foldlM_substPower]
  · change Except.ok ((⟨m.coeff, m.exponents.entries.foldl _ ∅⟩ : Monomial K), _) = _
    rw [foldl_set_entries]
  · intro entry hentry
    obtain ⟨hget, hne⟩ := (Powers.mem_entries_iff m.exponents entry).1 hentry
    exact h entry.1 (hget ▸ hne)

theorem ofPolynomial_eq (hproper : p.Proper) (hnatural : p.All Powers.Natural) :
    ofPolynomial p = ⟨p, 1⟩ := by
  have hmake := make_over_one hproper hnatural
  unfold make at hmake
  rw [collected_eq proper_one] at hmake
  exact Except.ok.inj hmake

/-- A term in which nothing is replaced is added as it is. -/
private theorem addSubst_of_disjoint {before after : Polynomial K} {m : Monomial K}
    (hm : m.exponents.Over (fun symbol => replacements.find? symbol = none))
    (hcoeff : m.coeff ≠ 0) (hbefore : before.Proper) (hafter : after.Proper)
    (hnatural : after.All Powers.Natural) (hterms : after.terms = before.terms ++ [m]) :
    addSubst replacements ⟨before, 1⟩ m = .ok ⟨after, 1⟩ := by
  have hone : (const 1 : Fraction K) = ⟨1, 1⟩ := by
    unfold const Polynomial.const Polynomial.ofMonomial
    rw [if_neg (by simp [Monomial.const])]
    rfl
  have hterm : (Polynomial.ofMonomial m).terms = [m] := by
    unfold Polynomial.ofMonomial
    rw [if_neg (by simpa using hcoeff)]
  have hproper : (Polynomial.ofMonomial m).Proper := by
    intro n hn
    rw [hterm, List.mem_singleton] at hn
    exact hn ▸ hcoeff
  have hnatural' : (Polynomial.ofMonomial m).All Powers.Natural :=
    Polynomial.all_ofMonomial (hnatural m (by simp [hterms]))
  have hproduct : (const 1).mul (ofMonomial m) = .ok ⟨Polynomial.ofMonomial m, 1⟩ := by
    unfold ofMonomial Fraction.mul
    rw [ofPolynomial_eq hproper hnatural', hone]
    dsimp only
    rw [Polynomial.one_mul_eq hproper, Polynomial.one_mul_eq proper_one]
    exact make_over_one hproper hnatural'
  have hsum : before + Polynomial.ofMonomial m = after := by
    change Polynomial.ofTerms (before.terms ++ (Polynomial.ofMonomial m).terms) = after
    rw [hterm, ← hterms]
    exact Polynomial.ofTerms_terms hafter
  unfold addSubst
  rw [substTerm_of_disjoint hm, except_ok_bind]
  dsimp only
  rw [hproduct, except_ok_bind]
  unfold Fraction.add
  dsimp only
  rw [Polynomial.mul_one_eq hbefore, Polynomial.mul_one_eq hproper, hsum,
    Polynomial.mul_one_eq proper_one]
  exact make_over_one hafter hnatural

/-- Where nothing is replaced, a polynomial is built up again term by term. -/
theorem substPolynomial_of_disjoint (hproper : p.Proper) (hnatural : p.All Powers.Natural)
    (h : p.All (Powers.Over (fun symbol => replacements.find? symbol = none))) :
    substPolynomial p replacements = .ok ⟨p, 1⟩ := by
  have hzero : (const 0 : Fraction K) = ⟨Polynomial.ofTerms [], 1⟩ := by
    unfold const Polynomial.const Polynomial.ofMonomial
    rw [if_pos (by simp [Monomial.const])]
    rfl
  -- the induction is on the terms that are still to be added
  have hfold (done rest : List (Monomial K)) (hterms : p.terms = done ++ rest) :
      rest.foldlM (addSubst replacements) ⟨Polynomial.ofTerms done, 1⟩ = .ok ⟨p, 1⟩ := by
    have hprefix (before later : List (Monomial K)) (hsplit : p.terms = before ++ later) :
        (Polynomial.ofTerms before).terms = before := by
      refine Polynomial.terms_ofTerms (fun m hm => hproper m ?_) ?_
      · rw [hsplit]
        exact List.mem_append_left _ hm
      · have hincreasing := p.increasing
        rw [hsplit] at hincreasing
        exact (List.pairwise_append.1 hincreasing).1
    induction rest generalizing done with
    | nil =>
        rw [List.append_nil] at hterms
        rw [← hterms, Polynomial.ofTerms_terms hproper]
        rfl
    | cons m rest ih =>
        have hm : m ∈ p.terms := by simp [hterms]
        have hlater : p.terms = (done ++ [m]) ++ rest := by simp [hterms]
        have hnext := hprefix (done ++ [m]) rest hlater
        have hstep : addSubst replacements ⟨Polynomial.ofTerms done, 1⟩ m =
            .ok ⟨Polynomial.ofTerms (done ++ [m]), 1⟩ := by
          refine addSubst_of_disjoint (h m hm) (hproper m hm) (Polynomial.proper_ofTerms _)
            (Polynomial.proper_ofTerms _) (Polynomial.all_ofTerms fun n hn => hnatural n ?_) ?_
          · rw [hlater]
            exact List.mem_append_left _ hn
          · rw [hnext, hprefix done (m :: rest) hterms]
        rw [List.foldlM_cons, hstep, except_ok_bind]
        exact ih (done ++ [m]) hlater
  unfold substPolynomial
  rw [hzero]
  exact hfold [] p.terms rfl

/-- To replace symbols that do not occur changes nothing. -/
theorem Reduced.subst_of_disjoint {a : Fraction K} (h : a.Reduced)
    (hdisjoint : a.Over (fun symbol => replacements.find? symbol = none)) :
    a.subst replacements = .ok a := by
  have hden : a.den.isZero = false := h.den_ne
  unfold Fraction.subst
  rw [substPolynomial_of_disjoint h.within.num_proper h.within.num_natural hdisjoint.1,
    substPolynomial_of_disjoint h.within.den_proper h.within.den_natural hdisjoint.2,
    except_ok_bind, except_ok_bind]
  unfold Fraction.div
  dsimp only
  rw [if_neg (by simp [hden]), Polynomial.mul_one_eq h.within.num_proper,
    Polynomial.one_mul_eq h.within.den_proper]
  exact h.canonical

end Substitution

end Fraction

end Ramify
