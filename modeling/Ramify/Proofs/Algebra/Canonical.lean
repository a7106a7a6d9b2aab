import Ramify.Proofs.Algebra.Laurent
import Ramify.Proofs.Algebra.Fraction
import Ramify.Proofs.Scalar.Rational
import Ramify.Algebra.Operand

/-!
The canonical form of a fraction over an exact field. Every constructor and every operation gives
it, and it decides equality up to a common term: of all pairs of polynomials that arise from one
another by multiplication with a number and powers of symbols, exactly one is canonical. What
becomes of a quotient thus does not depend on the term by which it was extended.
-/

namespace Ramify

/-- One term with a coefficient other than zero. -/
def Laurent.IsTerm {K : Type} [Semiring K] (u : Laurent K) : Prop :=
  ∃ family c, c ≠ 0 ∧ u = .single family c

/-- Two quotients of which one is the other, extended by a term. -/
def Laurent.Extended {K : Type} [Semiring K] (num den num' den' : Laurent K) : Prop :=
  ∃ u : Laurent K, u.IsTerm ∧ num' = num * u ∧ den' = den * u

namespace Laurent

variable {K : Type} [Field K] {num den num' den' num'' den'' u v : Laurent K}

theorem isTerm_one : (1 : Laurent K).IsTerm := ⟨0, 1, one_ne_zero, AddMonoidAlgebra.one_def⟩

theorem IsTerm.mul (hu : u.IsTerm) (hv : v.IsTerm) : (u * v).IsTerm := by
  obtain ⟨family, c, hc, rfl⟩ := hu
  obtain ⟨family', c', hc', rfl⟩ := hv
  exact ⟨family + family', c * c', mul_ne_zero hc hc', AddMonoidAlgebra.single_mul_single _ _ _ _⟩

/-- A term has an inverse, with the opposite exponents. -/
theorem single_mul_inverse {family : Symbol →₀ Int} {c : K} (hc : c ≠ 0) :
    (.single family c * .single (-family) c⁻¹ : Laurent K) = 1 := by
  rw [AddMonoidAlgebra.single_mul_single, add_neg_cancel, mul_inv_cancel₀ hc,
    AddMonoidAlgebra.one_def]

theorem IsTerm.exists_inverse (hu : u.IsTerm) : ∃ v : Laurent K, v.IsTerm ∧ u * v = 1 := by
  obtain ⟨family, c, hc, rfl⟩ := hu
  exact ⟨.single (-family) c⁻¹, ⟨_, _, inv_ne_zero hc, rfl⟩, single_mul_inverse hc⟩

theorem eq_mul_inverse {family : Symbol →₀ Int} {c : K} (hc : c ≠ 0)
    (h : num' = num * .single family c) : num = num' * .single (-family) c⁻¹ := by
  rw [h, mul_assoc, single_mul_inverse hc, mul_one]

theorem IsTerm.mul_eq_zero_iff (hu : u.IsTerm) : num * u = 0 ↔ num = 0 := by
  obtain ⟨v, _, hinverse⟩ := hu.exists_inverse
  constructor
  · intro h
    calc
      num = num * (u * v) := by rw [hinverse, mul_one]
      _ = 0 := by rw [← mul_assoc, h, zero_mul]
  · intro h
    rw [h, zero_mul]

theorem Extended.symm (h : Extended num den num' den') : Extended num' den' num den := by
  obtain ⟨u, hu, rfl, rfl⟩ := h
  obtain ⟨v, hv, hinverse⟩ := hu.exists_inverse
  refine ⟨v, hv, ?_, ?_⟩ <;> rw [mul_assoc, hinverse, mul_one]

theorem Extended.trans (h : Extended num den num' den') (h' : Extended num' den' num'' den'') :
    Extended num den num'' den'' := by
  obtain ⟨u, hu, rfl, rfl⟩ := h
  obtain ⟨v, hv, rfl, rfl⟩ := h'
  exact ⟨u * v, hu.mul hv, mul_assoc _ _ _, mul_assoc _ _ _⟩

end Laurent

namespace Polynomial

variable {K : Type} [ExactField K] {p q : Polynomial K} {family : Symbol →₀ Int} {c : K}

/-- Multiplication by a term moves the exponents of every term. -/
theorem exists_moved (hc : c ≠ 0) (hp : p.Proper) (h : q.laurent = p.laurent * .single family c)
    {m : Monomial K} (hm : m ∈ p.terms) :
    ∃ n ∈ q.terms, ∀ symbol, n.degree symbol = m.degree symbol + family symbol := by
  have hcoeff : q.laurent.coeff (m.exponents.toFinsupp + family) = m.coeff * c := by
    rw [h, AddMonoidAlgebra.coeff_mul_single_add, coeff_of_mem hm]
  have hne : q.laurent.coeff (m.exponents.toFinsupp + family) ≠ 0 := by
    rw [hcoeff]
    exact mul_ne_zero (hp m hm) hc
  obtain ⟨n, hn, hexponents⟩ := exists_mem_of_coeff_ne_zero hne
  exact ⟨n, hn, fun symbol => DFunLike.congr_fun hexponents symbol⟩

/-- The same for the terms of two polynomials together. -/
theorem exists_moved_append {p' q' : Polynomial K} (hc : c ≠ 0) (hp : p.Proper) (hq : q.Proper)
    (hp' : p'.laurent = p.laurent * .single family c)
    (hq' : q'.laurent = q.laurent * .single family c) {m : Monomial K}
    (hm : m ∈ p.terms ++ q.terms) :
    ∃ n ∈ p'.terms ++ q'.terms, ∀ symbol, n.degree symbol = m.degree symbol + family symbol := by
  rcases List.mem_append.1 hm with hm | hm
  · obtain ⟨n, hn, hdegree⟩ := exists_moved hc hp hp' hm
    exact ⟨n, List.mem_append_left _ hn, hdegree⟩
  · obtain ⟨n, hn, hdegree⟩ := exists_moved hc hq hq' hm
    exact ⟨n, List.mem_append_right _ hn, hdegree⟩

end Polynomial

namespace Fraction

variable {K : Type}

structure Canonical [Scalar K] (a : Fraction K) : Prop where
  num_proper : a.num.Proper
  den_proper : a.den.Proper
  den_ne : a.den.isZero = false
  zero : a.num.isZero = true → a.den = 1
  /-- The last term of the denominator has coefficient one. -/
  monic : lead a.den = 1
  /-- The smallest exponent of a symbol over all terms is zero. -/
  least (symbol : Symbol) :
    IsLeast {d | ∃ m ∈ a.num.terms ++ a.den.terms, m.degree symbol = d} 0

/-- No exponent of a canonical fraction is negative. -/
theorem Canonical.natural [Scalar K] {a : Fraction K} (h : a.Canonical) :
    a.num.All Powers.Natural ∧ a.den.All Powers.Natural :=
  ⟨fun m hm symbol => (h.least symbol).2 ⟨m, List.mem_append_left _ hm, rfl⟩,
    fun m hm symbol => (h.least symbol).2 ⟨m, List.mem_append_right _ hm, rfl⟩⟩

variable [ExactField K] {num den num' den' : Polynomial K} {a b : Fraction K}
  {family : Symbol →₀ Int} {c : K} {symbol : Symbol}

section Unique

/-- A term that takes canonical terms to canonical terms has no negative exponent. -/
private theorem Canonical.family_nonneg (ha : a.Canonical) (hb : b.Canonical) (hc : c ≠ 0)
    (hnum : b.num.laurent = a.num.laurent * .single family c)
    (hden : b.den.laurent = a.den.laurent * .single family c) (symbol : Symbol) :
    0 ≤ family symbol := by
  obtain ⟨m, hm, hzero⟩ := (ha.least symbol).1
  obtain ⟨n, hn, hdegree⟩ :=
    Polynomial.exists_moved_append hc ha.num_proper ha.den_proper hnum hden hm
  have hbound : 0 ≤ n.degree symbol := (hb.least symbol).2 ⟨n, hn, rfl⟩
  rw [hdegree symbol, hzero, zero_add] at hbound
  exact hbound

theorem lead_map {p : Polynomial K} (h : p.isZero = false) (f : K → K) :
    lead (p.mapCoeffs f) = f (lead p) := by
  unfold lead Polynomial.mapCoeffs
  rw [List.getLast?_map]
  cases hlast : p.terms.getLast? with
  | none =>
      rw [List.getLast?_eq_none_iff] at hlast
      rw [Polynomial.isZero, hlast] at h
      cases h
  | some m => rfl

theorem proper_mapCoeffs_mul {p : Polynomial K} (h : p.Proper) {c : K} (hc : c ≠ 0) :
    (p.mapCoeffs (· * c)).Proper := by
  intro m hm
  obtain ⟨n, hn, rfl⟩ := List.mem_map.1 hm
  exact mul_ne_zero (h n hn) hc

/-- Of the fractions that extend one another, one is canonical. -/
theorem Canonical.unique (ha : a.Canonical) (hb : b.Canonical)
    (h : Laurent.Extended a.num.laurent a.den.laurent b.num.laurent b.den.laurent) : a = b := by
  obtain ⟨u, ⟨family, c, hc, rfl⟩, hnum, hden⟩ := h
  -- the exponents are bounded by zero on both sides
  have hfamily : family = 0 := by
    ext symbol
    have hge := ha.family_nonneg hb hc hnum hden symbol
    have hle := hb.family_nonneg ha (inv_ne_zero hc) (Laurent.eq_mul_inverse hc hnum)
      (Laurent.eq_mul_inverse hc hden) symbol
    rw [Finsupp.neg_apply] at hle
    rw [Finsupp.zero_apply]
    omega
  rw [hfamily] at hnum hden
  -- the number is the last coefficient of a denominator
  have hscaled : b.den = a.den.mapCoeffs (· * c) :=
    Polynomial.eq_of_laurent_eq hb.den_proper (proper_mapCoeffs_mul ha.den_proper hc)
      (hden.trans (Polynomial.laurent_mapCoeffs a.den c (fun _ => rfl)).symm)
  have hone : c = 1 := by
    have hlead := hb.monic
    rw [hscaled, lead_map ha.den_ne, ha.monic, one_mul] at hlead
    exact hlead
  rw [hone, ← AddMonoidAlgebra.one_def, mul_one] at hnum hden
  have hnums := Polynomial.eq_of_laurent_eq ha.num_proper hb.num_proper hnum.symm
  have hdens := Polynomial.eq_of_laurent_eq ha.den_proper hb.den_proper hden.symm
  cases a
  cases b
  cases hnums
  cases hdens
  rfl

end Unique

section Reduction

theorem laurent_divContent (p : Polynomial K) (shared : Exponents) :
    (divContent p shared).laurent = p.laurent * .single (-shared.toFinsupp) 1 := by
  unfold divContent
  split
  · rename_i hone
    rw [(Powers.isOne_iff_eq shared).1 hone, Powers.toFinsupp_one, neg_zero,
      ← AddMonoidAlgebra.one_def, mul_one]
  · rw [Polynomial.laurent_ofTerms, List.map_map]
    unfold Polynomial.laurent
    rw [← List.sum_map_mul_right]
    congr 1
    apply List.map_congr_left
    intro m _
    simp [Monomial.laurent, AddMonoidAlgebra.single_mul_single, sub_eq_add_neg]

/-- A part of a quotient, divided by shared powers and a number. -/
private def reducePart (p : Polynomial K) (shared : Exponents) (leading : K) : Polynomial K :=
  (divContent p shared).mapCoeffs (· / leading)

private theorem laurent_reducePart (p : Polynomial K) (shared : Exponents) (leading : K) :
    (reducePart p shared leading).laurent =
      p.laurent * .single (-shared.toFinsupp) leading⁻¹ := by
  unfold reducePart
  rw [Polynomial.laurent_mapCoeffs _ leading⁻¹ (fun a => div_eq_mul_inv a leading),
    laurent_divContent, mul_assoc, AddMonoidAlgebra.single_mul_single, add_zero, one_mul]

/-- Division by a leading coefficient of one may be carried out as well. -/
private theorem lowestTerms_eq (h : num.isZero = false) :
    lowestTerms num den =
      ⟨reducePart num (content (num.terms ++ den.terms))
          (lead (divContent den (content (num.terms ++ den.terms)))),
        reducePart den (content (num.terms ++ den.terms))
          (lead (divContent den (content (num.terms ++ den.terms))))⟩ := by
  have hdivOne (p : Polynomial K) : p.mapCoeffs (· / 1) = p := by
    apply Polynomial.ext
    unfold Polynomial.mapCoeffs
    simp
  unfold lowestTerms reducePart
  rw [h, if_neg Bool.false_ne_true]
  dsimp only
  split
  · rename_i hone
    rw [eq_of_beq hone, hdivOne, hdivOne]
  · rfl

theorem extended_lowestTerms (h : num.isZero = false) (hden : den.Proper) :
    Laurent.Extended num.laurent den.laurent (lowestTerms num den).num.laurent
      (lowestTerms num den).den.laurent := by
  have hlead := lead_ne_zero (proper_divContent hden (content (num.terms ++ den.terms)))
  rw [lowestTerms_eq h]
  exact ⟨_, ⟨_, _, inv_ne_zero hlead, rfl⟩, laurent_reducePart _ _ _, laurent_reducePart _ _ _⟩

theorem canonical_zero : (zero : Fraction K).Canonical where
  num_proper := nofun
  den_proper := proper_one
  den_ne := rfl
  zero := fun _ => rfl
  monic := rfl
  least symbol := by
    constructor
    · exact ⟨Monomial.const 1, List.mem_singleton.2 rfl, rfl⟩
    · rintro d ⟨m, hm, rfl⟩
      rw [List.mem_singleton.1 hm]
      exact le_refl 0

/-- Multiplication by a term keeps what is not zero. -/
theorem isZero_of_extended {p q : Polynomial K} (hp : p.Proper) (hq : q.Proper)
    {u : Laurent K} (hu : u.IsTerm) (h : q.laurent = p.laurent * u) : q.isZero = p.isZero := by
  rw [Bool.eq_iff_iff, Polynomial.isZero_iff hp, Polynomial.isZero_iff hq, h]
  exact hu.mul_eq_zero_iff

/-- Where the least exponents are taken from all terms, zero is the least exponent. -/
private theorem isLeast_moved (hc : c ≠ 0) (hnum : num.Proper) (hden : den.Proper)
    (hnum' : num'.Proper) (hden' : den'.Proper) (hsome : num.isZero = false)
    (hnums : num'.laurent = num.laurent * .single family c)
    (hdens : den'.laurent = den.laurent * .single family c)
    (hfamily : family symbol = -leastDegree symbol (num.terms ++ den.terms)) :
    IsLeast {d | ∃ m ∈ num'.terms ++ den'.terms, m.degree symbol = d} 0 := by
  constructor
  · obtain ⟨m, hm, hleast⟩ : ∃ m ∈ num.terms ++ den.terms,
        m.degree symbol = leastDegree symbol (num.terms ++ den.terms) := by
      apply exists_leastDegree_of_ne_nil
      intro hnil
      rw [Polynomial.isZero, (List.append_eq_nil_iff.1 hnil).1] at hsome
      cases hsome
    obtain ⟨n, hn, hmoved⟩ := Polynomial.exists_moved_append hc hnum hden hnums hdens hm
    refine ⟨n, hn, ?_⟩
    rw [hmoved symbol, hfamily, hleast, add_neg_cancel]
  · rintro d ⟨n, hn, rfl⟩
    obtain ⟨m, hm, hmoved⟩ := Polynomial.exists_moved_append (inv_ne_zero hc) hnum' hden'
      (Laurent.eq_mul_inverse hc hnums) (Laurent.eq_mul_inverse hc hdens) hn
    have hbound : leastDegree symbol (num.terms ++ den.terms) ≤ m.degree symbol :=
      leastDegree_le hm
    have hmove := hmoved symbol
    rw [Finsupp.neg_apply, hfamily] at hmove
    omega

theorem canonical_lowestTerms (hnum : num.Proper) (hden : den.Proper)
    (hdefined : num.isZero = false → den.isZero = false) : (lowestTerms num den).Canonical := by
  cases hzero : num.isZero with
  | true =>
      have hresult : lowestTerms num den = zero := if_pos hzero
      rw [hresult]
      exact canonical_zero
  | false =>
      rw [lowestTerms_eq hzero]
      generalize hshared : content (num.terms ++ den.terms) = shared
      have hlead := lead_ne_zero (proper_divContent hden shared)
      generalize hleading : lead (divContent den shared) = leading at hlead ⊢
      have hproper {p : Polynomial K} (hp : p.Proper) : (reducePart p shared leading).Proper :=
        proper_mapCoeffs (proper_divContent hp shared) hlead
      have hterm : Laurent.IsTerm (.single (-shared.toFinsupp) leading⁻¹ : Laurent K) :=
        ⟨_, _, inv_ne_zero hlead, rfl⟩
      refine ⟨hproper hnum, hproper hden, ?_, ?_, ?_, fun symbol => ?_⟩
      · rw [isZero_of_extended hden (hproper hden) hterm (laurent_reducePart _ _ _)]
        exact hdefined hzero
      · intro hnone
        rw [isZero_of_extended hnum (hproper hnum) hterm (laurent_reducePart _ _ _), hzero] at hnone
        cases hnone
      · rw [← hleading]
        exact lead_mapCoeffs (proper_divContent hden shared)
      · apply isLeast_moved (inv_ne_zero hlead) hnum hden (hproper hnum) (hproper hden) hzero
          (laurent_reducePart _ _ _) (laurent_reducePart _ _ _)
        rw [Finsupp.neg_apply, Powers.toFinsupp_apply, ← hshared, get_content]

end Reduction

section Make

theorem collected_eq {p : Polynomial K} (h : p.Proper) : p.collected = p :=
  Polynomial.ofTerms_terms h

theorem proper_collected (p : Polynomial K) : p.collected.Proper := Polynomial.proper_ofTerms _

/-- What the constructor gives is canonical. -/
theorem canonical_make (h : make num den = .ok a) : a.Canonical := by
  unfold make at h
  dsimp only at h
  split at h
  · cases h
  · rename_i hdefined
    cases h
    apply canonical_lowestTerms (proper_collected num) (proper_collected den)
    intro hnum
    simpa [hnum] using hdefined

/-- Zero has one canonical form. -/
theorem Canonical.eq_zero (h : a.Canonical) (hzero : a.isZero = true) : a = Fraction.zero := by
  have hnum : a.num = 0 := Polynomial.ext (List.isEmpty_iff.1 hzero)
  have hden := h.zero hzero
  cases a
  cases hnum
  cases hden
  rfl

/-- A canonical fraction is its own canonical form. -/
theorem Canonical.canonical_eq (h : a.Canonical) : a.canonical = .ok a := by
  have hself : lowestTerms a.num a.den = a := by
    cases hzero : a.num.isZero with
    | true =>
        rw [h.eq_zero hzero]
        rfl
    | false =>
        have hresult := canonical_lowestTerms h.num_proper h.den_proper (fun _ => h.den_ne)
        exact (h.unique hresult (extended_lowestTerms hzero h.den_proper)).symm
  unfold Fraction.canonical make
  rw [collected_eq h.num_proper, collected_eq h.den_proper]
  dsimp only
  rw [h.den_ne, Bool.false_and, if_neg Bool.false_ne_true, hself]
  rfl

/-- A quotient does not depend on the term by which it is extended, nor does its failure. -/
theorem make_congr (h : Laurent.Extended num.laurent den.laurent num'.laurent den'.laurent) :
    make num den = make num' den' := by
  rw [← Polynomial.laurent_collected num, ← Polynomial.laurent_collected den,
    ← Polynomial.laurent_collected num', ← Polynomial.laurent_collected den'] at h
  have hzero : num'.collected.isZero = num.collected.isZero ∧
      den'.collected.isZero = den.collected.isZero := by
    obtain ⟨u, hu, hnum, hden⟩ := h
    exact ⟨isZero_of_extended (proper_collected num) (proper_collected num') hu hnum,
      isZero_of_extended (proper_collected den) (proper_collected den') hu hden⟩
  unfold make
  dsimp only
  rw [hzero.1, hzero.2]
  split
  · rfl
  · rename_i hdefined
    congr 1
    cases hnum : num.collected.isZero with
    | true =>
        have hleft : lowestTerms num.collected den.collected = zero := if_pos hnum
        have hright : lowestTerms num'.collected den'.collected = zero :=
          if_pos (hzero.1.trans hnum)
        rw [hleft, hright]
    | false =>
        have hden : den.collected.isZero = false := by simpa [hnum] using hdefined
        have hnum' := hzero.1.trans hnum
        have hden' := hzero.2.trans hden
        apply Canonical.unique
        · exact canonical_lowestTerms (proper_collected num) (proper_collected den) (fun _ => hden)
        · exact canonical_lowestTerms (proper_collected num') (proper_collected den')
            (fun _ => hden')
        · exact ((extended_lowestTerms hnum (proper_collected den)).symm.trans h).trans
            (extended_lowestTerms hnum' (proper_collected den'))

/-- A quotient other than zero extends what it is formed from by a term. -/
theorem extended_make (h : make num den = .ok a) (hne : num.laurent ≠ 0) :
    Laurent.Extended num.laurent den.laurent a.num.laurent a.den.laurent := by
  have hnum : num.collected.isZero = false := by
    rw [Bool.eq_false_iff, ne_eq, Polynomial.isZero_iff (proper_collected num),
      Polynomial.laurent_collected]
    exact hne
  have hextended := extended_lowestTerms hnum (proper_collected den)
  rw [Polynomial.laurent_collected, Polynomial.laurent_collected] at hextended
  unfold make at h
  dsimp only at h
  split at h
  · cases h
  · cases h
    exact hextended

/-- Zero over anything is zero. -/
theorem make_of_laurent_eq_zero (h : num.laurent = 0) : make num den = .ok zero := by
  have hnum : num.collected.isZero = true := by
    rw [Polynomial.isZero_iff (proper_collected num), Polynomial.laurent_collected]
    exact h
  unfold make lowestTerms
  dsimp only
  rw [hnum, Bool.not_true, Bool.and_false, if_neg Bool.false_ne_true, if_pos rfl]
  rfl

end Make

section Constructors

/-- A polynomial without negative exponents is canonical over one. -/
theorem canonical_over_one {p : Polynomial K} (hproper : p.Proper)
    (hnatural : p.All Powers.Natural) : (⟨p, 1⟩ : Fraction K).Canonical where
  num_proper := hproper
  den_proper := proper_one
  den_ne := rfl
  zero := fun _ => rfl
  monic := rfl
  least symbol := by
    constructor
    · exact ⟨Monomial.const 1, List.mem_append_right _ (List.mem_singleton.2 rfl), rfl⟩
    · rintro d ⟨m, hm, rfl⟩
      rcases List.mem_append.1 hm with hm | hm
      · exact hnatural m hm symbol
      · rw [List.mem_singleton.1 hm]
        exact le_refl 0

theorem proper_ofMonomial (m : Monomial K) : (Polynomial.ofMonomial m).Proper := by
  unfold Polynomial.ofMonomial
  split
  · intro n hn
    exact absurd hn List.not_mem_nil
  · rename_i hne
    intro n hn
    rw [List.mem_singleton.1 hn]
    exact fun hzero => hne (beq_iff_eq.2 hzero)

theorem canonical_const (x : K) : (const x).Canonical :=
  canonical_over_one (proper_ofMonomial _) (Polynomial.all_ofMonomial (fun _ => le_refl 0))

theorem canonical_ofSymbol (symbol : Symbol) : (ofSymbol symbol : Fraction K).Canonical := by
  apply canonical_over_one
  · intro m hm
    rw [List.mem_singleton.1 hm]
    exact one_ne_zero
  · intro m hm other
    rw [List.mem_singleton.1 hm]
    change 0 ≤ (Powers.single symbol 1).get other
    rw [Powers.get_single]
    split <;> omega

theorem canonical_ofPolynomial (p : Polynomial K) : (ofPolynomial p).Canonical :=
  canonical_lowestTerms (proper_collected p) proper_one (fun _ => rfl)

end Constructors

section Operations

/-- Whether what is calculated, if anything is, is canonical. -/
def Normalizes (result : Except AlgebraError (Fraction K)) : Prop :=
  ∀ a, result = .ok a → a.Canonical

theorem normalizes_pure (h : a.Canonical) : Normalizes (pure a) := by
  intro b hb
  cases hb
  exact h

theorem normalizes_make (num den : Polynomial K) : Normalizes (make num den) :=
  fun _ => canonical_make

/-- A check before a calculation. -/
theorem normalizes_check {condition : Prop} [Decidable condition] {cause : AlgebraError}
    {result : Except AlgebraError (Fraction K)} (h : Normalizes result) :
    Normalizes (if condition then throw cause else result) := by
  split
  · nofun
  · exact h

theorem normalizes_bind {α : Type} {first : Except AlgebraError α}
    {next : α → Except AlgebraError (Fraction K)} (h : ∀ x, Normalizes (next x)) :
    Normalizes (first >>= next) := by
  intro a ha
  obtain ⟨x, _, hx⟩ := except_bind_eq_ok.1 ha
  exact h x a hx

theorem normalizes_div (a b : Fraction K) : Normalizes (a.div b) :=
  normalizes_check (normalizes_make _ _)

theorem normalizes_powNat (a : Fraction K) (n : Nat) : Normalizes (a.powNat n) := by
  cases n with
  | zero => exact normalizes_pure (canonical_const 1)
  | succ n => exact normalizes_bind (fun _ => normalizes_make _ _)

theorem normalizes_pow (a : Fraction K) (exponent : Int) : Normalizes (a.pow exponent) := by
  unfold Fraction.pow
  split
  · exact normalizes_bind (fun _ => normalizes_div _ _)
  · exact normalizes_powNat a _

theorem normalizes_substPolynomial (p : Polynomial K)
    (replacements : SortedMap Symbol (Fraction K)) :
    Normalizes (substPolynomial p replacements) := by
  intro a ha
  refine except_foldlM (fun m _ before after _ hstep => ?_) (canonical_const 0) ha
  exact normalizes_bind (fun _ => normalizes_bind (fun _ => normalizes_make _ _)) after hstep

/-- The fractions that the constructors and the operations give, whatever their operands are. -/
inductive Obtained : Fraction K → Prop
  | zero : Obtained zero
  | const (c : K) : Obtained (const c)
  | ofSymbol (symbol : Symbol) : Obtained (ofSymbol symbol)
  | ofMonomial (m : Monomial K) : Obtained (ofMonomial m)
  | ofPolynomial (p : Polynomial K) : Obtained (ofPolynomial p)
  | make {num den : Polynomial K} {a : Fraction K} (h : make num den = .ok a) : Obtained a
  | add {x y : Operand K} {a : Fraction K} (h : x.add y = pure (.fraction a)) : Obtained a
  | sub {x y : Operand K} {a : Fraction K} (h : x.sub y = pure (.fraction a)) : Obtained a
  | mul {x y : Operand K} {a : Fraction K} (h : x.mul y = pure (.fraction a)) : Obtained a
  | div {x y : Operand K} {a : Fraction K} (h : x.div y = pure (.fraction a)) : Obtained a
  | neg {x : Operand K} {a : Fraction K} (h : x.neg = pure (.fraction a)) : Obtained a
  | pow {x : Operand K} {n : Int} {a : Fraction K} (h : x.pow n = pure (.fraction a)) : Obtained a
  | substPolynomial {p : Polynomial K} {replacements : SortedMap Symbol (Fraction K)}
      {a : Fraction K} (h : substPolynomial p replacements = .ok a) : Obtained a
  | subst {b : Fraction K} {replacements : SortedMap Symbol (Fraction K)} {a : Fraction K}
      (h : b.subst replacements = .ok a) : Obtained a
  | substValues {b : Fraction K} {values : SortedMap Symbol K} {a : Fraction K}
      (h : b.substValues values = .ok a) : Obtained a

theorem Normalizes.canonical {result : Except AlgebraError (Fraction K)} (h : Normalizes result)
    (ha : Operand.ofFraction result = pure (.fraction a)) : a.Canonical := by
  cases result with
  | error cause => cases ha
  | ok b =>
      cases ha
      exact h a rfl

/-- The operations on two operands give a polynomial, a monomial or a normalized fraction. -/
theorem canonical_add {x y : Operand K} (h : x.add y = pure (.fraction a)) : a.Canonical := by
  cases x <;> cases y <;> first
    | exact Normalizes.canonical (normalizes_make _ _) h
    | cases h

theorem canonical_sub {x y : Operand K} (h : x.sub y = pure (.fraction a)) : a.Canonical := by
  cases x <;> cases y <;> first
    | exact Normalizes.canonical (normalizes_make _ _) h
    | cases h

theorem canonical_mul {x y : Operand K} (h : x.mul y = pure (.fraction a)) : a.Canonical := by
  cases x <;> cases y <;> first
    | exact Normalizes.canonical (normalizes_make _ _) h
    | cases h

/-- A quotient of operands checks its divisor before it is formed. -/
theorem canonical_div {x y : Operand K} (h : x.div y = pure (.fraction a)) : a.Canonical := by
  cases x <;> cases y <;> first
    | exact Normalizes.canonical (normalizes_make _ _) h
    | exact Normalizes.canonical (normalizes_div _ _) h
    | exact Normalizes.canonical (normalizes_check (normalizes_make _ _)) h
    | exact Normalizes.canonical (normalizes_check (normalizes_div _ _)) h
    | exact Normalizes.canonical
        (normalizes_check (normalizes_pure (canonical_ofPolynomial _))) h
    | cases h

theorem canonical_neg {x : Operand K} (h : x.neg = pure (.fraction a)) : a.Canonical := by
  cases x <;> first
    | exact Normalizes.canonical (normalizes_make _ _) h
    | cases h

theorem normalizes_symbolPow (symbol : Symbol) (n : Int) :
    Normalizes (Operand.symbolPow symbol n : Except AlgebraError (Fraction K)) := by
  unfold Operand.symbolPow
  split
  · exact normalizes_pure (canonical_const 1)
  · split
    · exact normalizes_make _ _
    · exact normalizes_pure (canonical_ofPolynomial _)

theorem canonical_pow {x : Operand K} {n : Int} (h : x.pow n = pure (.fraction a)) :
    a.Canonical := by
  cases x <;> first
    | exact Normalizes.canonical (normalizes_symbolPow _ _) h
    | exact Normalizes.canonical (normalizes_pow _ _) h
    | cases h

theorem Obtained.canonical (h : Obtained a) : a.Canonical := by
  cases h with
  | zero => exact canonical_zero
  | const c => exact canonical_const c
  | ofSymbol symbol => exact canonical_ofSymbol symbol
  | ofMonomial m => exact canonical_ofPolynomial _
  | ofPolynomial p => exact canonical_ofPolynomial p
  | make h => exact canonical_make h
  | add h => exact canonical_add h
  | sub h => exact canonical_sub h
  | mul h => exact canonical_mul h
  | div h => exact canonical_div h
  | neg h => exact canonical_neg h
  | pow h => exact canonical_pow h
  | substPolynomial h => exact normalizes_substPolynomial _ _ a h
  | subst h => exact normalizes_bind (fun _ => normalizes_bind (fun _ => normalizes_div _ _)) a h
  | substValues h =>
      exact normalizes_bind (fun _ => normalizes_bind (fun _ => normalizes_make _ _)) a h

/-- What the constructors and the operations give is canonical and its own canonical form, and a
quotient does not change when both of its parts are multiplied by a number and a term other than
zero. -/
theorem what_is_obtained_is_canonical :
    (∀ a : Fraction K, Obtained a → a.Canonical ∧ a.canonical = .ok a) ∧
    ∀ (num den : Polynomial K) (m : Monomial K) (c : K), m.coeff ≠ 0 → c ≠ 0 →
      Fraction.make ((num.mulTerm m).scale c) ((den.mulTerm m).scale c) =
        Fraction.make num den := by
  constructor
  · intro a h
    exact ⟨h.canonical, h.canonical.canonical_eq⟩
  · intro num den m c hm hc
    have hterm : Laurent.IsTerm (m.laurent * .single 0 c) :=
      Laurent.IsTerm.mul ⟨_, _, hm, rfl⟩ ⟨_, _, hc, rfl⟩
    symm
    apply make_congr
    refine ⟨_, hterm, ?_, ?_⟩ <;>
      rw [Polynomial.laurent_scale, Polynomial.laurent_mulTerm, mul_assoc]

/-- Three over `x`, divided by two, is brought into canonical form, also when it is extended by a
term with a negative exponent. -/
theorem three_halves_over_x_is_canonical :
    let num : Polynomial Rat := .ofMonomial (.single 3 ⟨"x", false⟩ (-1))
    let extension : Monomial Rat := .ofList 7 [(⟨"x", false⟩, -2), (⟨"y", false⟩, 1)]
    let quotient : Fraction Rat := ⟨.const (3 / 2), .ofSymbol ⟨"x", false⟩⟩
    Fraction.make num (.const 2) = .ok quotient ∧
      (quotient.Canonical ∧ quotient.canonical = .ok quotient) ∧
      Fraction.make ((num.mulTerm extension).scale (-5))
        (((Polynomial.const 2).mulTerm extension).scale (-5)) = Fraction.make num (.const 2) := by
  intro num extension quotient
  have hmake : Fraction.make num (.const 2) = .ok quotient := by decide +kernel
  exact ⟨hmake, what_is_obtained_is_canonical.1 quotient (.make hmake),
    what_is_obtained_is_canonical.2 num (.const 2) extension (-5) (by decide +kernel)
      (by decide +kernel)⟩

end Operations

end Fraction

end Ramify
