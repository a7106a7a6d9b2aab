import Ramify.Proofs.Algebra.Fraction
import Ramify.Proofs.Algebra.Laurent
import Ramify.Proofs.Scalar.Rational

/-!
Polynomials as a commutative ring. To collect a list of terms is to add up the coefficients of each
product of powers: the result has those sums that are not zero, by increasing exponents, and so does
not depend on the order of the terms. Over an exact field the polynomials without zero coefficients
are a commutative ring, in which equality is equality term by term.
-/

namespace Ramify.Polynomial

variable {K : Type} [ExactField K]

section Collecting

/-- The sum of the coefficients that a list of terms has for a product of powers. -/
def total (terms : List (Monomial K)) (exponents : Exponents) : K :=
  ((terms.filter (fun m => m.exponents = exponents)).map Monomial.coeff).sum

variable {terms terms' : List (Monomial K)}

theorem total_cons (m : Monomial K) (rest : List (Monomial K)) (exponents : Exponents) :
    total (m :: rest) exponents =
      (if m.exponents = exponents then m.coeff else 0) + total rest exponents := by
  unfold total
  rw [List.filter_cons]
  by_cases hsame : m.exponents = exponents
  · simp [hsame]
  · simp [hsame]

theorem total_perm (h : terms.Perm terms') (exponents : Exponents) :
    total terms exponents = total terms' exponents :=
  ((h.filter _).map _).sum_eq

/-- The totals are the coefficients of the sum in the algebra. -/
theorem coeff_sum_laurent (terms : List (Monomial K)) (exponents : Exponents) :
    (terms.map Monomial.laurent).sum.coeff exponents.toFinsupp = total terms exponents := by
  induction terms with
  | nil => rfl
  | cons m rest ih =>
      have hfirst : m.laurent.coeff exponents.toFinsupp =
          if m.exponents = exponents then m.coeff else 0 := by
        by_cases hsame : m.exponents = exponents
        · rw [if_pos hsame, ← hsame]
          exact Finsupp.single_eq_same
        · rw [if_neg hsame]
          exact Finsupp.single_eq_of_ne
            (fun heq => hsame (Powers.toFinsupp_injective heq.symm))
      rw [List.map_cons, List.sum_cons, AddMonoidAlgebra.coeff_add, Finsupp.add_apply, hfirst, ih,
        total_cons]

/-- The collected terms are the totals that are not zero. -/
theorem mem_terms_ofTerms_iff {m : Monomial K} :
    m ∈ (ofTerms terms).terms ↔ m.coeff ≠ 0 ∧ m.coeff = total terms m.exponents := by
  rw [mem_terms_iff (proper_ofTerms terms), laurent_ofTerms, coeff_sum_laurent, eq_comm]

/-- Lists of terms are collected alike exactly if their totals agree. -/
theorem ofTerms_eq_iff :
    ofTerms terms = ofTerms terms' ↔
      ∀ exponents, total terms exponents = total terms' exponents := by
  constructor
  · intro hsame exponents
    rw [← coeff_sum_laurent, ← coeff_sum_laurent, ← laurent_ofTerms, ← laurent_ofTerms, hsame]
  · intro htotals
    apply ext_mem
    intro m
    rw [mem_terms_ofTerms_iff, mem_terms_ofTerms_iff, htotals m.exponents]

/-- The polynomials without zero coefficients are those that collecting leaves as they are. -/
theorem collected_eq_self_iff {p : Polynomial K} : p.collected = p ↔ p.Proper := by
  constructor
  · intro hsame
    rw [← hsame]
    exact proper_ofTerms p.terms
  · exact ofTerms_terms

end Collecting

section Ring

/-- The polynomials without zero coefficients. -/
def Collected (K : Type) [ExactField K] : Type := {p : Polynomial K // p.Proper}

namespace Collected

instance : Zero (Collected K) := ⟨⟨0, nofun⟩⟩

instance : One (Collected K) := ⟨⟨1, Fraction.proper_one⟩⟩

instance : Add (Collected K) := ⟨fun p q => ⟨p.val + q.val, proper_ofTerms _⟩⟩

instance : Neg (Collected K) := ⟨fun p => ⟨-p.val, proper_neg p.property⟩⟩

instance : Sub (Collected K) := ⟨fun p q => ⟨p.val - q.val, proper_ofTerms _⟩⟩

instance : Mul (Collected K) := ⟨fun p q => ⟨p.val * q.val, proper_ofTerms _⟩⟩

variable (p q : Collected K)

@[simp] theorem val_zero : (0 : Collected K).val = 0 := rfl

@[simp] theorem val_one : (1 : Collected K).val = 1 := rfl

@[simp] theorem val_add : (p + q).val = p.val + q.val := rfl

@[simp] theorem val_neg : (-p).val = -p.val := rfl

@[simp] theorem val_sub : (p - q).val = p.val - q.val := rfl

@[simp] theorem val_mul : (p * q).val = p.val * q.val := rfl

variable {p q}

/-- An identity of the algebra is one of polynomials. -/
theorem ext_laurent (h : p.val.laurent = q.val.laurent) : p = q :=
  Subtype.ext (eq_of_laurent_eq p.property q.property h)

instance : CommRing (Collected K) where
  nsmul := nsmulRec
  zsmul := zsmulRec
  zero_add _ := ext_laurent (by simp)
  add_zero _ := ext_laurent (by simp)
  add_assoc _ _ _ := ext_laurent (by simp [add_assoc])
  add_comm _ _ := ext_laurent (by simp [add_comm])
  neg_add_cancel _ := ext_laurent (by simp)
  sub_eq_add_neg _ _ := ext_laurent (by simp [sub_eq_add_neg])
  zero_mul _ := ext_laurent (by simp)
  mul_zero _ := ext_laurent (by simp)
  one_mul _ := ext_laurent (by simp)
  mul_one _ := ext_laurent (by simp)
  mul_assoc _ _ _ := ext_laurent (by simp [mul_assoc])
  mul_comm _ _ := ext_laurent (by simp [mul_comm])
  left_distrib _ _ _ := ext_laurent (by simp [left_distrib])
  right_distrib _ _ _ := ext_laurent (by simp [right_distrib])

end Collected

/-- The laws of a commutative ring for three polynomials, up to the test of equality. -/
structure RingLaws (p q r : Polynomial K) : Prop where
  add_assoc : (p + q + r == p + (q + r)) = true
  add_comm : (p + q == q + p) = true
  add_zero : (p + 0 == p) = true
  sub_self : (p - p == 0) = true
  add_neg_self : (p + -p == 0) = true
  sub_eq_add_neg : (p - q == p + -q) = true
  mul_assoc : (p * q * r == p * (q * r)) = true
  mul_comm : (p * q == q * p) = true
  mul_one : (p * 1 == p) = true
  mul_add : (p * (q + r) == p * q + p * r) = true

theorem ringLaws {p q r : Polynomial K} (hp : p.Proper) (hq : q.Proper) (hr : r.Proper) :
    RingLaws p q r := by
  -- every law is one of the ring of polynomials without zero coefficients
  let a : Collected K := ⟨p, hp⟩
  let b : Collected K := ⟨q, hq⟩
  let c : Collected K := ⟨r, hr⟩
  have law {x y : Collected K} (h : x = y) : (x.val == y.val) = true :=
    beq_iff_eq.2 (congrArg Subtype.val h)
  exact {
    add_assoc := law (add_assoc a b c)
    add_comm := law (add_comm a b)
    add_zero := law (add_zero a)
    sub_self := law (sub_self a)
    add_neg_self := law (add_neg_cancel a)
    sub_eq_add_neg := law (sub_eq_add_neg a b)
    mul_assoc := law (mul_assoc a b c)
    mul_comm := law (mul_comm a b)
    mul_one := law (mul_one a)
    mul_add := law (mul_add a b c) }

/-- Collecting gives the totals of a list of terms that are not zero, by increasing exponents and
without stored exponents of zero, and two lists are collected alike exactly if their totals agree.
The polynomials that collecting leaves as they are are closed under the operations, for which the
laws of a commutative ring hold. -/
theorem collecting_is_canonical_and_gives_a_ring :
    (∀ terms : List (Monomial K),
      (ofTerms terms).terms.Pairwise (fun m n => compare m.exponents n.exponents = .lt) ∧
      (∀ m, m ∈ (ofTerms terms).terms ↔ m.coeff ≠ 0 ∧ m.coeff = total terms m.exponents) ∧
      ∀ m ∈ (ofTerms terms).terms, ∀ entry ∈ m.exponents.entries, entry.2 ≠ 0) ∧
    (∀ terms terms' : List (Monomial K),
      ((ofTerms terms == ofTerms terms') = true ↔
        ∀ exponents, total terms exponents = total terms' exponents) ∧
      (terms.Perm terms' → (ofTerms terms == ofTerms terms') = true)) ∧
    (∀ p : Polynomial K, (p.collected == p) = true ↔ p.Proper) ∧
    ∀ p q r : Polynomial K, p.Proper → q.Proper → r.Proper →
      ((p + q).Proper ∧ (p - q).Proper ∧ (-p).Proper ∧ (p * q).Proper) ∧ RingLaws p q r := by
  refine ⟨?_, ?_, ?_, ?_⟩
  · intro terms
    exact ⟨(ofTerms terms).increasing, fun m => mem_terms_ofTerms_iff,
      fun m _ => m.exponents.nonzero⟩
  · intro terms terms'
    refine ⟨beq_iff_eq.trans ofTerms_eq_iff, fun hperm => ?_⟩
    exact beq_iff_eq.2 (ofTerms_eq_iff.2 (total_perm hperm))
  · intro p
    exact beq_iff_eq.trans collected_eq_self_iff
  · intro p q r hp hq hr
    exact ⟨⟨proper_ofTerms _, proper_ofTerms _, proper_neg hp, proper_ofTerms _⟩,
      ringLaws hp hq hr⟩

/-- Three polynomials of which two have negative exponents. -/
theorem negative_powers_obey_the_ring_laws :
    let x : Symbol := ⟨"x", false⟩
    let y : Symbol := ⟨"y", false⟩
    let p : Polynomial Rat := ofTerms [.single 2 y (-1), .single (-1) x 1, .single 3 y (-1)]
    let q : Polynomial Rat := ofTerms [.single 1 x (-2), .ofList 7 [(x, 1), (y, 2)]]
    let r : Polynomial Rat := ofTerms [.single 1 x 1, .const (-1)]
    p.Proper ∧ q.Proper ∧ r.Proper ∧ (-p).Proper ∧ RingLaws p q r := by
  intro x y p q r
  have hp : p.Proper := by decide +kernel
  have hq : q.Proper := by decide +kernel
  have hr : r.Proper := by decide +kernel
  obtain ⟨⟨_, _, hneg, _⟩, hlaws⟩ :=
    collecting_is_canonical_and_gives_a_ring.2.2.2 p q r hp hq hr
  exact ⟨hp, hq, hr, hneg, hlaws⟩

end Ring

end Ramify.Polynomial
