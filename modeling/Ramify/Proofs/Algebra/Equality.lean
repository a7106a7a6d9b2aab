import Mathlib.Algebra.Group.UniqueProds.Basic
import Mathlib.Algebra.MonoidAlgebra.NoZeroDivisors
import Ramify.Proofs.Algebra.Canonical
import Ramify.Proofs.Algebra.Generic

/-!
Equality of fractions as functions. Factors that are not monomials are kept, so that fractions that
look different may take the same values everywhere. Whether they do is seen from their difference:
it exists, and it is zero exactly if multiplication crosswise gives the same polynomial.
-/

namespace Ramify

variable {K : Type} [ExactField K]

namespace Polynomial

variable {p q : Polynomial K}

theorem laurent_ne_zero (hp : p.Proper) (hne : p.isZero = false) : p.laurent ≠ 0 := by
  intro hzero
  rw [← isZero_iff hp, hne] at hzero
  cases hzero

theorem laurent_mul_ne_zero (hp : p.Proper) (hq : q.Proper) (hpne : p.isZero = false)
    (hqne : q.isZero = false) : (p * q).laurent ≠ 0 := by
  rw [laurent_mul]
  exact mul_ne_zero (laurent_ne_zero hp hpne) (laurent_ne_zero hq hqne)

/-- The difference of two products is zero if the products are the same polynomial. -/
theorem laurent_sub_mul_eq_zero_iff {p' q' : Polynomial K} :
    (p * q - p' * q').laurent = 0 ↔ p * q = p' * q' := by
  rw [laurent_sub, sub_eq_zero]
  constructor
  · intro h
    exact eq_of_laurent_eq (proper_ofTerms _) (proper_ofTerms _) h
  · intro h
    rw [h]

end Polynomial

namespace Fraction

variable {den : Polynomial K} {a b : Fraction K}

/-- A quotient with a denominator other than zero exists, and is zero if its numerator is. -/
theorem exists_make (num : Polynomial K) (hden : den.laurent ≠ 0) :
    ∃ c, make num den = .ok c ∧ (c.isZero = true ↔ num.laurent = 0) := by
  have hden' : den.collected.isZero = false := by
    rw [Bool.eq_false_iff, ne_eq, Polynomial.isZero_iff (proper_collected den),
      Polynomial.laurent_collected]
    exact hden
  refine ⟨lowestTerms num.collected den.collected, ?_, ?_⟩
  · unfold make
    dsimp only
    rw [hden', Bool.false_and, if_neg Bool.false_ne_true]
    rfl
  · rw [← Polynomial.laurent_collected num, ← Polynomial.isZero_iff (proper_collected num)]
    cases hnum : num.collected.isZero with
    | true =>
        unfold lowestTerms
        rw [if_pos hnum]
        exact Iff.rfl
    | false =>
        obtain ⟨u, hu, hnumerator, _⟩ := extended_lowestTerms hnum (proper_collected den)
        have hproper := (canonical_lowestTerms (proper_collected num) (proper_collected den)
          (fun _ => hden')).num_proper
        rw [← hnum]
        exact Bool.eq_iff_iff.1 (isZero_of_extended (proper_collected num) hproper hu hnumerator)

/-- The difference of two fractions exists, and is zero if multiplication crosswise gives the same
polynomial. -/
theorem Canonical.exists_sub (ha : a.Canonical) (hb : b.Canonical) :
    ∃ gap, a.sub b = .ok gap ∧ (gap.isZero = true ↔ a.num * b.den = b.num * a.den) := by
  obtain ⟨gap, hgap, hzero⟩ := exists_make (a.num * b.den - b.num * a.den)
    (Polynomial.laurent_mul_ne_zero ha.den_proper hb.den_proper ha.den_ne hb.den_ne)
  exact ⟨gap, hgap, hzero.trans Polynomial.laurent_sub_mul_eq_zero_iff⟩

/-- Whether two fractions take the same value at every point at which both have one. -/
def SameValues (a b : Fraction K) : Prop :=
  ∀ z : Symbol → K, a.den.value z ≠ 0 → b.den.value z ≠ 0 →
    a.num.value z / a.den.value z = b.num.value z / b.den.value z

/-- Over an infinite field fractions take the same values exactly if multiplication crosswise gives
the same polynomial. -/
theorem Canonical.sameValues_iff [Infinite K] (ha : a.Canonical) (hb : b.Canonical) :
    a.SameValues b ↔ a.num * b.den = b.num * a.den := by
  have hproduct {p q : Polynomial K} (hp : p.All Powers.Natural) (hq : q.All Powers.Natural)
      (z : Symbol → K) : (p * q).value z = p.value z * q.value z :=
    Polynomial.value_mul (hp.imp fun _ he => he.definedAt z) (hq.imp fun _ he => he.definedAt z)
  constructor
  · intro hsame
    have hproper : (a.num * b.den - b.num * a.den).Proper := Polynomial.proper_ofTerms _
    rw [← Polynomial.laurent_sub_mul_eq_zero_iff, ← Polynomial.isZero_iff hproper]
    by_contra hnonzero
    have hnatural : (a.num * b.den - b.num * a.den).All Powers.Natural :=
      Polynomial.all_sub
        (Polynomial.all_mul (fun _ _ => Powers.Natural.mul) ha.natural.1 hb.natural.2)
        (Polynomial.all_mul (fun _ _ => Powers.Natural.mul) hb.natural.1 ha.natural.2)
    obtain ⟨z, hz⟩ := Polynomial.exists_value_ne_zero hproper hnatural
      (Bool.eq_false_iff.2 hnonzero)
    -- the difference vanishes wherever neither denominator does, and so everywhere
    refine hz (Polynomial.value_eq_zero_of_guarded hnatural [a.den, b.den] ?_ ?_ z)
    · rintro g (_ | ⟨_, _ | ⟨_, ⟨⟩⟩⟩)
      · exact ⟨ha.natural.2,
          Polynomial.exists_value_ne_zero ha.den_proper ha.natural.2 ha.den_ne⟩
      · exact ⟨hb.natural.2,
          Polynomial.exists_value_ne_zero hb.den_proper hb.natural.2 hb.den_ne⟩
    · intro w hw
      have hane : a.den.value w ≠ 0 := hw a.den (by simp)
      have hbne : b.den.value w ≠ 0 := hw b.den (by simp)
      rw [Polynomial.value_sub, hproduct ha.natural.1 hb.natural.2,
        hproduct hb.natural.1 ha.natural.2, sub_eq_zero]
      exact (div_eq_div_iff hane hbne).1 (hsame w hane hbne)
  · intro hcross z hane hbne
    rw [div_eq_div_iff hane hbne, ← hproduct ha.natural.1 hb.natural.2, hcross,
      hproduct hb.natural.1 ha.natural.2]

end Fraction

end Ramify
