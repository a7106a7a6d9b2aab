import Mathlib.Algebra.MonoidAlgebra.Basic
import Mathlib.Data.List.Sort
import Ramify.Proofs.Algebra.Value

/-!
Polynomials as elements of an algebra. The exponents of a term are a finitely supported family of
integers, and the formal sums of such families, with coefficients in a field, are the Laurent
polynomials. Over an exact field every operation on polynomials is that of the algebra, and a
polynomial without zero coefficients is determined by the element that it stands for. An identity
between polynomials is therefore an identity of a commutative ring.
-/

namespace Ramify

namespace Powers

variable {κ : Type} [Ord κ] [Std.LawfulEqOrd κ] [DecidableEq κ]

/-- The exponents as a finitely supported family. -/
noncomputable def toFinsupp (powers : Powers κ) : κ →₀ Int :=
  Finsupp.onFinset powers.support powers.get (fun _ h => mem_support.2 h)

@[simp] theorem toFinsupp_apply (powers : Powers κ) (base : κ) :
    powers.toFinsupp base = powers.get base := rfl

@[simp] theorem toFinsupp_one : (∅ : Powers κ).toFinsupp = 0 := by
  ext base
  rfl

variable [Std.TransOrd κ]

theorem toFinsupp_injective : Function.Injective (toFinsupp : Powers κ → κ →₀ Int) := by
  intro left right h
  apply ext_get
  intro base
  exact DFunLike.congr_fun h base

@[simp] theorem toFinsupp_mul (left right : Powers κ) :
    (left.mul right).toFinsupp = left.toFinsupp + right.toFinsupp := by
  ext base
  simp [get_mul]

@[simp] theorem toFinsupp_div (left right : Powers κ) :
    (left.div right).toFinsupp = left.toFinsupp - right.toFinsupp := by
  ext base
  simp [get_div]

@[simp] theorem toFinsupp_raise (powers : Powers κ) (base : κ) (exponent : Int) :
    (powers.raise base exponent).toFinsupp =
      powers.toFinsupp + Finsupp.single base exponent := by
  ext other
  simp [get_raise, Finsupp.single_apply]

@[simp] theorem toFinsupp_single (base : κ) (exponent : Int) :
    (single base exponent).toFinsupp = Finsupp.single base exponent := by
  ext other
  simp [get_single, Finsupp.single_apply]

end Powers

/-- The Laurent polynomials in the symbols. -/
abbrev Laurent (K : Type) [Semiring K] : Type := AddMonoidAlgebra K (Symbol →₀ Int)

namespace Monomial

variable {K : Type}

noncomputable def laurent [Semiring K] (m : Monomial K) : Laurent K :=
  .single m.exponents.toFinsupp m.coeff

variable [ExactField K] (m n : Monomial K)

@[simp] theorem laurent_const (c : K) : (const c).laurent = .single 0 c := by
  simp [laurent, const]

@[simp] theorem laurent_single (c : K) (symbol : Symbol) (exponent : Int) :
    (single c symbol exponent).laurent = .single (Finsupp.single symbol exponent) c := by
  simp [laurent, single]

@[simp] theorem laurent_ofSymbol (symbol : Symbol) :
    (ofSymbol symbol : Monomial K).laurent = .single (Finsupp.single symbol 1) 1 :=
  laurent_single 1 symbol 1

@[simp] theorem laurent_neg : (-m).laurent = -m.laurent := AddMonoidAlgebra.single_neg _ _

@[simp] theorem laurent_mul : (m * n).laurent = m.laurent * n.laurent := by
  change AddMonoidAlgebra.single (m.exponents.mul n.exponents).toFinsupp (m.coeff * n.coeff) = _
  rw [Powers.toFinsupp_mul]
  exact (AddMonoidAlgebra.single_mul_single _ _ _ _).symm

@[simp] theorem laurent_mulSymbol (symbol : Symbol) :
    (m.mulSymbol symbol).laurent = m.laurent * .single (Finsupp.single symbol 1) 1 := by
  unfold laurent mulSymbol
  rw [Powers.toFinsupp_raise, AddMonoidAlgebra.single_mul_single, mul_one]

end Monomial

namespace Polynomial

variable {K : Type}

/-- The Laurent polynomial that a polynomial stands for. -/
noncomputable def laurent [Semiring K] (p : Polynomial K) : Laurent K :=
  (p.terms.map Monomial.laurent).sum

/-- The exponents of increasing terms are different. -/
theorem nodup_exponents {terms : List (Monomial K)}
    (h : terms.Pairwise (fun a b => compare a.exponents b.exponents = .lt)) :
    (terms.map Monomial.exponents).Nodup := by
  refine List.pairwise_map.2 (h.imp fun {a b} hlt hsame => ?_)
  have heq : compare b.exponents b.exponents = .eq := Std.ReflCmp.compare_self
  rw [hsame, heq] at hlt
  cases hlt

variable [ExactField K]

section Operations

variable (p q : Polynomial K) (m : Monomial K) (c : K)

theorem laurent_ofTerms (terms : List (Monomial K)) :
    (ofTerms terms).laurent = (terms.map Monomial.laurent).sum :=
  sum_ofTerms (fun exponents => AddMonoidAlgebra.singleAddHom exponents.toFinsupp) terms

@[simp] theorem laurent_collected : p.collected.laurent = p.laurent := laurent_ofTerms p.terms

@[simp] theorem laurent_zero : (0 : Polynomial K).laurent = 0 := rfl

@[simp] theorem laurent_one : (1 : Polynomial K).laurent = 1 := by
  change ([Monomial.const (1 : K)].map Monomial.laurent).sum = 1
  simp [AddMonoidAlgebra.one_def]

@[simp] theorem laurent_ofMonomial : (ofMonomial m).laurent = m.laurent := by
  unfold ofMonomial
  split
  · rename_i hzero
    unfold Monomial.laurent
    rw [eq_of_beq hzero, AddMonoidAlgebra.single_zero]
    rfl
  · exact List.sum_singleton

@[simp] theorem laurent_const : (const c).laurent = .single 0 c := by
  simp [const]

@[simp] theorem laurent_ofSymbol (symbol : Symbol) :
    (ofSymbol symbol : Polynomial K).laurent = .single (Finsupp.single symbol 1) 1 := by
  change ([(Monomial.ofSymbol symbol : Monomial K)].map Monomial.laurent).sum = _
  simp

theorem laurent_mapCoeffs {f : K → K} (h : ∀ a, f a = a * c) :
    (p.mapCoeffs f).laurent = p.laurent * .single 0 c := by
  unfold laurent mapCoeffs
  rw [List.map_map, ← List.sum_map_mul_right]
  congr 1
  apply List.map_congr_left
  intro n _
  simp [Monomial.laurent, h, AddMonoidAlgebra.single_mul_single]

@[simp] theorem laurent_scale : (p.scale c).laurent = p.laurent * .single 0 c := by
  unfold scale
  split
  · rename_i hzero
    rw [eq_of_beq hzero, AddMonoidAlgebra.single_zero, mul_zero]
    rfl
  · exact laurent_mapCoeffs p c (fun _ => rfl)

@[simp] theorem laurent_neg : (-p).laurent = -p.laurent := by
  change (p.mapCoeffs (- ·)).laurent = _
  rw [laurent_mapCoeffs p (-1) (fun a => by ring), AddMonoidAlgebra.single_neg,
    ← AddMonoidAlgebra.one_def, mul_neg, mul_one]

@[simp] theorem laurent_add : (p + q).laurent = p.laurent + q.laurent := by
  change (ofTerms (p.terms ++ q.terms)).laurent = _
  rw [laurent_ofTerms, List.map_append, List.sum_append]
  rfl

@[simp] theorem laurent_sub : (p - q).laurent = p.laurent - q.laurent := by
  change (ofTerms (p.terms ++ q.terms.map Monomial.neg)).laurent = _
  rw [laurent_ofTerms, List.map_append, List.sum_append, sub_eq_add_neg, ← laurent_neg q]
  rfl

@[simp] theorem laurent_addTerm : (p.addTerm m).laurent = p.laurent + m.laurent := by
  unfold addTerm
  rw [laurent_ofTerms, List.map_append, List.sum_append]
  simp [laurent]

@[simp] theorem laurent_subTerm : (p.subTerm m).laurent = p.laurent - m.laurent := by
  unfold subTerm
  rw [laurent_ofTerms, List.map_append, List.sum_append]
  simp [laurent, sub_eq_add_neg]

@[simp] theorem laurent_mul : (p * q).laurent = p.laurent * q.laurent := by
  change (ofTerms (p.terms.flatMap (fun m => q.terms.map (fun n => m * n)))).laurent = _
  rw [laurent_ofTerms]
  change _ = (p.terms.map Monomial.laurent).sum * q.laurent
  induction p.terms with
  | nil => simp
  | cons m rest ih =>
      have hrow : ((q.terms.map (fun n => m * n)).map Monomial.laurent).sum =
          m.laurent * q.laurent := by
        unfold laurent
        rw [List.map_map, ← List.sum_map_mul_left]
        congr 1
        apply List.map_congr_left
        intro n _
        exact Monomial.laurent_mul m n
      rw [List.flatMap_cons, List.map_append, List.sum_append, hrow, ih, List.map_cons,
        List.sum_cons, add_mul]

@[simp] theorem laurent_mulTerm : (p.mulTerm m).laurent = p.laurent * m.laurent := by
  unfold mulTerm
  split
  · rename_i hzero
    unfold Monomial.laurent
    rw [eq_of_beq hzero, AddMonoidAlgebra.single_zero, mul_zero]
    rfl
  · rw [laurent_ofTerms, List.map_map]
    unfold laurent
    rw [← List.sum_map_mul_right]
    congr 1
    apply List.map_congr_left
    intro n _
    exact Monomial.laurent_mul n m

end Operations

section Coefficients

variable {p q : Polynomial K} {m : Monomial K}

/-- A family that is not among the exponents of the terms has no coefficient. -/
private theorem coeff_sum_eq_zero {terms : List (Monomial K)} {family : Symbol →₀ Int}
    (h : ∀ m ∈ terms, m.exponents.toFinsupp ≠ family) :
    (terms.map Monomial.laurent).sum.coeff family = 0 := by
  induction terms with
  | nil => rfl
  | cons m rest ih =>
      have hfirst : m.laurent.coeff family = 0 :=
        Finsupp.single_eq_of_ne (h m List.mem_cons_self).symm
      rw [List.map_cons, List.sum_cons, AddMonoidAlgebra.coeff_add, Finsupp.add_apply, hfirst,
        ih (fun n hn => h n (List.mem_cons_of_mem m hn)), add_zero]

private theorem coeff_sum_of_mem {terms : List (Monomial K)}
    (hdistinct : (terms.map Monomial.exponents).Nodup) (hm : m ∈ terms) :
    (terms.map Monomial.laurent).sum.coeff m.exponents.toFinsupp = m.coeff := by
  induction terms with
  | nil => cases hm
  | cons n rest ih =>
      rw [List.map_cons, List.nodup_cons] at hdistinct
      have hother (k : Monomial K) (hk : k ∈ rest) :
          k.exponents.toFinsupp ≠ n.exponents.toFinsupp := by
        intro hsame
        apply hdistinct.1
        rw [← Powers.toFinsupp_injective hsame]
        exact List.mem_map_of_mem hk
      rw [List.map_cons, List.sum_cons, AddMonoidAlgebra.coeff_add, Finsupp.add_apply]
      rcases List.mem_cons.1 hm with rfl | hm
      · rw [coeff_sum_eq_zero hother, add_zero]
        exact Finsupp.single_eq_same
      · rw [ih hdistinct.2 hm]
        have hfirst : n.laurent.coeff m.exponents.toFinsupp = 0 :=
          Finsupp.single_eq_of_ne (hother m hm)
        rw [hfirst, zero_add]

theorem coeff_of_mem (hm : m ∈ p.terms) : p.laurent.coeff m.exponents.toFinsupp = m.coeff :=
  coeff_sum_of_mem (nodup_exponents p.increasing) hm

theorem exists_mem_of_coeff_ne_zero {family : Symbol →₀ Int} (h : p.laurent.coeff family ≠ 0) :
    ∃ m ∈ p.terms, m.exponents.toFinsupp = family := by
  by_contra hnone
  push Not at hnone
  exact h (coeff_sum_eq_zero hnone)

/-- The terms of a polynomial are its coefficients other than zero. -/
theorem mem_terms_iff (h : p.Proper) :
    m ∈ p.terms ↔ m.coeff ≠ 0 ∧ p.laurent.coeff m.exponents.toFinsupp = m.coeff := by
  constructor
  · exact fun hm => ⟨h m hm, coeff_of_mem hm⟩
  · rintro ⟨hne, hm⟩
    obtain ⟨n, hn, hsame⟩ := exists_mem_of_coeff_ne_zero (hm ▸ hne)
    have heq : n = m := by
      have hexponents := Powers.toFinsupp_injective hsame
      have hcoeffs : n.coeff = m.coeff := by rw [← coeff_of_mem hn, hsame, hm]
      cases n
      cases m
      cases hexponents
      cases hcoeffs
      rfl
    exact heq ▸ hn

omit [ExactField K] in
/-- A polynomial is determined by which terms it has. -/
theorem ext_mem (h : ∀ m, m ∈ p.terms ↔ m ∈ q.terms) : p = q := by
  have hperm : p.terms.Perm q.terms :=
    (List.perm_ext_iff_of_nodup ((nodup_exponents p.increasing).of_map _)
      ((nodup_exponents q.increasing).of_map _)).2 h
  apply Polynomial.ext
  refine hperm.eq_of_pairwise (fun a b _ _ hab hba => ?_) p.increasing q.increasing
  exact absurd hba (Std.OrientedCmp.not_lt_of_lt hab)

/-- A polynomial without zero coefficients is determined by its Laurent polynomial. -/
theorem eq_of_laurent_eq (hp : p.Proper) (hq : q.Proper) (h : p.laurent = q.laurent) : p = q := by
  apply ext_mem
  intro m
  rw [mem_terms_iff hp, mem_terms_iff hq, h]

theorem isZero_iff (h : p.Proper) : p.isZero = true ↔ p.laurent = 0 := by
  constructor
  · intro hzero
    unfold laurent
    rw [List.isEmpty_iff.1 hzero]
    rfl
  · intro hzero
    have hp : p = 0 := eq_of_laurent_eq h nofun hzero
    rw [hp]
    rfl

/-- To collect terms that are collected changes nothing. -/
theorem ofTerms_terms (h : p.Proper) : ofTerms p.terms = p :=
  eq_of_laurent_eq (proper_ofTerms _) h (laurent_ofTerms _)

theorem terms_ofTerms {terms : List (Monomial K)} (hproper : ∀ m ∈ terms, m.coeff ≠ 0)
    (hincreasing : terms.Pairwise (fun a b => compare a.exponents b.exponents = .lt)) :
    (ofTerms terms).terms = terms :=
  congrArg Polynomial.terms (ofTerms_terms (p := ⟨terms, hincreasing⟩) hproper)

theorem mul_one_eq (h : p.Proper) : p * 1 = p :=
  eq_of_laurent_eq (proper_ofTerms _) h (by rw [laurent_mul, laurent_one, mul_one])

theorem one_mul_eq (h : p.Proper) : 1 * p = p :=
  eq_of_laurent_eq (proper_ofTerms _) h (by rw [laurent_mul, laurent_one, one_mul])

end Coefficients

end Polynomial

end Ramify
