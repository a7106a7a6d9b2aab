import Mathlib.Algebra.Polynomial.Roots
import Mathlib.Tactic.LinearCombination
import Mathlib.Tactic.Ring
import Ramify.Proofs.Scalar.Exact
import Ramify.Solver.Methods
import Ramify.Solver.RealRoots

/-!
Real roots over exact numbers. Without tolerances every real root of a polynomial is found, provided
that the numerical method finds the roots of polynomials of degree two and more.
-/

namespace Ramify

structure SolverSettings.Exact {K : Type} [Zero K] (settings : SolverSettings K) : Prop where
  zero : settings.zeroTolerance = 0
  real : settings.realTolerance = 0
  merge : settings.mergeTolerance = 0
  residual : settings.residualTolerance = 0

section Sorting

variable {K : Type} [Scalar K] {x : K}

theorem Scalar.mem_insertBehind (y : K) (numbers : List K) :
    x ∈ insertBehind y numbers ↔ x = y ∨ x ∈ numbers := by
  induction numbers with
  | nil => simp [insertBehind]
  | cons first rest ih =>
      unfold insertBehind
      split
      · rw [List.mem_cons]
      · rw [List.mem_cons, ih, List.mem_cons]
        tauto

theorem Scalar.mem_insertAscending (y : K) (numbers : List K) :
    x ∈ insertAscending y numbers ↔ x = y ∨ x ∈ numbers := by
  cases numbers with
  | nil => simp [insertAscending]
  | cons first rest =>
      rw [insertAscending]
      split
      · rw [List.mem_cons]
      · rw [List.mem_cons, mem_insertBehind, List.mem_cons]
        tauto

/-- Sorting keeps the numbers. -/
theorem Scalar.mem_sort (numbers : List K) : x ∈ sort numbers ↔ x ∈ numbers := by
  have hfold (acc : List K) : x ∈ numbers.foldl (fun acc y => insertAscending y acc) acc ↔
      x ∈ acc ∨ x ∈ numbers := by
    induction numbers generalizing acc with
    | nil => simp
    | cons y rest ih =>
        rw [List.foldl_cons, ih, mem_insertAscending, List.mem_cons]
        tauto
  unfold sort
  rw [hfold]
  simp

end Sorting

namespace RealRoots

variable {K : Type} [ExactScalar K]

/-- The value of a polynomial that is given by its coefficients from the constant term up. -/
def valueAt (coeffs : List K) (x : K) : K := coeffs.foldr (fun c acc => c + x * acc) 0

@[simp] theorem valueAt_nil (x : K) : valueAt [] x = 0 := rfl

@[simp] theorem valueAt_cons (c : K) (coeffs : List K) (x : K) :
    valueAt (c :: coeffs) x = c + x * valueAt coeffs x := rfl

theorem valueAt_append (coeffs : List K) (c x : K) :
    valueAt (coeffs ++ [c]) x = valueAt coeffs x + c * x ^ coeffs.length := by
  induction coeffs with
  | nil => simp
  | cons d rest ih =>
      rw [List.cons_append, valueAt_cons, ih, valueAt_cons, List.length_cons, pow_succ]
      ring

theorem valueAndSlope_fst (coeffs : List K) (x : K) :
    (valueAndSlope coeffs x).1 = valueAt coeffs x := by
  unfold valueAndSlope
  rw [List.foldl_reverse]
  induction coeffs with
  | nil => rfl
  | cons c rest ih =>
      rw [List.foldr_cons, ih, valueAt_cons]
      ring

/-- Whether the numerical method finds every real root of a polynomial of degree two or more. -/
def FindsRealRoots (numerics : Numerics K) : Prop :=
  ∀ coeffs : List K, 3 ≤ coeffs.length → coeffs.getLast? ≠ some 0 →
    ∀ x, valueAt coeffs x = 0 → (x, 0) ∈ numerics.complexRoots coeffs

/-- Only zeros are dropped if there is no tolerance. -/
theorem dropNegligible_zero (coeffs : List K) (h : ∃ c ∈ coeffs, c ≠ 0) :
    (∀ x, valueAt (dropNegligible 0 coeffs).reverse x = valueAt coeffs.reverse x) ∧
      ∃ c, (dropNegligible 0 coeffs).head? = some c ∧ c ≠ 0 := by
  induction coeffs with
  | nil =>
      obtain ⟨c, hc, _⟩ := h
      cases hc
  | cons first rest ih =>
      cases rest with
      | nil =>
          obtain ⟨c, hc, hne⟩ := h
          rw [List.mem_singleton.1 hc] at hne
          exact ⟨fun _ => rfl, first, rfl, hne⟩
      | cons next rest =>
          unfold dropNegligible
          split
          · rename_i hsmall
            have hzero : first = 0 := by
              rw [ExactScalar.scalar_abs] at hsmall
              exact abs_nonpos_iff.1 hsmall
            have hlater : ∃ c ∈ next :: rest, c ≠ 0 := by
              obtain ⟨c, hc, hne⟩ := h
              rcases List.mem_cons.1 hc with rfl | hc
              · exact absurd hzero hne
              · exact ⟨c, hc, hne⟩
            obtain ⟨hvalue, hhead⟩ := ih hlater
            refine ⟨?_, hhead⟩
            intro x
            rw [hvalue, List.reverse_cons (a := first), valueAt_append, hzero, zero_mul, add_zero]
          · rename_i hlarge
            refine ⟨fun _ => rfl, first, rfl, ?_⟩
            rintro rfl
            apply hlarge
            rw [ExactScalar.scalar_abs, abs_zero]

theorem dropLeading_zero {coeffs : List K} (h : ∃ c ∈ coeffs, c ≠ 0) :
    (∀ x, valueAt (dropLeading 0 coeffs) x = valueAt coeffs x) ∧
      ∃ c, (dropLeading 0 coeffs).getLast? = some c ∧ c ≠ 0 := by
  have hlargest (start : K) (hstart : 0 ≤ start) (l : List K)
      (hl : start ≠ 0 ∨ ∃ c ∈ l, c ≠ 0) :
      l.foldl (fun acc c => Scalar.max acc (Scalar.abs c)) start ≠ 0 := by
    induction l generalizing start with
    | nil => exact hl.resolve_right (by simp)
    | cons c rest ih =>
        rw [List.foldl_cons]
        simp only [ExactScalar.scalar_max, ExactScalar.scalar_abs] at ih ⊢
        apply ih _ (le_max_of_le_left hstart)
        rcases hl with hne | ⟨d, hd, hne⟩
        · exact Or.inl (ne_of_gt (lt_max_of_lt_left (lt_of_le_of_ne hstart (Ne.symm hne))))
        · rcases List.mem_cons.1 hd with rfl | hd
          · exact Or.inl (ne_of_gt (lt_max_of_lt_right (abs_pos.2 hne)))
          · exact Or.inr ⟨d, hd, hne⟩
  have hne := hlargest 0 (le_refl 0) coeffs (Or.inr h)
  have hreverse : ∃ c ∈ coeffs.reverse, c ≠ 0 := by
    obtain ⟨c, hc, hc0⟩ := h
    exact ⟨c, List.mem_reverse.2 hc, hc0⟩
  obtain ⟨hvalue, c, hhead, hc⟩ := dropNegligible_zero coeffs.reverse hreverse
  unfold dropLeading
  simp only [beq_iff_eq, if_neg hne, zero_mul]
  refine ⟨?_, c, ?_, hc⟩
  · intro x
    rw [hvalue, List.reverse_reverse]
  · rw [List.getLast?_reverse]
    exact hhead

/-- The complex roots have every real root among them. -/
theorem mem_complexRoots {numerics : Numerics K} (hnumerics : FindsRealRoots numerics)
    {coeffs : List K} (h : ∃ c ∈ coeffs, c ≠ 0) {x : K} (hx : valueAt coeffs x = 0) :
    (x, 0) ∈ complexRoots numerics 0 coeffs := by
  obtain ⟨hvalue, c, hlast, hc⟩ := dropLeading_zero h
  have hroot := (hvalue x).trans hx
  unfold complexRoots
  generalize dropLeading 0 coeffs = trimmed at hlast hroot
  match trimmed with
  | [] => cases hlast
  | [d] =>
      obtain rfl : d = c := Option.some.inj hlast
      rw [valueAt_cons, valueAt_nil, mul_zero, add_zero] at hroot
      exact absurd hroot hc
  | [offset, slope] =>
      obtain rfl : slope = c := Option.some.inj hlast
      rw [valueAt_cons, valueAt_cons, valueAt_nil, mul_zero, add_zero] at hroot
      have hx' : x = -offset / slope := by
        rw [eq_div_iff hc]
        linear_combination hroot
      rw [hx']
      exact List.mem_singleton_self _
  | a :: b :: d :: rest =>
      apply hnumerics _ _ _ x hroot
      · simp
      · rw [hlast]
        simpa using hc

/-- A root stays where it is when it is refined. -/
theorem refine_root {coeffs : List K} {x : K} (hx : valueAt coeffs x = 0) (steps : Int) :
    refine coeffs x steps = x := by
  have hvalue : (valueAndSlope coeffs x).1 = 0 := (valueAndSlope_fst coeffs x).trans hx
  unfold refine
  generalize valueAndSlope coeffs x = pair at hvalue
  obtain ⟨value, slope⟩ := pair
  dsimp only at hvalue ⊢
  subst hvalue
  cases steps.toNat with
  | zero => rfl
  | succ n =>
      unfold newtonSteps
      simp

/-- Merging without tolerances drops nothing but repetitions. -/
theorem mem_mergeRoots {settings : SolverSettings K} (hsettings : settings.Exact) {x : K}
    (roots found : List K) :
    x ∈ roots.foldl (mergeRoot settings) found ↔ x ∈ found ∨ x ∈ roots := by
  induction roots generalizing found with
  | nil => simp
  | cons root rest ih =>
      have hkeep : (if Scalar.abs root < settings.zeroTolerance then 0 else root) = root := by
        rw [if_neg]
        rw [hsettings.zero, ExactScalar.scalar_abs]
        exact not_lt.2 (abs_nonneg root)
      have hmerge : x ∈ mergeRoot settings found root ↔ x ∈ found ∨ x = root := by
        unfold mergeRoot
        dsimp only
        rw [hkeep, hsettings.merge, zero_mul]
        cases hlast : found.getLast? with
        | none =>
            rw [List.getLast?_eq_none_iff.1 hlast]
            simp
        | some last =>
            dsimp only
            split
            · rename_i hsame
              rw [ExactScalar.scalar_abs] at hsame
              have heq : root = last := sub_eq_zero.1 (abs_nonpos_iff.1 hsame)
              refine ⟨Or.inl, fun h => h.elim id ?_⟩
              rintro rfl
              rw [heq]
              exact List.mem_of_getLast? hlast
            · rw [List.mem_append, List.mem_singleton]
      rw [List.foldl_cons, ih, hmerge, List.mem_cons, or_assoc]

def FindsAll (numerics : Numerics K) (settings : SolverSettings K) : Prop :=
  ∀ coeffs : List K, (∃ c ∈ coeffs, c ≠ 0) →
    ∀ x, valueAt coeffs x = 0 → x ∈ find numerics settings coeffs

/-- Whether the real roots of a polynomial are found, and nothing else. -/
def FindsExactly (numerics : Numerics K) (settings : SolverSettings K) : Prop :=
  ∀ coeffs : List K, (∃ c ∈ coeffs, c ≠ 0) →
    ∀ x, x ∈ find numerics settings coeffs ↔ valueAt coeffs x = 0

/-- Every real root is found if the numerical method finds it and there are no tolerances. -/
theorem findsAll_of_exact {numerics : Numerics K} (hnumerics : FindsRealRoots numerics)
    {settings : SolverSettings K} (hsettings : settings.Exact) : FindsAll numerics settings := by
  intro coeffs h x hx
  obtain ⟨hvalue, c, hlast, hc⟩ := dropLeading_zero h
  have hroot := (hvalue x).trans hx
  have hmem := mem_complexRoots hnumerics ⟨c, List.mem_of_getLast? hlast, hc⟩ hroot
  unfold find
  rw [hsettings.zero, hsettings.real]
  rw [mem_mergeRoots hsettings, Scalar.mem_sort]
  right
  refine List.mem_map.2 ⟨(x, 0), List.mem_filter.2 ⟨hmem, ?_⟩, refine_root hroot _⟩
  unfold isReal
  simp

section Algebraic

/-- The polynomial of abstract algebra with given coefficients, from the constant term up. -/
noncomputable def algebraic (coeffs : List K) :=
  coeffs.foldr (fun c acc => Polynomial.C c + Polynomial.X * acc) 0

theorem algebraic_eval (coeffs : List K) (x : K) :
    (algebraic coeffs).eval x = valueAt coeffs x := by
  induction coeffs with
  | nil => exact Polynomial.eval_zero
  | cons c rest ih =>
      change (Polynomial.C c + Polynomial.X * algebraic rest).eval x = _
      rw [Polynomial.eval_add, Polynomial.eval_C, Polynomial.eval_mul, Polynomial.eval_X, ih,
        valueAt_cons]

theorem algebraic_coeff (coeffs : List K) (i : Nat) :
    (algebraic coeffs).coeff i = coeffs.getD i 0 := by
  induction coeffs generalizing i with
  | nil => exact Polynomial.coeff_zero i
  | cons c rest ih =>
      change (Polynomial.C c + Polynomial.X * algebraic rest).coeff i = _
      rw [Polynomial.coeff_add, Polynomial.coeff_C]
      cases i with
      | zero => simp
      | succ i =>
          rw [Polynomial.coeff_X_mul, ih]
          simp

/-- The numerical methods with all real roots of a polynomial for its complex roots. -/
noncomputable def exactNumerics : Numerics K :=
  { Methods.standard with
    complexRoots := fun coeffs => (algebraic coeffs).roots.toList.map (fun x => (x, 0)) }

theorem exactNumerics_finds : FindsRealRoots (exactNumerics : Numerics K) := by
  intro coeffs hlength hlast x hx
  have hne : algebraic coeffs ≠ 0 := by
    intro hzero
    have hcoeff := algebraic_coeff coeffs (coeffs.length - 1)
    rw [hzero, Polynomial.coeff_zero, List.getD_eq_getElem?_getD,
      ← List.getLast?_eq_getElem?] at hcoeff
    cases hget : coeffs.getLast? with
    | none =>
        rw [List.getLast?_eq_none_iff] at hget
        rw [hget] at hlength
        cases hlength
    | some c =>
        rw [hget] at hcoeff hlast
        exact hlast (congrArg some hcoeff.symm)
  refine List.mem_map.2 ⟨x, ?_, rfl⟩
  rw [Multiset.mem_toList, Polynomial.mem_roots hne]
  exact (algebraic_eval coeffs x).trans hx

/-- What is taken for a complex root is a root. -/
theorem value_of_complexRoots {coeffs : List K} (h : ∃ c ∈ coeffs, c ≠ 0) {root : K × K}
    (hroot : root ∈ complexRoots exactNumerics 0 coeffs) : valueAt coeffs root.1 = 0 := by
  obtain ⟨hvalue, c, hlast, hc⟩ := dropLeading_zero h
  rw [← hvalue]
  unfold complexRoots at hroot
  generalize dropLeading 0 coeffs = trimmed at hlast hroot
  split at hroot
  · cases hroot
  · cases hroot
  · rename_i offset slope
    obtain rfl : slope = c := Option.some.inj hlast
    rw [List.mem_singleton.1 hroot, valueAt_cons, valueAt_cons, valueAt_nil, mul_zero, add_zero,
      div_mul_cancel₀ _ hc, add_neg_cancel]
  · obtain ⟨x, hx, rfl⟩ := List.mem_map.1 hroot
    rw [← algebraic_eval]
    exact (Polynomial.mem_roots'.1 (Multiset.mem_toList.1 hx)).2

/-- With all real roots for the complex ones, and without tolerances, the real roots are found. -/
theorem exactNumerics_findsExactly {settings : SolverSettings K} (hsettings : settings.Exact) :
    FindsExactly exactNumerics settings := by
  intro coeffs h x
  refine ⟨fun hx => ?_, findsAll_of_exact exactNumerics_finds hsettings coeffs h x⟩
  obtain ⟨hvalue, c, hlast, hc⟩ := dropLeading_zero h
  unfold find at hx
  rw [hsettings.zero, mem_mergeRoots hsettings, Scalar.mem_sort] at hx
  obtain ⟨root, hroot, rfl⟩ := List.mem_map.1 (hx.resolve_left List.not_mem_nil)
  have hzero := value_of_complexRoots ⟨c, List.mem_of_getLast? hlast, hc⟩
    (List.mem_filter.1 hroot).1
  rw [refine_root hzero, ← hvalue]
  exact hzero

end Algebraic

end RealRoots

end Ramify
