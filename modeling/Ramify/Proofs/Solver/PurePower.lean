import Ramify.Proofs.Algebra.Coefficients
import Ramify.Solver.PurePower

/-!
Pure powers without units. If `a * x^n + b` vanishes at a point, the value of `x` there is among the
roots that are found.
-/

namespace Ramify.PurePower

variable {K : Type} [ExactScalar K] {p : Polynomial K} {symbol : Symbol} {z : Symbol → K}

/-- The form of a polynomial that is split into two terms. -/
theorem split_inv {degree : Nat} {a : Monomial K} {b : Option (Monomial K)}
    (h : split p symbol = .ok (some (degree, a, b))) :
    ∃ offset middle leading, p.splitBy symbol = .ok (offset :: (middle ++ [leading])) ∧
      degree = middle.length + 1 ∧ (∀ q ∈ middle, q.terms = []) ∧ leading.terms = [a] ∧
      offset.terms = b.toList := by
  unfold split at h
  obtain ⟨coeffs, hcoeffs, h⟩ := except_bind_eq_ok.1 h
  match coeffs with
  | [] => cases h
  | [_] => cases h
  | offset :: first :: more =>
      rw [hcoeffs]
      dsimp only at h
      rcases List.eq_nil_or_concat (first :: more) with hnil | ⟨middle, leading, hconcat⟩
      · cases hnil
      · rw [hconcat] at h ⊢
        simp only [List.concat_eq_append, List.dropLast_concat, List.getLastD_concat,
          List.length_append, List.length_singleton] at h
        split at h
        · rename_i hform
          have hmiddle : ∀ q ∈ middle, q.terms = [] := by
            intro q hq
            have hall := (Bool.and_eq_true_iff.1 (Bool.and_eq_true_iff.1 hform).1).1
            exact List.isEmpty_iff.1 (List.all_eq_true.1 hall q hq)
          split at h
          · rename_i hleading hoffset
            cases h
            exact ⟨offset, middle, leading, by simp, rfl, hmiddle, hleading, hoffset⟩
          · rename_i hleading hoffset
            cases h
            exact ⟨offset, middle, leading, by simp, rfl, hmiddle, hleading, hoffset⟩
          · cases h
        · cases h

/-- The value of a pure power is that of its two terms, which are numbers. -/
theorem value_split (hp : p.Within (· = symbol)) {degree : Nat} {a : Monomial K}
    {b : Option (Monomial K)} (h : split p symbol = .ok (some (degree, a, b))) (z : Symbol → K) :
    0 < degree ∧ a.coeff ≠ 0 ∧ a.exponents = ∅ ∧
      (∀ m, b = some m → m.exponents = ∅) ∧
      p.value z = a.coeff * z symbol ^ degree + (b.map Monomial.coeff).getD 0 := by
  obtain ⟨offset, middle, leading, hsplit, hdegree, hmiddle, hleading, hoffset⟩ := split_inv h
  have hwithin := Polynomial.within_splitBy hp hsplit
  have hnone (q : Polynomial K) (hq : q ∈ offset :: (middle ++ [leading])) :
      q.Proper ∧ ∀ m ∈ q.terms, m.exponents = ∅ := by
    refine ⟨(hwithin q hq).proper, ?_⟩
    intro m hm
    apply Powers.ext_get
    intro s
    by_contra hne
    exact ((hwithin q hq).over m hm s hne).2 ((hwithin q hq).over m hm s hne).1
  have hlast : leading ∈ offset :: (middle ++ [leading]) := by simp
  have ha : a ∈ leading.terms := hleading ▸ List.mem_singleton_self a
  have haexp := (hnone leading hlast).2 a ha
  have hbexp : ∀ m, b = some m → m.exponents = ∅ := by
    rintro m rfl
    exact (hnone offset List.mem_cons_self).2 m (hoffset ▸ List.mem_singleton_self m)
  refine ⟨by omega, (hnone leading hlast).1 a ha, haexp, hbexp, ?_⟩
  have hvalue := Polynomial.value_splitBy hp.natural hsplit z
  rw [List.map_cons, List.map_append, List.map_singleton, RealRoots.valueAt_cons,
    RealRoots.valueAt_append, List.length_map] at hvalue
  have hzeros : RealRoots.valueAt (middle.map (Polynomial.value z)) (z symbol) = 0 := by
    clear hsplit hdegree hwithin hnone hlast hvalue
    induction middle with
    | nil => rfl
    | cons q rest ih =>
        have hq : q.value z = 0 := by
          unfold Polynomial.value
          rw [hmiddle q List.mem_cons_self]
          rfl
        rw [List.map_cons, RealRoots.valueAt_cons, hq,
          ih (fun r hr => hmiddle r (List.mem_cons_of_mem q hr)), mul_zero, add_zero]
  have hleadingValue : leading.value z = a.coeff := by
    unfold Polynomial.value
    rw [hleading, List.map_singleton, List.sum_singleton]
    unfold Monomial.value
    rw [haexp, Powers.value_one, mul_one]
  have hoffsetValue : offset.value z = (b.map Monomial.coeff).getD 0 := by
    unfold Polynomial.value
    rw [hoffset]
    cases b with
    | none => rfl
    | some m =>
        rw [Option.toList_some, List.map_singleton, List.sum_singleton]
        unfold Monomial.value
        rw [hbexp m rfl, Powers.value_one, mul_one]
        rfl
  rw [hzeros, hleadingValue, hoffsetValue] at hvalue
  rw [hdegree, pow_succ]
  linear_combination -hvalue

/-- Without unit tags the unit of the roots is one, and each root is the number it is made from. -/
theorem hasValue_root (degree : Nat) (z : Symbol → K) :
    ∃ unit, Fraction.make (.ofMonomial (rootPart degree ∅ true : Monomial K))
        (.ofMonomial (rootPart degree ∅ false)) = .ok unit ∧
      ∀ root : K, ∃ v, (Fraction.const root).mul unit = .ok v ∧ v.HasValue z root := by
  have hpart (positive : Bool) : (rootPart degree ∅ positive : Monomial K) = ⟨1, ∅⟩ := rfl
  obtain ⟨unit, hunit, hunitValue⟩ : ∃ unit,
      Fraction.make (.ofMonomial (⟨1, ∅⟩ : Monomial K)) (.ofMonomial ⟨1, ∅⟩) = .ok unit ∧
        unit.HasValue z 1 := by
    have hall : (Polynomial.ofMonomial (⟨1, ∅⟩ : Monomial K)).All (Powers.DefinedAt z) :=
      Polynomial.all_ofMonomial (Fraction.natural_empty.definedAt z)
    have hone : (Polynomial.ofMonomial (⟨1, ∅⟩ : Monomial K)).value z = 1 :=
      Polynomial.value_const z 1
    apply Fraction.hasValue_make hall hall
    · rw [hone]
      exact one_ne_zero
    · rw [hone, one_mul]
  refine ⟨unit, by rw [hpart, hpart]; exact hunit, fun root => ?_⟩
  obtain ⟨v, hv, hvalue⟩ := Fraction.hasValue_mul (Fraction.hasValue_const z root) hunitValue
  rw [mul_one] at hvalue
  exact ⟨v, hv, hvalue⟩

/-- The value of a symbol is among the roots of its power. -/
theorem exists_rootsOf {degree : Nat} (hdegree : 0 < degree) {ratio x : K} (hx : x ^ degree = ratio)
    (hz : z symbol = x) {values : List (Fraction K)}
    (h : rootsOf degree ratio ∅ = .ok values) : ∃ v ∈ values, v.HasValue z (z symbol) := by
  obtain ⟨unit, hunit, hproduct⟩ := hasValue_root degree z
  unfold rootsOf at h
  rw [hunit, except_ok_bind] at h
  have habs : |x| ^ degree = |ratio| := by rw [← abs_pow, hx]
  split at h
  · rename_i heven
    split at h
    · rename_i hneg
      have hpow : 0 ≤ x ^ degree := (Nat.even_iff.2 heven).pow_nonneg x
      rw [hx] at hpow
      exact absurd hneg (not_lt.2 hpow)
    · rename_i hpos
      have hroot : Scalar.root ratio degree = |x| := by
        rw [← abs_of_nonneg (not_lt.1 hpos), ← habs]
        exact ExactScalar.root_pow |x| degree (abs_nonneg x) hdegree
      obtain ⟨low, hlow, hlowValue⟩ := hproduct (-|x|)
      obtain ⟨high, hhigh, hhighValue⟩ := hproduct |x|
      simp only [hroot, hlow, hhigh, except_ok_bind] at h
      cases h
      rw [hz]
      rcases abs_choice x with hsame | hopposite
      · refine ⟨high, by simp, ?_⟩
        rw [hsame] at hhighValue
        exact hhighValue
      · refine ⟨low, by simp, ?_⟩
        rw [hopposite, neg_neg] at hlowValue
        exact hlowValue
  · rename_i hodd
    have hroot : Scalar.copySign (Scalar.root (Scalar.abs ratio) degree) ratio = x := by
      rw [ExactScalar.scalar_abs, ← habs, ExactScalar.root_pow |x| degree (abs_nonneg x) hdegree,
        ExactScalar.copySign_eq, abs_abs]
      have hsign : ratio < 0 ↔ x < 0 := by
        rw [← hx]
        exact (Nat.odd_iff.2 (by omega)).pow_neg_iff
      split
      · rename_i hneg
        rw [abs_of_neg (hsign.1 hneg), neg_neg]
      · rename_i hpos
        exact abs_of_nonneg (not_lt.1 (fun hneg => hpos (hsign.2 hneg)))
    obtain ⟨v, hv, hvalue⟩ := hproduct x
    simp only [hroot, hv, except_ok_bind] at h
    cases h
    rw [hz]
    exact ⟨v, List.mem_singleton_self v, hvalue⟩

/-- What is listed as a root is one, if roots exist. -/
theorem pow_of_rootsOf (hroots : ExactScalar.HasRoots K) {degree : Nat} (hdegree : 0 < degree)
    {ratio x : K} {values : List (Fraction K)} (h : rootsOf degree ratio ∅ = .ok values)
    {v : Fraction K} (hv : v ∈ values) (hvalue : v.HasValue z x) : x ^ degree = ratio := by
  obtain ⟨unit, hunit, hproduct⟩ := hasValue_root degree z
  unfold rootsOf at h
  rw [hunit, except_ok_bind] at h
  split at h
  · rename_i heven
    split at h
    · cases h
      cases hv
    · rename_i hpos
      have hpower := hroots ratio degree (not_lt.1 hpos) hdegree
      obtain ⟨low, hlow, hlowValue⟩ := hproduct (-Scalar.root ratio degree)
      obtain ⟨high, hhigh, hhighValue⟩ := hproduct (Scalar.root ratio degree)
      simp only [hlow, hhigh, except_ok_bind] at h
      cases h
      rcases List.mem_cons.1 hv with rfl | hv
      · rw [hvalue.unique hlowValue, (Nat.even_iff.2 heven).neg_pow]
        exact hpower
      · rw [List.mem_singleton.1 hv] at hvalue
        rw [hvalue.unique hhighValue]
        exact hpower
  · have hpower := hroots |ratio| degree (abs_nonneg ratio) hdegree
    obtain ⟨root, hroot, hrootValue⟩ :=
      hproduct (Scalar.copySign (Scalar.root (Scalar.abs ratio) degree) ratio)
    simp only [hroot, except_ok_bind] at h
    cases h
    rw [List.mem_singleton.1 hv] at hvalue
    rw [hvalue.unique hrootValue, ExactScalar.scalar_abs, ExactScalar.copySign_eq]
    have hodd : Odd degree := Nat.odd_iff.2 (by omega)
    have habs : |Scalar.root |ratio| degree| ^ degree = |ratio| := by
      rw [← abs_pow, hpower, abs_abs]
    split
    · rename_i hneg
      rw [hodd.neg_pow, habs, abs_of_neg hneg, neg_neg]
    · rename_i hpos
      rw [habs, abs_of_nonneg (not_lt.1 hpos)]

theorem within_rootsOf (P : Symbol → Prop) {degree : Nat} {ratio : K} {values : List (Fraction K)}
    (h : rootsOf degree ratio ∅ = .ok values) : ∀ v ∈ values, v.Within P := by
  have hpart (positive : Bool) : (rootPart degree ∅ positive : Monomial K) = ⟨1, ∅⟩ := rfl
  unfold rootsOf at h
  rw [hpart, hpart] at h
  obtain ⟨unit, hunit, h⟩ := except_bind_eq_ok.1 h
  have hunit' : unit.Over P := (Fraction.within_make hunit
    (Polynomial.all_ofMonomial (Fraction.over_empty P))
    (Polynomial.all_ofMonomial (Fraction.over_empty P))).over
  split at h
  · split at h
    · cases h
      nofun
    · obtain ⟨low, hlow, h⟩ := except_bind_eq_ok.1 h
      obtain ⟨high, hhigh, h⟩ := except_bind_eq_ok.1 h
      cases h
      intro v hv
      rcases List.mem_cons.1 hv with rfl | hv
      · exact Fraction.within_mul (Fraction.within_const P _).over hunit' hlow
      · rw [List.mem_singleton.1 hv]
        exact Fraction.within_mul (Fraction.within_const P _).over hunit' hhigh
  · obtain ⟨root, hroot, h⟩ := except_bind_eq_ok.1 h
    cases h
    intro v hv
    rw [List.mem_singleton.1 hv]
    exact Fraction.within_mul (Fraction.within_const P _).over hunit' hroot

/-- The roots of a polynomial in one symbol are zero, if there is a single term, and otherwise those
of a number. -/
theorem roots_cases (hp : p.Within (· = symbol)) {values : List (Fraction K)}
    (h : roots p symbol = .ok (some values)) :
    ∃ degree a b, 0 < degree ∧ a ≠ 0 ∧ (∀ z, p.value z = a * z symbol ^ degree + b) ∧
      ((values = [.const 0] ∧ b = 0) ∨ rootsOf degree (-b / a) ∅ = .ok values) := by
  unfold roots at h
  obtain ⟨found, hfound, h⟩ := except_bind_eq_ok.1 h
  rcases found with _ | ⟨degree, a, _ | b⟩
  · cases h
  · cases h
    obtain ⟨hdegree, ha, _⟩ := value_split hp hfound (fun _ => 0)
    exact ⟨degree, a.coeff, 0, hdegree, ha, fun z => (value_split hp hfound z).2.2.2.2,
      Or.inl ⟨rfl, rfl⟩⟩
  · obtain ⟨hdegree, ha, haexp, hbexp, _⟩ := value_split hp hfound (fun _ => 0)
    have hexponents : b.exponents.div a.exponents = ∅ := by
      rw [haexp, hbexp b rfl]
      apply Powers.ext_get
      intro s
      rw [Powers.get_div]
      rfl
    have hdivisible : divisible degree (∅ : Exponents) = true := rfl
    simp only [hexponents, hdivisible, if_true] at h
    refine ⟨degree, a.coeff, b.coeff, hdegree, ha, fun z => (value_split hp hfound z).2.2.2.2,
      Or.inr ?_⟩
    rcases hroots : rootsOf degree (-b.coeff / a.coeff) (∅ : Exponents) with cause | found
    · rw [hroots] at h
      cases h
    · rw [hroots] at h
      cases h
      rfl

/-- The roots are numbers. -/
theorem within_roots (P : Symbol → Prop) (hp : p.Within (· = symbol)) {values : List (Fraction K)}
    (h : roots p symbol = .ok (some values)) : ∀ v ∈ values, v.Within P := by
  obtain ⟨degree, a, b, _, _, _, hfound⟩ := roots_cases hp h
  rcases hfound with ⟨rfl, _⟩ | hfound
  · exact List.forall_mem_singleton.2 (Fraction.within_const P 0)
  · exact within_rootsOf P hfound

/-- Where a polynomial in one symbol vanishes, the value of the symbol is among the roots. -/
theorem exists_roots (hp : p.Within (· = symbol)) {values : List (Fraction K)}
    (h : roots p symbol = .ok (some values)) (hz : p.value z = 0) :
    ∃ v ∈ values, v.HasValue z (z symbol) := by
  obtain ⟨degree, a, b, hdegree, ha, hvalue, hfound⟩ := roots_cases hp h
  have hzero := (hvalue z).symm.trans hz
  rcases hfound with ⟨rfl, rfl⟩ | hfound
  · rw [add_zero] at hzero
    have hsymbol : z symbol = 0 := pow_eq_zero_iff (Nat.ne_of_gt hdegree) |>.1
      ((mul_eq_zero.1 hzero).resolve_left ha)
    refine ⟨.const 0, List.mem_singleton_self _, ?_⟩
    rw [hsymbol]
    exact Fraction.hasValue_const z 0
  · have hpower : z symbol ^ degree = -b / a := by
      rw [eq_div_iff ha]
      linear_combination hzero
    exact exists_rootsOf hdegree hpower rfl hfound

/-- Where the value of the symbol is a root, the polynomial vanishes, if roots exist. -/
theorem value_of_roots (hroots : ExactScalar.HasRoots K) (hp : p.Within (· = symbol))
    {values : List (Fraction K)} (h : roots p symbol = .ok (some values)) {v : Fraction K}
    (hv : v ∈ values) (hz : v.HasValue z (z symbol)) : p.value z = 0 := by
  obtain ⟨degree, a, b, hdegree, ha, hvalue, hfound⟩ := roots_cases hp h
  rw [hvalue]
  rcases hfound with ⟨rfl, rfl⟩ | hfound
  · rw [List.mem_singleton.1 hv] at hz
    rw [hz.unique (Fraction.hasValue_const z 0), zero_pow (Nat.ne_of_gt hdegree), mul_zero,
      add_zero]
  · rw [pow_of_rootsOf hroots hdegree hfound hv hz, mul_div_cancel₀ _ ha, neg_add_cancel]

end Ramify.PurePower
