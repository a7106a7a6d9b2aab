import Mathlib.Tactic.FieldSimp
import Ramify.Algebra.Fraction
import Ramify.Proofs.Action
import Ramify.Proofs.Algebra.Value

/-!
The value of a fraction, and its normal form. Where a fraction has a value it is kept by the normal
form, and sums, products and quotients of fractions with values have the values that one expects;
in particular these operations succeed.
-/

namespace Ramify.Fraction

section Proper

variable {K : Type} [ExactField K]

instance : LawfulBEq (Fraction K) where
  eq_of_beq {a b} h := by
    obtain ⟨hnum, hden⟩ := Bool.and_eq_true_iff.1 h
    cases a
    cases b
    cases eq_of_beq hnum
    cases eq_of_beq hden
    rfl
  rfl {a} := Bool.and_eq_true_iff.2 ⟨beq_self_eq_true a.num, beq_self_eq_true a.den⟩

theorem proper_divContent {p : Polynomial K} (h : p.Proper) (shared : Exponents) :
    (divContent p shared).Proper := by
  unfold divContent
  split
  · exact h
  · exact Polynomial.proper_ofTerms _

theorem lead_ne_zero {p : Polynomial K} (h : p.Proper) : lead p ≠ 0 := by
  unfold lead
  cases hlast : p.terms.getLast? with
  | none => exact one_ne_zero
  | some m => exact h m (List.mem_of_getLast? hlast)

theorem lead_mapCoeffs {p : Polynomial K} (h : p.Proper) :
    lead (p.mapCoeffs (· / lead p)) = 1 := by
  have hne := lead_ne_zero h
  unfold lead Polynomial.mapCoeffs at *
  rw [List.getLast?_map]
  cases hlast : p.terms.getLast? with
  | none => rfl
  | some m =>
      rw [hlast] at hne
      exact div_self hne

theorem proper_mapCoeffs {p : Polynomial K} (h : p.Proper) {c : K} (hc : c ≠ 0) :
    (p.mapCoeffs (· / c)).Proper := by
  intro m hm
  obtain ⟨n, hn, rfl⟩ := List.mem_map.1 hm
  exact div_ne_zero (h n hn) hc

theorem proper_one : (1 : Polynomial K).Proper := by
  intro m hm
  rw [List.mem_singleton.1 hm]
  exact one_ne_zero

end Proper

variable {K : Type} [ExactScalar K]

instance : DecidableEq (Fraction K) := fun _ _ => decidable_of_iff _ beq_iff_eq

/-- A fraction has a value at a point: no negative power of zero occurs, the denominator does not
vanish, and the value is the quotient. -/
structure HasValue (z : Symbol → K) (a : Fraction K) (v : K) : Prop where
  num_defined : a.num.All (Powers.DefinedAt z)
  den_defined : a.den.All (Powers.DefinedAt z)
  den_ne : a.den.value z ≠ 0
  eq : a.num.value z = v * a.den.value z

instance (z : Symbol → K) (a : Fraction K) (v : K) : Decidable (a.HasValue z v) :=
  decidable_of_iff
    (a.num.All (Powers.DefinedAt z) ∧ a.den.All (Powers.DefinedAt z) ∧ a.den.value z ≠ 0 ∧
      a.num.value z = v * a.den.value z)
    ⟨fun ⟨hnum, hden, hne, heq⟩ => ⟨hnum, hden, hne, heq⟩,
      fun h => ⟨h.num_defined, h.den_defined, h.den_ne, h.eq⟩⟩

omit [ExactScalar K] in
def Over (P : Symbol → Prop) (a : Fraction K) : Prop :=
  a.num.All (Powers.Over P) ∧ a.den.All (Powers.Over P)

omit [ExactScalar K] in
instance (P : Symbol → Prop) [DecidablePred P] (a : Fraction K) : Decidable (a.Over P) :=
  inferInstanceAs (Decidable (_ ∧ _))

/-- A fraction in normal form, in which only symbols with a property occur. -/
structure Within (P : Symbol → Prop) (a : Fraction K) : Prop where
  num_proper : a.num.Proper
  den_proper : a.den.Proper
  num_natural : a.num.All Powers.Natural
  den_natural : a.den.All Powers.Natural
  num_over : a.num.All (Powers.Over P)
  den_over : a.den.All (Powers.Over P)
  monic : lead a.den = 1

theorem Within.over {P : Symbol → Prop} {a : Fraction K} (h : a.Within P) : a.Over P :=
  ⟨h.num_over, h.den_over⟩

section Content

variable {symbol : Symbol} {terms : List (Monomial K)}

omit [ExactScalar K] in
private theorem foldl_min (symbol : Symbol) (terms : List (Monomial K)) (start : Int) :
    terms.foldl (fun acc n => min acc (n.degree symbol)) start ≤ start ∧
      (∀ m ∈ terms, terms.foldl (fun acc n => min acc (n.degree symbol)) start ≤ m.degree symbol) ∧
      (terms.foldl (fun acc n => min acc (n.degree symbol)) start = start ∨
        ∃ m ∈ terms,
          m.degree symbol = terms.foldl (fun acc n => min acc (n.degree symbol)) start) := by
  induction terms generalizing start with
  | nil => exact ⟨le_refl _, nofun, Or.inl rfl⟩
  | cons n rest ih =>
      obtain ⟨hle, hall, hattained⟩ := ih (min start (n.degree symbol))
      rw [List.foldl_cons]
      refine ⟨hle.trans (min_le_left _ _), ?_, ?_⟩
      · intro m hm
        rcases List.mem_cons.1 hm with rfl | hm
        · exact hle.trans (min_le_right _ _)
        · exact hall m hm
      · rcases hattained with heq | ⟨m, hm, heq⟩
        · rcases min_choice start (n.degree symbol) with hmin | hmin
          · exact Or.inl (heq.trans hmin)
          · exact Or.inr ⟨n, List.mem_cons_self, (heq.trans hmin).symm⟩
        · exact Or.inr ⟨m, List.mem_cons_of_mem _ hm, heq⟩

omit [ExactScalar K] in
theorem leastDegree_le {m : Monomial K} (hm : m ∈ terms) :
    leastDegree symbol terms ≤ m.degree symbol := by
  cases terms with
  | nil => cases hm
  | cons first rest =>
      obtain ⟨hle, hall, _⟩ := foldl_min symbol rest (first.degree symbol)
      rcases List.mem_cons.1 hm with rfl | hm
      · exact hle
      · exact hall m hm

omit [ExactScalar K] in
/-- Some term has the smallest exponent. -/
theorem exists_leastDegree_of_ne_nil (symbol : Symbol) (h : terms ≠ []) :
    ∃ m ∈ terms, m.degree symbol = leastDegree symbol terms := by
  cases terms with
  | nil => exact absurd rfl h
  | cons first rest =>
      rcases (foldl_min symbol rest (first.degree symbol)).2.2 with heq | ⟨m, hm, heq⟩
      · exact ⟨first, List.mem_cons_self, heq.symm⟩
      · exact ⟨m, List.mem_cons_of_mem _ hm, heq⟩

omit [ExactScalar K] in
theorem exists_leastDegree (h : leastDegree symbol terms ≠ 0) :
    ∃ m ∈ terms, m.degree symbol = leastDegree symbol terms := by
  apply exists_leastDegree_of_ne_nil
  rintro rfl
  exact h rfl

omit [ExactScalar K] in
theorem get_foldl_set (degree : Symbol → Int) (symbols : List Symbol) (acc : Exponents) :
    (symbols.foldl (fun (acc : Exponents) symbol => acc.set symbol (degree symbol)) acc).get
        symbol =
      if symbol ∈ symbols then degree symbol else acc.get symbol := by
  induction symbols generalizing acc with
  | nil => rfl
  | cons first rest ih =>
      rw [List.foldl_cons, ih, Powers.get_set]
      by_cases hrest : symbol ∈ rest
      · rw [if_pos hrest, if_pos (List.mem_cons_of_mem _ hrest)]
      · rw [if_neg hrest]
        by_cases hfirst : first = symbol
        · rw [if_pos hfirst, if_pos (hfirst ▸ List.mem_cons_self), hfirst]
        · rw [if_neg hfirst, if_neg]
          simp [hrest, Ne.symm hfirst]

omit [ExactScalar K] in
/-- The shared powers have the smallest exponents. -/
theorem get_content (symbol : Symbol) (terms : List (Monomial K)) :
    (content terms).get symbol = leastDegree symbol terms := by
  unfold content
  rw [get_foldl_set (fun symbol => leastDegree symbol terms)]
  split
  · rfl
  · rename_i hnot
    by_contra hne
    obtain ⟨m, hm, hdegree⟩ := exists_leastDegree (Ne.symm hne)
    apply hnot
    rw [mem_ascending]
    refine List.mem_flatMap.2 ⟨m, hm, (Powers.mem_keys_iff m.exponents symbol).2 ?_⟩
    change m.degree symbol ≠ 0
    rw [hdegree]
    exact Ne.symm hne

/-- Dividing by powers of symbols other than zero divides the value. -/
theorem value_divContent {z : Symbol → K} (p : Polynomial K) {shared : Exponents}
    (h : ∀ symbol, shared.get symbol ≠ 0 → z symbol ≠ 0) :
    p.value z = (divContent p shared).value z * shared.value z := by
  unfold divContent
  split
  · rename_i hone
    rw [(Powers.isOne_iff_eq shared).1 hone, Powers.value_one, mul_one]
  · rw [Polynomial.value_ofTerms, List.map_map, ← List.sum_map_mul_right]
    unfold Polynomial.value
    congr 1
    apply List.map_congr_left
    intro m _
    simp only [Function.comp_apply, Monomial.value]
    rw [Powers.value_div m.exponents h, mul_assoc]

omit [ExactScalar K] in
theorem all_divContent [Scalar K] {Q : Exponents → Prop} {p : Polynomial K} {shared : Exponents}
    (h : ∀ m ∈ p.terms, Q (m.exponents.div shared)) : (divContent p shared).All Q := by
  unfold divContent
  split
  · rename_i hone
    intro m hm
    have hsame : m.exponents.div shared = m.exponents := by
      apply Powers.ext_get
      intro symbol
      rw [Powers.get_div, (Powers.isOne_iff shared).1 hone, sub_zero]
    rw [← hsame]
    exact h m hm
  · apply Polynomial.all_ofTerms
    intro m hm
    obtain ⟨n, hn, rfl⟩ := List.mem_map.1 hm
    exact h n hn

end Content

omit [ExactScalar K] in
theorem all_one [Scalar K] {Q : Exponents → Prop} (h : Q ∅) : (1 : Polynomial K).All Q := by
  intro m hm
  rw [List.mem_singleton.1 hm]
  exact h

theorem over_empty (P : Symbol → Prop) : (∅ : Exponents).Over P := fun _ h => absurd rfl h

theorem natural_empty : (∅ : Exponents).Natural := fun _ => le_refl _

theorem within_zero (P : Symbol → Prop) : (zero : Fraction K).Within P where
  num_proper := nofun
  den_proper := proper_one
  num_natural := nofun
  den_natural := all_one natural_empty
  num_over := nofun
  den_over := all_one (over_empty P)
  monic := rfl

section Normal

variable {z : Symbol → K} {P : Symbol → Prop} {num den : Polynomial K}

theorem within_lowestTerms (hnum : num.Proper) (hden : den.Proper) (hnum' : num.All (Powers.Over P))
    (hden' : den.All (Powers.Over P)) : (lowestTerms num den).Within P := by
  unfold lowestTerms
  split
  · exact within_zero P
  have hterm (m : Monomial K) (hm : m ∈ num.terms ++ den.terms) :
      (m.exponents.div (content (num.terms ++ den.terms))).Natural ∧
        (m.exponents.div (content (num.terms ++ den.terms))).Over P := by
    have hover (n : Monomial K) (hn : n ∈ num.terms ++ den.terms) : n.exponents.Over P := by
      rcases List.mem_append.1 hn with hn | hn
      · exact hnum' n hn
      · exact hden' n hn
    refine ⟨?_, ?_⟩
    · intro symbol
      rw [Powers.get_div, get_content]
      exact sub_nonneg.2 (leastDegree_le hm)
    · intro symbol hne
      rw [Powers.get_div, get_content] at hne
      by_cases hzero : leastDegree symbol (num.terms ++ den.terms) = 0
      · rw [hzero, sub_zero] at hne
        exact hover m hm symbol hne
      · obtain ⟨n, hn, hdegree⟩ := exists_leastDegree hzero
        apply hover n hn symbol
        change n.degree symbol ≠ 0
        rw [hdegree]
        exact hzero
  have hn := fun m hm => hterm m (List.mem_append_left _ hm)
  have hd := fun m hm => hterm m (List.mem_append_right _ hm)
  have hproper := proper_divContent hden (content (num.terms ++ den.terms))
  dsimp only
  split
  · rename_i hone
    exact ⟨proper_divContent hnum _, hproper, all_divContent (fun m hm => (hn m hm).1),
      all_divContent (fun m hm => (hd m hm).1), all_divContent (fun m hm => (hn m hm).2),
      all_divContent (fun m hm => (hd m hm).2), eq_of_beq hone⟩
  · have hlead := lead_ne_zero hproper
    exact ⟨proper_mapCoeffs (proper_divContent hnum _) hlead, proper_mapCoeffs hproper hlead,
      Polynomial.all_mapCoeffs (all_divContent (fun m hm => (hn m hm).1)) _,
      Polynomial.all_mapCoeffs (all_divContent (fun m hm => (hd m hm).1)) _,
      Polynomial.all_mapCoeffs (all_divContent (fun m hm => (hn m hm).2)) _,
      Polynomial.all_mapCoeffs (all_divContent (fun m hm => (hd m hm).2)) _,
      lead_mapCoeffs hproper⟩

/-- A symbol whose power is shared by all terms is not zero where the denominator does not vanish.
-/
private theorem shared_ne_zero (hnum : num.All (Powers.DefinedAt z))
    (hden : den.All (Powers.DefinedAt z)) (hne : den.value z ≠ 0) (symbol : Symbol)
    (h : (content (num.terms ++ den.terms)).get symbol ≠ 0) : z symbol ≠ 0 := by
  rw [get_content] at h
  rcases lt_or_gt_of_ne h with hneg | hpos
  · obtain ⟨m, hm, hdegree⟩ := exists_leastDegree h
    have hm' : m.exponents.DefinedAt z := by
      rcases List.mem_append.1 hm with hm | hm
      · exact hnum m hm
      · exact hden m hm
    apply hm' symbol
    change m.degree symbol < 0
    rw [hdegree]
    exact hneg
  · intro hzero
    apply hne
    apply List.sum_eq_zero
    intro x hx
    obtain ⟨m, hm, rfl⟩ := List.mem_map.1 hx
    have hdegree : 0 < m.exponents.get symbol :=
      lt_of_lt_of_le hpos (leastDegree_le (List.mem_append_right _ hm))
    unfold Monomial.value
    rw [Powers.value_eq_zero hdegree hzero, mul_zero]

theorem Within.defined {a : Fraction K} (h : a.Within P) :
    a.num.All (Powers.DefinedAt z) ∧ a.den.All (Powers.DefinedAt z) :=
  ⟨h.num_natural.imp (fun _ he => he.definedAt z), h.den_natural.imp (fun _ he => he.definedAt z)⟩

theorem hasValue_lowestTerms {v : K} (hnum : num.Proper) (hden : den.Proper)
    (hnum' : num.All (Powers.DefinedAt z)) (hden' : den.All (Powers.DefinedAt z))
    (hne : den.value z ≠ 0) (hv : num.value z = v * den.value z) :
    (lowestTerms num den).HasValue z v := by
  have hwithin : (lowestTerms num den).Within (fun _ => True) :=
    within_lowestTerms hnum hden (fun _ _ _ _ => trivial) (fun _ _ _ _ => trivial)
  suffices hvalues : (lowestTerms num den).den.value z ≠ 0 ∧
      (lowestTerms num den).num.value z = v * (lowestTerms num den).den.value z from
    ⟨hwithin.defined.1, hwithin.defined.2, hvalues.1, hvalues.2⟩
  unfold lowestTerms
  split
  · rename_i hzero
    have hnum0 := Polynomial.value_of_isZero hzero z
    have hv0 : v = 0 := by
      rw [hnum0] at hv
      exact (mul_eq_zero.1 hv.symm).resolve_right hne
    refine ⟨?_, ?_⟩
    · change (1 : Polynomial K).value z ≠ 0
      rw [Polynomial.value_one]
      exact one_ne_zero
    · rw [hv0, zero_mul]
      rfl
  have hshared := shared_ne_zero hnum' hden' hne
  have hn := value_divContent num hshared
  have hd := value_divContent den hshared
  have hcontent := Powers.value_ne_zero hshared
  -- what is cancelled is not zero
  have hden0 : (divContent den (content (num.terms ++ den.terms))).value z ≠ 0 := by
    intro hzero
    rw [hzero, zero_mul] at hd
    exact hne hd
  have hquotient : (divContent num (content (num.terms ++ den.terms))).value z =
      v * (divContent den (content (num.terms ++ den.terms))).value z := by
    rw [hn, hd, ← mul_assoc] at hv
    exact mul_right_cancel₀ hcontent hv
  dsimp only
  split
  · exact ⟨hden0, hquotient⟩
  · have hlead := lead_ne_zero (proper_divContent hden (content (num.terms ++ den.terms)))
    have hscale (p : Polynomial K) (c : K) :
        (p.mapCoeffs (· / c)).value z = p.value z * c⁻¹ :=
      Polynomial.value_mapCoeffs z p (fun a => div_eq_mul_inv a c)
    rw [hscale, hscale]
    refine ⟨mul_ne_zero hden0 (inv_ne_zero hlead), ?_⟩
    rw [hquotient, mul_assoc]

theorem within_make {a : Fraction K} (h : make num den = .ok a) (hnum : num.All (Powers.Over P))
    (hden : den.All (Powers.Over P)) : a.Within P := by
  unfold make at h
  dsimp only at h
  split at h
  · cases h
  · cases h
    exact within_lowestTerms (Polynomial.proper_ofTerms _) (Polynomial.proper_ofTerms _)
      (Polynomial.all_ofTerms hnum) (Polynomial.all_ofTerms hden)

/-- Where numerator and denominator have values, and that of the denominator is not zero, the
quotient exists and has a value. -/
theorem hasValue_make {v : K} (hnum : num.All (Powers.DefinedAt z))
    (hden : den.All (Powers.DefinedAt z)) (hne : den.value z ≠ 0)
    (hv : num.value z = v * den.value z) : ∃ a, make num den = .ok a ∧ a.HasValue z v := by
  have hnonzero : den.collected.isZero = false := by
    rw [Bool.eq_false_iff]
    intro hzero
    apply hne
    rw [← Polynomial.value_collected]
    exact Polynomial.value_of_isZero hzero z
  refine ⟨lowestTerms num.collected den.collected, ?_, ?_⟩
  · unfold make
    simp only [hnonzero, Bool.false_and, Bool.false_eq_true, if_false]
    rfl
  · have hne' : den.collected.value z ≠ 0 := by
      rw [Polynomial.value_collected]
      exact hne
    have hv' : num.collected.value z = v * den.collected.value z := by
      rw [Polynomial.value_collected, Polynomial.value_collected]
      exact hv
    exact hasValue_lowestTerms (Polynomial.proper_ofTerms _) (Polynomial.proper_ofTerms _)
      (Polynomial.all_ofTerms hnum) (Polynomial.all_ofTerms hden) hne' hv'

end Normal

section Operations

variable {z : Symbol → K} {P : Symbol → Prop} {a b c : Fraction K} {v w : K}

private theorem defined_mul {p q : Polynomial K} (hp : p.All (Powers.DefinedAt z))
    (hq : q.All (Powers.DefinedAt z)) : (p * q).All (Powers.DefinedAt z) :=
  Polynomial.all_mul (fun _ _ hx hy => hx.mul hy) hp hq

private theorem over_mul {p q : Polynomial K} (hp : p.All (Powers.Over P))
    (hq : q.All (Powers.Over P)) : (p * q).All (Powers.Over P) :=
  Polynomial.all_mul (fun _ _ hx hy => hx.mul hy) hp hq

theorem hasValue_add (ha : a.HasValue z v) (hb : b.HasValue z w) :
    ∃ c, a.add b = .ok c ∧ c.HasValue z (v + w) := by
  apply hasValue_make
  · exact Polynomial.all_add (defined_mul ha.num_defined hb.den_defined)
      (defined_mul hb.num_defined ha.den_defined)
  · exact defined_mul ha.den_defined hb.den_defined
  · rw [Polynomial.value_mul ha.den_defined hb.den_defined]
    exact mul_ne_zero ha.den_ne hb.den_ne
  · rw [Polynomial.value_add, Polynomial.value_mul ha.num_defined hb.den_defined,
      Polynomial.value_mul hb.num_defined ha.den_defined,
      Polynomial.value_mul ha.den_defined hb.den_defined, ha.eq, hb.eq]
    ring

theorem hasValue_sub (ha : a.HasValue z v) (hb : b.HasValue z w) :
    ∃ c, a.sub b = .ok c ∧ c.HasValue z (v - w) := by
  apply hasValue_make
  · exact Polynomial.all_sub (defined_mul ha.num_defined hb.den_defined)
      (defined_mul hb.num_defined ha.den_defined)
  · exact defined_mul ha.den_defined hb.den_defined
  · rw [Polynomial.value_mul ha.den_defined hb.den_defined]
    exact mul_ne_zero ha.den_ne hb.den_ne
  · rw [Polynomial.value_sub, Polynomial.value_mul ha.num_defined hb.den_defined,
      Polynomial.value_mul hb.num_defined ha.den_defined,
      Polynomial.value_mul ha.den_defined hb.den_defined, ha.eq, hb.eq]
    ring

theorem hasValue_mul (ha : a.HasValue z v) (hb : b.HasValue z w) :
    ∃ c, a.mul b = .ok c ∧ c.HasValue z (v * w) := by
  apply hasValue_make
  · exact defined_mul ha.num_defined hb.num_defined
  · exact defined_mul ha.den_defined hb.den_defined
  · rw [Polynomial.value_mul ha.den_defined hb.den_defined]
    exact mul_ne_zero ha.den_ne hb.den_ne
  · rw [Polynomial.value_mul ha.num_defined hb.num_defined,
      Polynomial.value_mul ha.den_defined hb.den_defined, ha.eq, hb.eq]
    ring

theorem HasValue.unique (hv : a.HasValue z v) (hw : a.HasValue z w) : v = w :=
  mul_right_cancel₀ hv.den_ne (hv.eq.symm.trans hw.eq)

/-- A fraction whose numerator is written as zero has the value zero. -/
theorem HasValue.eq_zero (ha : a.HasValue z v) (hzero : a.num.isZero = true) : v = 0 := by
  have heq := ha.eq
  rw [Polynomial.value_of_isZero hzero] at heq
  exact (mul_eq_zero.1 heq.symm).resolve_right ha.den_ne

theorem hasValue_div (ha : a.HasValue z v) (hb : b.HasValue z w) (hw : w ≠ 0) :
    ∃ c, a.div b = .ok c ∧ c.HasValue z (v / w) := by
  have hnum : b.num.value z ≠ 0 := by
    rw [hb.eq]
    exact mul_ne_zero hw hb.den_ne
  unfold div
  rw [if_neg (fun hzero => hw (hb.eq_zero hzero))]
  apply hasValue_make
  · exact defined_mul ha.num_defined hb.den_defined
  · exact defined_mul ha.den_defined hb.num_defined
  · rw [Polynomial.value_mul ha.den_defined hb.num_defined]
    exact mul_ne_zero ha.den_ne hnum
  · rw [Polynomial.value_mul ha.num_defined hb.den_defined,
      Polynomial.value_mul ha.den_defined hb.num_defined, ha.eq, hb.eq]
    field_simp

theorem hasValue_neg (ha : a.HasValue z v) : ∃ c, a.neg = .ok c ∧ c.HasValue z (-v) := by
  apply hasValue_make
  · exact Polynomial.all_mapCoeffs ha.num_defined _
  · exact ha.den_defined
  · exact ha.den_ne
  · rw [Polynomial.value_neg, ha.eq, neg_mul]

theorem hasValue_canonical (ha : a.HasValue z v) : ∃ c, a.canonical = .ok c ∧ c.HasValue z v :=
  hasValue_make ha.num_defined ha.den_defined ha.den_ne ha.eq

theorem hasValue_of_natural {p : Polynomial K} (hp : p.All Powers.Natural) :
    (Fraction.mk p 1).HasValue z (p.value z) where
  num_defined := hp.imp (fun _ he => he.definedAt z)
  den_defined := all_one (natural_empty.definedAt z)
  den_ne := by
    change (1 : Polynomial K).value z ≠ 0
    rw [Polynomial.value_one]
    exact one_ne_zero
  eq := by
    change p.value z = p.value z * (1 : Polynomial K).value z
    rw [Polynomial.value_one, mul_one]

theorem hasValue_const (z : Symbol → K) (x : K) : (const x).HasValue z x := by
  have hvalue := hasValue_of_natural (z := z)
    (Polynomial.all_ofMonomial (m := Monomial.const x) natural_empty)
  rw [show (Polynomial.ofMonomial (Monomial.const x)).value z = x from
    Polynomial.value_const z x] at hvalue
  exact hvalue

theorem natural_single (symbol : Symbol) : (Powers.single symbol 1).Natural := by
  intro other
  rw [Powers.get_single]
  split <;> decide

theorem hasValue_ofSymbol (z : Symbol → K) (symbol : Symbol) :
    (ofSymbol symbol).HasValue z (z symbol) := by
  have hall : (Polynomial.ofSymbol symbol : Polynomial K).All Powers.Natural := by
    intro m hm
    rw [List.mem_singleton.1 hm]
    exact natural_single symbol
  have hvalue := hasValue_of_natural (z := z) hall
  rw [Polynomial.value_ofSymbol] at hvalue
  exact hvalue

theorem hasValue_ofPolynomial {p : Polynomial K} (hp : p.All (Powers.DefinedAt z)) :
    (ofPolynomial p).HasValue z (p.value z) := by
  apply hasValue_lowestTerms (Polynomial.proper_ofTerms _) proper_one (Polynomial.all_ofTerms hp)
    (all_one (natural_empty.definedAt z))
  · rw [Polynomial.value_one]
    exact one_ne_zero
  · rw [Polynomial.value_one, mul_one]
    exact Polynomial.value_collected z p

theorem hasValue_ofMonomial {m : Monomial K} (hm : m.exponents.DefinedAt z) :
    (ofMonomial m).HasValue z (m.value z) := by
  have hvalue := hasValue_ofPolynomial (z := z) (Polynomial.all_ofMonomial (m := m) hm)
  rw [Polynomial.value_ofMonomial] at hvalue
  exact hvalue

theorem hasValue_powNat (ha : a.HasValue z v) (n : Nat) :
    ∃ c, a.powNat n = .ok c ∧ c.HasValue z (v ^ n) := by
  induction n with
  | zero => exact ⟨const 1, rfl, by rw [pow_zero]; exact hasValue_const z 1⟩
  | succ n ih =>
      obtain ⟨b, hb, hvalue⟩ := ih
      obtain ⟨c, hc, hvalue'⟩ := hasValue_mul hvalue ha
      refine ⟨c, ?_, by rw [pow_succ]; exact hvalue'⟩
      rw [powNat, hb]
      exact hc

/-- A negative power needs a value other than zero. -/
theorem hasValue_pow (ha : a.HasValue z v) (n : Int) (hn : n < 0 → v ≠ 0) :
    ∃ c, a.pow n = .ok c ∧ c.HasValue z (v ^ n) := by
  obtain ⟨b, hb, hvalue⟩ := hasValue_powNat ha n.natAbs
  unfold pow
  split
  · rename_i hneg
    obtain ⟨c, hc, hvalue'⟩ := hasValue_div (hasValue_const z 1) hvalue
      (pow_ne_zero _ (hn hneg))
    refine ⟨c, by rw [hb]; exact hc, ?_⟩
    have hpower : v ^ n = 1 / v ^ n.natAbs := by
      rw [one_div, ← zpow_natCast, ← zpow_neg]
      congr 1
      omega
    rw [hpower]
    exact hvalue'
  · rename_i hpos
    refine ⟨b, hb, ?_⟩
    have hpower : v ^ n = v ^ n.natAbs := by
      rw [← zpow_natCast]
      congr 1
      omega
    rw [hpower]
    exact hvalue

theorem within_add (ha : a.Over P) (hb : b.Over P) (h : a.add b = .ok c) : c.Within P :=
  within_make h (Polynomial.all_add (over_mul ha.1 hb.2) (over_mul hb.1 ha.2)) (over_mul ha.2 hb.2)

theorem within_sub (ha : a.Over P) (hb : b.Over P) (h : a.sub b = .ok c) : c.Within P :=
  within_make h (Polynomial.all_sub (over_mul ha.1 hb.2) (over_mul hb.1 ha.2)) (over_mul ha.2 hb.2)

theorem within_mul (ha : a.Over P) (hb : b.Over P) (h : a.mul b = .ok c) : c.Within P :=
  within_make h (over_mul ha.1 hb.1) (over_mul ha.2 hb.2)

theorem within_div (ha : a.Over P) (hb : b.Over P) (h : a.div b = .ok c) : c.Within P := by
  unfold div at h
  split at h
  · cases h
  · exact within_make h (over_mul ha.1 hb.2) (over_mul ha.2 hb.1)

theorem within_neg (ha : a.Over P) (h : a.neg = .ok c) : c.Within P :=
  within_make h (Polynomial.all_mapCoeffs ha.1 _) ha.2

theorem within_canonical (ha : a.Over P) (h : a.canonical = .ok c) : c.Within P :=
  within_make h ha.1 ha.2

theorem within_ofPolynomial {p : Polynomial K} (hp : p.All (Powers.Over P)) :
    (ofPolynomial p).Within P :=
  within_lowestTerms (Polynomial.proper_ofTerms _) proper_one (Polynomial.all_ofTerms hp)
    (all_one (over_empty P))

theorem within_ofMonomial {m : Monomial K} (hm : m.exponents.Over P) : (ofMonomial m).Within P :=
  within_ofPolynomial (Polynomial.all_ofMonomial hm)

theorem within_const (P : Symbol → Prop) (x : K) : (const x).Within P where
  num_proper := by
    change (Polynomial.ofMonomial (Monomial.const x)).Proper
    unfold Polynomial.ofMonomial
    split
    · intro m hm
      cases hm
    · rename_i hne
      intro m hm
      rw [List.mem_singleton.1 hm]
      exact fun hzero => hne (beq_iff_eq.2 hzero)
  den_proper := proper_one
  num_natural := Polynomial.all_ofMonomial natural_empty
  den_natural := all_one natural_empty
  num_over := Polynomial.all_ofMonomial (over_empty P)
  den_over := all_one (over_empty P)
  monic := rfl

theorem within_ofSymbol {symbol : Symbol} (h : P symbol) :
    (ofSymbol symbol : Fraction K).Within P where
  num_proper := by
    intro m hm
    rw [List.mem_singleton.1 hm]
    exact one_ne_zero
  den_proper := proper_one
  num_natural := by
    intro m hm
    rw [List.mem_singleton.1 hm]
    exact natural_single symbol
  den_natural := all_one natural_empty
  num_over := by
    intro m hm
    rw [List.mem_singleton.1 hm]
    intro other hne
    have hget : (Powers.single symbol 1).get other ≠ 0 := hne
    rw [Powers.get_single] at hget
    split at hget
    · rename_i hsame
      rw [← hsame]
      exact h
    · exact absurd rfl hget
  den_over := all_one (over_empty P)
  monic := rfl

theorem within_powNat (ha : a.Over P) {n : Nat} (h : a.powNat n = .ok c) : c.Within P := by
  induction n generalizing c with
  | zero =>
      cases h
      exact within_const P 1
  | succ n ih =>
      rw [powNat] at h
      obtain ⟨b, hb, hmul⟩ := except_bind_eq_ok.1 h
      exact within_mul (ih hb).over ha hmul

theorem within_pow (ha : a.Over P) {n : Int} (h : a.pow n = .ok c) : c.Within P := by
  unfold pow at h
  split at h
  · obtain ⟨b, hb, hdiv⟩ := except_bind_eq_ok.1 h
    exact within_div (within_const P 1).over (within_powNat ha hb).over hdiv
  · exact within_powNat ha h

end Operations

end Ramify.Fraction
