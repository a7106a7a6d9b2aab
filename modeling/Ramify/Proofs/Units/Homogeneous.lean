import Mathlib.Algebra.BigOperators.Finsupp.Basic
import Ramify.Proofs.Algebra.Equality
import Ramify.Proofs.Algebra.Symbols
import Ramify.Proofs.Units.Dimensions

/-!
Dimensions under arithmetic. The exponents of the base dimensions are linear in the exponents of the
unit tags. Multiplication by a term, and so the cancellation of shared powers, moves the dimension
of every term of the numerator and of the denominator by the same amount, which their quotient does
not see. The dimension of a quotient is therefore that of the polynomials it is formed from, before
anything is cancelled.
-/

namespace Ramify.Units

section Terms

variable {K : Type} [Scalar K] {common common' : Dimension} {e f : Exponents}

/-- The exponent of a base dimension that a family of exponents of tags comes to. -/
noncomputable def weight (K : Type) [Scalar K] (base : String) : (Symbol →₀ Int) →+ Int :=
  Finsupp.liftAddHom fun symbol =>
    AddMonoidHom.mulLeft ((measure (K := K) symbol.name).dimension.get base)

theorem get_productDimension_entries (e : Exponents) (base : String) :
    (productDimension K e.entries).get base = weight K base e.toFinsupp := by
  have hentries : e.entries.map (fun power =>
      (measure (K := K) power.1.name).dimension.get base * power.2) =
      e.map.keys.map (fun symbol =>
        (measure (K := K) symbol.name).dimension.get base * e.get symbol) := by
    unfold SortedMap.keys
    rw [List.map_map]
    apply List.map_congr_left
    intro power hpower
    rw [Function.comp_apply, ((Powers.mem_entries_iff e power).1 hpower).1]
  rw [get_productDimension, hentries, ← List.sum_toFinset _ (SortedMap.nodup_keys e.map)]
  exact (Finsupp.onFinset_sum _ (fun symbol => mul_zero _)).symm

/-- Whether only unit tags occur, with a given dimension in all. -/
structure OfDimension (K : Type) [Scalar K] (common : Dimension) (e : Exponents) : Prop where
  units : e.Over (fun symbol => symbol.isUnit = true)
  get (base : String) : common.get base = weight K base e.toFinsupp

theorem ofDimension_iff :
    OfDimension K common e ↔
      (∀ power ∈ e.entries, power.1.isUnit = true) ∧ common = productDimension K e.entries := by
  constructor
  · intro h
    refine ⟨fun power hpower => ?_, Powers.ext_get fun base => ?_⟩
    · obtain ⟨hget, hne⟩ := (Powers.mem_entries_iff e power).1 hpower
      exact h.units power.1 (hget ▸ hne)
    · rw [h.get, get_productDimension_entries]
  · rintro ⟨hunits, rfl⟩
    refine ⟨fun symbol hsymbol => ?_, get_productDimension_entries e⟩
    exact hunits (symbol, e.get symbol) ((Powers.mem_entries_iff e _).2 ⟨rfl, hsymbol⟩)

theorem termDimension_iff {m : Monomial K} :
    termDimension m = .ok common ↔ OfDimension K common m.exponents :=
  termDimension_eq_ok_iff.trans ofDimension_iff.symm

/-- Only unit tags occur if there is a dimension. -/
theorem exists_ofDimension (h : e.Over (fun symbol => symbol.isUnit = true)) :
    ∃ common, OfDimension K common e :=
  ⟨productDimension K e.entries, h, get_productDimension_entries e⟩

theorem OfDimension.mul (h : OfDimension K common e) (h' : OfDimension K common' f) :
    OfDimension K (common.mul common') (e.mul f) where
  units := h.units.mul h'.units
  get base := by rw [Powers.get_mul, h.get, h'.get, Powers.toFinsupp_mul, map_add]

theorem OfDimension.div (h : OfDimension K common e) (h' : OfDimension K common' f) :
    OfDimension K (common.div common') (e.div f) where
  units symbol hne := by
    by_cases hzero : e.get symbol = 0
    · apply h'.units symbol
      intro hzero'
      rw [Powers.get_div, hzero, hzero', sub_zero] at hne
      exact hne rfl
    · exact h.units symbol hzero
  get base := by rw [Powers.get_div, h.get, h'.get, Powers.toFinsupp_div, map_sub]

end Terms

section Polynomials

variable {K : Type} [ExactField K] {p q : Polynomial K} {common common' : Dimension}

/-- A polynomial other than zero of which every term has a given dimension. -/
structure Homogeneous (common : Dimension) (p : Polynomial K) : Prop where
  proper : p.Proper
  ne : p.isZero = false
  terms : p.All (OfDimension K common)

theorem polynomialDimension_iff (hp : p.Proper) (hne : p.isZero = false) :
    polynomialDimension p = .ok common ↔ Homogeneous common p := by
  have hterms : polynomialDimension p = .ok common ↔ p.All (OfDimension K common) :=
    (polynomialDimension_eq_ok_iff hne).trans (forall₂_congr fun _ _ => termDimension_iff)
  rw [hterms]
  exact ⟨fun h => ⟨hp, hne, h⟩, Homogeneous.terms⟩

theorem Homogeneous.units (h : Homogeneous common p) :
    p.All (Powers.Over fun symbol => symbol.isUnit = true) :=
  h.terms.imp fun _ => OfDimension.units

theorem homogeneous_ofMonomial {m : Monomial K} (hne : m.coeff ≠ 0)
    (h : OfDimension K common m.exponents) : Homogeneous common (.ofMonomial m) where
  proper := Fraction.proper_ofMonomial m
  ne := by
    unfold Polynomial.ofMonomial
    rw [beq_false_of_ne hne]
    rfl
  terms := Polynomial.all_ofMonomial h

theorem Homogeneous.mul (h : Homogeneous common p) (h' : Homogeneous common' q) :
    Homogeneous (common.mul common') (p * q) where
  proper := Polynomial.proper_ofTerms _
  ne := by
    have hproper : (p * q).Proper := Polynomial.proper_ofTerms _
    rw [Bool.eq_false_iff, ne_eq, Polynomial.isZero_iff hproper]
    exact Polynomial.laurent_mul_ne_zero h.proper h'.proper h.ne h'.ne
  terms := Polynomial.all_mul (fun _ _ => OfDimension.mul) h.terms h'.terms

theorem Homogeneous.neg (h : Homogeneous common p) : Homogeneous common (-p) where
  proper := Polynomial.proper_neg h.proper
  ne := (Polynomial.isZero_mapCoeffs _ p).trans h.ne
  terms := Polynomial.all_mapCoeffs h.terms _

/-- Terms of one dimension may cancel, but not change it. -/
theorem Homogeneous.add (h : Homogeneous common p) (h' : Homogeneous common q)
    (hne : (p + q).isZero = false) : Homogeneous common (p + q) :=
  ⟨Polynomial.proper_ofTerms _, hne, Polynomial.all_add h.terms h'.terms⟩

theorem Homogeneous.sub (h : Homogeneous common p) (h' : Homogeneous common q)
    (hne : (p - q).isZero = false) : Homogeneous common (p - q) :=
  ⟨Polynomial.proper_ofTerms _, hne, Polynomial.all_sub h.terms h'.terms⟩

/-- The dimension moves with the exponents of the terms. -/
theorem Homogeneous.exists_moved (h : Homogeneous common p) {family : Symbol →₀ Int} {c : K}
    (hc : c ≠ 0) (hmoved : q.laurent = p.laurent * .single family c) (hq : q.Proper)
    (hunits : q.All (Powers.Over fun symbol => symbol.isUnit = true)) :
    ∃ moved, Homogeneous moved q ∧
      ∀ base, moved.get base = common.get base + weight K base family := by
  have hterm (n : Monomial K) (hn : n ∈ q.terms) (base : String) :
      weight K base n.exponents.toFinsupp = common.get base + weight K base family := by
    obtain ⟨m, hm, hdegree⟩ :=
      Polynomial.exists_moved (inv_ne_zero hc) hq (Laurent.eq_mul_inverse hc hmoved) hn
    have hfamily : m.exponents.toFinsupp = n.exponents.toFinsupp + -family := by
      ext symbol
      exact hdegree symbol
    rw [(h.terms m hm).get, hfamily, map_add, map_neg, neg_add_cancel_right]
  have hne : q.isZero = false :=
    (Fraction.isZero_of_extended h.proper hq ⟨family, c, hc, rfl⟩ hmoved).trans h.ne
  -- the dimension of any one of the terms is that of all
  obtain ⟨first, hfirst⟩ := List.isEmpty_eq_false_iff_exists_mem.1 hne
  obtain ⟨moved, hdimension⟩ := exists_ofDimension (K := K) (hunits first hfirst)
  have hget (base : String) : moved.get base = common.get base + weight K base family := by
    rw [hdimension.get, hterm first hfirst]
  exact ⟨moved, ⟨hq, hne, fun n hn => ⟨hunits n hn, fun base => by rw [hget, hterm n hn]⟩⟩, hget⟩

end Polynomials

section Quotients

variable {K : Type} [ExactField K] {num den num' den' : Polynomial K} {a b : Fraction K}
  {common common' : Dimension}

/-- Whether a numerator and a denominator have dimensions in a given ratio. -/
def HasRatio (num den : Polynomial K) (common : Dimension) : Prop :=
  ∃ n d, Homogeneous n num ∧ Homogeneous d den ∧ common = n.div d

theorem hasRatio_iff (hnum : num.Proper) (hden : den.Proper) (hne : num.isZero = false)
    (hne' : den.isZero = false) :
    HasRatio num den common ↔ ∃ n d, polynomialDimension num = .ok n ∧
      polynomialDimension den = .ok d ∧ common = n.div d := by
  unfold HasRatio
  simp only [polynomialDimension_iff hnum hne, polynomialDimension_iff hden hne']

theorem HasRatio.mul (h : HasRatio num den common) (h' : HasRatio num' den' common') :
    HasRatio (num * num') (den * den') (common.mul common') := by
  obtain ⟨n, d, hn, hd, rfl⟩ := h
  obtain ⟨n', d', hn', hd', rfl⟩ := h'
  refine ⟨_, _, hn.mul hn', hd.mul hd', Powers.ext_get fun base => ?_⟩
  simp only [Powers.get_mul, Powers.get_div]
  omega

theorem HasRatio.div (h : HasRatio num den common) (h' : HasRatio num' den' common') :
    HasRatio (num * den') (den * num') (common.div common') := by
  obtain ⟨n, d, hn, hd, rfl⟩ := h
  obtain ⟨n', d', hn', hd', rfl⟩ := h'
  refine ⟨_, _, hn.mul hd', hd.mul hn', Powers.ext_get fun base => ?_⟩
  simp only [Powers.get_mul, Powers.get_div]
  omega

theorem HasRatio.neg (h : HasRatio num den common) : HasRatio (-num) den common := by
  obtain ⟨n, d, hn, hd, rfl⟩ := h
  exact ⟨n, d, hn.neg, hd, rfl⟩

/-- Over their common denominator two quotients of one dimension have numerators of one dimension.
-/
theorem HasRatio.exists_crossed (h : HasRatio num den common) (h' : HasRatio num' den' common) :
    ∃ n d, Homogeneous n (num * den') ∧ Homogeneous n (num' * den) ∧ Homogeneous d (den * den') ∧
      common = n.div d := by
  obtain ⟨n, d, hn, hd, rfl⟩ := h
  obtain ⟨n', d', hn', hd', hsame⟩ := h'
  have hcross : n'.mul d = n.mul d' := by
    apply Powers.ext_get
    intro base
    have hget := congrArg (Powers.get · base) hsame
    simp only [Powers.get_div] at hget
    rw [Powers.get_mul, Powers.get_mul]
    omega
  refine ⟨_, _, hn.mul hd', hcross ▸ hn'.mul hd, hd.mul hd', Powers.ext_get fun base => ?_⟩
  simp only [Powers.get_mul, Powers.get_div]
  omega

theorem HasRatio.add (h : HasRatio num den common) (h' : HasRatio num' den' common)
    (hne : (num * den' + num' * den).isZero = false) :
    HasRatio (num * den' + num' * den) (den * den') common := by
  obtain ⟨n, d, hleft, hright, hd, rfl⟩ := h.exists_crossed h'
  exact ⟨n, d, hleft.add hright hne, hd, rfl⟩

theorem HasRatio.sub (h : HasRatio num den common) (h' : HasRatio num' den' common)
    (hne : (num * den' - num' * den).isZero = false) :
    HasRatio (num * den' - num' * den) (den * den') common := by
  obtain ⟨n, d, hleft, hright, hd, rfl⟩ := h.exists_crossed h'
  exact ⟨n, d, hleft.sub hright hne, hd, rfl⟩

/-- Extension by a term moves both dimensions alike. -/
theorem HasRatio.extended (h : HasRatio num den common)
    (hextended : Laurent.Extended num.laurent den.laurent num'.laurent den'.laurent)
    (hnum : num'.Proper) (hden : den'.Proper)
    (hunits : (⟨num', den'⟩ : Fraction K).Over (fun symbol => symbol.isUnit = true)) :
    HasRatio num' den' common := by
  obtain ⟨n, d, hn, hd, rfl⟩ := h
  obtain ⟨_, ⟨family, c, hc, rfl⟩, hnums, hdens⟩ := hextended
  obtain ⟨n', hn', hnget⟩ := hn.exists_moved hc hnums hnum hunits.1
  obtain ⟨d', hd', hdget⟩ := hd.exists_moved hc hdens hden hunits.2
  refine ⟨n', d', hn', hd', Powers.ext_get fun base => ?_⟩
  rw [Powers.get_div, Powers.get_div, hnget, hdget, add_sub_add_right_eq_sub]

theorem dimension_iff (ha : a.Canonical) (hne : a.isZero = false) :
    dimension a = .ok common ↔ HasRatio a.num a.den common := by
  rw [hasRatio_iff ha.num_proper ha.den_proper hne ha.den_ne]
  constructor
  · intro h
    rcases dimension_cases h with ⟨hzero, _⟩ | ⟨n, d, hn, hd, _, hcommon⟩
    · rw [hne] at hzero
      cases hzero
    · exact ⟨n, d, hn, hd, hcommon⟩
  · rintro ⟨n, d, hn, hd, rfl⟩
    unfold dimension
    rw [hne, if_neg Bool.false_ne_true, hn, except_ok_bind, hd, except_ok_bind]
    rfl

theorem isZero_den_of_make (hnum : num.Proper) (hden : den.Proper) (hne : num.isZero = false)
    (h : Fraction.make num den = .ok a) : den.isZero = false := by
  obtain ⟨u, hu, _, hdens⟩ := Fraction.extended_make h (Polynomial.laurent_ne_zero hnum hne)
  have hcanonical := Fraction.canonical_make h
  rw [← Fraction.isZero_of_extended hden hcanonical.den_proper hu hdens]
  exact hcanonical.den_ne

/-- Whether a quotient has a dimension, and which, is seen before anything is cancelled. -/
theorem dimension_make_iff (hnum : num.Proper) (hden : den.Proper) (hne : num.isZero = false)
    (hunits : (⟨num, den⟩ : Fraction K).Over (fun symbol => symbol.isUnit = true))
    (h : Fraction.make num den = .ok a) :
    dimension a = .ok common ↔ HasRatio num den common := by
  have hcanonical := Fraction.canonical_make h
  have hextended := Fraction.extended_make h (Polynomial.laurent_ne_zero hnum hne)
  have hane : a.isZero = false := by
    obtain ⟨u, hu, hnums, _⟩ := hextended
    exact (Fraction.isZero_of_extended hnum hcanonical.num_proper hu hnums).trans hne
  rw [dimension_iff hcanonical hane]
  constructor
  · exact fun hratio => hratio.extended hextended.symm hnum hden hunits
  · exact fun hratio => hratio.extended hextended hcanonical.num_proper hcanonical.den_proper
      (Fraction.over_make hunits.1 hunits.2 h)

/-- Whether a calculation gives a quantity other than zero with a given dimension. -/
def HasDimension (result : Except AlgebraError (Fraction K)) (common : Dimension) : Prop :=
  ∃ c, result = .ok c ∧ c.isZero = false ∧ dimension c = .ok common

theorem HasRatio.make (h : HasRatio num den common) :
    HasDimension (Fraction.make num den) common := by
  obtain ⟨n, d, hn, hd, _⟩ := id h
  have hnum := Polynomial.laurent_ne_zero hn.proper hn.ne
  obtain ⟨c, hc, hzero⟩ := Fraction.exists_make num (Polynomial.laurent_ne_zero hd.proper hd.ne)
  refine ⟨c, hc, Bool.eq_false_iff.2 (fun h => hnum (hzero.1 h)), ?_⟩
  exact (dimension_make_iff hn.proper hd.proper hn.ne ⟨hn.units, hd.units⟩ hc).2 h

/-- A sum or difference over a denominator other than zero exists, and has the dimension of its
parts unless they cancel. -/
theorem exists_make_of_ratio (hnum : num.Proper) (hden : den.laurent ≠ 0)
    (h : num.isZero = false → HasRatio num den common) :
    ∃ c, Fraction.make num den = .ok c ∧ (c.isZero = false → dimension c = .ok common) := by
  obtain ⟨c, hc, hzero⟩ := Fraction.exists_make num hden
  refine ⟨c, hc, fun hne => ?_⟩
  have hnumNe : num.isZero = false := by
    rw [Bool.eq_false_iff, ne_eq, Polynomial.isZero_iff hnum, ← hzero, hne]
    exact Bool.false_ne_true
  obtain ⟨c', hc', _, hdimension⟩ := (h hnumNe).make
  rw [hc] at hc'
  cases hc'
  exact hdimension

/-- Quantities other than zero are multiplied, divided and negated with their dimensions, and sums
and differences of quantities of one dimension have it unless they are zero. What is cancelled on
the way does not matter: a quotient of polynomials in unit tags has a dimension exactly if both have
one, and then it is the quotient of the two. -/
theorem dimensions_are_calculated_along :
    (∀ (a b : Fraction K) (common common' : Dimension), a.Canonical → b.Canonical →
      a.isZero = false → b.isZero = false → dimension a = .ok common → dimension b = .ok common' →
      HasDimension (a.mul b) (common.mul common') ∧ HasDimension (a.div b) (common.div common') ∧
      HasDimension a.neg common ∧
      (common = common' →
        (∃ c, a.add b = .ok c ∧ (c.isZero = false → dimension c = .ok common)) ∧
        ∃ c, a.sub b = .ok c ∧ (c.isZero = false → dimension c = .ok common))) ∧
    ∀ (num den : Polynomial K) (a : Fraction K) (common : Dimension), num.Proper → den.Proper →
      num.isZero = false → (⟨num, den⟩ : Fraction K).Over (fun symbol => symbol.isUnit = true) →
      Fraction.make num den = .ok a →
      (dimension a = .ok common ↔ ∃ n d, polynomialDimension num = .ok n ∧
        polynomialDimension den = .ok d ∧ common = n.div d) := by
  constructor
  · intro a b common common' ha hb hane hbne hdimension hdimension'
    rw [dimension_iff ha hane] at hdimension
    rw [dimension_iff hb hbne] at hdimension'
    refine ⟨(hdimension.mul hdimension').make, ?_, hdimension.neg.make, ?_⟩
    · have hdivisor : b.num.isZero = false := hbne
      unfold Fraction.div
      rw [hdivisor, if_neg Bool.false_ne_true]
      exact (hdimension.div hdimension').make
    · rintro rfl
      have hden := Polynomial.laurent_mul_ne_zero ha.den_proper hb.den_proper ha.den_ne hb.den_ne
      exact ⟨exists_make_of_ratio (Polynomial.proper_ofTerms _) hden (hdimension.add hdimension'),
        exists_make_of_ratio (Polynomial.proper_ofTerms _) hden (hdimension.sub hdimension')⟩
  · intro num den a common hnum hden hne hunits h
    have hdenNe := isZero_den_of_make hnum hden hne h
    rw [dimension_make_iff hnum hden hne hunits h, hasRatio_iff hnum hden hne hdenNe]

/-- Two speeds in different units, and a quotient of which a unit is cancelled. -/
theorem speeds_are_calculated_with :
    let km : Monomial Rat := .ofSymbol (.unit "km")
    let way : Polynomial Rat := ⟨[km, .single 500 (.unit "m") 1], by decide +kernel⟩
    let a : Fraction Rat := ⟨way, .ofSymbol (.unit "h")⟩
    let b : Fraction Rat := ⟨.ofMonomial (.single 2 (.unit "mi") 1), .ofSymbol (.unit "min")⟩
    let moved : Polynomial Rat := .ofMonomial (.ofList 1 [(.unit "g", 1), (.unit "km", 1)])
    let burnt : Polynomial Rat := .ofMonomial (.ofList 1 [(.unit "g", 1), (.unit "h", 1)])
    let speed : Dimension := .ofList [("m", 1), ("s", -1)]
    HasDimension (a.mul b) (.ofList [("m", 2), ("s", -2)]) ∧ HasDimension (a.div b) ∅ ∧
      HasDimension a.neg speed ∧
      (∃ c, a.add b = .ok c ∧ c.isZero = false ∧ dimension c = .ok speed) ∧
      ∃ c, Fraction.make moved burnt = .ok c ∧ dimension c = .ok speed := by
  intro km way a b moved burnt speed
  have ha := Fraction.canonical_make (show Fraction.make a.num a.den = .ok a by decide +kernel)
  have hb := Fraction.canonical_make (show Fraction.make b.num b.den = .ok b by decide +kernel)
  have hspeed : dimension a = .ok speed := rfl
  have hspeed' : dimension b = .ok speed := rfl
  obtain ⟨hoperations, hcancel⟩ := dimensions_are_calculated_along (K := Rat)
  obtain ⟨hmul, hdiv, hneg, hsums⟩ :=
    hoperations a b speed speed ha hb (by decide +kernel) (by decide +kernel) hspeed hspeed'
  have hsquare : speed.mul speed = .ofList [("m", 2), ("s", -2)] := by decide +kernel
  have hnone : speed.div speed = ∅ := by decide +kernel
  rw [hsquare] at hmul
  rw [hnone] at hdiv
  obtain ⟨⟨sum, hsum, hdimension⟩, _⟩ := hsums rfl
  have hnonzero : (a.add b).map Fraction.isZero = .ok false := by decide +kernel
  rw [hsum] at hnonzero
  have hsumNe : sum.isZero = false := Except.ok.inj hnonzero
  refine ⟨hmul, hdiv, hneg, ⟨sum, hsum, hsumNe, hdimension hsumNe⟩, ?_⟩
  refine ⟨⟨.ofMonomial km, .ofSymbol (.unit "h")⟩, by decide +kernel, ?_⟩
  rw [hcancel moved burnt _ speed (Fraction.proper_ofMonomial _) (Fraction.proper_ofMonomial _)
    (by decide +kernel) (by decide +kernel) (by decide +kernel)]
  exact ⟨.ofList [("kg", 1), ("m", 1)], .ofList [("kg", 1), ("s", 1)], rfl, rfl,
    by decide +kernel⟩

end Quotients

end Ramify.Units
