import Ramify.Proofs.Algebra.Evaluation
import Ramify.Units.Quantity

/-!
Conversion between units. A multiple of a quantity has its symbols, its exponents and its
denominator, and so its dimension and a multiple of its value in base units; measured in the
quantity, it gives back the multiplier. Zero is the exception: it counts as a plain number, and a
plain number cannot be measured in a quantity that has a dimension.
-/

namespace Ramify

namespace Polynomial

variable {K : Type}

theorem symbols_mapCoeffs (f : K → K) (p : Polynomial K) : (p.mapCoeffs f).symbols = p.symbols := by
  unfold symbols mapCoeffs
  rw [List.flatMap_map]
  rfl

theorem isZero_mapCoeffs (f : K → K) (p : Polynomial K) : (p.mapCoeffs f).isZero = p.isZero := by
  unfold isZero mapCoeffs
  exact List.isEmpty_map

end Polynomial

namespace Fraction

variable {K : Type} [ExactField K] {a : Fraction K} {k : K}

/-- A multiple of a fraction, for a multiplier other than zero. -/
def multiple (k : K) (a : Fraction K) : Fraction K := ⟨a.num.mapCoeffs (· * k), a.den⟩

theorem symbols_multiple (k : K) (a : Fraction K) : (multiple k a).symbols = a.symbols := by
  unfold symbols multiple
  rw [Polynomial.symbols_mapCoeffs]

theorem isZero_multiple (k : K) (a : Fraction K) : (multiple k a).isZero = a.isZero :=
  Polynomial.isZero_mapCoeffs _ a.num

theorem Canonical.multiple (h : a.Canonical) (hk : k ≠ 0) : (multiple k a).Canonical where
  num_proper := proper_mapCoeffs_mul h.num_proper hk
  den_proper := h.den_proper
  den_ne := h.den_ne
  zero hzero := h.zero ((isZero_multiple k a).symm.trans hzero)
  monic := h.monic
  least symbol := by
    have hdegrees : {d | ∃ m ∈ (Fraction.multiple k a).num.terms ++ a.den.terms,
        m.degree symbol = d} = {d | ∃ m ∈ a.num.terms ++ a.den.terms, m.degree symbol = d} := by
      ext d
      simp [Fraction.multiple, Polynomial.mapCoeffs, Monomial.degree, or_and_right, exists_or]
    exact hdegrees ▸ h.least symbol

theorem Canonical.const_mul (h : a.Canonical) (hk : k ≠ 0) :
    (const k).mul a = .ok (Fraction.multiple k a) := by
  rw [← (h.multiple hk).canonical_eq]
  apply make_congr
  refine ⟨1, Laurent.isTerm_one, ?_, ?_⟩
  · simp only [Fraction.multiple, const, Polynomial.laurent_mapCoeffs a.num k (fun _ => rfl),
      Polynomial.laurent_mul, Polynomial.laurent_const, mul_one]
    exact mul_comm _ _
  · simp only [Fraction.multiple, const, Polynomial.laurent_mul, Polynomial.laurent_one, one_mul,
      mul_one]

theorem const_zero_mul (a : Fraction K) : (const 0).mul a = .ok zero := by
  apply make_of_laurent_eq_zero
  simp [const]

end Fraction

namespace Units

section Dimensions

variable {K : Type} [Scalar K] {p : Polynomial K} {common : Dimension}

/-- The check that a term has a given dimension. -/
theorem checkDimension_eq_ok_iff (p : Polynomial K) (common : Dimension) (m : Monomial K) :
    (do if (← termDimension m) ≠ common then throw (Failure.mixedDimensions p)) = .ok ⟨⟩ ↔
      termDimension m = .ok common := by
  cases termDimension m with
  | error failure => exact ⟨nofun, nofun⟩
  | ok found =>
      rw [except_ok_bind, Except.ok.injEq]
      split
      · rename_i hne
        exact ⟨nofun, fun heq => absurd heq hne⟩
      · rename_i heq
        exact ⟨fun _ => not_not.1 heq, fun _ => rfl⟩

/-- A polynomial other than zero has a dimension if all its terms have it. -/
theorem polynomialDimension_eq_ok_iff (hne : p.isZero = false) :
    polynomialDimension p = .ok common ↔ ∀ m ∈ p.terms, termDimension m = .ok common := by
  unfold polynomialDimension
  cases hterms : p.terms with
  | nil =>
      unfold Polynomial.isZero at hne
      rw [hterms] at hne
      cases hne
  | cons first rest =>
      have hrest := except_forM_eq_ok.trans (forall₂_congr (fun m (_ : m ∈ rest) =>
        checkDimension_eq_ok_iff p common m))
      rw [List.forall_mem_cons, ← hrest]
      dsimp only
      constructor
      · intro h
        obtain ⟨found, hfirst, h⟩ := except_bind_eq_ok.1 h
        obtain ⟨⟨⟩, hall, h⟩ := except_bind_eq_ok.1 h
        cases h
        exact ⟨hfirst, hall⟩
      · rintro ⟨hfirst, hall⟩
        rw [hfirst, except_ok_bind, hall]
        rfl

theorem polynomialDimension_mapCoeffs (hne : p.isZero = false) (f : K → K)
    (h : polynomialDimension p = .ok common) :
    polynomialDimension (p.mapCoeffs f) = .ok common := by
  rw [polynomialDimension_eq_ok_iff hne] at h
  rw [polynomialDimension_eq_ok_iff ((Polynomial.isZero_mapCoeffs f p).trans hne)]
  -- the dimension of a term is read off its exponents
  intro m hm
  obtain ⟨n, hn, rfl⟩ := List.mem_map.1 hm
  exact h n hn

end Dimensions

section Scales

variable {K : Type} [Scalar K]

/-- The point that gives its size in base units to each of some unit tags. -/
def scalePoint (symbols : List Symbol) : SortedMap Symbol K :=
  symbols.foldl (fun acc symbol => acc.insert symbol (measure symbol.name).scale) ∅

/-- The sizes are found if only unit tags occur. -/
theorem scales_eq_ok_iff {a : Fraction K} {point : SortedMap Symbol K} :
    scales a = .ok point ↔
      (∀ symbol ∈ a.symbols, symbol.isUnit = true) ∧ point = scalePoint a.symbols := by
  have hfold (symbols : List Symbol) (start : SortedMap Symbol K) :
      symbols.foldlM (fun (acc : SortedMap Symbol K) (symbol : Symbol) =>
        if symbol.isUnit then pure (acc.insert symbol (measure symbol.name).scale)
        else throw (.unknownInValue a symbol)) start = (.ok point : Except (Failure K) _) ↔
      (∀ symbol ∈ symbols, symbol.isUnit = true) ∧
        point = symbols.foldl (fun acc symbol =>
          acc.insert symbol (measure symbol.name).scale) start := by
    induction symbols generalizing start with
    | nil =>
        rw [List.foldlM_nil, except_pure, Except.ok.injEq, eq_comm]
        exact ⟨fun h => ⟨nofun, h⟩, fun h => h.2⟩
    | cons first rest ih =>
        rw [List.foldlM_cons, List.forall_mem_cons, List.foldl_cons]
        cases hunit : first.isUnit with
        | false => exact ⟨nofun, fun h => absurd h.1.1 Bool.false_ne_true⟩
        | true =>
            rw [if_pos rfl, except_pure, except_ok_bind, ih]
            simp only [true_and]
  exact hfold a.symbols ∅

/-- Each of the tags has its size there. -/
theorem find?_scalePoint {symbols : List Symbol} {symbol : Symbol} (h : symbol ∈ symbols) :
    (scalePoint symbols : SortedMap Symbol K).find? symbol = some (measure symbol.name).scale := by
  have hfold (symbols : List Symbol) (start : SortedMap Symbol K)
      (h : start.find? symbol = some (measure symbol.name).scale ∨ symbol ∈ symbols) :
      (symbols.foldl (fun acc symbol => acc.insert symbol (measure symbol.name).scale)
        start).find? symbol = some (measure symbol.name).scale := by
    induction symbols generalizing start with
    | nil => exact h.resolve_right List.not_mem_nil
    | cons first rest ih =>
        rw [List.foldl_cons]
        apply ih
        rw [SortedMap.find?_insert]
        by_cases hsame : first = symbol
        · rw [if_pos hsame, hsame]
          exact Or.inl rfl
        · rw [if_neg hsame]
          exact h.imp_right fun hmem => (List.mem_cons.1 hmem).resolve_left (Ne.symm hsame)
  exact hfold symbols ∅ (Or.inr h)

theorem covered_scalePoint (symbols : List Symbol) :
    ∀ symbol ∈ symbols, Covered (scalePoint symbols : SortedMap Symbol K) symbol := by
  intro symbol hsymbol
  unfold Covered
  rw [find?_scalePoint hsymbol]
  rfl

/-- A quantity has a value in base units if only unit tags occur in it and it evaluates to a number
at their sizes. -/
theorem baseValue_eq_some_iff_eval {a : Fraction K} {v : K} :
    baseValue a = .ok (some v) ↔
      (∀ symbol ∈ a.symbols, symbol.isUnit = true) ∧
        a.eval (scalePoint a.symbols) = .ok (some v) := by
  unfold baseValue
  rw [except_bind_eq_ok]
  constructor
  · rintro ⟨point, hscales, hvalue⟩
    obtain ⟨hunits, rfl⟩ := scales_eq_ok_iff.1 hscales
    refine ⟨hunits, ?_⟩
    cases heval : a.eval (scalePoint a.symbols) with
    | error cause =>
        rw [heval] at hvalue
        cases hvalue
    | ok value =>
        rw [heval] at hvalue
        cases hvalue
        rfl
  · rintro ⟨hunits, heval⟩
    exact ⟨_, scales_eq_ok_iff.2 ⟨hunits, rfl⟩, by rw [heval]; rfl⟩

end Scales

section Measuring

variable {K : Type} [ExactScalar K] {a target : Fraction K} {k v : K}

theorem eval_scalePoint_eq_some_iff (h : a.Canonical) :
    a.eval (scalePoint a.symbols) = .ok (some v) ↔
      Scalar.resolution ≤ |a.den.value (assignment (scalePoint a.symbols))| ∧
        v = a.num.value (assignment (scalePoint a.symbols)) /
          a.den.value (assignment (scalePoint a.symbols)) :=
  h.eval_eq_some_iff (Fraction.over_iff.2 (covered_scalePoint a.symbols))

/-- A quantity has a value in base units if only unit tags occur in it and its denominator is not
below the resolution. -/
theorem baseValue_eq_some_iff (h : a.Canonical) :
    baseValue a = .ok (some v) ↔
      (∀ symbol ∈ a.symbols, symbol.isUnit = true) ∧
      Scalar.resolution ≤ |a.den.value (assignment (scalePoint a.symbols))| ∧
        v = a.num.value (assignment (scalePoint a.symbols)) /
          a.den.value (assignment (scalePoint a.symbols)) := by
  rw [← eval_scalePoint_eq_some_iff h]
  exact baseValue_eq_some_iff_eval

theorem isZero_eq_false_of_baseValue (ha : a.Canonical) (h : baseValue a = .ok (some v))
    (hv : v ≠ 0) : a.isZero = false := by
  obtain ⟨_, _, rfl⟩ := (baseValue_eq_some_iff ha).1 h
  rw [Bool.eq_false_iff]
  intro hzero
  apply hv
  rw [Polynomial.value_of_isZero hzero, zero_div]

theorem baseValue_zero : baseValue (Fraction.zero : Fraction K) = .ok (some 0) := by
  have hden : (Fraction.zero : Fraction K).den.value
      (assignment (scalePoint (Fraction.zero : Fraction K).symbols)) = 1 := Polynomial.value_one _
  rw [baseValue_eq_some_iff Fraction.canonical_zero, hden]
  refine ⟨nofun, ?_, ?_⟩
  · rw [abs_one]
    exact ExactScalar.resolution_le_one
  · rw [div_one]
    rfl

/-- The value of a multiple is the multiple of the value. -/
theorem baseValue_multiple (ha : a.Canonical) (hk : k ≠ 0) (h : baseValue a = .ok (some v)) :
    baseValue (Fraction.multiple k a) = .ok (some (v * k)) := by
  obtain ⟨hunits, hresolved, rfl⟩ := (baseValue_eq_some_iff ha).1 h
  rw [baseValue_eq_some_iff (ha.multiple hk), Fraction.symbols_multiple]
  refine ⟨hunits, hresolved, ?_⟩
  unfold Fraction.multiple
  rw [Polynomial.value_mapCoeffs _ _ (fun _ => rfl), div_mul_eq_mul_div]

theorem dimension_multiple {common : Dimension} (hzero : a.isZero = false)
    (h : dimension a = .ok common) :
    dimension (Fraction.multiple k a) = .ok common := by
  unfold dimension at h ⊢
  rw [Fraction.isZero_multiple, hzero, if_neg Bool.false_ne_true]
  rw [hzero, if_neg Bool.false_ne_true] at h
  obtain ⟨num, hnum, h⟩ := except_bind_eq_ok.1 h
  unfold Fraction.multiple
  rw [polynomialDimension_mapCoeffs hzero _ hnum]
  exact h

theorem measureIn_eq {common common' : Dimension} (hzero : target.isZero = false)
    (ha : dimension a = .ok common) (htarget : dimension target = .ok common') {w : K}
    (hvalue : baseValue a = .ok (some w)) (hunit : baseValue target = .ok (some v)) :
    measureIn a target =
      if common ≠ common' then .error (.dimensionMismatch a target) else .ok (some (w / v)) := by
  unfold measureIn
  rw [hzero, if_neg Bool.false_ne_true, ha, htarget, hvalue, hunit]
  dsimp only [except_ok_bind]
  split <;> rfl

/-- A multiple of a quantity, measured in the quantity, gives the multiplier. The only exception is
the multiplier zero where the quantity has a dimension, as zero counts as a plain number. -/
theorem multiple_is_measured {common : Dimension} (htarget : target.Canonical)
    (hdimension : dimension target = .ok common) (hvalue : baseValue target = .ok (some v))
    (hv : v ≠ 0) (k : K) :
    ∃ quantity, (Fraction.const k).mul target = .ok quantity ∧
      measureIn quantity target =
        if k = 0 ∧ common ≠ ∅ then .error (.dimensionMismatch quantity target)
        else .ok (some k) := by
  have hzero := isZero_eq_false_of_baseValue htarget hvalue hv
  by_cases hk : k = 0
  · -- zero has no unit left, so that its dimension is that of a plain number
    subst hk
    have hplain : dimension (Fraction.zero : Fraction K) = .ok ∅ := rfl
    refine ⟨.zero, Fraction.const_zero_mul target, ?_⟩
    rw [measureIn_eq hzero hplain hdimension baseValue_zero hvalue, zero_div]
    simp only [true_and, ne_comm]
  · refine ⟨_, htarget.const_mul hk, ?_⟩
    rw [measureIn_eq hzero (dimension_multiple hzero hdimension) hdimension
      (baseValue_multiple htarget hk hvalue) hvalue, mul_div_cancel_left₀ k hv]
    simp only [hk, false_and, ne_eq, not_true_eq_false]

/-- Five halves of a kilometre per hour, measured in kilometres per hour. -/
theorem five_halves_of_a_speed_are_measured :
    let speed : Fraction Rat := ⟨.ofSymbol (.unit "km"), .ofSymbol (.unit "h")⟩
    ∃ quantity, (Fraction.const (5 / 2)).mul speed = .ok quantity ∧
      measureIn quantity speed = .ok (some (5 / 2)) := by
  intro speed
  have hmake : Fraction.make speed.num speed.den = .ok speed := by decide +kernel
  have hspeed := Fraction.canonical_make hmake
  have hdimension : dimension speed = .ok (.ofList [("m", 1), ("s", -1)]) := rfl
  have hvalue : baseValue speed = .ok (some (5 / 18)) := by
    rw [baseValue_eq_some_iff hspeed]
    decide +kernel
  obtain ⟨quantity, hmul, hmeasure⟩ :=
    multiple_is_measured hspeed hdimension hvalue (by norm_num) (5 / 2)
  refine ⟨quantity, hmul, ?_⟩
  rw [hmeasure, if_neg (by norm_num)]

/-- Nothing of a metre is a plain number, which is not measured in metres. -/
theorem nothing_is_not_measured_in_metres :
    let metre : Fraction Rat := .ofSymbol (.unit "m")
    dimension metre = .ok (.single "m" 1) ∧ baseValue metre = .ok (some 1) ∧
      (Fraction.const 0).mul metre = .ok .zero ∧
      measureIn .zero metre = .error (.dimensionMismatch .zero metre) := by
  intro metre
  have hdimension : dimension metre = .ok (.single "m" 1) := rfl
  have hvalue : baseValue metre = .ok (some 1) := by
    rw [baseValue_eq_some_iff (Fraction.canonical_ofSymbol _)]
    decide +kernel
  refine ⟨hdimension, hvalue, Fraction.const_zero_mul metre, ?_⟩
  have hplain : dimension (Fraction.zero : Fraction Rat) = .ok ∅ := rfl
  rw [measureIn_eq rfl hplain hdimension baseValue_zero hvalue, if_pos (by decide)]

end Measuring

end Units

end Ramify
