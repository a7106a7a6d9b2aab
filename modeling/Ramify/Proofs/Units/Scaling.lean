import Ramify.Proofs.Units.Dimensions
import Ramify.Proofs.Units.Tables
import Ramify.Proofs.Worksheet.Rational

/-!
Quantities under a table of factors. The dimension of a quantity, its value in base units and its
value under a table are found on three walks through its terms. They agree: if each base dimension
is worth its factor, then each term, and so the quantity, is worth its value in base units times the
factors of its dimension. What a quantity evaluates to thus depends on its dimension and its value
in base units only, and not on the units that it is written in.
-/

namespace Ramify

namespace Units

section Values

variable {K : Type} [ExactScalar K] {f : String → K} {common : Dimension}

/-- The worth of a unit tag if each base dimension has a worth: its size times that of its
dimension. -/
def worth (f : String → K) (symbol : Symbol) : K :=
  (measure symbol.name).scale * (measure (K := K) symbol.name).dimension.value f

/-- The size of a unit tag in base units. -/
def size (symbol : Symbol) : K := (measure symbol.name).scale

theorem value_productDimension (hf : ∀ base, f base ≠ 0) (powers : List (Symbol × Int)) :
    (productDimension K powers).value f = (powers.map (fun power =>
      (measure (K := K) power.1.name).dimension.value f ^ power.2)).prod := by
  have hfold (start : Dimension) :
      (powers.foldl (fun acc power =>
        acc.mul ((measure (K := K) power.1.name).dimension.pow power.2)) start).value f =
        start.value f * (powers.map (fun power =>
          (measure (K := K) power.1.name).dimension.value f ^ power.2)).prod := by
    induction powers generalizing start with
    | nil => simp
    | cons power rest ih =>
        rw [List.foldl_cons, ih, Powers.value_mul (fun base _ => hf base) (fun base _ => hf base),
          Powers.value_pow, List.map_cons, List.prod_cons, mul_assoc]
  exact (hfold ∅).trans (one_mul _)

/-- A term is worth its value in base units times the worth of its dimension. -/
theorem value_of_termDimension (hf : ∀ base, f base ≠ 0) {m : Monomial K}
    (h : termDimension m = .ok common) :
    m.value (worth f) = m.value size * common.value f := by
  obtain ⟨_, rfl⟩ := termDimension_eq_ok_iff.1 h
  unfold Monomial.value
  rw [value_productDimension hf, mul_assoc]
  exact congrArg (m.coeff * ·) (Powers.value_mul_point size
    (fun symbol => (measure (K := K) symbol.name).dimension.value f) m.exponents)

theorem value_of_polynomialDimension (hf : ∀ base, f base ≠ 0) {p : Polynomial K}
    (h : polynomialDimension p = .ok common) :
    p.value (worth f) = p.value size * common.value f := by
  cases hzero : p.isZero with
  | true => rw [Polynomial.value_of_isZero hzero, Polynomial.value_of_isZero hzero, zero_mul]
  | false =>
      have hterms := (polynomialDimension_eq_ok_iff hzero).1 h
      unfold Polynomial.value
      rw [← List.sum_map_mul_right]
      exact congrArg List.sum
        (List.map_congr_left fun m hm => value_of_termDimension hf (hterms m hm))

/-- A quantity is worth its value in base units times the worth of its dimension. -/
theorem value_of_dimension (hf : ∀ base, f base ≠ 0) {a : Fraction K}
    (h : dimension a = .ok common) :
    a.num.value (worth f) / a.den.value (worth f) =
      a.num.value size / a.den.value size * common.value f := by
  rcases dimension_cases h with ⟨hzero, rfl⟩ | ⟨num, den, hnum, hden, _, rfl⟩
  · rw [Polynomial.value_of_isZero hzero, Polynomial.value_of_isZero hzero, zero_div, zero_div,
      zero_mul]
  · have hne : den.value f ≠ 0 := Powers.value_ne_zero fun base _ => hf base
    rw [value_of_polynomialDimension hf hnum, value_of_polynomialDimension hf hden,
      Powers.value_div num (fun base _ => hf base), ← mul_assoc, mul_div_mul_right _ _ hne,
      mul_div_right_comm]

end Values

end Units

namespace FactorTable

variable {K : Type} [ExactScalar K] {table after : FactorTable K} {symbol : Symbol}
  {point : SortedMap Symbol K} {a b : Fraction K} {common : Dimension}

section Factors

/-- A product that has been given is one of factors in the table. -/
theorem has_of_product {powers : List (String × Int)} {acc x : K} {table : FactorTable K}
    (h : outcome (product acc powers) table = (.ok x, after)) :
    ∀ power ∈ powers, after.Has power.1 := by
  induction powers generalizing acc table with
  | nil => exact nofun
  | cons first rest ih =>
      rw [product_cons] at h
      rcases outcome_bind_cases (baseStandIn first.1 : Action K K)
        (fun value => product (acc * Scalar.power value first.2) rest) table with
        ⟨failure, middle, _, hall⟩ | ⟨value, middle, hvalue, hall⟩
      · rw [hall] at h
        cases h
      · rw [hall] at h
        have hgrows := (asks_product (acc * Scalar.power value first.2) rest).learns.grows middle
        rw [h] at hgrows
        exact List.forall_mem_cons.2
          ⟨(has_of_find? (find?_of_baseStandIn hvalue)).extends hgrows, ih h⟩

theorem outcome_product {powers : List (String × Int)} (h : ∀ power ∈ powers, table.Has power.1)
    (acc : K) :
    outcome (product acc powers) table =
      (.ok (acc * (powers.map (fun power => table.factorOf power.1 ^ power.2)).prod), table) := by
  induction powers generalizing acc with
  | nil => simp [product]
  | cons first rest ih =>
      rw [List.forall_mem_cons] at h
      rw [product_cons, outcome_bind_ok _ (outcome_baseStandIn h.1.find?), ih h.2, List.map_cons,
        List.prod_cons, ExactScalar.scalar_power, mul_assoc]

theorem isUnit_of_factor {x : K} (h : outcome (factor symbol) table = (.ok x, after)) :
    symbol.isUnit = true := by
  by_contra hunit
  rw [factor_of_unknown (Bool.eq_false_iff.2 hunit)] at h
  cases h

/-- A factor that has been given is made of factors in the table. -/
theorem has_of_factor {x : K} (h : outcome (factor symbol) table = (.ok x, after)) :
    (Units.measure (K := K) symbol.name).dimension.Over after.Has := by
  have hunit := isUnit_of_factor h
  intro base hbase
  cases hfind : Units.find? (K := K) symbol.name with
  | none =>
      rw [factor_of_unregistered hunit hfind] at h
      rw [Units.measure_of_find?_none hfind] at hbase
      have hget : (Powers.single symbol.name 1).get base ≠ 0 := hbase
      rw [Powers.get_single] at hget
      split at hget
      · rename_i hsame
        rw [← hsame]
        exact has_of_find? (find?_of_baseStandIn h)
      · exact absurd rfl hget
  | some found =>
      rw [factor_of_registered hunit hfind] at h
      rw [Units.measure_of_find? hfind] at hbase
      exact has_of_product h (base, found.dimension.get base)
        ((Powers.mem_entries_iff _ _).2 ⟨rfl, hbase⟩)

/-- If the factors of its dimension are in the table, a unit tag stands for its worth. -/
theorem outcome_factor (hunit : symbol.isUnit = true)
    (h : (Units.measure (K := K) symbol.name).dimension.Over table.Has) :
    outcome (factor symbol) table = (.ok (Units.worth table.factorOf symbol), table) := by
  unfold Units.worth
  cases hfind : Units.find? (K := K) symbol.name with
  | none =>
      rw [Units.measure_of_find?_none hfind] at h ⊢
      have hbase : (Powers.single symbol.name 1).get symbol.name ≠ 0 := by
        rw [Powers.get_single, if_pos rfl]
        exact one_ne_zero
      rw [factor_of_unregistered hunit hfind, Units.baseMeasure, Powers.value_single, zpow_one,
        one_mul]
      exact outcome_baseStandIn (h symbol.name hbase).find?
  | some found =>
      rw [Units.measure_of_find? hfind] at h ⊢
      rw [factor_of_registered hunit hfind]
      apply outcome_product
      intro power hpower
      obtain ⟨hget, hne⟩ := (Powers.mem_entries_iff _ power).1 hpower
      exact h power.1 (hget ▸ hne)

/-- The answers of a table are the worths of the unit tags. -/
theorem Answers.eq_worth (h : table.Answers point) {x : K} (hx : point.find? symbol = some x) :
    x = Units.worth table.factorOf symbol ∧
      (Units.measure (K := K) symbol.name).dimension.Over table.Has := by
  have hfactor := h symbol x hx
  have hhas := has_of_factor hfactor
  rw [outcome_factor (isUnit_of_factor hfactor) hhas] at hfactor
  cases hfactor
  exact ⟨rfl, hhas⟩

end Factors

section Evaluation

/-- What a quantity has been evaluated to is its value in base units, times the factors of its
dimension. All these are in the table. -/
theorem value_of_eval (hbounded : after.Bounded) {s v : K}
    (hdimension : Units.dimension a = .ok common)
    (hsize : Units.baseValue a = .ok (some s))
    (hvalue : outcome (eval a) table = (.ok (some v), after)) :
    v = s * common.value after.factorOf ∧ common.Over after.Has := by
  obtain ⟨point, hpoint, heval⟩ := exists_point_of_eval hvalue
  obtain ⟨hanswers, hcovered⟩ := answers_pointOf hpoint
  obtain ⟨n, d, hn, hd, _, rfl⟩ := Fraction.eval_eq_some_iff.1 heval
  obtain ⟨hnum, _, rfl⟩ := Polynomial.eval_eq_ok_iff.1 hn
  obtain ⟨hden, _, rfl⟩ := Polynomial.eval_eq_ok_iff.1 hd
  obtain ⟨_, hscaled⟩ := Units.baseValue_eq_some_iff_eval.1 hsize
  obtain ⟨n', d', hn', hd', _, rfl⟩ := Fraction.eval_eq_some_iff.1 hscaled
  obtain ⟨_, _, rfl⟩ := Polynomial.eval_eq_ok_iff.1 hn'
  obtain ⟨_, _, rfl⟩ := Polynomial.eval_eq_ok_iff.1 hd'
  -- the two points, as far as they are looked at, give the worths and the sizes of the tags
  have hworth (symbol : Symbol) (h : Covered point symbol) :
      assignment point symbol = Units.worth after.factorOf symbol :=
    (hanswers.eq_worth (find?_of_covered h)).1
  have hscale (symbol : Symbol) (h : symbol ∈ a.symbols) :
      assignment (Units.scalePoint a.symbols : SortedMap Symbol K) symbol = Units.size symbol := by
    unfold assignment
    rw [Units.find?_scalePoint h]
    rfl
  obtain ⟨hnum', hden'⟩ := Fraction.over_iff.2 fun symbol (h : symbol ∈ a.symbols) => h
  constructor
  · rw [Polynomial.value_congr hnum hworth, Polynomial.value_congr hden hworth,
      Polynomial.value_congr hnum' hscale, Polynomial.value_congr hden' hscale]
    exact Units.value_of_dimension (fun base => (hbounded.factorOf_pos base).ne') hdimension
  · refine Units.over_dimension hdimension ?_
    exact Fraction.over_iff.2 fun symbol h =>
      (hanswers.eq_worth (find?_of_covered (hcovered symbol h))).2

/-- The table after asking for the factors of some base dimensions, in turn. -/
def asked (table : FactorTable K) (symbols : List Symbol) : FactorTable K :=
  symbols.foldl (fun table symbol => (outcome (baseStandIn symbol.name) table).2) table

/-- Where the factors of all base dimensions are there, a registered unit draws none. -/
theorem outcome_factor_of_registered (h : table.Complete) (hunit : symbol.isUnit = true)
    (hfind : (Units.find? (K := K) symbol.name).isSome = true) :
    outcome (factor symbol) table = (.ok (Units.worth table.factorOf symbol), table) := by
  apply outcome_factor hunit
  apply Units.over_measure h
  intro hnone
  rw [hnone] at hfind
  cases hfind

/-- What is drawn for a quantity is drawn for its unregistered tags. -/
theorem eq_asked_of_pointOf (hcomplete : table.Complete)
    (h : outcome (pointOf a) table = (.ok point, after)) :
    after = table.asked (Units.unregistered a) := by
  have hfold (symbols : List Symbol) (start : SortedMap Symbol K) (table : FactorTable K)
      (hcomplete : table.Complete)
      (hrun : outcome (pointFrom a start symbols) table = (.ok point, after)) :
      after = table.asked
        (symbols.filter (fun symbol => (Units.find? (K := K) symbol.name).isNone)) := by
    induction symbols generalizing start table with
    | nil =>
        cases hrun
        rfl
    | cons first rest ih =>
        obtain ⟨hunit, value, middle, hvalue, hrest⟩ := pointFrom_cons_ok hrun
        -- a registered unit draws nothing, and another tag is a base dimension of its own
        cases hfind : Units.find? (K := K) first.name with
        | some found =>
            have hregistered := outcome_factor_of_registered hcomplete hunit (by rw [hfind]; rfl)
            rw [hregistered] at hvalue
            cases hvalue
            rw [List.filter_cons_of_neg (by simp [hfind])]
            exact ih _ table hcomplete hrest
        | none =>
            have hgrows := (asks_factor (K := K) first).learns.grows table
            rw [hvalue] at hgrows
            rw [factor_of_unregistered hunit hfind] at hvalue
            rw [List.filter_cons_of_pos (by simp [hfind]), asked, List.foldl_cons, hvalue]
            exact ih _ middle (hcomplete.extends hgrows) hrest
  rw [pointOf_eq] at h
  exact hfold a.symbols ∅ table hcomplete h

/-- Where the factors of its unregistered tags are there, a quantity is evaluated without drawing.
-/
theorem exists_point_of_has (hcomplete : table.Complete)
    (h : ∀ symbol ∈ a.symbols, symbol.isUnit = true ∧
      (Units.find? (K := K) symbol.name = none → table.Has symbol.name)) :
    ∃ point, outcome (pointOf a) table = (.ok point, table) := by
  have hfold (symbols : List Symbol) (start : SortedMap Symbol K)
      (h : ∀ symbol ∈ symbols, symbol.isUnit = true ∧
        (Units.find? (K := K) symbol.name = none → table.Has symbol.name)) :
      ∃ point, outcome (pointFrom a start symbols) table = (.ok point, table) := by
    induction symbols generalizing start with
    | nil => exact ⟨start, rfl⟩
    | cons first rest ih =>
        obtain ⟨⟨hunit, hself⟩, hrest⟩ := List.forall_mem_cons.1 h
        rw [pointFrom_cons hunit,
          outcome_bind_ok _ (outcome_factor hunit (Units.over_measure hcomplete hself))]
        exact ih _ hrest
  rw [pointOf_eq]
  exact hfold a.symbols ∅ h

/-- A quantity in registered units is evaluated without drawing. -/
theorem exists_point_of_registered (hcomplete : table.Complete)
    (h : ∀ symbol ∈ a.symbols, symbol.isUnit = true ∧
      (Units.find? (K := K) symbol.name).isSome = true) :
    ∃ point, outcome (pointOf a) table = (.ok point, table) := by
  apply exists_point_of_has hcomplete
  intro symbol hsymbol
  obtain ⟨hunit, hfind⟩ := h symbol hsymbol
  refine ⟨hunit, fun hnone => ?_⟩
  rw [hnone] at hfind
  cases hfind

end Evaluation

section Statement

/-- Under every table, a quantity evaluates to its value in base units times the factors of its
dimension. Two quantities of the same dimension and the same value in base units therefore evaluate
to the same number: one after the other, whatever is asked in between, and also if the table is the
same for both. -/
theorem evaluation_respects_units (hfraction : ∀ low high, 0 ≤ (Scalar.fraction low high : K))
    (htable : table.Arises) {s v : K} (hdimension : Units.dimension a = .ok common)
    (hsize : Units.baseValue a = .ok (some s))
    (hvalue : outcome (eval a) table = (.ok (some v), after)) :
    v = s * common.value after.factorOf ∧
    (∀ base, common.get base ≠ 0 →
      outcome (baseStandIn base) after = (.ok (after.factorOf base), after)) ∧
    ∀ b, Units.dimension b = .ok common → Units.baseValue b = .ok (some s) →
      (∀ later last w, after.Leads later → outcome (eval b) later = (.ok (some w), last) → w = v) ∧
      (a.Canonical → b.Canonical →
        ∀ last w, outcome (eval b) table = (.ok (some w), last) → w = v) := by
  have hbounded {table after : FactorTable K} {a : Fraction K} {value : Option K}
      (htable : table.Arises) (h : outcome (eval a) table = (.ok value, after)) :
      after.Bounded := by
    have harises := htable.eval a
    rw [h] at harises
    exact (harises.bounded hfraction).1
  obtain ⟨hv, hhas⟩ := value_of_eval (hbounded htable hvalue) hdimension hsize hvalue
  refine ⟨hv, fun base hbase => outcome_baseStandIn (hhas base hbase).find?, ?_⟩
  intro b hdimension' hsize'
  constructor
  · intro later last w hlater hw
    -- what has been drawn for the first quantity stays, and the second one has the same dimension
    have hafter := htable.eval a
    rw [hvalue] at hafter
    have hlast := hbounded (hafter.leads hlater) hw
    have hgrows := (learns_eval b).grows later
    rw [hw] at hgrows
    rw [hv, (value_of_eval hlast hdimension' hsize' hw).1]
    exact congrArg (s * ·) (Powers.value_congr hhas fun base hbase =>
      hbase.factorOf_eq (hlater.extends.trans hgrows))
  · intro ha hb last w hw
    -- both draw for the same tags, and so end with the same table
    have hcomplete := (htable.bounded hfraction).2
    obtain ⟨point, hpoint, _⟩ := exists_point_of_eval hvalue
    obtain ⟨point', hpoint', _⟩ := exists_point_of_eval hw
    have hsame := Units.unregistered_eq ha hb hdimension hdimension'
      (Units.baseValue_eq_some_iff_eval.1 hsize).1 (Units.baseValue_eq_some_iff_eval.1 hsize').1
    have hlast : last = after := by
      rw [eq_asked_of_pointOf hcomplete hpoint, eq_asked_of_pointOf hcomplete hpoint', hsame]
    rw [hv, (value_of_eval (hbounded htable hw) hdimension' hsize' hw).1, hlast]

/-- Three newton kilometres and three thousand joules, under a table of seed eleven. -/
theorem newton_kilometres_are_evaluated_as_joules :
    let work : Fraction Rat :=
      ⟨.ofMonomial ⟨3, .ofList [(.unit "N", 1), (.unit "km", 1)]⟩, 1⟩
    let energy : Fraction Rat := ⟨.ofMonomial (.single 3000 (.unit "J") 1), 1⟩
    ∃ table, create 11 0.2 0 = .ok table ∧ table.Arises ∧
      Units.dimension work = .ok (.ofList [("kg", 1), ("m", 2), ("s", -2)]) ∧
      Units.baseValue work = .ok (some 3000) ∧
      ∃ v, outcome (eval work) table = (.ok (some v), table) ∧
        v = 3000 * (Powers.ofList [("kg", 1), ("m", 2), ("s", -2)]).value table.factorOf ∧
        outcome (eval energy) table = (.ok (some v), table) := by
  intro work energy
  obtain ⟨table, hcreate⟩ := Rational.exists_table 11
  have harises : table.Arises := ⟨11, 0.2, 0, table, hcreate, .refl⟩
  have hcomplete := (harises.bounded Rational.fraction_nonneg).2
  have hwork : work.Canonical :=
    Fraction.canonical_make (show Fraction.make work.num work.den = .ok work by decide +kernel)
  have henergy : energy.Canonical :=
    Fraction.canonical_make
      (show Fraction.make energy.num energy.den = .ok energy by decide +kernel)
  have hdimension : Units.dimension work = .ok (.ofList [("kg", 1), ("m", 2), ("s", -2)]) := rfl
  have hdimension' : Units.dimension energy = .ok (.ofList [("kg", 1), ("m", 2), ("s", -2)]) := rfl
  have hsize : Units.baseValue work = .ok (some 3000) := by
    rw [Units.baseValue_eq_some_iff_eval]
    decide +kernel
  have hsize' : Units.baseValue energy = .ok (some 3000) := by
    rw [Units.baseValue_eq_some_iff_eval]
    decide +kernel
  have heval (a : Fraction Rat) (ha : a.Canonical) (hden : a.den = 1)
      (hregistered : ∀ symbol ∈ a.symbols, symbol.isUnit = true ∧
        (Units.find? (K := Rat) symbol.name).isSome = true) :
      ∃ v, outcome (eval a) table = (.ok (some v), table) := by
    obtain ⟨point, hpoint⟩ := exists_point_of_registered hcomplete hregistered
    have hvalue := (ha.eval_eq_some_iff (Fraction.over_iff.2 (covered_pointOf hpoint))).2
      ⟨by rw [hden, Polynomial.value_one, abs_one]; exact ExactScalar.resolution_le_one, rfl⟩
    exact ⟨_, by rw [outcome_eval hpoint, hvalue]⟩
  obtain ⟨v, hv⟩ := heval work hwork rfl (by decide +kernel)
  obtain ⟨w, hw⟩ := heval energy henergy rfl (by decide +kernel)
  obtain ⟨hformula, _, hequal⟩ :=
    evaluation_respects_units Rational.fraction_nonneg harises hdimension hsize hv
  refine ⟨table, hcreate, harises, hdimension, hsize, v, hv, hformula, ?_⟩
  rw [← (hequal energy hdimension' hsize').2 hwork henergy table w hw]
  exact hw

end Statement

end FactorTable

end Ramify
