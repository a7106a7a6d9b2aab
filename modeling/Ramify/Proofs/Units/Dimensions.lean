import Ramify.Proofs.Units.Conversion

/-!
Dimensions of quantities. A term has the product of the dimensions of its unit tags. Registered
units are made of the base dimensions, and a tag that is not registered is a dimension of its own,
so that a canonical quantity has such a tag exactly if its dimension has it.
-/

namespace Ramify.Units

section Catalogue

variable {K : Type} [Scalar K]

/-- The dimensions of registered units are made of base dimensions. -/
theorem over_catalogue :
    ∀ entry ∈ catalogue (K := K), entry.2.dimension.Over (· ∈ baseSymbols) := by
  have hall : (catalogue (K := K)).all (fun entry =>
      entry.2.dimension.entries.all (fun power => baseSymbols.contains power.1)) = true := rfl
  intro entry hentry base hbase
  have hpowers := List.all_eq_true.1 (List.all_eq_true.1 hall entry hentry)
  exact List.contains_iff_mem.1
    (hpowers (base, entry.2.dimension.get base) ((Powers.mem_entries_iff _ _).2 ⟨rfl, hbase⟩))

theorem over_of_find? {name : String} {found : Measure K} (h : find? name = some found) :
    found.dimension.Over (· ∈ baseSymbols) := by
  obtain ⟨entry, hentry, rfl⟩ := Option.map_eq_some_iff.1 h
  exact over_catalogue entry (List.mem_of_find?_eq_some hentry)

/-- Base dimensions are registered. -/
theorem not_mem_baseSymbols {name : String} (h : find? (K := K) name = none) :
    name ∉ baseSymbols := by
  intro hmem
  have hall : baseSymbols.all (fun base => (find? (K := K) base).isSome) = true := rfl
  have hsome := List.all_eq_true.1 hall name hmem
  rw [h] at hsome
  cases hsome

theorem measure_of_find? {name : String} {found : Measure K} (h : find? name = some found) :
    measure name = found := by
  unfold measure
  rw [h, Option.getD_some]

theorem measure_of_find?_none {name : String} (h : find? (K := K) name = none) :
    measure name = (baseMeasure name : Measure K) := by
  unfold measure
  rw [h, Option.getD_none]

/-- Dimensions are made of base dimensions, and that of an unregistered tag of the tag itself. -/
theorem over_measure {P : String → Prop} (hbase : ∀ base ∈ baseSymbols, P base) {name : String}
    (hself : find? (K := K) name = none → P name) : (measure (K := K) name).dimension.Over P := by
  cases hfind : find? (K := K) name with
  | some found =>
      rw [measure_of_find? hfind]
      exact fun base hne => hbase base (over_of_find? hfind base hne)
  | none =>
      rw [measure_of_find?_none hfind]
      intro base hne
      have hget : (Powers.single name 1).get base ≠ 0 := hne
      rw [Powers.get_single] at hget
      split at hget
      · rename_i hsame
        exact hsame ▸ hself hfind
      · exact absurd rfl hget

/-- The dimension of an unregistered tag occurs in no other dimension. -/
theorem get_measure {name : String} (h : find? (K := K) name = none) (other : String) :
    (measure (K := K) other).dimension.get name = if other = name then 1 else 0 := by
  cases hother : find? (K := K) other with
  | none =>
      rw [measure_of_find?_none hother]
      exact Powers.get_single other name 1
  | some found =>
      rw [measure_of_find? hother, if_neg]
      · by_contra hne
        exact not_mem_baseSymbols h (over_of_find? hother name hne)
      · rintro rfl
        rw [h] at hother
        cases hother

end Catalogue

section Dimensions

variable {K : Type} [Scalar K] {m : Monomial K} {common : Dimension} {a b : Fraction K}

theorem dimension_cases (h : dimension a = .ok common) :
    (a.isZero = true ∧ common = ∅) ∨
      ∃ num den, polynomialDimension a.num = .ok num ∧ polynomialDimension a.den = .ok den ∧
        a.isZero = false ∧ common = num.div den := by
  unfold dimension at h
  split at h
  · rename_i hzero
    cases h
    exact Or.inl ⟨hzero, rfl⟩
  · rename_i hzero
    obtain ⟨num, hnum, h⟩ := except_bind_eq_ok.1 h
    obtain ⟨den, hden, h⟩ := except_bind_eq_ok.1 h
    cases h
    exact Or.inr ⟨num, den, hnum, hden, Bool.eq_false_iff.2 hzero, rfl⟩

/-- The product of the dimensions of some powers of unit tags. -/
def productDimension (K : Type) [Scalar K] (powers : List (Symbol × Int)) : Dimension :=
  powers.foldl (fun acc power => acc.mul ((measure (K := K) power.1.name).dimension.pow power.2)) ∅

/-- The exponent of a base dimension is the sum of those in the tags, each times that of its tag. -/
theorem get_productDimension (powers : List (Symbol × Int)) (base : String) :
    (productDimension K powers).get base = (powers.map (fun power =>
      (measure (K := K) power.1.name).dimension.get base * power.2)).sum := by
  have hfold (start : Dimension) :
      (powers.foldl (fun acc power =>
        acc.mul ((measure (K := K) power.1.name).dimension.pow power.2)) start).get base =
        start.get base + (powers.map (fun power =>
          (measure (K := K) power.1.name).dimension.get base * power.2)).sum := by
    induction powers generalizing start with
    | nil => simp
    | cons power rest ih =>
        rw [List.foldl_cons, ih, Powers.get_mul, Powers.get_pow, List.map_cons, List.sum_cons,
          add_assoc]
  exact (hfold ∅).trans (Int.zero_add _)

/-- A term has a dimension if only unit tags occur. -/
theorem termDimension_eq_ok_iff :
    termDimension m = .ok common ↔
      (∀ power ∈ m.exponents.entries, power.1.isUnit = true) ∧
        common = productDimension K m.exponents.entries := by
  have hfold (powers : List (Symbol × Int)) (start : Dimension) :
      powers.foldlM (fun (acc : Dimension) (entry : Symbol × Int) =>
        if entry.1.isUnit then
          pure (acc.mul ((measure (K := K) entry.1.name).dimension.pow entry.2))
        else throw (.unknownInQuantity entry.1)) start = (.ok common : Except (Failure K) _) ↔
      (∀ power ∈ powers, power.1.isUnit = true) ∧
        common = powers.foldl (fun acc power =>
          acc.mul ((measure (K := K) power.1.name).dimension.pow power.2)) start := by
    induction powers generalizing start with
    | nil =>
        rw [List.foldlM_nil, except_pure, Except.ok.injEq, eq_comm]
        exact ⟨fun h => ⟨nofun, h⟩, fun h => h.2⟩
    | cons first rest ih =>
        rw [List.foldlM_cons, List.forall_mem_cons, List.foldl_cons]
        cases hunit : first.1.isUnit with
        | false => exact ⟨nofun, fun h => absurd h.1.1 Bool.false_ne_true⟩
        | true =>
            rw [if_pos rfl, except_pure, except_ok_bind, ih]
            simp only [true_and]
  exact hfold m.exponents.entries ∅

theorem over_productDimension {P : String → Prop} {powers : List (Symbol × Int)}
    (h : ∀ power ∈ powers, (measure (K := K) power.1.name).dimension.Over P) :
    (productDimension K powers).Over P := by
  intro base hbase
  rw [get_productDimension] at hbase
  have hsummand : ∃ power ∈ powers,
      (measure (K := K) power.1.name).dimension.get base * power.2 ≠ 0 := by
    by_contra hnone
    push Not at hnone
    exact hbase (List.sum_eq_zero fun x hx => by
      obtain ⟨power, hpower, rfl⟩ := List.mem_map.1 hx
      exact hnone power hpower)
  obtain ⟨power, hpower, hne⟩ := hsummand
  exact h power hpower base (left_ne_zero_of_mul hne)

/-- The exponent of a base dimension is that of its tag, if it occurs in no other tag. -/
theorem get_productDimension_of_tag {e : Exponents} {name : String}
    (hunits : ∀ power ∈ e.entries, power.1.isUnit = true)
    (hself : ∀ power ∈ e.entries, (measure (K := K) power.1.name).dimension.get name =
      if power.1.name = name then 1 else 0) :
    (productDimension K e.entries).get name = e.get (.unit name) := by
  rw [get_productDimension]
  have hsame : e.entries.map (fun power =>
      (measure (K := K) power.1.name).dimension.get name * power.2) =
      e.entries.map (fun power => if power.1 = .unit name then power.2 else 0) := by
    apply List.map_congr_left
    intro power hpower
    have htag : power.1 = .unit name ↔ power.1.name = name := by
      constructor
      · intro heq
        rw [heq]
        rfl
      · rintro rfl
        rw [Symbol.unit, ← hunits power hpower]
    rw [hself power hpower, ite_mul, one_mul, zero_mul]
    simp only [htag]
  rw [hsame]
  exact Powers.sum_entries id rfl e (.unit name)

/-- The exponent of an unregistered tag in a dimension is that of the tag in the term. -/
theorem get_termDimension {name : String} (hname : find? (K := K) name = none)
    (h : termDimension m = .ok common) : common.get name = m.degree (.unit name) := by
  obtain ⟨hunits, rfl⟩ := termDimension_eq_ok_iff.1 h
  exact get_productDimension_of_tag hunits fun power _ => get_measure hname power.1.name

theorem polynomialDimension_of_isZero {p : Polynomial K} (h : p.isZero = true) :
    polynomialDimension p = .ok ∅ := by
  unfold polynomialDimension
  rw [List.isEmpty_iff.1 h]
  rfl

/-- A base dimension of a quantity is one of its unit tags. -/
theorem over_dimension {P : String → Prop} (h : dimension a = .ok common)
    (ha : a.Over (fun symbol => (measure (K := K) symbol.name).dimension.Over P)) :
    common.Over P := by
  have hpolynomial {p : Polynomial K} {found : Dimension}
      (hp : p.All (Powers.Over fun symbol => (measure (K := K) symbol.name).dimension.Over P))
      (hfound : polynomialDimension p = .ok found) : found.Over P := by
    cases hzero : p.isZero with
    | true =>
        rw [polynomialDimension_of_isZero hzero] at hfound
        cases hfound
        exact fun base hbase => absurd rfl hbase
    | false =>
        obtain ⟨first, hfirst⟩ := List.exists_mem_of_ne_nil p.terms fun hnil => by
          rw [Polynomial.isZero, hnil] at hzero
          cases hzero
        have hterm := (polynomialDimension_eq_ok_iff hzero).1 hfound first hfirst
        obtain ⟨_, rfl⟩ := termDimension_eq_ok_iff.1 hterm
        apply over_productDimension
        intro power hpower
        obtain ⟨hget, hne⟩ := (Powers.mem_entries_iff _ power).1 hpower
        exact hp first hfirst power.1 (hget ▸ hne)
  rcases dimension_cases h with ⟨_, rfl⟩ | ⟨num, den, hnum, hden, _, rfl⟩
  · exact fun base hbase => absurd rfl hbase
  · intro base hbase
    rw [Powers.get_div] at hbase
    by_cases hzero : num.get base = 0
    · apply hpolynomial ha.2 hden base
      intro hzero'
      rw [hzero, hzero', sub_zero] at hbase
      exact hbase rfl
    · exact hpolynomial ha.1 hnum base hzero

theorem degree_of_polynomialDimension {name : String} (hname : find? (K := K) name = none)
    {p : Polynomial K} (h : polynomialDimension p = .ok common) (hm : m ∈ p.terms) :
    m.degree (.unit name) = common.get name := by
  have hzero : p.isZero = false := by
    rw [Polynomial.isZero, List.isEmpty_eq_false_iff_exists_mem]
    exact ⟨m, hm⟩
  exact (get_termDimension hname ((polynomialDimension_eq_ok_iff hzero).1 h m hm)).symm

/-- An unregistered tag occurs in a canonical quantity exactly if it does so in the dimension: all
terms of a polynomial have the same power of it, and a shared power is cancelled. -/
theorem mem_symbols_iff_of_unregistered (ha : a.Canonical) (h : dimension a = .ok common)
    {name : String} (hname : find? (K := K) name = none) :
    .unit name ∈ a.symbols ↔ common.get name ≠ 0 := by
  rw [Fraction.symbols, mem_ascending, List.mem_append, Polynomial.mem_symbols,
    Polynomial.mem_symbols]
  rcases dimension_cases h with ⟨hzero, rfl⟩ | ⟨num, den, hnum, hden, hzero, rfl⟩
  · have hnone : ¬∃ m ∈ a.num.terms, m.exponents.get (.unit name) ≠ 0 := by
      rw [List.isEmpty_iff.1 hzero]
      simp
    have hnone' : ¬∃ m ∈ a.den.terms, m.exponents.get (.unit name) ≠ 0 := by
      rw [ha.zero hzero]
      rintro ⟨m, hm, hne⟩
      rw [List.mem_singleton.1 hm] at hne
      exact hne rfl
    exact iff_of_false (not_or.2 ⟨hnone, hnone'⟩) (fun hne => hne rfl)
  · obtain ⟨first, hfirst⟩ := List.isEmpty_eq_false_iff_exists_mem.1 hzero
    obtain ⟨first', hfirst'⟩ := List.isEmpty_eq_false_iff_exists_mem.1 ha.den_ne
    have hnumDegree (m : Monomial K) (hm : m ∈ a.num.terms) :
        m.exponents.get (.unit name) = num.get name := degree_of_polynomialDimension hname hnum hm
    have hdenDegree (m : Monomial K) (hm : m ∈ a.den.terms) :
        m.exponents.get (.unit name) = den.get name := degree_of_polynomialDimension hname hden hm
    have hnumExists : (∃ m ∈ a.num.terms, m.exponents.get (.unit name) ≠ 0) ↔ num.get name ≠ 0 :=
      ⟨fun ⟨m, hm, hne⟩ => hnumDegree m hm ▸ hne,
        fun hne => ⟨first, hfirst, (hnumDegree first hfirst).symm ▸ hne⟩⟩
    have hdenExists : (∃ m ∈ a.den.terms, m.exponents.get (.unit name) ≠ 0) ↔ den.get name ≠ 0 :=
      ⟨fun ⟨m, hm, hne⟩ => hdenDegree m hm ▸ hne,
        fun hne => ⟨first', hfirst', (hdenDegree first' hfirst').symm ▸ hne⟩⟩
    -- the least exponent over all terms is zero, so that one of the two exponents is
    obtain ⟨⟨m, hm, hleast⟩, hlower⟩ := ha.least (.unit name)
    have hnumLower : 0 ≤ num.get name :=
      hlower ⟨first, List.mem_append_left _ hfirst, hnumDegree first hfirst⟩
    have hdenLower : 0 ≤ den.get name :=
      hlower ⟨first', List.mem_append_right _ hfirst', hdenDegree first' hfirst'⟩
    have hmin : num.get name = 0 ∨ den.get name = 0 :=
      (List.mem_append.1 hm).imp (fun hm => (hnumDegree m hm).symm.trans hleast)
        (fun hm => (hdenDegree m hm).symm.trans hleast)
    rw [hnumExists, hdenExists, Powers.get_div]
    omega

def unregistered (a : Fraction K) : List Symbol :=
  a.symbols.filter (fun symbol => (find? (K := K) symbol.name).isNone)

theorem unregistered_eq (ha : a.Canonical) (hb : b.Canonical) (h : dimension a = .ok common)
    (h' : dimension b = .ok common) (hunits : ∀ symbol ∈ a.symbols, symbol.isUnit = true)
    (hunits' : ∀ symbol ∈ b.symbols, symbol.isUnit = true) : unregistered a = unregistered b := by
  have hincreasing (c : Fraction K) : (unregistered c).Pairwise (compare · · = .lt) :=
    (increasing_ascending _).filter _
  have hmem {c : Fraction K} (hc : c.Canonical) (hdimension : dimension c = .ok common)
      (hunits : ∀ symbol ∈ c.symbols, symbol.isUnit = true) (symbol : Symbol) :
      symbol ∈ unregistered c ↔ symbol.isUnit = true ∧ find? (K := K) symbol.name = none ∧
        common.get symbol.name ≠ 0 := by
    unfold unregistered
    rw [List.mem_filter, Option.isNone_iff_eq_none]
    constructor
    · rintro ⟨hsymbol, hnone⟩
      have hunit := hunits symbol hsymbol
      refine ⟨hunit, hnone, (mem_symbols_iff_of_unregistered hc hdimension hnone).1 ?_⟩
      rw [Symbol.unit, ← hunit]
      exact hsymbol
    · rintro ⟨hunit, hnone, hne⟩
      have hsymbol := (mem_symbols_iff_of_unregistered hc hdimension hnone).2 hne
      rw [Symbol.unit, ← hunit] at hsymbol
      exact ⟨hsymbol, hnone⟩
  apply eq_of_increasing (hincreasing a) (hincreasing b)
  intro symbol
  rw [hmem ha h hunits, hmem hb h' hunits']

end Dimensions

end Ramify.Units
