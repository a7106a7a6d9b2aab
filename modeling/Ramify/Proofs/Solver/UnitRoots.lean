import Mathlib.Data.List.Range
import Ramify.Proofs.Algebra.Split
import Ramify.Proofs.Solver.PurePower
import Ramify.Proofs.Units.Homogeneous
import Ramify.Proofs.Units.Scaling

/-!
Pure powers with units. A product of powers of unit tags has a root of some degree if the degree
divides the exponents of the tags, and otherwise still if it divides those of the base dimensions.
The first implies the second, as dimensions are linear in the exponents of the tags. Rewriting over
the base dimensions keeps the dimension, so that either way a root has the dimension of the ratio of
the two terms, divided by the degree.
-/

namespace Ramify

namespace Units

variable {K : Type} [Scalar K]

/-- Whether a tag is its own dimension: that of a base unit, or one that is not registered. -/
def IsBase (K : Type) [Scalar K] (name : String) : Prop :=
  (measure (K := K) name).dimension = Powers.single name 1

theorem isBase_of_mem {name : String} (h : name ∈ baseSymbols) : IsBase K name := by
  have hall : baseSymbols.all (fun base =>
      (measure (K := K) base).dimension == Powers.single base 1) = true := by rfl
  exact eq_of_beq (List.all_eq_true.1 hall name h)

theorem isBase_of_find?_none {name : String} (h : find? (K := K) name = none) : IsBase K name := by
  unfold IsBase
  rw [measure_of_find?_none h]
  rfl

/-- A product of powers of base units has the exponents of its tags as its dimension. -/
theorem ofDimension_of_base {e : Exponents} {common : Dimension}
    (he : e.Over (fun symbol => symbol.isUnit = true ∧ IsBase K symbol.name))
    (hget : ∀ base, common.get base = e.get (.unit base)) : OfDimension K common e := by
  have hentry (power : Symbol × Int) (hpower : power ∈ e.entries) :
      power.1.isUnit = true ∧ IsBase K power.1.name := by
    obtain ⟨hexponent, hne⟩ := (Powers.mem_entries_iff e power).1 hpower
    exact he power.1 (hexponent ▸ hne)
  refine ⟨fun symbol hsymbol => (he symbol hsymbol).1, fun base => ?_⟩
  rw [hget, ← get_productDimension_entries]
  symm
  apply get_productDimension_of_tag (fun power hpower => (hentry power hpower).1)
  intro power hpower
  rw [(hentry power hpower).2, Powers.get_single]

theorem OfDimension.over_base {e : Exponents} {common : Dimension} (h : OfDimension K common e) :
    common.Over (IsBase K) := by
  obtain ⟨_, rfl⟩ := ofDimension_iff.1 h
  exact over_productDimension fun power _ =>
    over_measure (fun base => isBase_of_mem) isBase_of_find?_none

end Units

namespace PurePower

open Ramify.Units

section Base

variable {K : Type} [ExactScalar K] {e : Exponents} {common : Dimension}

/-- What each step of a fold multiplies and adds, the fold multiplies and adds in all. -/
private theorem foldl_base (factor : Symbol × Int → K) (gain : Symbol → Symbol × Int → Int)
    {step : K × Exponents → Symbol × Int → K × Exponents} {powers : List (Symbol × Int)}
    (hstep : ∀ power ∈ powers, ∀ acc, (step acc power).1 = acc.1 * factor power ∧
      ∀ symbol, (step acc power).2.get symbol = acc.2.get symbol + gain symbol power)
    (start : K × Exponents) :
    (powers.foldl step start).1 = start.1 * (powers.map factor).prod ∧
      ∀ symbol, (powers.foldl step start).2.get symbol =
        start.2.get symbol + (powers.map (gain symbol)).sum := by
  induction powers generalizing start with
  | nil => simp
  | cons first rest ih =>
      obtain ⟨hfirst, hrest⟩ := List.forall_mem_cons.1 hstep
      obtain ⟨hscale, hget⟩ := ih hrest (step start first)
      rw [List.foldl_cons]
      constructor
      · rw [hscale, (hfirst start).1, List.map_cons, List.prod_cons, mul_assoc]
      · intro symbol
        rw [hget, (hfirst start).2, List.map_cons, List.sum_cons, add_assoc]

/-- The powers of a dimension, written as powers of unit tags. -/
theorem get_foldl_base (dimension : Dimension) (exponent : Int) (start : Exponents)
    (symbol : Symbol) :
    (dimension.entries.foldl (fun (powers : Exponents) (base : String × Int) =>
      powers.raise (.unit base.1) (base.2 * exponent)) start).get symbol =
      start.get symbol + if symbol.isUnit then dimension.get symbol.name * exponent else 0 := by
  have hentries := Powers.get_foldl_raise (· * exponent)
    (dimension.entries.map fun base => (Symbol.unit base.1, base.2)) start symbol
  rw [List.foldl_map, List.map_map] at hentries
  rw [hentries]
  congr 1
  cases hunit : symbol.isUnit with
  | true =>
      rw [if_pos rfl, ← Powers.sum_entries (· * exponent) (Int.zero_mul _) dimension symbol.name]
      congr 1
      apply List.map_congr_left
      intro base _
      have htag : Symbol.unit base.1 = symbol ↔ base.1 = symbol.name := by
        constructor
        · rintro rfl
          rfl
        · intro hname
          rw [Symbol.unit, hname, ← hunit]
      simp only [Function.comp_apply, htag]
  | false =>
      rw [if_neg Bool.false_ne_true]
      apply List.sum_eq_zero
      intro x hx
      obtain ⟨base, _, rfl⟩ := List.mem_map.1 hx
      have hne : Symbol.unit base.1 ≠ symbol := by
        rintro rfl
        cases hunit
      simp only [Function.comp_apply, if_neg hne]

/-- The exponent of a symbol in a power of a unit tag, written over the base dimensions. -/
def exponentIn (K : Type) [Scalar K] (symbol : Symbol) (power : Symbol × Int) : Int :=
  if symbol.isUnit then (measure (K := K) power.1.name).dimension.get symbol.name * power.2 else 0

theorem exponentIn_of_unregistered {power : Symbol × Int} (hunit : power.1.isUnit = true)
    (h : find? (K := K) power.1.name = none) (symbol : Symbol) :
    exponentIn K symbol power = if power.1 = symbol then power.2 else 0 := by
  unfold exponentIn
  have hdimension : (measure (K := K) power.1.name).dimension = Powers.single power.1.name 1 :=
    isBase_of_find?_none h
  have htag : power.1 = symbol ↔ symbol.isUnit = true ∧ power.1.name = symbol.name := by
    constructor
    · rintro rfl
      exact ⟨hunit, rfl⟩
    · rintro ⟨hsymbol, hname⟩
      rcases hpower : power.1 with ⟨name, tag⟩
      rw [hpower] at hunit hname
      cases symbol
      cases hunit
      cases hsymbol
      cases hname
      rfl
  rw [hdimension, Powers.get_single, ite_mul, one_mul, zero_mul, ← ite_and]
  simp only [htag]

/-- Over the base dimensions each tag has the exponent of its dimension, and the number in front is
the product of the sizes of the units, raised to their exponents. -/
theorem overBase_eq (h : OfDimension K common e) :
    (overBase (K := K) e).1 = e.value (size (K := K)) ∧
      ∀ symbol, (overBase (K := K) e).2.get symbol =
        if symbol.isUnit then common.get symbol.name else 0 := by
  obtain ⟨hunits, rfl⟩ := ofDimension_iff.1 h
  have hsum (symbol : Symbol) :
      (if symbol.isUnit then (productDimension K e.entries).get symbol.name else 0) =
        (∅ : Exponents).get symbol + (e.entries.map (exponentIn K symbol)).sum := by
    rw [Powers.get_one, zero_add, get_productDimension]
    unfold exponentIn
    cases symbol.isUnit <;> simp
  have hvalue : e.value (size (K := K)) =
      1 * (e.entries.map fun power => size (K := K) power.1 ^ power.2).prod := (one_mul _).symm
  simp only [hsum]
  rw [hvalue]
  unfold overBase
  refine foldl_base (fun power => size power.1 ^ power.2) (exponentIn K)
    (fun power hpower acc => ?_)
    (1, ∅)
  cases hfind : find? (K := K) power.1.name with
  | none =>
      constructor
      · rw [size, measure_of_find?_none hfind, baseMeasure, one_zpow, mul_one]
      · intro symbol
        rw [Powers.get_raise, exponentIn_of_unregistered (hunits power hpower) hfind]
  | some found =>
      constructor
      · rw [size, measure_of_find? hfind, ← ExactScalar.scalar_power]
      · intro symbol
        rw [get_foldl_base, exponentIn, measure_of_find? hfind]

/-- Rewriting over the base dimensions keeps the dimension. -/
theorem ofDimension_overBase (h : OfDimension K common e) :
    OfDimension K common (overBase (K := K) e).2 := by
  obtain ⟨_, hget⟩ := overBase_eq h
  apply ofDimension_of_base
  · intro symbol hsymbol
    rw [hget] at hsymbol
    split at hsymbol
    · rename_i hunit
      exact ⟨hunit, h.over_base symbol.name hsymbol⟩
    · exact absurd rfl hsymbol
  · intro base
    rw [hget]
    rfl

end Base

section Roots

variable {K : Type} [ExactScalar K] {e : Exponents} {common : Dimension} {n : Nat}

theorem divisible_iff : divisible n e = true ↔ ∀ symbol, (n : Int) ∣ e.get symbol := by
  unfold divisible
  simp only [List.all_eq_true, beq_iff_eq, ← Int.dvd_iff_emod_eq_zero]
  constructor
  · intro h symbol
    by_cases hzero : e.get symbol = 0
    · exact hzero ▸ Int.dvd_zero _
    · exact h (symbol, e.get symbol) ((Powers.mem_entries_iff e _).2 ⟨rfl, hzero⟩)
  · intro h entry hentry
    rw [← ((Powers.mem_entries_iff e entry).1 hentry).1]
    exact h entry.1

/-- A degree that divides the exponents of all tags divides those of the dimension. -/
theorem dvd_of_divisible (h : OfDimension K common e) (hdivisible : divisible n e = true)
    (base : String) : (n : Int) ∣ common.get base := by
  obtain ⟨_, rfl⟩ := ofDimension_iff.1 h
  rw [get_productDimension]
  apply List.dvd_sum
  intro x hx
  obtain ⟨power, hpower, rfl⟩ := List.mem_map.1 hx
  rw [← ((Powers.mem_entries_iff e power).1 hpower).1]
  exact dvd_mul_of_dvd_right (divisible_iff.1 hdivisible power.1) _

/-- Over the base dimensions the converse holds as well. -/
theorem divisible_overBase_iff (h : OfDimension K common e) :
    divisible n (overBase (K := K) e).2 = true ↔ ∀ base, (n : Int) ∣ common.get base := by
  constructor
  · exact dvd_of_divisible (ofDimension_overBase h)
  · intro hdvd
    rw [divisible_iff]
    intro symbol
    rw [(overBase_eq h).2]
    split
    · exact hdvd symbol.name
    · exact Int.dvd_zero _

/-- The exponents of a part of the root, of one sign. -/
theorem get_rootPart (n : Nat) (e : Exponents) (positive : Bool) (symbol : Symbol) :
    (rootPart n e positive : Monomial K).exponents.get symbol =
      if decide (0 < e.get symbol) == positive then ((e.get symbol).natAbs : Int) / n else 0 := by
  generalize hpart : (if decide (0 < e.get symbol) == positive
    then ((e.get symbol).natAbs : Int) / n else 0) = part
  have hfold (powers : List (Symbol × Int)) (hpowers : ∀ power ∈ powers, e.get power.1 = power.2)
      (start : Exponents)
      (hstart : start.get symbol = part ∨ start.get symbol = 0 ∧ symbol ∈ powers.map Prod.fst) :
      (powers.foldl (fun (acc : Exponents) (entry : Symbol × Int) =>
        if decide (0 < entry.2) == positive then acc.set entry.1 ((entry.2.natAbs : Int) / n)
        else acc) start).get symbol = part := by
    induction powers generalizing start with
    | nil => exact hstart.resolve_right fun h => List.not_mem_nil h.2
    | cons first rest ih =>
        obtain ⟨hfirst, hrest⟩ := List.forall_mem_cons.1 hpowers
        rw [List.foldl_cons]
        apply ih hrest
        by_cases hsame : first.1 = symbol
        · -- the entry of the symbol itself
          left
          subst hsame
          rw [hfirst] at hpart
          split
          · rename_i hsign
            rw [if_pos hsign] at hpart
            rw [Powers.get_set, if_pos rfl, hpart]
          · rename_i hsign
            rw [if_neg hsign] at hpart
            exact hstart.elim id fun h => h.1.trans hpart
        · have hother : (if decide (0 < first.2) == positive
              then start.set first.1 ((first.2.natAbs : Int) / n) else start).get symbol =
              start.get symbol := by
            split
            · rw [Powers.get_set, if_neg hsame]
            · rfl
          rw [hother]
          exact hstart.imp_right fun h =>
            ⟨h.1, (List.mem_cons.1 h.2).resolve_left (Ne.symm hsame)⟩
  refine hfold e.entries (fun power hpower => ((Powers.mem_entries_iff e power).1 hpower).1) ∅ ?_
  rw [Powers.get_one]
  by_cases hzero : e.get symbol = 0
  · left
    rw [← hpart, hzero]
    simp
  · exact Or.inr ⟨rfl, (Powers.mem_keys_iff e symbol).2 hzero⟩

/-- The two parts of the root, one divided by the other and raised to the degree, are the powers
they are made from. -/
theorem get_rootPart_sub (hn : 0 < n) (hdivisible : divisible n e = true) (symbol : Symbol) :
    ((rootPart n e true : Monomial K).exponents.get symbol -
      (rootPart n e false : Monomial K).exponents.get symbol) * n = e.get symbol := by
  obtain ⟨quotient, hquotient⟩ := divisible_iff.1 hdivisible symbol
  have hne : (n : Int) ≠ 0 := Int.natCast_ne_zero.2 hn.ne'
  rw [get_rootPart, get_rootPart, hquotient]
  by_cases hpos : 0 < n * quotient
  · rw [decide_eq_true hpos, Int.natAbs_of_nonneg hpos.le, Int.mul_ediv_cancel_left _ hne]
    simp [mul_comm]
  · rw [decide_eq_false hpos, Int.ofNat_natAbs_of_nonpos (not_lt.1 hpos), ← mul_neg,
      Int.mul_ediv_cancel_left _ hne]
    simp [mul_comm]

/-- The unit of the roots has the dimension of the powers, divided by the degree. -/
theorem exists_hasRatio_rootPart (hn : 0 < n) (h : OfDimension K common e)
    (hdivisible : divisible n e = true) :
    ∃ root, HasRatio (.ofMonomial (rootPart n e true : Monomial K))
      (.ofMonomial (rootPart n e false)) root ∧ ∀ base, root.get base * n = common.get base := by
  have hpart (positive : Bool) :
      ∃ part, OfDimension K part (rootPart n e positive : Monomial K).exponents := by
    apply exists_ofDimension
    intro symbol hsymbol
    apply h.units symbol
    intro hzero
    rw [get_rootPart, hzero] at hsymbol
    simp at hsymbol
  obtain ⟨up, hup⟩ := hpart true
  obtain ⟨down, hdown⟩ := hpart false
  refine ⟨up.div down, ⟨up, down, homogeneous_ofMonomial one_ne_zero hup,
    homogeneous_ofMonomial one_ne_zero hdown, rfl⟩, fun base => ?_⟩
  have hpowers : n • ((rootPart n e true : Monomial K).exponents.toFinsupp -
      (rootPart n e false : Monomial K).exponents.toFinsupp) = e.toFinsupp := by
    ext symbol
    rw [Finsupp.smul_apply, nsmul_eq_mul, mul_comm]
    exact get_rootPart_sub hn hdivisible symbol
  rw [Powers.get_div, hup.get, hdown.get, h.get, ← map_sub, ← hpowers, map_nsmul, nsmul_eq_mul,
    mul_comm]

theorem exists_multiple {unit : Fraction K} (hunit : unit.Canonical) (hne : unit.isZero = false)
    (h : dimension unit = .ok common) (root : K) :
    ∃ v, (Fraction.const root).mul unit = .ok v ∧
      (v.isZero = false → dimension v = .ok common) := by
  by_cases hroot : root = 0
  · rw [hroot]
    exact ⟨.zero, Fraction.const_zero_mul unit, nofun⟩
  · exact ⟨_, hunit.const_mul hroot, fun _ => dimension_multiple hne h⟩

/-- The roots exist, and those other than zero have the dimension of their unit. -/
theorem exists_rootsOf_hasRatio (ratio : K)
    (h : HasRatio (.ofMonomial (rootPart n e true : Monomial K))
      (.ofMonomial (rootPart n e false)) common) :
    ∃ values, rootsOf n ratio e = .ok values ∧
      ∀ v ∈ values, v.isZero = false → dimension v = .ok common := by
  obtain ⟨unit, hunit, hne, hdimension⟩ := h.make
  have hmultiple := exists_multiple (Fraction.canonical_make hunit) hne hdimension
  unfold rootsOf
  rw [hunit, except_ok_bind]
  split
  · split
    · exact ⟨[], rfl, nofun⟩
    · obtain ⟨low, hlow, hlow'⟩ := hmultiple (-Scalar.root ratio n)
      obtain ⟨high, hhigh, hhigh'⟩ := hmultiple (Scalar.root ratio n)
      refine ⟨[low, high], by simp only [hlow, hhigh, except_ok_bind]; rfl, ?_⟩
      simp only [List.forall_mem_cons]
      exact ⟨hlow', hhigh', nofun⟩
  · obtain ⟨v, hv, hv'⟩ := hmultiple (Scalar.copySign (Scalar.root (Scalar.abs ratio) n) ratio)
    exact ⟨[v], by simp only [hv, except_ok_bind]; rfl, List.forall_mem_singleton.2 hv'⟩

end Roots

section Binomial

variable {K : Type} [ExactScalar K] {a b : Monomial K} {symbol : Symbol} {n : Nat}

/-- What is split into two terms, and zeros between them, is a pure power. -/
theorem split_of_parts {p offset leading : Polynomial K} {middle : List (Polynomial K)}
    (h : p.splitBy symbol = .ok (offset :: (middle ++ [leading])))
    (hmiddle : ∀ q ∈ middle, q.isZero = true) (hquantity : leading.isQuantity = true)
    (hquantity' : offset.isQuantity = true) (hleading : leading.terms = [a])
    (hoffset : offset.terms = [b]) :
    split p symbol = .ok (some (middle.length + 1, a, some b)) := by
  have hform :
      (middle.all Polynomial.isZero && leading.isQuantity && offset.isQuantity) = true := by
    rw [List.all_eq_true.2 hmiddle, hquantity, hquantity']
    rfl
  unfold split
  rw [h, except_ok_bind]
  cases hhigher : middle ++ [leading] with
  | nil => exact absurd hhigher (List.append_ne_nil_of_right_ne_nil _ (List.cons_ne_nil _ _))
  | cons first rest =>
      dsimp only
      rw [← hhigher, List.dropLast_concat, List.getLastD_concat, hform, if_pos rfl, hleading,
        hoffset,
        List.length_append, List.length_singleton]
      rfl

/-- The polynomial `a * symbol^n + b`. -/
def binomial (a b : Monomial K) (symbol : Symbol) (n : Nat) : Polynomial K :=
  .ofMonomial (a * Monomial.single 1 symbol n) + .ofMonomial b

theorem degree_mul_single (hax : a.degree symbol = 0) :
    (a * Monomial.single 1 symbol n).degree symbol = (n : Int) := by
  change (a.exponents.mul (Powers.single symbol n)).get symbol = n
  rw [Powers.get_mul, Powers.get_single, if_pos rfl]
  exact (congrArg (· + (n : Int)) hax).trans (zero_add _)

/-- The symbol is taken out of the first term again. -/
theorem erase_mul_single (hax : a.degree symbol = 0) :
    (a * Monomial.single 1 symbol n).exponents.erase symbol = a.exponents := by
  apply Powers.ext_get
  intro other
  change ((a.exponents.mul (Powers.single symbol n)).erase symbol).get other = _
  rw [Powers.get_erase, Powers.get_mul, Powers.get_single]
  split
  · rename_i hsame
    exact hsame ▸ hax.symm
  · exact add_zero _

theorem perm_terms_binomial (hn : 0 < n) (ha : a.coeff ≠ 0) (hb : b.coeff ≠ 0)
    (hax : a.degree symbol = 0) (hbx : b.degree symbol = 0) :
    (binomial a b symbol n).terms.Perm [a * Monomial.single 1 symbol n, b] := by
  have hcoeff : (a * Monomial.single 1 symbol n).coeff = a.coeff := mul_one a.coeff
  apply Polynomial.perm_terms_add (hcoeff ▸ ha) hb
  intro hsame
  have hdegrees : (a * Monomial.single 1 symbol n).degree symbol = b.degree symbol :=
    congrArg (Powers.get · symbol) hsame
  rw [degree_mul_single hax, hbx] at hdegrees
  omega

/-- Of each power of the symbol there is at most one term. -/
theorem filter_terms_binomial (hn : 0 < n) (ha : a.coeff ≠ 0) (hb : b.coeff ≠ 0)
    (hax : a.degree symbol = 0) (hbx : b.degree symbol = 0) (k : Nat) :
    (binomial a b symbol n).terms.filter (fun m => m.degree symbol == (k : Int)) =
      if k = n then [a * Monomial.single 1 symbol n] else if k = 0 then [b] else [] := by
  have hfilter := (perm_terms_binomial hn ha hb hax hbx).filter
    (fun m => m.degree symbol == (k : Int))
  simp only [List.filter_cons, List.filter_nil, degree_mul_single hax, hbx, beq_iff_eq] at hfilter
  by_cases hhighest : k = n
  · rw [if_pos (by omega), if_neg (by omega)] at hfilter
    rw [if_pos hhighest]
    exact List.perm_singleton.1 hfilter
  · rw [if_neg (by omega)] at hfilter
    rw [if_neg hhighest]
    split at hfilter
    · rw [if_pos (by omega)]
      exact List.perm_singleton.1 hfilter
    · rw [if_neg (by omega)]
      exact List.perm_nil.1 hfilter

theorem degree_of_mem_binomial (hn : 0 < n) (ha : a.coeff ≠ 0) (hb : b.coeff ≠ 0)
    (hax : a.degree symbol = 0) (hbx : b.degree symbol = 0) {m : Monomial K}
    (hm : m ∈ (binomial a b symbol n).terms) :
    m.degree symbol = (n : Int) ∨ m.degree symbol = 0 := by
  rcases List.mem_cons.1 ((perm_terms_binomial hn ha hb hax hbx).mem_iff.1 hm) with rfl | hm
  · exact Or.inl (degree_mul_single hax)
  · exact Or.inr (List.mem_singleton.1 hm ▸ hbx)

theorem nonneg_degree_binomial (hn : 0 < n) (ha : a.coeff ≠ 0) (hb : b.coeff ≠ 0)
    (hax : a.degree symbol = 0) (hbx : b.degree symbol = 0) :
    ∀ m ∈ (binomial a b symbol n).terms, 0 ≤ m.degree symbol := by
  intro m hm
  rcases degree_of_mem_binomial hn ha hb hax hbx hm with h | h <;> omega

theorem degree_binomial (hn : 0 < n) (ha : a.coeff ≠ 0) (hb : b.coeff ≠ 0)
    (hax : a.degree symbol = 0) (hbx : b.degree symbol = 0) :
    (binomial a b symbol n).degree symbol = n := by
  have hfirst : a * Monomial.single 1 symbol n ∈ (binomial a b symbol n).terms :=
    (perm_terms_binomial hn ha hb hax hbx).mem_iff.2 List.mem_cons_self
  have hle : (n : Int) ≤ (binomial a b symbol n).degree symbol :=
    degree_mul_single (n := n) hax ▸ Int.toNat_le.1 (Polynomial.degree_le hfirst symbol)
  obtain ⟨m, hm, hmax⟩ := Polynomial.exists_degree (nonneg_degree_binomial hn ha hb hax hbx)
    (List.isEmpty_eq_false_iff_exists_mem.2 ⟨_, hfirst⟩)
  rcases degree_of_mem_binomial hn ha hb hax hbx hm with h | h <;> omega

/-- By the powers of the symbol a pure power has its two terms, and zeros between them. -/
theorem splitBy_binomial (hn : 0 < n) (ha : a.coeff ≠ 0) (hb : b.coeff ≠ 0)
    (hax : a.degree symbol = 0) (hbx : b.degree symbol = 0) :
    ∃ (offset leading : Polynomial K) (middle : List (Polynomial K)),
      (binomial a b symbol n).splitBy symbol = .ok (offset :: (middle ++ [leading])) ∧
        middle.length + 1 = n ∧ (∀ q ∈ middle, q.isZero = true) ∧ leading.terms = [a] ∧
        offset.terms = [b] := by
  have hsplit := Polynomial.splitBy_of_nonneg (nonneg_degree_binomial hn ha hb hax hbx)
  rw [degree_binomial hn ha hb hax hbx] at hsplit
  have hpart := filter_terms_binomial hn ha hb hax hbx
  have hoffset : ((binomial a b symbol n).powerPart symbol 0).terms = [b] := by
    have hfilter := hpart 0
    rw [if_neg (by omega), if_pos rfl] at hfilter
    rw [Polynomial.powerPart_of_filter hb hfilter, Powers.erase_of_get_eq_zero hbx]
  have hleading : ((binomial a b symbol n).powerPart symbol n).terms = [a] := by
    have hfilter := hpart n
    rw [if_pos rfl] at hfilter
    have hcoeff : (a * Monomial.single 1 symbol n).coeff = a.coeff := mul_one a.coeff
    rw [Polynomial.powerPart_of_filter (hcoeff ▸ ha) hfilter, hcoeff, erase_mul_single hax]
  have hmiddle (k : Nat) (hk : 0 < k) (hkn : k < n) :
      ((binomial a b symbol n).powerPart symbol k).isZero = true := by
    have hfilter := hpart k
    rw [if_neg (by omega), if_neg (by omega)] at hfilter
    unfold Polynomial.powerPart
    rw [hfilter]
    rfl
  generalize binomial a b symbol n = p at hsplit hoffset hleading hmiddle ⊢
  obtain ⟨last, rfl⟩ := Nat.exists_eq_add_of_lt hn
  rw [zero_add] at hsplit hleading hmiddle ⊢
  have hparts : (List.range (last + 1 + 1)).map (p.powerPart symbol) =
      p.powerPart symbol 0 :: ((List.range last).map (fun k => p.powerPart symbol (k + 1)) ++
        [p.powerPart symbol (last + 1)]) := by
    rw [List.range_succ, List.range_succ_eq_map]
    simp
  rw [hparts] at hsplit
  refine ⟨_, _, _, hsplit, by simp, ?_, hleading, hoffset⟩
  intro q hq
  obtain ⟨k, hk, rfl⟩ := List.mem_map.1 hq
  exact hmiddle (k + 1) (Nat.succ_pos k) (Nat.succ_lt_succ (List.mem_range.1 hk))

/-- A pure power is recognized. -/
theorem split_binomial (hn : 0 < n) (ha : a.coeff ≠ 0) (hb : b.coeff ≠ 0)
    (hunits : a.exponents.Over (fun symbol => symbol.isUnit = true))
    (hunits' : b.exponents.Over (fun symbol => symbol.isUnit = true))
    (hax : a.degree symbol = 0) (hbx : b.degree symbol = 0) :
    split (binomial a b symbol n) symbol = .ok (some (n, a, some b)) := by
  obtain ⟨offset, leading, middle, hsplit, rfl, hmiddle, hleading, hoffset⟩ :=
    splitBy_binomial hn ha hb hax hbx
  have hquantity {q : Polynomial K} {m : Monomial K} (hq : q.terms = [m])
      (hm : m.exponents.Over (fun symbol => symbol.isUnit = true)) : q.isQuantity = true := by
    apply Polynomial.isQuantity_of_over
    unfold Polynomial.All
    rw [hq]
    exact List.forall_mem_singleton.2 hm
  exact split_of_parts hsplit hmiddle (hquantity hleading hunits) (hquantity hoffset hunits')
    hleading hoffset

/-- The roots of a pure power exist unless the degree does not divide the dimension of the ratio of
its two terms, and those other than zero have that dimension, divided by the degree. -/
theorem exists_roots_binomial {common : Dimension} (hn : 0 < n) (ha : a.coeff ≠ 0)
    (hb : b.coeff ≠ 0) (hunits : a.exponents.Over (fun symbol => symbol.isUnit = true))
    (hunits' : b.exponents.Over (fun symbol => symbol.isUnit = true))
    (hax : a.degree symbol = 0) (hbx : b.degree symbol = 0)
    (hratio : OfDimension K common (b.exponents.div a.exponents)) :
    ∃ found, roots (binomial a b symbol n) symbol = .ok found ∧
      (found = none ↔ ∃ base, ¬(n : Int) ∣ common.get base) ∧
      ∀ values, found = some values → ∀ v ∈ values, v.isZero = false →
        ∃ root, dimension v = .ok root ∧ ∀ base, root.get base * n = common.get base := by
  -- either way the roots are taken of powers of the same dimension
  have hfound (ratio : K) {e : Exponents} (he : OfDimension K common e)
      (hdvd : divisible n e = true ↔ ∀ base, (n : Int) ∣ common.get base) :
      ∃ found, (if divisible n e then some <$> rootsOf n ratio e else pure none) = .ok found ∧
        (found = none ↔ ∃ base, ¬(n : Int) ∣ common.get base) ∧
        ∀ values, found = some values → ∀ v ∈ values, v.isZero = false →
          ∃ root, dimension v = .ok root ∧ ∀ base, root.get base * n = common.get base := by
    rw [← not_forall, ← hdvd]
    cases hdivisible : divisible n e with
    | false => exact ⟨none, rfl, by simp, nofun⟩
    | true =>
        obtain ⟨root, hroot, hget⟩ := exists_hasRatio_rootPart hn he hdivisible
        obtain ⟨values, hvalues, hdimension⟩ := exists_rootsOf_hasRatio ratio hroot
        refine ⟨some values, by rw [if_pos rfl, hvalues]; rfl, by simp, ?_⟩
        rintro _ ⟨⟩ v hv hne
        exact ⟨root, hdimension v hv hne, hget⟩
  unfold roots
  rw [split_binomial hn ha hb hunits hunits' hax hbx, except_ok_bind]
  dsimp only
  cases hraw : divisible n (b.exponents.div a.exponents) with
  | true =>
      have hdvd := iff_of_true hraw (dvd_of_divisible hratio hraw)
      have hresult := hfound (-b.coeff / a.coeff) hratio hdvd
      rw [hraw] at hresult
      rw [if_pos rfl, hraw]
      exact hresult
  | false =>
      rw [if_neg Bool.false_ne_true]
      exact hfound _ (ofDimension_overBase hratio) (divisible_overBase_iff hratio)

/-- A product of powers of unit tags keeps its dimension when it is written over the base
dimensions, with the product of the sizes of the units in front. The roots of `a * symbol^n + b`,
with two terms in unit tags, do not exist exactly if `n` does not divide the dimension of `b / a`;
otherwise each root other than zero has that dimension, divided by `n`. -/
theorem roots_have_a_part_of_the_dimension :
    (∀ e : Exponents, e.Over (fun symbol => symbol.isUnit = true) →
      ∃ common, (∀ c : K, termDimension ⟨c, e⟩ = .ok common) ∧
        (∀ symbol, (overBase (K := K) e).2.get symbol =
          if symbol.isUnit then common.get symbol.name else 0) ∧
        (overBase (K := K) e).1 = e.value (size (K := K))) ∧
    ∀ (symbol : Symbol) (n : Nat) (a b : Monomial K), 0 < n → a.coeff ≠ 0 → b.coeff ≠ 0 →
      a.exponents.Over (fun symbol => symbol.isUnit = true) →
      b.exponents.Over (fun symbol => symbol.isUnit = true) →
      a.degree symbol = 0 → b.degree symbol = 0 →
      ∃ common common' found, termDimension a = .ok common ∧ termDimension b = .ok common' ∧
        roots (binomial a b symbol n) symbol = .ok found ∧
        (found = none ↔ ∃ base, ¬(n : Int) ∣ (common'.div common).get base) ∧
        ∀ values, found = some values → ∀ v ∈ values, v.isZero = false →
          ∃ root, dimension v = .ok root ∧
            ∀ base, root.get base * n = (common'.div common).get base := by
  constructor
  · intro e he
    obtain ⟨common, hcommon⟩ := exists_ofDimension (K := K) he
    obtain ⟨hscale, hget⟩ := overBase_eq hcommon
    exact ⟨common, fun c => termDimension_iff.2 hcommon, hget, hscale⟩
  · intro symbol n a b hn ha hb hunits hunits' hax hbx
    obtain ⟨common, hcommon⟩ := exists_ofDimension (K := K) hunits
    obtain ⟨common', hcommon'⟩ := exists_ofDimension (K := K) hunits'
    obtain ⟨found, hfound⟩ := exists_roots_binomial hn ha hb hunits hunits' hax hbx
      (hcommon'.div hcommon)
    exact ⟨common, common', found, termDimension_iff.2 hcommon, termDimension_iff.2 hcommon',
      hfound⟩

/-- The time of a fall of `19.6133 m` is found in seconds, from metres divided by the acceleration,
and no length is the square of a unit. -/
theorem time_of_a_fall_is_found_in_seconds :
    let x : Symbol := ⟨"x", false⟩
    let rate : Monomial Rat := .single (1 / 2) (.unit "g0") 1
    let way : Monomial Rat := .single (-19.6133) (.unit "m") 1
    let time (t : Rat) : Fraction Rat := ⟨.ofMonomial (.single t (.unit "s") 1), 1⟩
    roots (binomial rate way x 2) x = .ok (some [time (-2), time 2]) ∧
      (∀ v ∈ [time (-2), time 2], ∃ root, dimension v = .ok root ∧
        ∀ base, root.get base * 2 = (Powers.single "s" 2).get base) ∧
      roots (binomial (.const 1) way x 2) x = .ok none ∧
      (overBase (K := Rat) (way.exponents.div rate.exponents)).1 = 1 / 9.80665 := by
  intro x rate way time
  obtain ⟨hbase, hroots⟩ := roots_have_a_part_of_the_dimension (K := Rat)
  have hfound : roots (binomial rate way x 2) x = .ok (some [time (-2), time 2]) := by
    decide +kernel
  have hrate : termDimension rate = .ok (.ofList [("m", 1), ("s", -2)]) := rfl
  have hway : termDimension way = .ok (.single "m" 1) := rfl
  refine ⟨hfound, ?_, ?_, ?_⟩
  · obtain ⟨common, common', found, hcommon, hcommon', hresult, _, hdimension⟩ :=
      hroots x 2 rate way (by decide) (by decide +kernel) (by decide +kernel) (by decide +kernel)
        (by decide +kernel) (by decide +kernel) (by decide +kernel)
    rw [hfound] at hresult
    rw [hrate] at hcommon
    rw [hway] at hcommon'
    cases hresult
    cases hcommon
    cases hcommon'
    have hratio : (Powers.single "m" 1).div (.ofList [("m", 1), ("s", -2)]) = .single "s" 2 := by
      decide +kernel
    rw [hratio] at hdimension
    have hnonzero : ∀ v ∈ [time (-2), time 2], v.isZero = false := by decide +kernel
    exact fun v hv => hdimension _ rfl v hv (hnonzero v hv)
  · obtain ⟨common, common', found, hcommon, hcommon', hresult, hnone, _⟩ :=
      hroots x 2 (.const 1) way (by decide) (by decide +kernel) (by decide +kernel)
        (by decide +kernel) (by decide +kernel) (by decide +kernel) (by decide +kernel)
    rw [hway] at hcommon'
    cases hcommon
    cases hcommon'
    rw [hresult, hnone.2 ⟨"m", by decide +kernel⟩]
  · obtain ⟨_, _, _, hscale⟩ := hbase (way.exponents.div rate.exponents) (by decide +kernel)
    rw [hscale]
    decide +kernel

end Binomial

end PurePower

end Ramify
