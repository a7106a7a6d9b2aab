import Ramify.Proofs.Algebra.Coefficients
import Ramify.Proofs.Algebra.Laurent
import Ramify.Proofs.Scalar.Rational

/-!
Splitting a polynomial by the powers of one symbol. The terms are sorted by their power of the
symbol, which is taken out of them. A power that is negative has no place; where there is none,
nothing is lost: the parts, each multiplied by its power of the symbol, add up to the polynomial
again. Other symbols may have negative powers.
-/

namespace Ramify

theorem Powers.toFinsupp_erase_add {κ : Type} [Ord κ] [Std.LawfulEqOrd κ] [DecidableEq κ]
    (powers : Powers κ) (base : κ) :
    (powers.erase base).toFinsupp + Finsupp.single base (powers.get base) = powers.toFinsupp := by
  ext other
  rw [Finsupp.add_apply, toFinsupp_apply, toFinsupp_apply, get_erase, Finsupp.single_apply]
  split
  · rename_i hsame
    rw [hsame, zero_add]
  · rw [add_zero]

namespace Polynomial

variable {K : Type}

section Parts

variable [Scalar K]

/-- The terms with a given power of a symbol, without that symbol. -/
def powerPart (p : Polynomial K) (symbol : Symbol) (k : Nat) : Polynomial K :=
  ofTerms ((p.terms.filter (fun m => m.degree symbol == (k : Int))).map
    (fun m => ⟨m.coeff, m.exponents.erase symbol⟩))

/-- The sum of some polynomials, each multiplied by a power of a symbol: the first one by the power
zero, and so on. -/
def joined (symbol : Symbol) (parts : List (Polynomial K)) : Polynomial K :=
  parts.zipIdx.foldl (fun acc part => acc + part.1 * ofMonomial (.single 1 symbol part.2)) 0

variable {p : Polynomial K} {symbol : Symbol}

theorem splitBy_of_negative (h : ∃ m ∈ p.terms, m.degree symbol < 0) :
    p.splitBy symbol = .error (.negativePower symbol) := by
  have hany : p.terms.any (fun m => decide (m.degree symbol < 0)) = true := by
    rw [List.any_eq_true]
    obtain ⟨m, hm, hneg⟩ := h
    exact ⟨m, hm, decide_eq_true hneg⟩
  unfold splitBy
  rw [hany]
  rfl

theorem splitBy_of_nonneg (h : ∀ m ∈ p.terms, 0 ≤ m.degree symbol) :
    p.splitBy symbol = .ok ((List.range (p.degree symbol + 1)).map (p.powerPart symbol)) := by
  have hany : p.terms.any (fun m => decide (m.degree symbol < 0)) = false := by
    rw [List.any_eq_false]
    intro m hm
    rw [decide_eq_true_eq]
    exact not_lt.2 (h m hm)
  unfold splitBy
  rw [hany]
  rfl

/-- The symbol is taken out of the part. -/
theorem not_mem_symbols_powerPart (p : Polynomial K) (symbol : Symbol) (k : Nat) :
    symbol ∉ (p.powerPart symbol k).symbols := by
  have hall : (p.powerPart symbol k).All (fun exponents => exponents.get symbol = 0) := by
    apply all_ofTerms
    intro m hm
    obtain ⟨n, _, rfl⟩ := List.mem_map.1 hm
    rw [Powers.get_erase, if_pos rfl]
  rw [mem_symbols]
  rintro ⟨m, hm, hne⟩
  exact hne (hall m hm)

omit [Scalar K] in
/-- Some term has the highest power of a symbol, if no power of it is negative. -/
theorem exists_degree (h : ∀ m ∈ p.terms, 0 ≤ m.degree symbol) (hne : p.isZero = false) :
    ∃ m ∈ p.terms, m.degree symbol = (p.degree symbol : Int) := by
  have hfold (terms : List (Monomial K)) (start : Nat) :
      terms.foldl (fun acc m => Nat.max acc (m.degree symbol).toNat) start = start ∨
        ∃ m ∈ terms, (m.degree symbol).toNat =
          terms.foldl (fun acc m => Nat.max acc (m.degree symbol).toNat) start := by
    induction terms generalizing start with
    | nil => exact Or.inl rfl
    | cons first rest ih =>
        rw [List.foldl_cons]
        rcases ih (Nat.max start (first.degree symbol).toNat) with hsame | ⟨m, hm, hmax⟩
        · rw [hsame]
          rcases Nat.le_total (first.degree symbol).toNat start with hle | hle
          · exact Or.inl (Nat.max_eq_left hle)
          · exact Or.inr ⟨first, List.mem_cons_self, (Nat.max_eq_right hle).symm⟩
        · exact Or.inr ⟨m, List.mem_cons_of_mem _ hm, hmax⟩
  obtain ⟨first, hfirst⟩ := List.isEmpty_eq_false_iff_exists_mem.1 hne
  have hterm : ∃ m ∈ p.terms, (m.degree symbol).toNat = p.degree symbol := by
    rcases hfold p.terms 0 with hzero | hterm
    · have hle := degree_le hfirst symbol
      have hdegree : p.degree symbol = 0 := hzero
      exact ⟨first, hfirst, by unfold Monomial.degree; omega⟩
    · exact hterm
  obtain ⟨m, hm, hdegree⟩ := hterm
  have hnonneg := h m hm
  exact ⟨m, hm, by omega⟩

end Parts

section Exact

variable [ExactField K] {p : Polynomial K} {symbol : Symbol}

/-- The terms of a part, multiplied by the power of the symbol, are those of the polynomial. -/
theorem laurent_powerPart (p : Polynomial K) (symbol : Symbol) (k : Nat) :
    (p.powerPart symbol k).laurent * .single (Finsupp.single symbol (k : Int)) 1 =
      ((p.terms.filter (fun m => m.degree symbol == (k : Int))).map Monomial.laurent).sum := by
  unfold powerPart
  rw [laurent_ofTerms, List.map_map, ← List.sum_map_mul_right]
  congr 1
  apply List.map_congr_left
  intro m hm
  have hdegree : m.exponents.get symbol = (k : Int) := eq_of_beq (List.mem_filter.1 hm).2
  simp only [Function.comp_apply, Monomial.laurent]
  rw [AddMonoidAlgebra.single_mul_single, mul_one, ← hdegree, Powers.toFinsupp_erase_add]

theorem proper_powerPart (p : Polynomial K) (symbol : Symbol) (k : Nat) :
    (p.powerPart symbol k).Proper := proper_ofTerms _

/-- The part of the highest power is not zero. -/
theorem isZero_powerPart_degree (hp : p.Proper) (h : ∀ m ∈ p.terms, 0 ≤ m.degree symbol)
    (hne : p.isZero = false) : (p.powerPart symbol (p.degree symbol)).isZero = false := by
  obtain ⟨m, hm, hdegree⟩ := exists_degree h hne
  -- the terms with the highest power are a polynomial of their own
  let highest : Polynomial K :=
    ⟨p.terms.filter (fun m => m.degree symbol == (p.degree symbol : Int)), p.increasing.filter _⟩
  have hmem : m ∈ highest.terms := List.mem_filter.2 ⟨hm, beq_iff_eq.2 hdegree⟩
  rw [Bool.eq_false_iff, ne_eq, isZero_iff (proper_powerPart p symbol _)]
  intro hzero
  have hpart := laurent_powerPart p symbol (p.degree symbol)
  rw [hzero, zero_mul] at hpart
  have hcoeff := coeff_of_mem hmem
  rw [show highest.laurent = 0 from hpart.symm] at hcoeff
  exact hp m hm hcoeff.symm

/-- The terms of one degree, if there is only one. -/
theorem powerPart_of_filter {k : Nat} {m : Monomial K} (hne : m.coeff ≠ 0)
    (h : p.terms.filter (fun m => m.degree symbol == (k : Int)) = [m]) :
    (p.powerPart symbol k).terms = [⟨m.coeff, m.exponents.erase symbol⟩] := by
  unfold powerPart
  rw [h]
  exact terms_ofTerms (List.forall_mem_singleton.2 hne) (List.pairwise_singleton _ _)

/-- A sum of two different terms has these terms. -/
theorem perm_terms_add {a b : Monomial K} (ha : a.coeff ≠ 0) (hb : b.coeff ≠ 0)
    (hne : a.exponents ≠ b.exponents) :
    (ofMonomial a + ofMonomial b).terms.Perm [a, b] := by
  obtain ⟨p, hp⟩ : ∃ p : Polynomial K, p.terms.Perm [a, b] := by
    cases horder : compare a.exponents b.exponents with
    | lt => exact ⟨⟨[a, b], by simp [horder]⟩, .refl _⟩
    | eq => exact absurd (Std.LawfulEqOrd.eq_of_compare horder) hne
    | gt =>
        have hlt := Std.OrientedCmp.lt_of_gt horder
        exact ⟨⟨[b, a], by simp [hlt]⟩, .swap _ _ _⟩
  have hproper : p.Proper := by
    intro m hm
    rcases List.mem_cons.1 (hp.mem_iff.1 hm) with rfl | hm
    · exact ha
    · exact List.mem_singleton.1 hm ▸ hb
  have hsum : (ofMonomial a + ofMonomial b).laurent = p.laurent := by
    rw [laurent_add, laurent_ofMonomial, laurent_ofMonomial,
      laurent, (hp.map Monomial.laurent).sum_eq]
    simp
  have heq : ofMonomial a + ofMonomial b = p :=
    eq_of_laurent_eq (proper_ofTerms _) hproper hsum
  rw [heq]
  exact hp

theorem proper_joined (symbol : Symbol) (parts : List (Polynomial K)) :
    (joined symbol parts).Proper := by
  have hfold (entries : List (Polynomial K × Nat)) (start : Polynomial K) (hstart : start.Proper) :
      (entries.foldl (fun acc part => acc + part.1 * ofMonomial (.single 1 symbol part.2))
        start).Proper := by
    induction entries generalizing start with
    | nil => exact hstart
    | cons first rest ih => exact ih _ (proper_ofTerms _)
  exact hfold parts.zipIdx 0 fun m hm => absurd hm List.not_mem_nil

theorem laurent_joined (symbol : Symbol) (parts : List (Polynomial K)) :
    (joined symbol parts).laurent = (parts.zipIdx.map (fun part =>
      part.1.laurent * .single (Finsupp.single symbol (part.2 : Int)) 1)).sum := by
  have hfold (entries : List (Polynomial K × Nat)) (start : Polynomial K) :
      (entries.foldl (fun acc part => acc + part.1 * ofMonomial (.single 1 symbol part.2))
        start).laurent = start.laurent + (entries.map (fun part =>
          part.1.laurent * .single (Finsupp.single symbol (part.2 : Int)) 1)).sum := by
    induction entries generalizing start with
    | nil => simp
    | cons first rest ih =>
        rw [List.foldl_cons, ih, laurent_add, laurent_mul, laurent_ofMonomial,
          Monomial.laurent_single, List.map_cons, List.sum_cons, add_assoc]
  exact (hfold parts.zipIdx 0).trans (zero_add _)

/-- The parts, each multiplied by its power of the symbol, add up to the polynomial. -/
theorem joined_powerParts (hp : p.Proper) (h : ∀ m ∈ p.terms, 0 ≤ m.degree symbol) :
    joined symbol ((List.range (p.degree symbol + 1)).map (p.powerPart symbol)) = p := by
  apply eq_of_laurent_eq (proper_joined symbol _) hp
  have hplaces : ((List.range (p.degree symbol + 1)).map (p.powerPart symbol)).zipIdx =
      (List.range (p.degree symbol + 1)).map (fun k => (p.powerPart symbol k, k)) :=
    List.ext_getElem (by simp) (by simp)
  rw [laurent_joined, hplaces, List.map_map]
  simp only [Function.comp_def, laurent_powerPart]
  apply sum_by_degree
  intro m hm
  have hnonneg := h m hm
  have hle := degree_le hm symbol
  exact ⟨(m.degree symbol).toNat, Nat.lt_succ_of_le hle, (Int.toNat_of_nonneg hnonneg).symm⟩

/-- Splitting fails exactly on a negative power of the symbol. Otherwise there is one part for each
power up to the highest one, which has a part other than zero; the parts are collected and free of
the symbol, and multiplied by their powers they add up to the polynomial. -/
theorem splitting_loses_nothing (hp : p.Proper) (symbol : Symbol) :
    (∀ cause, p.splitBy symbol = .error cause ↔
      (∃ m ∈ p.terms, m.degree symbol < 0) ∧ cause = .negativePower symbol) ∧
    (AlgebraError.negativePower symbol).kind = .invalidArgument ∧
    ((∀ m ∈ p.terms, 0 ≤ m.degree symbol) →
      ∃ parts, p.splitBy symbol = .ok parts ∧ parts.length = p.degree symbol + 1 ∧
        (∀ q ∈ parts, q.Proper ∧ symbol ∉ q.symbols) ∧
        (p.isZero = false → ∃ last, parts.getLast? = some last ∧ last.isZero = false) ∧
        (joined symbol parts == p) = true) := by
  refine ⟨fun cause => ?_, rfl, fun h => ?_⟩
  · by_cases hneg : ∃ m ∈ p.terms, m.degree symbol < 0
    · rw [splitBy_of_negative hneg, Except.error.injEq, eq_comm]
      exact ⟨fun hcause => ⟨hneg, hcause⟩, fun hcause => hcause.2⟩
    · have hnonneg : ∀ m ∈ p.terms, 0 ≤ m.degree symbol :=
        fun m hm => not_lt.1 (fun hlt => hneg ⟨m, hm, hlt⟩)
      rw [splitBy_of_nonneg hnonneg]
      exact ⟨nofun, fun hcause => absurd hcause.1 hneg⟩
  · refine ⟨_, splitBy_of_nonneg h, by simp, ?_, fun hne => ?_, ?_⟩
    · intro q hq
      obtain ⟨k, _, rfl⟩ := List.mem_map.1 hq
      exact ⟨proper_powerPart p symbol k, not_mem_symbols_powerPart p symbol k⟩
    · refine ⟨p.powerPart symbol (p.degree symbol), ?_, isZero_powerPart_degree hp h hne⟩
      rw [List.range_succ, List.map_append, List.map_singleton, List.getLast?_concat]
    · exact beq_iff_eq.2 (joined_powerParts hp h)

/-- A polynomial of the second degree in `x`, with a negative power of `y`. -/
theorem quadratic_over_y_is_split :
    let x : Symbol := ⟨"x", false⟩
    let y : Symbol := ⟨"y", false⟩
    let p : Polynomial Rat := ofTerms [.ofList 2 [(x, 2), (y, -1)], .single (-3) x 2, .single 5 y 1]
    let parts : List (Polynomial Rat) :=
      [ofTerms [.single 5 y 1], 0, ofTerms [.const (-3), .single 2 y (-1)]]
    p.Proper ∧ (∀ m ∈ p.terms, 0 ≤ m.degree x) ∧ p.splitBy x = .ok parts ∧
      (joined x parts == p) = true := by
  intro x y p parts
  have hp : p.Proper := proper_ofTerms _
  have hnonneg : ∀ m ∈ p.terms, 0 ≤ m.degree x := by decide +kernel
  obtain ⟨found, hfound, _, _, _, hjoined⟩ := (splitting_loses_nothing hp x).2.2 hnonneg
  have hsplit := splitBy_of_nonneg hnonneg
  have hparts : (List.range (p.degree x + 1)).map (p.powerPart x) = parts :=
    eq_of_beq (by decide +kernel)
  rw [hparts] at hsplit
  rw [hsplit] at hfound
  cases hfound
  exact ⟨hp, hnonneg, hsplit, hjoined⟩

end Exact

end Polynomial

end Ramify
