import Ramify.Proofs.Algebra.Fraction
import Ramify.Proofs.Solver.RealRoots

/-!
Polynomials by the powers of one symbol. The coefficients of the powers are polynomials in the other
symbols; where those are numbers, the polynomial is one in a single variable.
-/

namespace Ramify

/-- A polynomial without zero terms and negative exponents, in which only symbols with a property
occur. -/
structure Polynomial.Within {K : Type} [Zero K] (P : Symbol → Prop) (p : Polynomial K) : Prop where
  proper : p.Proper
  natural : p.All Powers.Natural
  «over» : p.All (Powers.Over P)

theorem Fraction.Within.num {K : Type} [ExactScalar K] {P : Symbol → Prop} {a : Fraction K}
    (h : a.Within P) : a.num.Within P := ⟨h.num_proper, h.num_natural, h.num_over⟩

theorem Fraction.Within.den {K : Type} [ExactScalar K] {P : Symbol → Prop} {a : Fraction K}
    (h : a.Within P) : a.den.Within P := ⟨h.den_proper, h.den_natural, h.den_over⟩

namespace Polynomial

variable {K : Type}

theorem mem_symbols {p : Polynomial K} {symbol : Symbol} :
    symbol ∈ p.symbols ↔ ∃ m ∈ p.terms, m.exponents.get symbol ≠ 0 := by
  unfold symbols
  rw [mem_ascending, List.mem_flatMap]
  constructor
  · rintro ⟨m, hm, hsymbol⟩
    exact ⟨m, hm, (Powers.mem_keys_iff m.exponents symbol).1 hsymbol⟩
  · rintro ⟨m, hm, hne⟩
    exact ⟨m, hm, (Powers.mem_keys_iff m.exponents symbol).2 hne⟩

theorem isQuantity_of_over {p : Polynomial K}
    (h : p.All (Powers.Over fun symbol => symbol.isUnit = true)) : p.isQuantity = true := by
  unfold isQuantity
  rw [List.all_eq_true]
  intro symbol hsymbol
  obtain ⟨m, hm, hne⟩ := mem_symbols.1 hsymbol
  exact h m hm symbol hne

/-- Terms with the same exponents are one term. -/
theorem eq_singleton {terms : List (Monomial K)}
    (hincreasing : terms.Pairwise (fun a b => compare a.exponents b.exponents = .lt))
    {exponents : Exponents} (hsame : ∀ m ∈ terms, m.exponents = exponents) {m : Monomial K}
    (hm : m ∈ terms) : terms = [m] := by
  match terms with
  | [only] => rw [List.mem_singleton.1 hm]
  | first :: second :: rest =>
      have hlt := (List.pairwise_cons.1 hincreasing).1 second List.mem_cons_self
      rw [hsame first List.mem_cons_self,
        hsame second (List.mem_cons_of_mem _ List.mem_cons_self),
        Std.LawfulEqOrd.compare_eq_iff_eq.2 rfl] at hlt
      cases hlt

variable [ExactScalar K] {P : Symbol → Prop} {p : Polynomial K} {symbol : Symbol}

omit [ExactScalar K] in
/-- A polynomial without symbols is zero or a number. -/
theorem terms_of_no_symbols (h : p.All (Powers.Over (fun _ => False))) :
    p.terms = [] ∨ ∃ c, p.terms = [⟨c, ∅⟩] := by
  have hempty (m : Monomial K) (hm : m ∈ p.terms) : m.exponents = ∅ := by
    apply Powers.ext_get
    intro symbol
    by_contra hne
    exact h m hm symbol hne
  cases hterms : p.terms with
  | nil => exact Or.inl rfl
  | cons m rest =>
      have hm : m ∈ p.terms := hterms ▸ List.mem_cons_self
      right
      refine ⟨m.coeff, ?_⟩
      rw [← hterms, eq_singleton p.increasing hempty hm]
      congr 1
      rw [← hempty m hm]

theorem value_of_no_symbols (h : p.All (Powers.Over (fun _ => False))) (z : Symbol → K) :
    p.value z = p.constantCoeff := by
  unfold value constantCoeff
  rcases terms_of_no_symbols h with hnil | ⟨c, hone⟩
  · rw [hnil]
    rfl
  · rw [hone]
    change c * 1 + 0 = c
    rw [mul_one, add_zero]

theorem value_ne_zero_of_no_symbols (hproper : p.Proper)
    (h : p.All (Powers.Over (fun _ => False))) (hne : p.isZero = false) (z : Symbol → K) :
    p.value z ≠ 0 := by
  rcases terms_of_no_symbols h with hnil | ⟨c, hone⟩
  · unfold isZero at hne
    rw [hnil] at hne
    cases hne
  · have hc := hproper ⟨c, ∅⟩ (by rw [hone]; exact List.mem_singleton_self _)
    unfold value
    rw [hone]
    change c * 1 + 0 ≠ 0
    rw [mul_one, add_zero]
    exact hc

omit [ExactScalar K] in
theorem isSymbolFree_iff : p.isSymbolFree = true ↔ p.All (Powers.Over (fun _ => False)) := by
  unfold isSymbolFree
  rw [List.all_eq_true]
  constructor
  · intro h m hm symbol hne
    exact hne ((Powers.isOne_iff m.exponents).1 (h m hm) symbol)
  · intro h m hm
    rw [Powers.isOne_iff]
    intro symbol
    by_contra hne
    exact h m hm symbol hne

section Split

def coefficient (p : Polynomial K) (symbol : Symbol) (k : Nat) : Polynomial K :=
  ofTerms ((p.terms.filter (fun m => m.degree symbol == (k : Int))).map
    (fun m => ⟨m.coeff, m.exponents.erase symbol⟩))

theorem splitBy_eq (h : p.All Powers.Natural) (symbol : Symbol) :
    p.splitBy symbol = .ok ((List.range (p.degree symbol + 1)).map (p.coefficient symbol)) := by
  have hnone : p.terms.any (fun m => decide (m.degree symbol < 0)) = false := by
    rw [List.any_eq_false]
    intro m hm
    rw [decide_eq_true_eq]
    exact not_lt.2 (h m hm symbol)
  unfold splitBy
  rw [hnone]
  rfl

theorem within_coefficient (h : p.Within P) (symbol : Symbol) (k : Nat) :
    (p.coefficient symbol k).Within (fun s => P s ∧ s ≠ symbol) := by
  have hterm (m : Monomial K) (hm : m ∈ (p.terms.filter (fun m => m.degree symbol == (k : Int))).map
      (fun m => (⟨m.coeff, m.exponents.erase symbol⟩ : Monomial K))) :
      m.exponents.Natural ∧ m.exponents.Over (fun s => P s ∧ s ≠ symbol) := by
    obtain ⟨n, hn, rfl⟩ := List.mem_map.1 hm
    have hn' := (List.mem_filter.1 hn).1
    refine ⟨?_, ?_⟩
    · intro s
      change 0 ≤ (n.exponents.erase symbol).get s
      rw [Powers.get_erase]
      split
      · exact le_refl 0
      · exact h.natural n hn' s
    · intro s hs
      change (n.exponents.erase symbol).get s ≠ 0 at hs
      rw [Powers.get_erase] at hs
      split at hs
      · exact absurd rfl hs
      · rename_i hne
        exact ⟨h.over n hn' s hs, Ne.symm hne⟩
  exact ⟨proper_ofTerms _, all_ofTerms (fun m hm => (hterm m hm).1),
    all_ofTerms (fun m hm => (hterm m hm).2)⟩

theorem value_coefficient (p : Polynomial K) (symbol : Symbol) (k : Nat) (z : Symbol → K) :
    (p.coefficient symbol k).value z * z symbol ^ k =
      ((p.terms.filter (fun m => m.degree symbol == (k : Int))).map (Monomial.value z)).sum := by
  unfold coefficient
  rw [value_ofTerms, List.map_map, ← List.sum_map_mul_right]
  congr 1
  apply List.map_congr_left
  intro m hm
  have hdegree : m.exponents.get symbol = (k : Int) := eq_of_beq (List.mem_filter.1 hm).2
  simp only [Function.comp_apply, Monomial.value]
  rw [Powers.value_erase z m.exponents symbol, hdegree, zpow_natCast, mul_assoc]

omit [ExactScalar K] in
theorem degree_le {m : Monomial K} (hm : m ∈ p.terms) (symbol : Symbol) :
    (m.exponents.get symbol).toNat ≤ p.degree symbol := by
  have hfold (terms : List (Monomial K)) (start : Nat) :
      start ≤ terms.foldl (fun acc m => Nat.max acc (m.degree symbol).toNat) start ∧
        ∀ m ∈ terms, (m.degree symbol).toNat ≤
          terms.foldl (fun acc m => Nat.max acc (m.degree symbol).toNat) start := by
    induction terms generalizing start with
    | nil => exact ⟨le_refl _, nofun⟩
    | cons first rest ih =>
        obtain ⟨hstart, hrest⟩ := ih (Nat.max start (first.degree symbol).toNat)
        rw [List.foldl_cons]
        refine ⟨(Nat.le_max_left _ _).trans hstart, ?_⟩
        intro n hn
        rcases List.mem_cons.1 hn with rfl | hn
        · exact (Nat.le_max_right _ _).trans hstart
        · exact hrest n hn
  exact (hfold p.terms 0).2 m hm

omit [ExactScalar K] in
/-- A sum over terms, by the power of a symbol. -/
theorem sum_by_degree {M : Type} [AddCommMonoid M] (f : Monomial K → M) (symbol : Symbol)
    (terms : List (Monomial K)) (n : Nat)
    (h : ∀ m ∈ terms, ∃ k < n, m.degree symbol = (k : Int)) :
    ((List.range n).map (fun (k : Nat) =>
      ((terms.filter (fun m => m.degree symbol == (k : Int))).map f).sum)).sum =
    (terms.map f).sum := by
  induction terms with
  | nil => simp
  | cons m rest ih =>
      obtain ⟨d, hd, hdegree⟩ := h m List.mem_cons_self
      have hsplit (k : Nat) : (((m :: rest).filter (fun m => m.degree symbol == (k : Int))).map
          f).sum = (if d = k then f m else 0) +
            ((rest.filter (fun m => m.degree symbol == (k : Int))).map f).sum := by
        rw [List.filter_cons, hdegree]
        by_cases hk : d = k
        · simp [hk]
        · have hk' : ((d : Int) == (k : Int)) = false := by simpa using hk
          rw [hk', if_neg hk, zero_add]
          rfl
      simp only [hsplit]
      rw [List.sum_map_add, ih (fun n hn => h n (List.mem_cons_of_mem m hn)), List.map_cons,
        List.sum_cons]
      congr 1
      have hrange : ((List.range n).map (fun k => if d = k then f m else 0)).sum =
          ∑ k ∈ Finset.range n, if d = k then f m else 0 := rfl
      rw [hrange, Finset.sum_ite_eq, if_pos (Finset.mem_range.2 hd)]

theorem valueAt_range (g : Nat → K) (x : K) (n : Nat) :
    RealRoots.valueAt ((List.range n).map g) x =
      ((List.range n).map (fun k => g k * x ^ k)).sum := by
  induction n with
  | zero => rfl
  | succ n ih =>
      rw [List.range_succ, List.map_append, List.map_append, List.sum_append, ← ih]
      simp [RealRoots.valueAt_append]

/-- The value of a polynomial is that of the polynomial in one symbol whose coefficients are the
values of its coefficients. -/
theorem value_splitBy (h : p.All Powers.Natural) {coeffs : List (Polynomial K)}
    (hsplit : p.splitBy symbol = .ok coeffs) (z : Symbol → K) :
    RealRoots.valueAt (coeffs.map (value z)) (z symbol) = p.value z := by
  rw [splitBy_eq h symbol] at hsplit
  cases hsplit
  rw [List.map_map, valueAt_range]
  have hcoefficient (k : Nat) : (value z ∘ p.coefficient symbol) k * z symbol ^ k =
      ((p.terms.filter (fun m => m.degree symbol == (k : Int))).map (Monomial.value z)).sum :=
    value_coefficient p symbol k z
  simp only [hcoefficient]
  apply sum_by_degree
  intro m hm
  have hnonneg := h m hm symbol
  have hle := degree_le hm symbol
  refine ⟨(m.exponents.get symbol).toNat, by omega, ?_⟩
  exact (Int.toNat_of_nonneg hnonneg).symm

theorem within_splitBy (h : p.Within P) {coeffs : List (Polynomial K)}
    (hsplit : p.splitBy symbol = .ok coeffs) :
    ∀ c ∈ coeffs, c.Within (fun s => P s ∧ s ≠ symbol) := by
  rw [splitBy_eq h.natural symbol] at hsplit
  cases hsplit
  intro c hc
  obtain ⟨k, _, rfl⟩ := List.mem_map.1 hc
  exact within_coefficient h symbol k

/-- A polynomial in one symbol that is not zero has a coefficient that is not zero. -/
theorem exists_coefficient (h : p.Within (· = symbol)) (hne : p.isZero = false)
    {coeffs : List (Polynomial K)} (hsplit : p.splitBy symbol = .ok coeffs) :
    ∃ c ∈ coeffs.map constantCoeff, c ≠ 0 := by
  rw [splitBy_eq h.natural symbol] at hsplit
  cases hsplit
  cases hterms : p.terms with
  | nil =>
      unfold isZero at hne
      rw [hterms] at hne
      cases hne
  | cons m rest =>
      have hm : m ∈ p.terms := hterms ▸ List.mem_cons_self
      have hnonneg := h.natural m hm symbol
      have hdegree : m.exponents.get symbol = ((m.exponents.get symbol).toNat : Int) :=
        (Int.toNat_of_nonneg hnonneg).symm
      have hle := degree_le hm symbol
      -- no other term has the same power of the symbol
      have hsame : ∀ n ∈ p.terms.filter
          (fun n => n.degree symbol == ((m.exponents.get symbol).toNat : Int)),
          n.exponents = m.exponents := by
        intro n hn
        obtain ⟨hn, hpower⟩ := List.mem_filter.1 hn
        apply Powers.ext_get
        intro s
        by_cases hs : s = symbol
        · rw [hs, hdegree]
          exact eq_of_beq hpower
        · have hzero (k : Monomial K) (hk : k ∈ p.terms) : k.exponents.get s = 0 := by
            by_contra hget
            exact hs (h.over k hk s hget)
          rw [hzero n hn, hzero m hm]
      have hmem : m ∈ p.terms.filter
          (fun n => n.degree symbol == ((m.exponents.get symbol).toNat : Int)) :=
        List.mem_filter.2 ⟨hm, beq_iff_eq.2 hdegree⟩
      have honly := eq_singleton (p.increasing.filter _) hsame hmem
      have hwithin := within_coefficient h symbol (m.exponents.get symbol).toNat
      have hnone : (p.coefficient symbol (m.exponents.get symbol).toNat).All
          (Powers.Over (fun _ => False)) :=
        fun n hn s hs => (hwithin.over n hn s hs).2 (hwithin.over n hn s hs).1
      refine ⟨m.coeff, List.mem_map.2 ⟨p.coefficient symbol (m.exponents.get symbol).toNat,
        List.mem_map.2 ⟨_, List.mem_range.2 (by omega), rfl⟩, ?_⟩, h.proper m hm⟩
      have hvalue := value_coefficient p symbol (m.exponents.get symbol).toNat (fun _ => (1 : K))
      rw [honly, value_of_no_symbols hnone, one_pow, mul_one] at hvalue
      rw [hvalue, List.map_singleton, List.sum_singleton]
      unfold Monomial.value Powers.value
      simp

end Split

theorem eval_of_no_symbols {p : Polynomial K}
    (h : p.All (Powers.Over (fun _ => False))) (z : Symbol → K) (point : SortedMap Symbol K) :
    p.eval point = .ok (p.value z) := by
  rw [value_of_no_symbols h]
  unfold eval constantCoeff
  rcases terms_of_no_symbols h with hnil | ⟨c, hone⟩
  · rw [hnil]
    rfl
  · rw [hone]
    change Except.ok (0 + c) = Except.ok c
    rw [zero_add]

end Polynomial

namespace Fraction

variable {K : Type} [ExactScalar K] {a : Fraction K}

omit [ExactScalar K] in
theorem over_iff {P : Symbol → Prop} : a.Over P ↔ ∀ symbol ∈ a.symbols, P symbol := by
  unfold symbols
  constructor
  · rintro ⟨hnum, hden⟩ symbol hsymbol
    rw [mem_ascending, List.mem_append, Polynomial.mem_symbols, Polynomial.mem_symbols] at hsymbol
    rcases hsymbol with ⟨m, hm, hne⟩ | ⟨m, hm, hne⟩
    · exact hnum m hm symbol hne
    · exact hden m hm symbol hne
  · intro h
    refine ⟨fun m hm symbol hne => h symbol ?_, fun m hm symbol hne => h symbol ?_⟩
    · rw [mem_ascending, List.mem_append]
      exact Or.inl (Polynomial.mem_symbols.2 ⟨m, hm, hne⟩)
    · rw [mem_ascending, List.mem_append]
      exact Or.inr (Polynomial.mem_symbols.2 ⟨m, hm, hne⟩)

/-- The denominator of a number is written as one. -/
theorem den_of_no_symbols (h : a.Within (fun _ => False)) {z : Symbol → K} {v : K}
    (hv : a.HasValue z v) : a.den.value z = 1 := by
  have hlead := h.monic
  have hne := hv.den_ne
  unfold lead at hlead
  unfold Polynomial.value at hne ⊢
  rcases Polynomial.terms_of_no_symbols h.den_over with hnil | ⟨c, hone⟩
  · rw [hnil] at hne
    exact absurd rfl hne
  · rw [hone] at hlead ⊢
    change c = 1 at hlead
    rw [hlead, List.map_singleton, List.sum_singleton]
    exact mul_one 1

/-- A number has its value at every point. -/
theorem eval_of_no_symbols (h : a.Within (fun _ => False)) {z : Symbol → K} {v : K}
    (hv : a.HasValue z v) (point : SortedMap Symbol K) : a.eval point = .ok (some v) := by
  have hden := den_of_no_symbols h hv
  have hnum : a.num.value z = v := by rw [hv.eq, hden, mul_one]
  unfold eval
  rw [Polynomial.eval_of_no_symbols h.num_over z, Polynomial.eval_of_no_symbols h.den_over z, hnum,
    hden]
  have hlarge : ¬((1 : K) < Scalar.resolution) := not_lt.2 ExactScalar.resolution_le_one
  simp [hlarge]

end Fraction

end Ramify
