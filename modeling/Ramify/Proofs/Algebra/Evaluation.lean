import Ramify.Proofs.Algebra.Canonical
import Ramify.Proofs.Algebra.Coefficients

/-!
Evaluation at a point that gives a number to each symbol. Over exact numbers the evaluation of a
polynomial succeeds and gives its value, if the point covers its symbols and no negative power of
zero occurs. The evaluation of a fraction divides two such values, unless the denominator is below
the resolution of the numbers.
-/

namespace Ramify

variable {K : Type}

/-- The numbers of a point; a symbol without a number counts as zero. -/
def assignment [Zero K] (point : SortedMap Symbol K) (symbol : Symbol) : K :=
  (point.find? symbol).getD 0

/-- Whether a point has a number for a symbol. -/
def Covered (point : SortedMap Symbol K) (symbol : Symbol) : Prop :=
  (point.find? symbol).isSome = true

theorem find?_of_covered [Zero K] {point : SortedMap Symbol K} {symbol : Symbol}
    (h : Covered point symbol) : point.find? symbol = some (assignment point symbol) := by
  obtain ⟨value, hvalue⟩ := Option.isSome_iff_exists.1 h
  unfold assignment
  rw [hvalue]
  rfl

section Covering

variable {point : SortedMap Symbol K} {symbol : Symbol}

theorem covered_insert_self (value : K) : Covered (point.insert symbol value) symbol := by
  unfold Covered
  rw [SortedMap.find?_insert_self]
  rfl

theorem Covered.insert {other : Symbol} (h : Covered point other) (value : K) :
    Covered (point.insert symbol value) other := by
  unfold Covered at h ⊢
  rw [SortedMap.find?_insert]
  split
  · rfl
  · exact h

/-- One step of a fold that enters a number for each symbol of a list. -/
theorem covered_or_mem_insert {other : Symbol} {rest : List Symbol}
    (h : Covered point other ∨ other ∈ symbol :: rest) (value : K) :
    Covered (point.insert symbol value) other ∨ other ∈ rest := by
  rcases h with hpoint | hmem
  · exact Or.inl (hpoint.insert value)
  · rcases List.mem_cons.1 hmem with rfl | hrest
    · exact Or.inl (covered_insert_self value)
    · exact Or.inr hrest

end Covering

variable [ExactScalar K] {point : SortedMap Symbol K}

namespace Monomial

/-- A power is multiplied in, and divided by if it is negative. -/
theorem mulPower_eq (acc : K) {base : K} {exponent : Int} (h : exponent < 0 → base ≠ 0) :
    mulPower acc base exponent = .ok (acc * base ^ exponent) := by
  unfold mulPower
  split
  · rename_i hneg
    have hbase : (base == 0) = false := beq_false_of_ne (h hneg)
    rw [hbase, if_neg Bool.false_ne_true, ExactScalar.scalar_power, div_eq_mul_inv, zpow_neg,
      inv_inv]
    rfl
  · rw [ExactScalar.scalar_power]
    rfl

/-- A fold that multiplies in a number for each element. -/
theorem foldlM_mul {ι : Type} {step : K → ι → Except AlgebraError K} {f : ι → K} {xs : List ι}
    (h : ∀ x ∈ xs, ∀ acc, step acc x = .ok (acc * f x)) (acc : K) :
    xs.foldlM step acc = .ok (acc * (xs.map f).prod) := by
  induction xs generalizing acc with
  | nil => simp
  | cons x rest ih =>
      rw [List.foldlM_cons, h x List.mem_cons_self, except_ok_bind,
        ih (fun y hy => h y (List.mem_cons_of_mem x hy)), List.map_cons, List.prod_cons, mul_assoc]

theorem eval_eq {m : Monomial K} (hcovered : m.exponents.Over (Covered point))
    (hdefined : m.exponents.DefinedAt (assignment point)) :
    m.eval point = .ok (m.value (assignment point)) := by
  apply foldlM_mul
  intro entry hentry acc
  obtain ⟨hget, hne⟩ := (Powers.mem_entries_iff m.exponents entry).1 hentry
  rw [find?_of_covered (hcovered entry.1 (hget ▸ hne))]
  exact mulPower_eq acc (fun hneg => hdefined entry.1 (hget ▸ hneg))

/-- A term has a value exactly if the point covers its symbols and no negative power of zero
occurs. -/
theorem eval_eq_ok_iff {m : Monomial K} {v : K} :
    m.eval point = .ok v ↔ m.exponents.Over (Covered point) ∧
      m.exponents.DefinedAt (assignment point) ∧ v = m.value (assignment point) := by
  constructor
  · intro heval
    have hentries : ∀ entry ∈ m.exponents.entries,
        Covered point entry.1 ∧ (entry.2 < 0 → assignment point entry.1 ≠ 0) := by
      refine except_foldlM_forall (fun acc entry next hstep => ?_) heval
      cases hfind : point.find? entry.1 with
      | none =>
          rw [hfind] at hstep
          cases hstep
      | some base =>
          rw [hfind] at hstep
          have hbase : assignment point entry.1 = base := by
            unfold assignment
            rw [hfind, Option.getD_some]
          rw [hbase]
          refine ⟨by rw [Covered, hfind, Option.isSome_some], fun hneg hzero => ?_⟩
          simp [mulPower, hneg, hzero] at hstep
    have hentry (symbol : Symbol) (hne : m.exponents.get symbol ≠ 0) :=
      hentries (symbol, m.exponents.get symbol) ((m.exponents.mem_entries_iff _).2 ⟨rfl, hne⟩)
    have hcovered : m.exponents.Over (Covered point) := fun symbol hne => (hentry symbol hne).1
    have hdefined : m.exponents.DefinedAt (assignment point) :=
      fun symbol hneg => (hentry symbol hneg.ne).2 hneg
    rw [eval_eq hcovered hdefined] at heval
    cases heval
    exact ⟨hcovered, hdefined, rfl⟩
  · rintro ⟨hcovered, hdefined, rfl⟩
    exact eval_eq hcovered hdefined

end Monomial

namespace Polynomial

theorem eval_eq {p : Polynomial K} (hcovered : p.All (Powers.Over (Covered point)))
    (hdefined : p.All (Powers.DefinedAt (assignment point))) :
    p.eval point = .ok (p.value (assignment point)) := by
  have hfold (terms : List (Monomial K)) (acc : K) (hterms : ∀ m ∈ terms, m ∈ p.terms) :
      terms.foldlM (fun acc m => do pure (acc + (← m.eval point))) acc =
        .ok (acc + (terms.map (Monomial.value (assignment point))).sum) := by
    induction terms generalizing acc with
    | nil => simp
    | cons m rest ih =>
        have hm := hterms m List.mem_cons_self
        rw [List.foldlM_cons, Monomial.eval_eq (hcovered m hm) (hdefined m hm), except_ok_bind,
          except_pure, except_ok_bind, ih _ (fun n hn => hterms n (List.mem_cons_of_mem m hn)),
          List.map_cons, List.sum_cons, add_assoc]
  have hall := hfold p.terms 0 (fun _ hm => hm)
  rw [zero_add] at hall
  exact hall

theorem eval_eq_ok_iff {p : Polynomial K} {v : K} :
    p.eval point = .ok v ↔ p.All (Powers.Over (Covered point)) ∧
      p.All (Powers.DefinedAt (assignment point)) ∧ v = p.value (assignment point) := by
  constructor
  · intro heval
    have hterms : ∀ m ∈ p.terms, ∃ w, m.eval point = .ok w := by
      refine except_foldlM_forall (fun acc m next hstep => ?_) heval
      obtain ⟨w, hw, _⟩ := except_bind_eq_ok.1 hstep
      exact ⟨w, hw⟩
    have hterm (m : Monomial K) (hm : m ∈ p.terms) : m.exponents.Over (Covered point) ∧
        m.exponents.DefinedAt (assignment point) := by
      obtain ⟨w, hw⟩ := hterms m hm
      obtain ⟨hcovered, hdefined, _⟩ := Monomial.eval_eq_ok_iff.1 hw
      exact ⟨hcovered, hdefined⟩
    have hcovered : p.All (Powers.Over (Covered point)) := fun m hm => (hterm m hm).1
    have hdefined : p.All (Powers.DefinedAt (assignment point)) := fun m hm => (hterm m hm).2
    rw [eval_eq hcovered hdefined] at heval
    cases heval
    exact ⟨hcovered, hdefined, rfl⟩
  · rintro ⟨hcovered, hdefined, rfl⟩
    exact eval_eq hcovered hdefined

end Polynomial

namespace Fraction

variable {a : Fraction K}

/-- A fraction has a number for its value exactly if both of its parts have values and that of the
denominator is not below the resolution. -/
theorem eval_eq_some_iff {v : K} :
    a.eval point = .ok (some v) ↔ ∃ n d, a.num.eval point = .ok n ∧ a.den.eval point = .ok d ∧
      Scalar.resolution ≤ |d| ∧ v = n / d := by
  unfold Fraction.eval
  constructor
  · intro heval
    obtain ⟨n, hn, heval⟩ := except_bind_eq_ok.1 heval
    obtain ⟨d, hd, heval⟩ := except_bind_eq_ok.1 heval
    simp only [ExactScalar.scalar_isNaN, ExactScalar.scalar_abs, Bool.or_self, Bool.false_eq_true,
      if_false] at heval
    split at heval
    · split at heval <;> cases heval
    · rename_i hlarge
      cases heval
      exact ⟨n, d, hn, hd, not_lt.1 hlarge, rfl⟩
  · rintro ⟨n, d, hn, hd, hlarge, rfl⟩
    simp only [hn, hd, except_ok_bind, ExactScalar.scalar_isNaN, ExactScalar.scalar_abs,
      Bool.or_self, Bool.false_eq_true, if_false, if_neg (not_lt.2 hlarge)]
    rfl

/-- What a fraction evaluates to is its value. -/
theorem hasValue_of_eval (hresolution : 0 < (Scalar.resolution : K)) {v : K}
    (h : a.eval point = .ok (some v)) : a.HasValue (assignment point) v := by
  obtain ⟨n, d, hn, hd, hlarge, rfl⟩ := eval_eq_some_iff.1 h
  obtain ⟨_, hnum, rfl⟩ := Polynomial.eval_eq_ok_iff.1 hn
  obtain ⟨_, hden, rfl⟩ := Polynomial.eval_eq_ok_iff.1 hd
  have hne := abs_pos.1 (hresolution.trans_le hlarge)
  exact ⟨hnum, hden, hne, (div_mul_cancel₀ _ hne).symm⟩

/-- The evaluation of a canonical fraction at a point that covers its symbols. A denominator below
the resolution counts as zero. -/
theorem Canonical.eval_eq (h : a.Canonical) (hcovered : a.Over (Covered point)) :
    a.eval point =
      if |a.den.value (assignment point)| < Scalar.resolution then
        if |a.num.value (assignment point)| < Scalar.resolution then .ok none
        else .error .vanishingDenominator
      else .ok (some (a.num.value (assignment point) / a.den.value (assignment point))) := by
  have hnum := Polynomial.eval_eq hcovered.1
    (h.natural.1.imp (fun _ he => he.definedAt (assignment point)))
  have hden := Polynomial.eval_eq hcovered.2
    (h.natural.2.imp (fun _ he => he.definedAt (assignment point)))
  unfold Fraction.eval
  simp only [hnum, hden, except_ok_bind, ExactScalar.scalar_isNaN, ExactScalar.scalar_abs,
    Bool.or_self, Bool.false_eq_true, if_false]
  rfl

/-- A canonical fraction has a number for its value exactly if its denominator is not below the
resolution. -/
theorem Canonical.eval_eq_some_iff (h : a.Canonical) (hcovered : a.Over (Covered point)) {v : K} :
    a.eval point = .ok (some v) ↔
      Scalar.resolution ≤ |a.den.value (assignment point)| ∧
        v = a.num.value (assignment point) / a.den.value (assignment point) := by
  rw [h.eval_eq hcovered]
  by_cases hsmall : |a.den.value (assignment point)| < Scalar.resolution
  · rw [if_pos hsmall]
    constructor
    · intro heval
      split at heval <;> cases heval
    · rintro ⟨hlarge, _⟩
      exact absurd hsmall (not_lt.2 hlarge)
  · rw [if_neg hsmall]
    constructor
    · intro heval
      cases heval
      exact ⟨not_lt.1 hsmall, rfl⟩
    · rintro ⟨_, rfl⟩
      rfl

end Fraction

end Ramify
