import Ramify.Proofs.Algebra.Coefficients
import Ramify.Solver.Linear

/-!
The rows of a linear system over exact numbers, and what one step of the elimination does to them. A
row holds at a point if its left-hand side has the value of its right-hand side there. A step never
fails, clears its column in all rows but one, and the rows after it hold at the same points as those
before it.
-/

namespace Ramify.Linear

variable {K : Type} [ExactScalar K] {z : Symbol → K}

structure Number (z : Symbol → K) (a : Fraction K) (c : K) : Prop where
  within : a.Within (fun _ => False)
  value : a.HasValue z c

namespace Number

variable {a b d : Fraction K} {c e : K}

theorem zero (z : Symbol → K) : Number z (.zero : Fraction K) 0 :=
  ⟨Fraction.within_zero _, Fraction.hasValue_of_natural (p := 0) nofun⟩

theorem add (ha : Number z a c) (hb : Number z b e) (h : a.add b = .ok d) :
    Number z d (c + e) := by
  obtain ⟨d', hd', hvalue⟩ := Fraction.hasValue_add ha.value hb.value
  rw [h] at hd'
  cases hd'
  exact ⟨Fraction.within_add ha.within.over hb.within.over h, hvalue⟩

theorem sub (ha : Number z a c) (hb : Number z b e) (h : a.sub b = .ok d) :
    Number z d (c - e) := by
  obtain ⟨d', hd', hvalue⟩ := Fraction.hasValue_sub ha.value hb.value
  rw [h] at hd'
  cases hd'
  exact ⟨Fraction.within_sub ha.within.over hb.within.over h, hvalue⟩

theorem mul (ha : Number z a c) (hb : Number z b e) (h : a.mul b = .ok d) :
    Number z d (c * e) := by
  obtain ⟨d', hd', hvalue⟩ := Fraction.hasValue_mul ha.value hb.value
  rw [h] at hd'
  cases hd'
  exact ⟨Fraction.within_mul ha.within.over hb.within.over h, hvalue⟩

theorem div (ha : Number z a c) (hb : Number z b e) (he : e ≠ 0) (h : a.div b = .ok d) :
    Number z d (c / e) := by
  obtain ⟨d', hd', hvalue⟩ := Fraction.hasValue_div ha.value hb.value he
  rw [h] at hd'
  cases hd'
  exact ⟨Fraction.within_div ha.within.over hb.within.over h, hvalue⟩

theorem canonical (ha : Number z a c) (h : a.canonical = .ok d) : Number z d c := by
  obtain ⟨d', hd', hvalue⟩ := Fraction.hasValue_canonical ha.value
  rw [h] at hd'
  cases hd'
  exact ⟨Fraction.within_canonical ha.within.over h, hvalue⟩

theorem unique (ha : Number z a c) (ha' : Number z a e) : c = e := ha.value.unique ha'.value

/-- A number is the same at every point. -/
theorem anywhere (ha : Number z a c) (w : Symbol → K) : Number w a c := by
  have hnum := Polynomial.value_of_no_symbols ha.within.num_over
  have hden := Polynomial.value_of_no_symbols ha.within.den_over
  refine ⟨ha.within, ha.within.num_natural.imp (fun _ he => he.definedAt w),
    ha.within.den_natural.imp (fun _ he => he.definedAt w), ?_, ?_⟩
  · rw [hden w, ← hden z]
    exact ha.value.den_ne
  · rw [hnum w, hden w, ← hnum z, ← hden z]
    exact ha.value.eq

theorem ofMonomial (c : K) : Number z (.ofMonomial ⟨c, ∅⟩) c := by
  refine ⟨Fraction.within_ofMonomial (Fraction.over_empty _), ?_⟩
  have hvalue := Fraction.hasValue_ofMonomial (m := ⟨c, ∅⟩) (Fraction.natural_empty.definedAt z)
  rw [show (⟨c, ∅⟩ : Monomial K).value z = c from mul_one c] at hvalue
  exact hvalue

theorem size (ha : Number z a c) : size? a = some |c| := by
  have hfree : a.isSymbolFree = true := by
    unfold Fraction.isSymbolFree
    rw [Polynomial.isSymbolFree_iff.2 ha.within.num_over,
      Polynomial.isSymbolFree_iff.2 ha.within.den_over]
    rfl
  have hnum := Polynomial.value_of_no_symbols ha.within.num_over z
  have hden := Polynomial.value_of_no_symbols ha.within.den_over z
  have hquotient : a.num.constantCoeff / a.den.constantCoeff = c := by
    rw [← hnum, ← hden, ha.value.eq]
    exact mul_div_cancel_right₀ c ha.value.den_ne
  unfold size? Fraction.toConstant
  rw [if_pos hfree, hquotient]
  change some (Scalar.abs c) = some |c|
  rw [ExactScalar.scalar_abs]

theorem isZero_iff (ha : Number z a c) : a.isZero = true ↔ c = 0 := by
  constructor
  · exact ha.value.eq_zero
  · rintro rfl
    by_contra hne
    have hnum := Polynomial.value_ne_zero_of_no_symbols ha.within.num_proper ha.within.num_over
      (Bool.eq_false_iff.2 hne) z
    rw [ha.value.eq, zero_mul] at hnum
    exact hnum rfl

end Number

/-- A row of numbers: its coefficients, of which there are `n`, and its right-hand side. -/
structure Tracks (z : Symbol → K) (n : Nat) (row : Row K) (c : Nat → K) (r : K) : Prop where
  length : row.coeffs.length = n
  coeffs : ∀ i < n, Number z (row.at i) (c i)
  rhs : Number z row.rhs r

/-- The left-hand side of a row less its right-hand side, where the unknowns have the values `x`. -/
def balance (x : Nat → K) (n : Nat) (c : Nat → K) (r : K) : K :=
  ∑ i ∈ Finset.range n, c i * x i - r

def columnValue (z : Symbol → K) (unknowns : List Symbol) (column : Nat) : K :=
  z (unknowns.getD column default)

section Rows

variable {n : Nat} {row : Row K} {c : Nat → K} {r : K}

omit [ExactScalar K] in
theorem at_put [Scalar K] {column i : Nat} (row : Row K) (value : Fraction K)
    (h : column < row.coeffs.length) :
    (row.put column value).at i = if i = column then value else row.at i := by
  unfold Row.at Row.put
  rw [List.getD_eq_getElem?_getD, List.getD_eq_getElem?_getD, List.getElem?_set]
  by_cases hi : column = i
  · rw [if_pos hi, if_pos hi.symm, if_pos h]
    rfl
  · rw [if_neg hi, if_neg (Ne.symm hi)]

theorem Tracks.put (h : Tracks z n row c r) {column : Nat} (hcolumn : column < n)
    {value : Fraction K} {d : K} (hvalue : Number z value d) :
    Tracks z n (row.put column value) (Function.update c column d) r := by
  refine ⟨?_, ?_, h.rhs⟩
  · unfold Row.put
    rw [List.length_set]
    exact h.length
  · intro i hi
    rw [at_put row value (by rw [h.length]; exact hcolumn)]
    by_cases hsame : i = column
    · rw [if_pos hsame, hsame, Function.update_self]
      exact hvalue
    · rw [if_neg hsame, Function.update_of_ne hsame]
      exact h.coeffs i hi

theorem Tracks.anywhere (h : Tracks z n row c r) (w : Symbol → K) : Tracks w n row c r :=
  ⟨h.length, fun i hi => (h.coeffs i hi).anywhere w, h.rhs.anywhere w⟩

theorem Tracks.number_of_mem (h : Tracks z n row c r) {a : Fraction K} (ha : a ∈ row.coeffs) :
    ∃ x, Number z a x := by
  obtain ⟨i, hi, rfl⟩ := List.getElem_of_mem ha
  have hnumber := h.coeffs i (h.length ▸ hi)
  unfold Row.at at hnumber
  rw [List.getD_eq_getElem?_getD, List.getElem?_eq_getElem hi] at hnumber
  exact ⟨c i, hnumber⟩

theorem balance_div (x : Nat → K) (n : Nat) (c : Nat → K) (r d : K) :
    balance x n (fun i => c i / d) (r / d) = balance x n c r / d := by
  unfold balance
  rw [sub_div, Finset.sum_div]
  congr 1
  apply Finset.sum_congr rfl
  intro i _
  ring

theorem balance_sub_mul (x : Nat → K) (n : Nat) (c d : Nat → K) (r e f : K) :
    balance x n (fun i => c i - f * d i) (r - f * e) = balance x n c r - f * balance x n d e := by
  unfold balance
  rw [mul_sub, Finset.mul_sum, sub_sub_sub_comm, ← Finset.sum_sub_distrib]
  congr 1
  apply Finset.sum_congr rfl
  intro i _
  ring

theorem balance_update (x : Nat → K) {column : Nat} (hcolumn : column < n) (c : Nat → K)
    (d r : K) :
    balance x n (Function.update c column (c column + d)) r =
      balance x n c r + d * x column := by
  have hmem := Finset.mem_range.2 hcolumn
  unfold balance
  rw [← Finset.add_sum_erase _ _ hmem, ← Finset.add_sum_erase _ (fun i => c i * x i) hmem,
    Function.update_self]
  have hrest : ∑ i ∈ (Finset.range n).erase column,
      Function.update c column (c column + d) i * x i =
        ∑ i ∈ (Finset.range n).erase column, c i * x i := by
    apply Finset.sum_congr rfl
    intro i hi
    rw [Function.update_of_ne (Finset.ne_of_mem_erase hi)]
  rw [hrest]
  ring

end Rows

section Operations

variable {unknowns : List Symbol} {n : Nat} {row after pivot : Row K} {c d : Nat → K} {r e : K}
  {column : Nat}

/-- No number other than zero is negligible. -/
theorem Tracks.clearNegligible (h : Tracks z n row c r) (hcolumn : column < n) :
    Tracks z n (Linear.clearNegligible 0 column row) c r := by
  unfold Linear.clearNegligible
  rw [(h.coeffs column hcolumn).size]
  dsimp only
  split
  · rename_i hsmall
    have hzero : c column = 0 := abs_nonpos_iff.1 hsmall
    have hput := h.put hcolumn (Number.zero z)
    rw [← hzero, Function.update_eq_self] at hput
    exact hput
  · exact h

omit [ExactScalar K] in
theorem at_of_mapM [Scalar K] {f : Fraction K → Except AlgebraError (Fraction K)}
    {fractions results : List (Fraction K)} (h : fractions.mapM f = .ok results) {i : Nat}
    (hi : i < fractions.length) : f (fractions.getD i .zero) = .ok (results.getD i .zero) := by
  obtain ⟨y, hy, hfy⟩ := (except_mapM_get h).2 i _ (List.getElem?_eq_getElem hi)
  rw [List.getD_eq_getElem?_getD, List.getD_eq_getElem?_getD, hy, List.getElem?_eq_getElem hi]
  exact hfy

/-- A row divided by an entry. -/
theorem Tracks.divideBy (h : Tracks z n row c r) (hcolumn : column < n) (hne : c column ≠ 0)
    (hrun : row.divideBy column = .ok after) :
    Tracks z n after (fun i => c i / c column) (r / c column) := by
  unfold Row.divideBy at hrun
  obtain ⟨coeffs, hcoeffs, hrun⟩ := except_bind_eq_ok.1 hrun
  obtain ⟨quotient, hquotient, hrun⟩ := except_bind_eq_ok.1 hrun
  obtain ⟨rhs, hrhs, hrun⟩ := except_bind_eq_ok.1 hrun
  cases hrun
  have hpivot := h.coeffs column hcolumn
  refine ⟨?_, ?_, (h.rhs.div hpivot hne hquotient).canonical hrhs⟩
  · rw [(except_mapM_get hcoeffs).1, h.length]
  · intro i hi
    have hat := at_of_mapM hcoeffs (by rw [h.length]; exact hi)
    obtain ⟨a, ha, hat⟩ := except_bind_eq_ok.1 hat
    exact ((h.coeffs i hi).div hpivot hne ha).canonical hat

/-- A row can be divided by an entry that is not zero. -/
theorem Tracks.exists_divideBy (h : Tracks z n row c r) (hcolumn : column < n)
    (hne : c column ≠ 0) : ∃ after, row.divideBy column = .ok after := by
  have hpivot := h.coeffs column hcolumn
  obtain ⟨coeffs, hcoeffs⟩ : ∃ coeffs,
      row.coeffs.mapM (fun a => do (← a.div (row.at column)).canonical) = .ok coeffs := by
    refine except_mapM_total fun a ha => ?_
    obtain ⟨x, hx⟩ := h.number_of_mem ha
    obtain ⟨quotient, hquotient, hvalue⟩ := Fraction.hasValue_div hx.value hpivot.value hne
    obtain ⟨result, hresult, _⟩ := Fraction.hasValue_canonical hvalue
    exact ⟨result, except_bind_eq_ok.2 ⟨quotient, hquotient, hresult⟩⟩
  obtain ⟨quotient, hquotient, hvalue⟩ := Fraction.hasValue_div h.rhs.value hpivot.value hne
  obtain ⟨rhs, hrhs, _⟩ := Fraction.hasValue_canonical hvalue
  exact ⟨⟨coeffs, rhs⟩, except_bind_eq_ok.2 ⟨coeffs, hcoeffs, except_bind_eq_ok.2
    ⟨quotient, hquotient, except_bind_eq_ok.2 ⟨rhs, hrhs, rfl⟩⟩⟩⟩

theorem Number.subMultiple {factor a b e : Fraction K} {f x y : K} (hfactor : Number z factor f)
    (ha : Number z a x) (hb : Number z b y) (h : Linear.subMultiple factor a b = .ok e) :
    Number z e (x - f * y) := by
  unfold Linear.subMultiple at h
  obtain ⟨product, hproduct, h⟩ := except_bind_eq_ok.1 h
  obtain ⟨difference, hdifference, h⟩ := except_bind_eq_ok.1 h
  exact (ha.sub (hfactor.mul hb hproduct) hdifference).canonical h

theorem Number.exists_subMultiple {factor a b : Fraction K} {f x y : K}
    (hfactor : Number z factor f) (ha : Number z a x) (hb : Number z b y) :
    ∃ e, Linear.subMultiple factor a b = .ok e := by
  obtain ⟨product, hproduct, hvalue⟩ := Fraction.hasValue_mul hfactor.value hb.value
  obtain ⟨difference, hdifference, hvalue⟩ := Fraction.hasValue_sub ha.value hvalue
  obtain ⟨result, hresult, _⟩ := Fraction.hasValue_canonical hvalue
  exact ⟨result, except_bind_eq_ok.2 ⟨product, hproduct, except_bind_eq_ok.2
    ⟨difference, hdifference, hresult⟩⟩⟩

/-- A row less a multiple of the pivot row. -/
theorem Tracks.clear (h : Tracks z n row c r) (hpivot : Tracks z n pivot d e)
    (hcolumn : column < n) (hone : d column = 1) (hrun : Row.clear column pivot row = .ok after) :
    Tracks z n after (fun i => c i - c column * d i) (r - c column * e) := by
  have hfactor := h.coeffs column hcolumn
  unfold Row.clear at hrun
  dsimp only at hrun
  split at hrun
  · rename_i hzero
    cases hrun
    rw [hfactor.isZero_iff] at hzero
    simp only [hzero, zero_mul, sub_zero]
    exact h
  · obtain ⟨coeffs, hcoeffs, hrun⟩ := except_bind_eq_ok.1 hrun
    obtain ⟨rhs, hrhs, hrun⟩ := except_bind_eq_ok.1 hrun
    cases hrun
    have hzip : (row.coeffs.zip pivot.coeffs).length = n := by
      rw [List.length_zip, h.length, hpivot.length, Nat.min_self]
    have hcleared : Tracks z n ⟨coeffs, rhs⟩ (fun i => c i - c column * d i)
        (r - c column * e) := by
      refine ⟨by rw [(except_mapM_get hcoeffs).1, hzip], ?_, ?_⟩
      · intro i hi
        have hleft : i < row.coeffs.length := by rw [h.length]; exact hi
        have hright : i < pivot.coeffs.length := by rw [hpivot.length]; exact hi
        have hpair : (row.coeffs.zip pivot.coeffs)[i]? = some (row.at i, pivot.at i) := by
          unfold Row.at
          rw [List.getElem?_zip_eq_some, List.getD_eq_getElem?_getD, List.getD_eq_getElem?_getD,
            List.getElem?_eq_getElem hleft, List.getElem?_eq_getElem hright]
          exact ⟨rfl, rfl⟩
        obtain ⟨y, hy, hentry⟩ := (except_mapM_get hcoeffs).2 i _ hpair
        have hat : (Row.mk coeffs rhs).at i = y := by
          unfold Row.at
          rw [List.getD_eq_getElem?_getD, hy]
          rfl
        rw [hat]
        exact hfactor.subMultiple (h.coeffs i hi) (hpivot.coeffs i hi) hentry
      · exact hfactor.subMultiple h.rhs hpivot.rhs hrhs
    have hput := hcleared.put hcolumn (Number.zero z)
    have hsame : (0 : K) = c column - c column * d column := by rw [hone, mul_one, sub_self]
    rw [hsame, Function.update_eq_self] at hput
    exact hput

/-- A row can be cleared. -/
theorem Tracks.exists_clear (h : Tracks z n row c r) (hpivot : Tracks z n pivot d e)
    (hcolumn : column < n) : ∃ after, Row.clear column pivot row = .ok after := by
  have hfactor := h.coeffs column hcolumn
  unfold Row.clear
  dsimp only
  split
  · exact ⟨row, rfl⟩
  · obtain ⟨coeffs, hcoeffs⟩ : ∃ coeffs, (row.coeffs.zip pivot.coeffs).mapM
        (fun pair => Linear.subMultiple (row.at column) pair.1 pair.2) = .ok coeffs := by
      refine except_mapM_total fun pair hpair => ?_
      obtain ⟨hleft, hright⟩ := List.of_mem_zip hpair
      obtain ⟨x, hx⟩ := h.number_of_mem hleft
      obtain ⟨y, hy⟩ := hpivot.number_of_mem hright
      exact hfactor.exists_subMultiple hx hy
    obtain ⟨rhs, hrhs⟩ := hfactor.exists_subMultiple h.rhs hpivot.rhs
    exact ⟨_, except_bind_eq_ok.2 ⟨coeffs, hcoeffs, except_bind_eq_ok.2 ⟨rhs, hrhs, rfl⟩⟩⟩

def Holds (z : Symbol → K) (unknowns : List Symbol) (row : Row K) (c : Nat → K) : Prop :=
  ∃ r, Tracks z unknowns.length row c r ∧
    balance (columnValue z unknowns) unknowns.length c r = 0

/-- A row of numbers that holds at a point, whatever its numbers are. -/
def Row.HoldsAt (z : Symbol → K) (unknowns : List Symbol) (row : Row K) : Prop :=
  ∃ c, Holds z unknowns row c

/-- Whether a row holds can be seen from the numbers that are known of it. -/
theorem Tracks.holdsAt_iff (h : Tracks z unknowns.length row c r) :
    row.HoldsAt z unknowns ↔
      balance (columnValue z unknowns) unknowns.length c r = 0 := by
  constructor
  · rintro ⟨c', r', htracks, hbalance⟩
    rw [← hbalance, h.rhs.unique htracks.rhs]
    unfold balance
    congr 1
    apply Finset.sum_congr rfl
    intro i hi
    have hlt := Finset.mem_range.1 hi
    rw [(h.coeffs i hlt).unique (htracks.coeffs i hlt)]
  · intro hbalance
    exact ⟨c, r, h, hbalance⟩

/-- A row without coefficients says that its right-hand side is zero. -/
theorem Tracks.holdsAt_iff_rhs (h : Tracks z unknowns.length row c r)
    (hzeros : ∀ j < unknowns.length, c j = 0) :
    row.HoldsAt z unknowns ↔ row.rhs.isZero = true := by
  have hsum : ∑ i ∈ Finset.range unknowns.length, c i * columnValue z unknowns i = 0 := by
    apply Finset.sum_eq_zero
    intro i hi
    rw [hzeros i (Finset.mem_range.1 hi), zero_mul]
  rw [h.holdsAt_iff, h.rhs.isZero_iff]
  unfold balance
  rw [hsum, zero_sub, neg_eq_zero]

theorem holdsAt_clearNegligible (h : Tracks z unknowns.length row c r)
    (hcolumn : column < unknowns.length) :
    (clearNegligible 0 column row).HoldsAt z unknowns ↔ row.HoldsAt z unknowns := by
  rw [(h.clearNegligible hcolumn).holdsAt_iff, h.holdsAt_iff]

theorem holdsAt_divideBy (h : Tracks z unknowns.length row c r)
    (hcolumn : column < unknowns.length) (hne : c column ≠ 0)
    (hrun : row.divideBy column = .ok after) :
    after.HoldsAt z unknowns ↔ row.HoldsAt z unknowns := by
  rw [(h.divideBy hcolumn hne hrun).holdsAt_iff, h.holdsAt_iff, balance_div, div_eq_zero_iff,
    or_iff_left hne]

theorem holdsAt_clear (h : Tracks z unknowns.length row c r)
    (hpivot : Tracks z unknowns.length pivot d e) (hcolumn : column < unknowns.length)
    (hone : d column = 1) (hrun : Row.clear column pivot row = .ok after)
    (hholds : pivot.HoldsAt z unknowns) : after.HoldsAt z unknowns ↔ row.HoldsAt z unknowns := by
  rw [(h.clear hpivot hcolumn hone hrun).holdsAt_iff, h.holdsAt_iff, balance_sub_mul,
    hpivot.holdsAt_iff.1 hholds, mul_zero, sub_zero]

end Operations

section Pivots

variable {column : Nat} {rows rest : List (Row K)}

/-- A search for a pivot passes over zero, and over other numbers only if it has one already. -/
theorem look_number {search : Search K} (index : Nat) {a : Fraction K} {c : K} (ha : Number z a c)
    (hbest : search.pivot = none → search.best = 0) :
    (a.isZero = true ∧ search.look index a = search) ∨
      (a.isZero = false ∧ (search.look index a = ⟨some index, |c|⟩ ∨
        search.pivot ≠ none ∧ search.look index a = search)) := by
  unfold Search.look
  cases hzero : a.isZero with
  | true => exact Or.inl ⟨rfl, if_pos rfl⟩
  | false =>
      right
      rw [if_neg Bool.false_ne_true, ha.size]
      refine ⟨rfl, ?_⟩
      dsimp only
      split
      · exact Or.inl rfl
      · rename_i hsmall
        refine Or.inr ⟨?_, rfl⟩
        intro hnone
        rw [hbest hnone, abs_pos, not_not] at hsmall
        rw [ha.isZero_iff.2 hsmall] at hzero
        cases hzero

/-- Looking through a column ends with a row in which the entry is not zero, unless all entries are
zero or there was a pivot before. -/
theorem pivot_of_looks (column : Nat) (entries : List (Row K × Nat))
    (hnumbers : ∀ entry ∈ entries, ∃ c, Number z (entry.1.at column) c) (search : Search K)
    (hbest : search.pivot = none → search.best = 0) :
    match (entries.foldl (fun (search : Search K) entry =>
      search.look entry.2 (entry.1.at column)) search).pivot with
    | some index => search.pivot = some index ∨
        ∃ row, (row, index) ∈ entries ∧ (row.at column).isZero = false
    | none => search.pivot = none ∧ ∀ entry ∈ entries, (entry.1.at column).isZero = true := by
  induction entries generalizing search with
  | nil =>
      rw [List.foldl_nil]
      cases search.pivot with
      | none => exact ⟨rfl, nofun⟩
      | some index => exact Or.inl rfl
  | cons entry others ih =>
      obtain ⟨c, hc⟩ := hnumbers entry List.mem_cons_self
      have hlook := look_number entry.2 hc hbest
      have hothers := ih (fun other hother => hnumbers other (List.mem_cons_of_mem entry hother))
        (search.look entry.2 (entry.1.at column))
        (by
          rcases hlook with ⟨_, hsame⟩ | ⟨_, hchosen | ⟨_, hsame⟩⟩
          · rw [hsame]
            exact hbest
          · rw [hchosen]
            nofun
          · rw [hsame]
            exact hbest)
      rw [List.foldl_cons]
      split
      · rename_i index hpivot
        rw [hpivot] at hothers
        rcases hothers with hbefore | ⟨row, hrow, hne⟩
        · rcases hlook with ⟨_, hsame⟩ | ⟨hne, hchosen | ⟨_, hsame⟩⟩
          · rw [hsame] at hbefore
            exact Or.inl hbefore
          · rw [hchosen] at hbefore
            cases hbefore
            exact Or.inr ⟨entry.1, List.mem_cons_self, hne⟩
          · rw [hsame] at hbefore
            exact Or.inl hbefore
        · exact Or.inr ⟨row, List.mem_cons_of_mem entry hrow, hne⟩
      · rename_i hpivot
        rw [hpivot] at hothers
        obtain ⟨hbefore, hzeros⟩ := hothers
        rcases hlook with ⟨hzero, hsame⟩ | ⟨_, hchosen | ⟨hsome, hsame⟩⟩
        · rw [hsame] at hbefore
          refine ⟨hbefore, ?_⟩
          intro other hother
          rcases List.mem_cons.1 hother with rfl | hother
          · exact hzero
          · exact hzeros other hother
        · rw [hchosen] at hbefore
          cases hbefore
        · rw [hsame] at hbefore
          exact absurd hbefore hsome

omit [ExactScalar K] in
theorem takeRow_isSome {index : Nat} (h : index < rows.length) :
    ∃ row rest, takeRow index rows = some (row, rest) := by
  cases rows with
  | nil => cases h
  | cons first others =>
      cases index with
      | zero => exact ⟨first, others, rfl⟩
      | succ i =>
          have hi : i < others.length := Nat.lt_of_succ_lt_succ h
          refine ⟨others[i], others.set i first, ?_⟩
          change others[i]?.map (fun row => (row, others.set i first)) = _
          rw [List.getElem?_eq_getElem hi]
          rfl

omit [ExactScalar K] in
theorem takeRow_mem {index : Nat} {row : Row K} (h : takeRow index rows = some (row, rest)) :
    rows[index]? = some row ∧ ∀ other ∈ rest, other ∈ rows := by
  cases rows with
  | nil => cases h
  | cons first others =>
      cases index with
      | zero =>
          cases h
          exact ⟨rfl, fun other hother => List.mem_cons_of_mem _ hother⟩
      | succ i =>
          obtain ⟨row', hrow', heq⟩ := Option.map_eq_some_iff.1 h
          cases heq
          refine ⟨hrow', ?_⟩
          intro other hother
          rcases List.mem_or_eq_of_mem_set hother with hmem | rfl
          · exact List.mem_cons_of_mem first hmem
          · exact List.mem_cons_self

omit [ExactScalar K] in
/-- A row that is not taken is left. -/
theorem mem_iff_of_takeRow {index : Nat} {row : Row K} (h : takeRow index rows = some (row, rest))
    (other : Row K) : other ∈ rows ↔ other = row ∨ other ∈ rest := by
  obtain ⟨hrow, hrest⟩ := takeRow_mem h
  refine ⟨fun hother => ?_, ?_⟩
  · cases rows with
    | nil => cases h
    | cons first others =>
        cases index with
        | zero =>
            cases h
            exact List.mem_cons.1 hother
        | succ i =>
            obtain ⟨taken, htaken, heq⟩ := Option.map_eq_some_iff.1 h
            cases heq
            obtain ⟨hi, hget⟩ := List.getElem?_eq_some_iff.1 htaken
            rcases List.mem_cons.1 hother with rfl | hother
            · exact Or.inr (List.mem_set hi other)
            · obtain ⟨j, hj, rfl⟩ := List.getElem_of_mem hother
              by_cases hsame : i = j
              · subst hsame
                exact Or.inl hget
              · refine Or.inr (List.mem_iff_getElem?.2 ⟨j, ?_⟩)
                rw [List.getElem?_set_ne hsame, List.getElem?_eq_getElem hj]
  · rintro (rfl | hother)
    · exact List.mem_of_getElem? hrow
    · exact hrest other hother

/-- Either a row is taken whose entry in the column is not zero, or all entries are zero. -/
theorem choosePivot_cases (hnumbers : ∀ row ∈ rows, ∃ c, Number z (row.at column) c) :
    ((choosePivot column rows).bind (fun index => takeRow index rows) = none ∧
      ∀ row ∈ rows, (row.at column).isZero = true) ∨
    ∃ row rest, (choosePivot column rows).bind (fun index => takeRow index rows) =
        some (row, rest) ∧
      (row.at column).isZero = false ∧ ∀ other, other ∈ rows ↔ other = row ∨ other ∈ rest := by
  have hlooks := pivot_of_looks column rows.zipIdx
    (fun entry hentry => hnumbers entry.1 (List.fst_mem_of_mem_zipIdx hentry)) ⟨none, 0⟩
    (fun _ => rfl)
  change match choosePivot column rows with
    | some index => none = some index ∨
        ∃ row, (row, index) ∈ rows.zipIdx ∧ (row.at column).isZero = false
    | none => _ ∧ ∀ entry ∈ rows.zipIdx, (entry.1.at column).isZero = true at hlooks
  cases hchoose : choosePivot column rows with
  | none =>
      rw [hchoose] at hlooks
      refine Or.inl ⟨rfl, ?_⟩
      intro row hrow
      obtain ⟨i, hi⟩ := List.getElem?_of_mem hrow
      exact hlooks.2 (row, i) (List.mem_zipIdx_iff_getElem?.2 hi)
  | some index =>
      rw [hchoose] at hlooks
      obtain hnone | ⟨row, hmem, hne⟩ := hlooks
      · cases hnone
      · have hindex := List.mem_zipIdx_iff_getElem?.1 hmem
        obtain ⟨hlt, _⟩ := List.getElem?_eq_some_iff.1 hindex
        obtain ⟨taken, rest, htake⟩ := takeRow_isSome hlt
        have htaken := (takeRow_mem htake).1
        rw [hindex] at htaken
        cases htaken
        exact Or.inr ⟨row, rest, htake, hne, mem_iff_of_takeRow htake⟩

end Pivots

/-- What a step can do to the rows of a system, whose negligible numbers in the column have been
replaced by zero. -/
inductive Stepped (column : Nat) (tableau : Tableau K) : Tableau K → Prop
  /-- The column is zero in all rows without a pivot. -/
  | idle (hzero : ∀ row ∈ tableau.pending.map (clearNegligible 0 column),
      (row.at column).isZero = true) :
    Stepped column tableau
      { tableau with pending := tableau.pending.map (clearNegligible 0 column) }
  /-- One of these rows becomes a pivot row, and all others are cleared with it. -/
  | pivoted {row pivot : Row K} {pivots : List (Nat × Row K)} {rest others : List (Row K)}
    (hrows : ∀ other, other ∈ tableau.pending.map (clearNegligible 0 column) ↔
      other = row ∨ other ∈ rest)
    (hne : (row.at column).isZero = false) (hpivot : row.divideBy column = .ok pivot)
    (hcolumns : pivots.map Prod.fst = tableau.pivots.map Prod.fst)
    (hcleared : ∀ entry ∈ pivots, ∃ before ∈ tableau.pivots, before.1 = entry.1 ∧
      Row.clear column pivot before.2 = .ok entry.2)
    (hkept : ∀ before ∈ tableau.pivots, ∃ entry ∈ pivots,
      Row.clear column pivot before.2 = .ok entry.2)
    (hothers : rest.mapM (Row.clear column pivot) = .ok others) :
    Stepped column tableau ⟨pivots ++ [(column, pivot)], others⟩

/-- The rows after the elimination of `k` columns: in these columns, those without a pivot are
zero. -/
structure Eliminated (z : Symbol → K) (n k : Nat) (tableau : Tableau K) : Prop where
  pivots : ∀ entry ∈ tableau.pivots,
    entry.1 < k ∧ ∃ c r, Tracks z n entry.2 c r ∧ c entry.1 = 1
  pending : ∀ row ∈ tableau.pending, ∃ c r, Tracks z n row c r ∧ ∀ j < k, c j = 0

structure Tableau.HoldsAt (z : Symbol → K) (unknowns : List Symbol) (tableau : Tableau K) :
    Prop where
  pivots : ∀ entry ∈ tableau.pivots, entry.2.HoldsAt z unknowns
  pending : ∀ row ∈ tableau.pending, row.HoldsAt z unknowns

section Steps

variable {unknowns : List Symbol} {n k : Nat} {tableau after : Tableau K} {row pivot : Row K}
  {c : Nat → K} {r : K}

theorem Eliminated.cleared (h : Eliminated z n k tableau) (hk : k < n) {row : Row K}
    (hrow : row ∈ tableau.pending.map (clearNegligible 0 k)) :
    ∃ c r, Tracks z n row c r ∧ ∀ j < k, c j = 0 := by
  obtain ⟨before, hbefore, rfl⟩ := List.mem_map.1 hrow
  obtain ⟨c, r, htracks, hzeros⟩ := h.pending before hbefore
  exact ⟨c, r, htracks.clearNegligible hk, hzeros⟩

theorem Tracks.entry_ne_zero (h : Tracks z n row c r) (hk : k < n)
    (hne : (row.at k).isZero = false) : c k ≠ 0 := by
  intro hzero
  rw [(h.coeffs k hk).isZero_iff.2 hzero] at hne
  cases hne

/-- The pivot row has a one in its column and, like the row it comes from, zeros before it. -/
theorem Tracks.pivotRow (h : Tracks z n row c r) (hk : k < n) (hne : (row.at k).isZero = false)
    (hzeros : ∀ j < k, c j = 0) (hpivot : row.divideBy k = .ok pivot) :
    ∃ d e, Tracks z n pivot d e ∧ d k = 1 ∧ ∀ j < k, d j = 0 := by
  have hck := h.entry_ne_zero hk hne
  refine ⟨_, _, h.divideBy hk hck hpivot, div_self hck, fun j hj => ?_⟩
  rw [hzeros j hj, zero_div]

/-- A step never fails. -/
theorem exists_step (hk : k < n) (h : Eliminated z n k tableau) :
    ∃ after, step 0 tableau k = .ok after ∧ Stepped k tableau after := by
  have hnumbers (row : Row K) (hrow : row ∈ tableau.pending.map (clearNegligible 0 k)) :
      ∃ x, Number z (row.at k) x := by
    obtain ⟨c, r, htracks, _⟩ := h.cleared hk hrow
    exact ⟨c k, htracks.coeffs k hk⟩
  unfold step
  dsimp only
  rcases choosePivot_cases hnumbers with ⟨hnone, hzero⟩ | ⟨row, rest, hsome, hne, hrows⟩
  · rw [hnone]
    exact ⟨_, rfl, .idle hzero⟩
  · rw [hsome]
    obtain ⟨c, r, htracks, hzeros⟩ := h.cleared hk ((hrows row).2 (Or.inl rfl))
    obtain ⟨pivot, hpivot⟩ := htracks.exists_divideBy hk (htracks.entry_ne_zero hk hne)
    obtain ⟨d, e, hpivotTracks, _⟩ := htracks.pivotRow hk hne hzeros hpivot
    obtain ⟨pivots, hpivots⟩ : ∃ pivots, tableau.pivots.mapM
        (fun entry => do pure (entry.1, ← Row.clear k pivot entry.2)) = .ok pivots := by
      refine except_mapM_total fun entry hentry => ?_
      obtain ⟨_, c', r', htracks', _⟩ := h.pivots entry hentry
      obtain ⟨cleared, hcleared⟩ := htracks'.exists_clear hpivotTracks hk
      exact ⟨_, except_bind_eq_ok.2 ⟨cleared, hcleared, rfl⟩⟩
    obtain ⟨others, hothers⟩ : ∃ others, rest.mapM (Row.clear k pivot) = .ok others := by
      refine except_mapM_total fun other hother => ?_
      obtain ⟨c', r', htracks', _⟩ := h.cleared hk ((hrows other).2 (Or.inr hother))
      exact htracks'.exists_clear hpivotTracks hk
    refine ⟨⟨pivots ++ [(k, pivot)], others⟩, ?_, .pivoted hrows hne hpivot ?_ ?_ ?_ hothers⟩
    · exact except_bind_eq_ok.2 ⟨pivot, hpivot, except_bind_eq_ok.2
        ⟨pivots, hpivots, except_bind_eq_ok.2 ⟨others, hothers, rfl⟩⟩⟩
    · refine except_mapM_map (fun entry result hresult => ?_) hpivots
      obtain ⟨_, _, heq⟩ := except_bind_eq_ok.1 hresult
      cases heq
      rfl
    · intro entry hentry
      obtain ⟨before, hbefore, hentry⟩ := except_mapM_mem hpivots entry hentry
      obtain ⟨cleared, hcleared, heq⟩ := except_bind_eq_ok.1 hentry
      cases heq
      exact ⟨before, hbefore, rfl, hcleared⟩
    · intro before hbefore
      obtain ⟨entry, hentry, hclear⟩ := except_mapM_image hpivots before hbefore
      obtain ⟨cleared, hcleared, heq⟩ := except_bind_eq_ok.1 hclear
      cases heq
      exact ⟨_, hentry, hcleared⟩

theorem stepped_of_step (hk : k < n) (h : Eliminated z n k tableau)
    (hrun : step 0 tableau k = .ok after) : Stepped k tableau after := by
  obtain ⟨next, hnext, hstepped⟩ := exists_step hk h
  rw [hrun] at hnext
  cases hnext
  exact hstepped

/-- One column is eliminated. -/
theorem eliminated_step (hk : k < n) (h : Eliminated z n k tableau)
    (hstep : Stepped k tableau after) : Eliminated z n (k + 1) after := by
  cases hstep with
  | idle hzero =>
      refine ⟨fun entry hentry => ?_, fun row hrow => ?_⟩
      · obtain ⟨hlt, htracks⟩ := h.pivots entry hentry
        exact ⟨Nat.lt_succ_of_lt hlt, htracks⟩
      · obtain ⟨c, r, htracks, hzeros⟩ := h.cleared hk hrow
        refine ⟨c, r, htracks, fun j hj => ?_⟩
        rcases Nat.lt_succ_iff_lt_or_eq.1 hj with hlt | rfl
        · exact hzeros j hlt
        · exact (htracks.coeffs j hk).isZero_iff.1 (hzero row hrow)
  | @pivoted row pivot pivots rest others hrows hne hpivot _ hcleared _ hothers =>
      obtain ⟨c, r, htracks, hzeros⟩ := h.cleared hk ((hrows row).2 (Or.inl rfl))
      obtain ⟨d, e, hpivotTracks, hone, hbefore⟩ := htracks.pivotRow hk hne hzeros hpivot
      refine ⟨fun entry hentry => ?_, fun other hother => ?_⟩
      · rcases List.mem_append.1 hentry with hold | hnew
        · obtain ⟨before, hmem, hcolumn, hclear⟩ := hcleared entry hold
          obtain ⟨hlt, c', r', htracks', hone'⟩ := h.pivots before hmem
          rw [← hcolumn]
          refine ⟨Nat.lt_succ_of_lt hlt, _, _, htracks'.clear hpivotTracks hk hone hclear, ?_⟩
          rw [hbefore before.1 hlt, mul_zero, sub_zero, hone']
        · rw [List.mem_singleton.1 hnew]
          exact ⟨Nat.lt_succ_self k, d, e, hpivotTracks, hone⟩
      · obtain ⟨before, hmem, hclear⟩ := except_mapM_mem hothers other hother
        obtain ⟨c', r', htracks', hzeros'⟩ := h.cleared hk ((hrows before).2 (Or.inr hmem))
        refine ⟨_, _, htracks'.clear hpivotTracks hk hone hclear, fun j hj => ?_⟩
        rcases Nat.lt_succ_iff_lt_or_eq.1 hj with hlt | rfl
        · rw [hzeros' j hlt, hbefore j hlt, mul_zero, sub_zero]
        · rw [hone, mul_one, sub_self]

/-- The rows hold at the same points as before the step. -/
theorem holdsAt_step (hk : k < unknowns.length) (h : Eliminated z unknowns.length k tableau)
    (hstep : Stepped k tableau after) : after.HoldsAt z unknowns ↔ tableau.HoldsAt z unknowns := by
  have hpending : (∀ row ∈ tableau.pending.map (clearNegligible 0 k), row.HoldsAt z unknowns) ↔
      ∀ row ∈ tableau.pending, row.HoldsAt z unknowns := by
    rw [List.forall_mem_map]
    refine forall₂_congr fun row hrow => ?_
    obtain ⟨c, r, htracks, _⟩ := h.pending row hrow
    exact holdsAt_clearNegligible htracks hk
  cases hstep with
  | idle =>
      exact ⟨fun hafter => ⟨hafter.pivots, hpending.1 hafter.pending⟩,
        fun hbefore => ⟨hbefore.pivots, hpending.2 hbefore.pending⟩⟩
  | @pivoted row pivot pivots rest others hrows hne hpivot _ hcleared hkept hothers =>
      obtain ⟨c, r, htracks, hzeros⟩ := h.cleared hk ((hrows row).2 (Or.inl rfl))
      obtain ⟨d, e, hpivotTracks, hone, _⟩ := htracks.pivotRow hk hne hzeros hpivot
      have hrow := holdsAt_divideBy htracks hk (htracks.entry_ne_zero hk hne) hpivot
      have hpivots (hholds : pivot.HoldsAt z unknowns) {before : Nat × Row K} {cleared : Row K}
          (hmem : before ∈ tableau.pivots) (hclear : Row.clear k pivot before.2 = .ok cleared) :
          cleared.HoldsAt z unknowns ↔ before.2.HoldsAt z unknowns := by
        obtain ⟨_, c', r', htracks', _⟩ := h.pivots before hmem
        exact holdsAt_clear htracks' hpivotTracks hk hone hclear hholds
      have hrest (hholds : pivot.HoldsAt z unknowns) {before cleared : Row K}
          (hmem : before ∈ rest) (hclear : Row.clear k pivot before = .ok cleared) :
          cleared.HoldsAt z unknowns ↔ before.HoldsAt z unknowns := by
        obtain ⟨c', r', htracks', _⟩ := h.cleared hk ((hrows before).2 (Or.inr hmem))
        exact holdsAt_clear htracks' hpivotTracks hk hone hclear hholds
      -- each old row is the one that was divided, or has been cleared with the pivot row
      constructor
      · intro hafter
        have hholds := hafter.pivots (k, pivot) (List.mem_append_right _ List.mem_cons_self)
        refine ⟨fun before hmem => ?_, hpending.1 fun before hmem => ?_⟩
        · obtain ⟨entry, hentry, hclear⟩ := hkept before hmem
          exact (hpivots hholds hmem hclear).1 (hafter.pivots entry (List.mem_append_left _ hentry))
        · rcases (hrows before).1 hmem with rfl | hmem
          · exact hrow.1 hholds
          · obtain ⟨cleared, hother, hclear⟩ := except_mapM_image hothers before hmem
            exact (hrest hholds hmem hclear).1 (hafter.pending cleared hother)
      · intro hbefore
        have hrowsHold := hpending.2 hbefore.pending
        have hholds := hrow.2 (hrowsHold row ((hrows row).2 (Or.inl rfl)))
        refine ⟨fun entry hentry => ?_, fun other hother => ?_⟩
        · rcases List.mem_append.1 hentry with hold | hnew
          · obtain ⟨before, hmem, _, hclear⟩ := hcleared entry hold
            exact (hpivots hholds hmem hclear).2 (hbefore.pivots before hmem)
          · rw [List.mem_singleton.1 hnew]
            exact hholds
        · obtain ⟨before, hmem, hclear⟩ := except_mapM_mem hothers other hother
          exact (hrest hholds hmem hclear).2
            (hrowsHold before ((hrows before).2 (Or.inr hmem)))

end Steps

end Ramify.Linear
