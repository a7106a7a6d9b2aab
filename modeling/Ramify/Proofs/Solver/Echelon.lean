import Ramify.Proofs.Solver.Linear
import Ramify.Proofs.Solver.SolvedForm

/-!
The shape of a linear system after Gauss-Jordan elimination, over whatever type of numbers: no
unknown occurs in the rows, and the column of each pivot is cleared, by a zero that is written and
not calculated, in every other row. So the values that are read off mention only unknowns without a
pivot.
-/

namespace Ramify

variable {K : Type} [Scalar K]

namespace Fraction

variable {a b c : Fraction K}

theorem isZero_make {num den : Polynomial K} (hnum : num.terms = []) (h : make num den = .ok a) :
    a.isZero = true := by
  have hcollected : num.collected.isZero = true := by
    unfold Polynomial.collected
    rw [hnum]
    rfl
  unfold make at h
  dsimp only at h
  split at h
  · cases h
  · cases h
    unfold lowestTerms
    rw [if_pos hcollected]
    rfl

private theorem terms_mul_zero {p q : Polynomial K} (h : p.terms = [] ∨ q.terms = []) :
    (p * q).terms = [] := by
  change (Polynomial.mul p q).terms = []
  unfold Polynomial.mul
  have hnone : p.terms.flatMap (fun m => q.terms.map (fun n => m * n)) = [] := by
    rcases h with hp | hq
    · rw [hp]
      rfl
    · simp [hq]
  rw [hnone]
  rfl

theorem isZero_div (ha : a.isZero = true) (h : a.div b = .ok c) : c.isZero = true := by
  unfold div at h
  split at h
  · cases h
  · exact isZero_make (terms_mul_zero (Or.inl (List.isEmpty_iff.1 ha))) h

theorem isZero_mul (hb : b.isZero = true) (h : a.mul b = .ok c) : c.isZero = true :=
  isZero_make (terms_mul_zero (Or.inr (List.isEmpty_iff.1 hb))) h

theorem isZero_sub (ha : a.isZero = true) (hb : b.isZero = true) (h : a.sub b = .ok c) :
    c.isZero = true := by
  refine isZero_make ?_ h
  change (Polynomial.sub _ _).terms = []
  unfold Polynomial.sub
  rw [terms_mul_zero (Or.inl (List.isEmpty_iff.1 ha)),
    terms_mul_zero (Or.inl (List.isEmpty_iff.1 hb))]
  rfl

theorem isZero_canonical (ha : a.isZero = true) (h : a.canonical = .ok c) : c.isZero = true :=
  isZero_make (List.isEmpty_iff.1 ha) h

end Fraction

namespace Linear

variable {P : Symbol → Prop} {row pivot after : Row K} {column : Nat}

structure Row.Over (P : Symbol → Prop) (row : Row K) : Prop where
  coeffs : ∀ a ∈ row.coeffs, a.Over P
  rhs : row.rhs.Over P

theorem Row.Over.at (h : row.Over P) (i : Nat) : (row.at i).Over P := by
  unfold Row.at
  rw [List.getD_eq_getElem?_getD]
  cases hget : row.coeffs[i]? with
  | none => exact Fraction.over_zero P
  | some a => exact h.coeffs a (List.mem_of_getElem? hget)

omit [Scalar K] in
theorem Row.Over.put (h : row.Over P) (column : Nat) {value : Fraction K} (hvalue : value.Over P) :
    (row.put column value).Over P := by
  refine ⟨fun a ha => ?_, h.rhs⟩
  rcases List.mem_or_eq_of_mem_set ha with hold | rfl
  · exact h.coeffs a hold
  · exact hvalue

section Reading

variable {unknowns : List Symbol} {polys : List (Polynomial K)}

omit [Scalar K] in
private theorem length_le_total (degrees : List Int) (start : Int) (h : ∀ d ∈ degrees, 1 ≤ d) :
    start + degrees.length ≤ degrees.foldl (· + ·) start := by
  induction degrees generalizing start with
  | nil => simp
  | cons d rest ih =>
      have hd := h d List.mem_cons_self
      have hrest := ih (start + d) (fun e he => h e (List.mem_cons_of_mem d he))
      rw [List.foldl_cons, List.length_cons]
      push_cast
      omega

omit [Scalar K] in
/-- In a term of a linear system at most one unknown occurs, and to the first power. -/
theorem linear_unknowns (h : applies unknowns polys = true) {p : Polynomial K} (hp : p ∈ polys)
    {m : Monomial K} (hm : m ∈ p.terms) {s : Symbol} (hs : s ∈ unknowns)
    (hne : m.exponents.get s ≠ 0) :
    m.exponents.get s = 1 ∧ ∀ t ∈ unknowns, m.exponents.get t ≠ 0 → t = s := by
  have hterm := List.all_eq_true.1 (List.all_eq_true.1 h p hp) m hm
  simp only [Bool.and_eq_true, decide_eq_true_eq, List.all_eq_true] at hterm
  generalize hlist : m.exponents.entries.filter (fun entry => unknowns.contains entry.1) = entries
    at hterm
  have hmem (t : Symbol) (ht : t ∈ unknowns) (htne : m.exponents.get t ≠ 0) :
      (t, m.exponents.get t) ∈ entries := by
    rw [← hlist]
    exact List.mem_filter.2
      ⟨(Powers.mem_entries_iff m.exponents (t, _)).2 ⟨rfl, htne⟩, List.contains_iff_mem.2 ht⟩
  have hpositive : ∀ d ∈ entries.map Prod.snd, 1 ≤ d := by
    intro d hd
    have hnonneg := hterm.1 d hd
    obtain ⟨entry, hentry, rfl⟩ := List.mem_map.1 hd
    rw [← hlist] at hentry
    have hstored :=
      ((Powers.mem_entries_iff m.exponents entry).1 (List.mem_filter.1 hentry).1).2
    omega
  have hlength := length_le_total _ 0 hpositive
  rw [List.length_map] at hlength
  have hsmem := hmem s hs hne
  rcases entries with _ | ⟨entry, _ | ⟨second, rest⟩⟩
  · cases hsmem
  · have hone : m.exponents.get s = 1 := by
      have hsecond := congrArg Prod.snd (List.mem_singleton.1 hsmem)
      have hlow := hpositive entry.2 (by simp)
      have htotal := hterm.2
      simp only [List.map_singleton, List.foldl_cons, List.foldl_nil] at htotal
      dsimp only at hsecond
      omega
    refine ⟨hone, fun t ht htne => ?_⟩
    have hthere := List.mem_singleton.1 (hmem t ht htne)
    rw [← List.mem_singleton.1 hsmem] at hthere
    exact congrArg Prod.fst hthere
  · have htotal := hterm.2
    simp only [List.length_cons] at hlength
    omega

/-- No unknown is left beside the one that a term belongs to. -/
theorem over_addTerm (h : applies unknowns polys = true) {p : Polynomial K} (hp : p ∈ polys)
    {m : Monomial K} (hm : m ∈ p.terms) (hrow : row.Over (· ∉ unknowns))
    (hadd : addTerm unknowns row m = .ok after) : after.Over (· ∉ unknowns) := by
  unfold addTerm at hadd
  split at hadd
  · rename_i column hcolumn
    dsimp only at hadd
    obtain ⟨sum, hsum, hadd⟩ := except_bind_eq_ok.1 hadd
    cases hadd
    obtain ⟨hlt, hdegree, _⟩ := List.findIdx?_eq_some_iff_getElem.1 hcolumn
    have hsymbol : unknowns.getD column default = unknowns[column] := by simp [hlt]
    have hone : m.exponents.get unknowns[column] = 1 := eq_of_beq hdegree
    have hrest : (m.exponents.erase unknowns[column]).Over (· ∉ unknowns) := by
      intro t ht hunknown
      rw [Powers.get_erase] at ht
      split at ht
      · exact ht rfl
      · rename_i hother
        have hne : m.exponents.get unknowns[column] ≠ 0 := by omega
        exact hother ((linear_unknowns h hp hm (List.getElem_mem hlt) hne).2 t hunknown ht).symm
    rw [hsymbol] at hsum
    exact hrow.put column ((hrow.at column).add (Fraction.over_ofMonomial hrest) hsum)
  · rename_i hnone
    obtain ⟨rhs, hrhs, hadd⟩ := except_bind_eq_ok.1 hadd
    cases hadd
    have hterm : m.exponents.Over (· ∉ unknowns) := by
      intro t ht hunknown
      have hone := (linear_unknowns h hp hm hunknown ht).1
      have hdegree := List.findIdx?_eq_none_iff.1 hnone t hunknown
      exact absurd (beq_iff_eq.2 hone) (by simpa [Monomial.degree] using hdegree)
    exact ⟨hrow.coeffs, hrow.rhs.sub (Fraction.over_ofMonomial hterm) hrhs⟩

theorem over_rowOf (h : applies unknowns polys = true) {p : Polynomial K} (hp : p ∈ polys)
    (hrow : rowOf unknowns p = .ok row) : row.Over (· ∉ unknowns) := by
  refine except_foldlM (Q := Row.Over (· ∉ unknowns)) ?_ ?_ hrow
  · intro m hm before after hbefore hadd
    exact over_addTerm h hp hm hbefore hadd
  · refine ⟨fun a ha => ?_, Fraction.over_zero _⟩
    obtain ⟨_, _, rfl⟩ := List.mem_map.1 ha
    exact Fraction.over_zero _

end Reading

section Operations

theorem isZero_put {i : Nat} (h : i = column ∨ (row.at i).isZero = true) :
    ((row.put column .zero).at i).isZero = true := by
  by_cases hlt : column < row.coeffs.length
  · rw [at_put row .zero hlt]
    split
    · rfl
    · rename_i hne
      exact h.resolve_left hne
  · have hsame : row.put column .zero = row := by
      unfold Row.put
      rw [List.set_eq_of_length_le (Nat.not_lt.1 hlt)]
    rw [hsame]
    rcases h with rfl | hzero
    · unfold Row.at
      rw [List.getD_eq_getElem?_getD, List.getElem?_eq_none (Nat.not_lt.1 hlt)]
      rfl
    · exact hzero

theorem over_clearNegligible (bound : K) (column : Nat) (h : row.Over P) :
    (clearNegligible bound column row).Over P := by
  unfold clearNegligible
  split
  · split
    · exact h.put column (Fraction.over_zero P)
    · exact h
  · exact h

theorem isZero_clearNegligible (bound : K) (column : Nat) {i : Nat}
    (h : (row.at i).isZero = true) : ((clearNegligible bound column row).at i).isZero = true := by
  unfold clearNegligible
  split
  · split
    · exact isZero_put (Or.inr h)
    · exact h
  · exact h

theorem over_divideBy (h : row.Over P) (hrun : row.divideBy column = .ok after) :
    after.Over P := by
  unfold Row.divideBy at hrun
  obtain ⟨coeffs, hcoeffs, hrun⟩ := except_bind_eq_ok.1 hrun
  obtain ⟨quotient, hquotient, hrun⟩ := except_bind_eq_ok.1 hrun
  obtain ⟨rhs, hrhs, hrun⟩ := except_bind_eq_ok.1 hrun
  cases hrun
  refine ⟨fun b hb => ?_, (h.rhs.div (h.at column) hquotient).canonical hrhs⟩
  obtain ⟨a, ha, hdiv⟩ := except_mapM_mem hcoeffs b hb
  obtain ⟨c, hc, hcanonical⟩ := except_bind_eq_ok.1 hdiv
  exact ((h.coeffs a ha).div (h.at column) hc).canonical hcanonical

theorem isZero_divideBy (hrun : row.divideBy column = .ok after) {i : Nat}
    (h : (row.at i).isZero = true) : (after.at i).isZero = true := by
  unfold Row.divideBy at hrun
  obtain ⟨coeffs, hcoeffs, hrun⟩ := except_bind_eq_ok.1 hrun
  obtain ⟨quotient, _, hrun⟩ := except_bind_eq_ok.1 hrun
  obtain ⟨rhs, _, hrun⟩ := except_bind_eq_ok.1 hrun
  cases hrun
  by_cases hlt : i < row.coeffs.length
  · obtain ⟨c, hc, hcanonical⟩ := except_bind_eq_ok.1 (at_of_mapM hcoeffs hlt)
    exact Fraction.isZero_canonical (Fraction.isZero_div h hc) hcanonical
  · have hnone : coeffs[i]? = none :=
      List.getElem?_eq_none ((except_mapM_get hcoeffs).1 ▸ Nat.not_lt.1 hlt)
    unfold Row.at
    rw [List.getD_eq_getElem?_getD, hnone]
    rfl

theorem over_clear (h : row.Over P) (hpivot : pivot.Over P)
    (hrun : Row.clear column pivot row = .ok after) : after.Over P := by
  have hmultiple {a b c : Fraction K} (ha : a.Over P) (hb : b.Over P)
      (hc : subMultiple (row.at column) a b = .ok c) : c.Over P := by
    unfold subMultiple at hc
    obtain ⟨product, hproduct, hc⟩ := except_bind_eq_ok.1 hc
    obtain ⟨difference, hdifference, hc⟩ := except_bind_eq_ok.1 hc
    exact (ha.sub ((h.at column).mul hb hproduct) hdifference).canonical hc
  unfold Row.clear at hrun
  dsimp only at hrun
  split at hrun
  · cases hrun
    exact h
  · obtain ⟨coeffs, hcoeffs, hrun⟩ := except_bind_eq_ok.1 hrun
    obtain ⟨rhs, hrhs, hrun⟩ := except_bind_eq_ok.1 hrun
    cases hrun
    have hcleared : (Row.mk coeffs rhs).Over P := by
      refine ⟨fun b hb => ?_, hmultiple h.rhs hpivot.rhs hrhs⟩
      obtain ⟨pair, hpair, hentry⟩ := except_mapM_mem hcoeffs b hb
      obtain ⟨hleft, hright⟩ := List.of_mem_zip hpair
      exact hmultiple (h.coeffs pair.1 hleft) (hpivot.coeffs pair.2 hright) hentry
    exact hcleared.put column (Fraction.over_zero P)

/-- A column that is zero in both rows stays zero, and the cleared column becomes zero. -/
theorem isZero_clear (hrun : Row.clear column pivot row = .ok after) {i : Nat}
    (h : i = column ∨ (row.at i).isZero = true ∧ (pivot.at i).isZero = true) :
    (after.at i).isZero = true := by
  unfold Row.clear at hrun
  dsimp only at hrun
  split at hrun
  · rename_i hfactor
    cases hrun
    rcases h with rfl | h
    · exact hfactor
    · exact h.1
  · obtain ⟨coeffs, hcoeffs, hrun⟩ := except_bind_eq_ok.1 hrun
    obtain ⟨rhs, _, hrun⟩ := except_bind_eq_ok.1 hrun
    cases hrun
    refine isZero_put (h.imp_right fun hzero => ?_)
    unfold Row.at at hzero ⊢
    simp only [List.getD_eq_getElem?_getD] at hzero ⊢
    cases hget : coeffs[i]? with
    | none => rfl
    | some value =>
        have hlt := (List.getElem?_eq_some_iff.1 hget).1
        rw [(except_mapM_get hcoeffs).1] at hlt
        obtain ⟨y, hy, hentry⟩ := (except_mapM_get hcoeffs).2 i _ (List.getElem?_eq_getElem hlt)
        rw [hget] at hy
        cases hy
        have hpair := List.getElem?_zip_eq_some.1 (List.getElem?_eq_getElem hlt)
        rw [hpair.1, hpair.2] at hzero
        unfold subMultiple at hentry
        obtain ⟨product, hproduct, hentry⟩ := except_bind_eq_ok.1 hentry
        obtain ⟨difference, hdifference, hentry⟩ := except_bind_eq_ok.1 hentry
        have hnone := Fraction.isZero_mul hzero.2 hproduct
        exact Fraction.isZero_canonical (Fraction.isZero_sub hzero.1 hnone hdifference) hentry

end Operations

section Solve

variable {unknowns : List Symbol} {polys : List (Polynomial K)} {tableau : Tableau K}

/-- The rows during an elimination: a pivot column is zero in every row but its own. -/
structure Echelon (P : Symbol → Prop) (tableau : Tableau K) : Prop where
  pivots : ∀ entry ∈ tableau.pivots, entry.2.Over P ∧
    ∀ other ∈ tableau.pivots, other.1 ≠ entry.1 → (entry.2.at other.1).isZero = true
  pending : ∀ row ∈ tableau.pending, row.Over P ∧
    ∀ other ∈ tableau.pivots, (row.at other.1).isZero = true

theorem echelon_step {bound : K} {next : Tableau K} (h : Echelon P tableau)
    (hstep : step bound tableau column = .ok next) : Echelon P next := by
  have hpending : ∀ row ∈ tableau.pending.map (clearNegligible bound column), row.Over P ∧
      ∀ other ∈ tableau.pivots, (row.at other.1).isZero = true := by
    intro row hrow
    obtain ⟨before, hbefore, rfl⟩ := List.mem_map.1 hrow
    obtain ⟨hover, hzero⟩ := h.pending before hbefore
    exact ⟨over_clearNegligible bound column hover,
      fun other hother => isZero_clearNegligible bound column (hzero other hother)⟩
  unfold step at hstep
  dsimp only at hstep
  split at hstep
  · cases hstep
    exact ⟨h.pivots, hpending⟩
  · rename_i row rest htake
    obtain ⟨index, _, htake⟩ := Option.bind_eq_some_iff.1 htake
    obtain ⟨hrow, hrest⟩ := takeRow_mem htake
    obtain ⟨pivot, hpivot, hstep⟩ := except_bind_eq_ok.1 hstep
    obtain ⟨pivots, hpivots, hstep⟩ := except_bind_eq_ok.1 hstep
    obtain ⟨others, hothers, hstep⟩ := except_bind_eq_ok.1 hstep
    cases hstep
    obtain ⟨hrowOver, hrowZero⟩ := hpending row (List.mem_of_getElem? hrow)
    have hpivotOver := over_divideBy hrowOver hpivot
    have hpivotZero : ∀ other ∈ tableau.pivots, (pivot.at other.1).isZero = true :=
      fun other hother => isZero_divideBy hpivot (hrowZero other hother)
    -- each pivot row but the new one is cleared from a pivot row of the same column
    have hold : ∀ entry ∈ pivots, ∃ before ∈ tableau.pivots, before.1 = entry.1 ∧
        Row.clear column pivot before.2 = .ok entry.2 := by
      intro entry hentry
      obtain ⟨before, hbefore, hclear⟩ := except_mapM_mem hpivots entry hentry
      obtain ⟨cleared, hcleared, hclear⟩ := except_bind_eq_ok.1 hclear
      cases hclear
      exact ⟨before, hbefore, rfl, hcleared⟩
    have hcolumns : ∀ entry ∈ pivots ++ [(column, pivot)],
        entry.1 = column ∨ ∃ before ∈ tableau.pivots, before.1 = entry.1 := by
      intro entry hentry
      rcases List.mem_append.1 hentry with hentry | hentry
      · obtain ⟨before, hbefore, hsame, _⟩ := hold entry hentry
        exact Or.inr ⟨before, hbefore, hsame⟩
      · rw [List.mem_singleton.1 hentry]
        exact Or.inl rfl
    refine ⟨fun entry hentry => ?_, fun row hrow => ?_⟩
    · rcases List.mem_append.1 hentry with hentry | hentry
      · obtain ⟨before, hbefore, hsame, hclear⟩ := hold entry hentry
        obtain ⟨hover, hzero⟩ := h.pivots before hbefore
        refine ⟨over_clear hover hpivotOver hclear, fun other hother hne => ?_⟩
        refine isZero_clear hclear ((hcolumns other hother).imp_right ?_)
        rintro ⟨earlier, hearlier, hcolumn⟩
        rw [← hcolumn] at hne ⊢
        exact ⟨hzero earlier hearlier (fun heq => hne (heq.trans hsame)),
          hpivotZero earlier hearlier⟩
      · rw [List.mem_singleton.1 hentry]
        refine ⟨hpivotOver, fun other hother hne => ?_⟩
        obtain ⟨earlier, hearlier, hcolumn⟩ := (hcolumns other hother).resolve_left hne
        rw [← hcolumn]
        exact hpivotZero earlier hearlier
    · obtain ⟨before, hbefore, hclear⟩ := except_mapM_mem hothers row hrow
      obtain ⟨hover, hzero⟩ := hpending before (hrest before hbefore)
      refine ⟨over_clear hover hpivotOver hclear, fun other hother => ?_⟩
      refine isZero_clear hclear ((hcolumns other hother).imp_right ?_)
      rintro ⟨earlier, hearlier, hcolumn⟩
      rw [← hcolumn]
      exact ⟨hzero earlier hearlier, hpivotZero earlier hearlier⟩

/-- A symbol that is no unknown, or the unknown of a column without a pivot. -/
def Remains (unknowns : List Symbol) (tableau : Tableau K) (symbol : Symbol) : Prop :=
  symbol ∉ unknowns ∨
    ∃ i, unknowns[i]? = some symbol ∧ ∀ entry ∈ tableau.pivots, entry.1 ≠ i

theorem over_valueOf (h : Echelon (· ∉ unknowns) tableau) {entry : Nat × Row K}
    (hentry : entry ∈ tableau.pivots) {value : Fraction K}
    (hvalue : valueOf unknowns entry.1 entry.2 = .ok value) :
    value.Over (Remains unknowns tableau) := by
  obtain ⟨hover, hzero⟩ := h.pivots entry hentry
  have hremains {a : Fraction K} (ha : a.Over (· ∉ unknowns)) : a.Over (Remains unknowns tableau) :=
    ha.imp fun _ hs => Or.inl hs
  unfold valueOf at hvalue
  obtain ⟨total, htotal, hvalue⟩ := except_bind_eq_ok.1 hvalue
  refine Fraction.Over.canonical ?_ hvalue
  refine except_foldlM (Q := fun acc => acc.Over (Remains unknowns tableau)) ?_
    (hremains hover.rhs) htotal
  intro term hterm before after hbefore hadd
  split at hadd
  · cases hadd
    exact hbefore
  · rename_i hskip
    obtain ⟨product, hproduct, hadd⟩ := except_bind_eq_ok.1 hadd
    have hpair := List.getElem?_zip_eq_some.1 (List.mem_zipIdx_iff_getElem?.1 hterm)
    have hcoeff : term.1.2.Over (Remains unknowns tableau) :=
      hremains (hover.coeffs _ (List.mem_of_getElem? hpair.2))
    have hsymbol : Remains unknowns tableau term.1.1 := by
      refine Or.inr ⟨term.2, hpair.1, fun other hother hcolumn => hskip ?_⟩
      by_cases hown : term.2 = entry.1
      · simp [hown]
      · -- the coefficient in the column of another pivot is zero
        have hclear := hzero other hother (hcolumn ▸ hown)
        unfold Row.at at hclear
        rw [hcolumn, List.getD_eq_getElem?_getD, hpair.2, Option.getD_some] at hclear
        simp [hclear]
    exact hbefore.sub (hcoeff.mul (Fraction.over_ofSymbol hsymbol) hproduct) hadd

/-- A linear system is solved in solved form, and for at least one unknown. -/
theorem solvedForm_solve (hunits : ∀ s ∈ unknowns, s.isUnit = false) (hdistinct : unknowns.Nodup)
    (happlies : applies unknowns polys = true) {tolerance : K} {solution : Solution K}
    (h : solve tolerance unknowns polys = .ok (.solved solution)) :
    SolvedForm (fun _ => True) solution ∧ solution.isEmpty = false := by
  obtain ⟨rows, bound, tableau, hrows, htableau, hsome, hfrom⟩ := exists_tableau_of_solved h
  have hstart : Echelon (· ∉ unknowns) (⟨[], rows⟩ : Tableau K) := by
    refine ⟨List.forall_mem_nil _, fun row hrow => ?_⟩
    obtain ⟨p, hp, hrowOf⟩ := except_mapM_mem hrows row hrow
    exact ⟨over_rowOf happlies hp hrowOf, List.forall_mem_nil _⟩
  have hechelon : Echelon (· ∉ unknowns) tableau :=
    except_foldlM (Q := Echelon (· ∉ unknowns))
      (fun column _ before after hbefore hstep => echelon_step hbefore hstep) hstart htableau
  refine ⟨fun symbol value hvalue => ?_, hsome⟩
  obtain ⟨entry, hentry, hsymbol, hread⟩ := hfrom symbol value hvalue
  refine ⟨hunits symbol (List.mem_of_getElem? hsymbol),
    (over_valueOf hechelon hentry hread).imp fun s hs => ⟨trivial, ?_⟩⟩
  -- the unknown of a column without a pivot has no value, since no unknown has two columns
  cases hother : solution.find? s with
  | none => rfl
  | some taken =>
      obtain ⟨pivot, hpivot, hcolumn, _⟩ := hfrom s taken hother
      rcases hs with hforeign | ⟨i, hi, hfree⟩
      · exact absurd (List.mem_of_getElem? hcolumn) hforeign
      · have hlt := (List.getElem?_eq_some_iff.1 hcolumn).1
        exact absurd ((List.getElem?_inj hlt hdistinct).1 (hcolumn.trans hi.symm))
          (hfree pivot hpivot)

end Solve

end Linear

end Ramify
