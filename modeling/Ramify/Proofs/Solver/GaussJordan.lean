import Ramify.Proofs.Algebra.Generic
import Ramify.Proofs.Solver.Shape

/-!
Gauss-Jordan elimination decides linear systems with numeric coefficients. The rows that are left
hold at the points that solve the system. Those without a pivot say that a number is zero, and each
of the others can be solved for the unknown of its pivot, which occurs in no other. So the system
has a solution exactly if all these numbers are zero, and then the values that are read off describe
all solutions.
-/

namespace Ramify

namespace Linear

variable {K : Type} [ExactScalar K] {unknowns : List Symbol} {polys : List (Polynomial K)}

def keyOf (unknowns : List Symbol) (column : Nat) : Symbol := unknowns.getD column default

/-- A column whose unknown has an earlier one. -/
def Repeated (unknowns : List Symbol) (column : Nat) : Prop :=
  ∃ earlier < column, column < unknowns.length ∧ keyOf unknowns earlier = keyOf unknowns column

/-- A column that is zero in all rows. -/
structure Blank (column : Nat) (tableau : Tableau K) : Prop where
  pivots : ∀ entry ∈ tableau.pivots, (entry.2.at column).isZero = true
  pending : ∀ row ∈ tableau.pending, (row.at column).isZero = true

section Rows

theorem within_of_applies (h : applies unknowns polys = true) {p : Polynomial K} (hp : p ∈ polys)
    (hproper : p.Proper) (hover : p.All (Powers.Over (· ∈ unknowns))) :
    p.Within (· ∈ unknowns) := by
  refine ⟨hproper, fun m hm symbol => ?_, hover⟩
  by_cases hne : m.exponents.get symbol = 0
  · rw [hne]
  · rw [(linear_unknowns h hp hm (hover m hm symbol hne) hne).1]
    exact Int.one_nonneg

/-- A term is put into the first column of its unknown. -/
theorem blank_addTerm {column : Nat} (hrepeated : Repeated unknowns column) {row after : Row K}
    {m : Monomial K} (hrow : (row.at column).isZero = true)
    (hadd : addTerm unknowns row m = .ok after) : (after.at column).isZero = true := by
  unfold addTerm at hadd
  split at hadd
  · rename_i first hfirst
    obtain ⟨sum, _, hadd⟩ := except_bind_eq_ok.1 hadd
    cases hadd
    have hne : column ≠ first := by
      rintro rfl
      obtain ⟨earlier, hearlier, hlt, hsame⟩ := hrepeated
      obtain ⟨_, hdegree, hbefore⟩ := List.findIdx?_eq_some_iff_getElem.1 hfirst
      apply hbefore earlier hearlier
      unfold keyOf at hsame
      rw [List.getD_eq_getElem?_getD, List.getD_eq_getElem?_getD, List.getElem?_eq_getElem hlt,
        List.getElem?_eq_getElem (hearlier.trans hlt), Option.getD_some, Option.getD_some] at hsame
      rw [hsame]
      exact hdegree
    unfold Row.at Row.put
    rw [List.getD_eq_getElem?_getD, List.getElem?_set_ne (Ne.symm hne),
      ← List.getD_eq_getElem?_getD]
    exact hrow
  · obtain ⟨rhs, _, hadd⟩ := except_bind_eq_ok.1 hadd
    cases hadd
    exact hrow

theorem blank_rowOf {column : Nat} (hrepeated : Repeated unknowns column) {p : Polynomial K}
    {row : Row K} (hrow : rowOf unknowns p = .ok row) : (row.at column).isZero = true := by
  refine except_foldlM (Q := fun (row : Row K) => (row.at column).isZero = true)
    (fun _ _ _ _ => blank_addTerm hrepeated) ?_ hrow
  unfold Row.at
  rw [List.getD_eq_getElem?_getD, List.getElem?_map]
  cases unknowns[column]? <;> rfl

/-- The rows of a system are rows of numbers that hold exactly where the system is solved. -/
theorem exists_rows (hlinear : applies unknowns polys = true)
    (hpolys : ∀ p ∈ polys, p.Within (· ∈ unknowns)) :
    ∃ rows, polys.mapM (rowOf unknowns) = .ok rows ∧
      (∀ row ∈ rows, ∀ z, ∃ c r, Tracks z unknowns.length row c r) ∧
      (∀ column, Repeated unknowns column → ∀ row ∈ rows, (row.at column).isZero = true) ∧
      ∀ z, (∀ row ∈ rows, row.HoldsAt z unknowns) ↔ ∀ p ∈ polys, p.value z = 0 := by
  obtain ⟨rows, hrows⟩ : ∃ rows, polys.mapM (rowOf unknowns) = .ok rows := by
    refine except_mapM_total fun p hp => ?_
    obtain ⟨row, _, _, hrow, _⟩ := exists_rowOf (fun _ => 0) hlinear hp (hpolys p hp)
    exact ⟨row, hrow⟩
  have hholds {p : Polynomial K} (hp : p ∈ polys) {row : Row K}
      (hrow : rowOf unknowns p = .ok row) (z : Symbol → K) :
      row.HoldsAt z unknowns ↔ p.value z = 0 := by
    obtain ⟨c, r, htracks, hbalance⟩ := tracks_rowOf hlinear hp (hpolys p hp) hrow
    rw [htracks.holdsAt_iff, hbalance]
  refine ⟨rows, hrows, fun row hrow z => ?_, fun column hrepeated row hrow => ?_, fun z => ?_⟩
  · obtain ⟨p, hp, hread⟩ := except_mapM_mem hrows row hrow
    obtain ⟨c, r, htracks, _⟩ := tracks_rowOf hlinear hp (hpolys p hp) hread
    exact ⟨c, r, htracks⟩
  · obtain ⟨p, _, hread⟩ := except_mapM_mem hrows row hrow
    exact blank_rowOf hrepeated hread
  · constructor
    · intro h p hp
      obtain ⟨row, hrow, hread⟩ := except_mapM_image hrows p hp
      exact (hholds hp hread z).1 (h row hrow)
    · intro h row hrow
      obtain ⟨p, hp, hread⟩ := except_mapM_mem hrows row hrow
      exact (hholds hp hread z).2 (h p hp)

end Rows

section Run

variable {column k : Nat} {tableau after : Tableau K} {rows : List (Row K)}

theorem blank_step (h : Blank column tableau) (hstep : Stepped k tableau after) :
    Blank column after := by
  have hpending : ∀ row ∈ tableau.pending.map (clearNegligible 0 k),
      (row.at column).isZero = true := by
    rw [List.forall_mem_map]
    exact fun row hrow => isZero_clearNegligible 0 k (h.pending row hrow)
  cases hstep with
  | idle => exact ⟨h.pivots, hpending⟩
  | @pivoted row pivot pivots rest others hrows _ hpivot _ hcleared _ hothers =>
      have hzero := isZero_divideBy hpivot (hpending row ((hrows row).2 (Or.inl rfl)))
      refine ⟨fun entry hentry => ?_, fun other hother => ?_⟩
      · rcases List.mem_append.1 hentry with hold | hnew
        · obtain ⟨before, hmem, _, hclear⟩ := hcleared entry hold
          exact isZero_clear hclear (Or.inr ⟨h.pivots before hmem, hzero⟩)
        · rw [List.mem_singleton.1 hnew]
          exact hzero
      · obtain ⟨before, hmem, hclear⟩ := except_mapM_mem hothers other hother
        exact isZero_clear hclear (Or.inr ⟨hpending before ((hrows before).2 (Or.inr hmem)), hzero⟩)

theorem columns_stepped (h : (tableau.pivots.map Prod.fst).Sublist (List.range k))
    (hstep : Stepped k tableau after) :
    (after.pivots.map Prod.fst).Sublist (List.range (k + 1)) := by
  rw [List.range_succ]
  cases hstep with
  | idle => exact h.trans (List.sublist_append_left _ _)
  | pivoted _ _ _ hcolumns =>
      rw [List.map_append, hcolumns]
      exact h.append (List.Sublist.refl _)

/-- What is known of the rows after the elimination of `k` columns. -/
structure Reached (unknowns : List Symbol) (rows : List (Row K)) (k : Nat) (tableau : Tableau K) :
    Prop where
  run : (List.range k).foldlM (step 0) ⟨[], rows⟩ = .ok tableau
  eliminated : ∀ z, Eliminated z unknowns.length k tableau
  holds : ∀ z, tableau.HoldsAt z unknowns ↔ ∀ row ∈ rows, row.HoldsAt z unknowns
  echelon : Echelon (fun _ => True) tableau
  columns : (tableau.pivots.map Prod.fst).Sublist (List.range k)
  blank : ∀ column, Repeated unknowns column → Blank column tableau

/-- Every column can be eliminated. -/
theorem exists_reached (hnumeric : ∀ row ∈ rows, ∀ z, ∃ c r, Tracks z unknowns.length row c r)
    (hblank : ∀ column, Repeated unknowns column → ∀ row ∈ rows, (row.at column).isZero = true)
    {k : Nat} (hk : k ≤ unknowns.length) : ∃ tableau, Reached unknowns rows k tableau := by
  induction k with
  | zero =>
      refine ⟨⟨[], rows⟩, rfl, fun z => ⟨nofun, fun row hrow => ?_⟩, fun z => ?_,
        ⟨nofun, fun row _ => ⟨⟨?_, ?_⟩, nofun⟩⟩, List.Sublist.refl _,
        fun column hcolumn => ⟨nofun, hblank column hcolumn⟩⟩
      · obtain ⟨c, r, htracks⟩ := hnumeric row hrow z
        exact ⟨c, r, htracks, nofun⟩
      · exact ⟨Tableau.HoldsAt.pending, fun h => ⟨nofun, h⟩⟩
      · exact fun a _ => Fraction.over_iff.2 fun _ _ => trivial
      · exact Fraction.over_iff.2 fun _ _ => trivial
  | succ k ih =>
      obtain ⟨tableau, h⟩ := ih (Nat.le_of_succ_le hk)
      obtain ⟨after, hrun, hstep⟩ := exists_step hk (h.eliminated (fun _ => 0))
      refine ⟨after, ?_, fun z => eliminated_step hk (h.eliminated z) hstep, fun z => ?_,
        echelon_step h.echelon hrun, columns_stepped h.columns hstep,
        fun column hcolumn => blank_step (h.blank column hcolumn) hstep⟩
      · rw [List.range_succ, List.foldlM_append, h.run, except_ok_bind, List.foldlM_cons, hrun]
        rfl
      · rw [holdsAt_step hk (h.eliminated z) hstep, h.holds z]

end Run

section Reading

variable {z : Symbol → K} {rows : List (Row K)} {tableau : Tableau K}

theorem Number.isQuantity {a : Fraction K} {x : K} (h : Number z a x) : a.isQuantity = true := by
  rw [Fraction.isQuantity, List.all_eq_true]
  intro symbol hsymbol
  exact (Fraction.over_iff.1 h.within.over symbol hsymbol).elim

/-- Rows of numbers contradict each other if one of their right-hand sides is not zero. -/
theorem residual_cases (hrows : ∀ row ∈ rows, ∃ x, Number z row.rhs x) :
    (residual 0 rows = none ∧ ∀ row ∈ rows, row.rhs.isZero = true) ∨
    ∃ row ∈ rows, row.rhs.isZero = false ∧ residual 0 rows = some (.inconsistent row.rhs) := by
  induction rows with
  | nil => exact Or.inl ⟨rfl, nofun⟩
  | cons row rest ih =>
      obtain ⟨x, hx⟩ := hrows row List.mem_cons_self
      unfold residual
      rw [hx.size]
      dsimp only
      by_cases hzero : row.rhs.isZero = true
      · rw [hzero, Bool.true_or, if_pos rfl]
        rcases ih (fun other hother => hrows other (List.mem_cons_of_mem row hother)) with
          ⟨hnone, hall⟩ | ⟨other, hother, hne, hsome⟩
        · exact Or.inl ⟨hnone, List.forall_mem_cons.2 ⟨hzero, hall⟩⟩
        · exact Or.inr ⟨other, List.mem_cons_of_mem row hother, hne, hsome⟩
      · have hne : ¬|x| ≤ 0 := by
          rw [abs_nonpos_iff, ← hx.isZero_iff]
          exact hzero
        rw [Bool.not_eq_true] at hzero
        rw [hzero, decide_eq_false hne, Bool.or_false, if_neg Bool.false_ne_true, hx.isQuantity,
          if_pos rfl]
        exact Or.inr ⟨row, List.mem_cons_self, hzero, rfl⟩

/-- The column of a pivot is not repeated. -/
theorem Reached.not_repeated (h : Reached unknowns rows unknowns.length tableau)
    {entry : Nat × Row K} (hentry : entry ∈ tableau.pivots) : ¬Repeated unknowns entry.1 := by
  intro hrepeated
  obtain ⟨hlt, c, r, htracks, hone⟩ := (h.eliminated (fun _ => 0)).pivots entry hentry
  have hzero := (htracks.coeffs entry.1 hlt).isZero_iff.1
    ((h.blank entry.1 hrepeated).pivots entry hentry)
  exact one_ne_zero (hone.symm.trans hzero)

/-- Of two columns with the same unknown, the later one is repeated. -/
theorem eq_of_keyOf_eq {i j : Nat} (hi : i < unknowns.length) (hj : j < unknowns.length)
    (hfirst : ¬Repeated unknowns i) (hsecond : ¬Repeated unknowns j)
    (hkey : keyOf unknowns i = keyOf unknowns j) : i = j := by
  rcases Nat.lt_trichotomy i j with hlt | heq | hlt
  · exact absurd ⟨i, hlt, hj, hkey⟩ hsecond
  · exact heq
  · exact absurd ⟨j, hlt, hi, hkey.symm⟩ hfirst

/-- No unknown has two pivots. -/
theorem Reached.nodup_keys (h : Reached unknowns rows unknowns.length tableau) :
    (tableau.pivots.map (fun entry => keyOf unknowns entry.1)).Nodup := by
  have hcolumns : (tableau.pivots.map Prod.fst).Nodup := h.columns.nodup List.nodup_range
  have hkeys := hcolumns.map_on (f := keyOf unknowns) (by
    intro i hi j hj hkey
    obtain ⟨first, hfirst, rfl⟩ := List.mem_map.1 hi
    obtain ⟨second, hsecond, rfl⟩ := List.mem_map.1 hj
    have hlt := ((h.eliminated (fun _ => 0)).pivots first hfirst).1
    have hlt' := ((h.eliminated (fun _ => 0)).pivots second hsecond).1
    exact eq_of_keyOf_eq hlt hlt' (h.not_repeated hfirst) (h.not_repeated hsecond) hkey)
  rw [List.map_map] at hkeys
  exact hkeys

/-- The values that are read off, one for each pivot. -/
theorem exists_readings {entries : List (Nat × Row K)}
    (hvalues : ∀ entry ∈ entries, ∃ value, valueOf unknowns entry.1 entry.2 = .ok value)
    (hkeys : (entries.map (fun entry => keyOf unknowns entry.1)).Nodup) (start : Solution K) :
    ∃ solution, readOff unknowns entries start = .ok solution ∧
      ∀ key value, solution.find? key = some value ↔
        (∃ entry ∈ entries, keyOf unknowns entry.1 = key ∧
          valueOf unknowns entry.1 entry.2 = .ok value) ∨
        ((∀ entry ∈ entries, keyOf unknowns entry.1 ≠ key) ∧ start.find? key = some value) := by
  induction entries generalizing start with
  | nil => exact ⟨start, rfl, fun key value => by simp⟩
  | cons first rest ih =>
      obtain ⟨found, hfound⟩ := hvalues first List.mem_cons_self
      rw [List.map_cons, List.nodup_cons] at hkeys
      obtain ⟨hfresh, hkeys⟩ := hkeys
      obtain ⟨solution, hrun, hfind⟩ :=
        ih (fun entry hentry => hvalues entry (List.mem_cons_of_mem first hentry)) hkeys
          (start.insert (keyOf unknowns first.1) found)
      refine ⟨solution, ?_, fun key value => ?_⟩
      · rw [readOff, List.foldlM_cons, hfound]
        exact hrun
      · rw [hfind, SortedMap.find?_insert]
        by_cases hsame : keyOf unknowns first.1 = key
        · have hothers : ∀ entry ∈ rest, keyOf unknowns entry.1 ≠ key := by
            intro entry hentry hkey
            exact hfresh (List.mem_map.2 ⟨entry, hentry, hkey.trans hsame.symm⟩)
          rw [if_pos hsame]
          constructor
          · rintro (⟨entry, hentry, hkey, _⟩ | ⟨_, heq⟩)
            · exact absurd hkey (hothers entry hentry)
            · cases heq
              exact Or.inl ⟨first, List.mem_cons_self, hsame, hfound⟩
          · rintro (⟨entry, hentry, hkey, hvalue⟩ | ⟨hnone, _⟩)
            · rcases List.mem_cons.1 hentry with rfl | hentry
              · rw [hfound] at hvalue
                cases hvalue
                exact Or.inr ⟨hothers, rfl⟩
              · exact absurd hkey (hothers entry hentry)
            · exact absurd hsame (hnone first List.mem_cons_self)
        · rw [if_neg hsame]
          simp [hsame]

/-- A pivot row holds where its unknown has the value that is read off. -/
theorem Reached.holdsAt_pivot_iff (h : Reached unknowns rows unknowns.length tableau)
    {entry : Nat × Row K} (hentry : entry ∈ tableau.pivots) {value : Fraction K}
    (hvalue : valueOf unknowns entry.1 entry.2 = .ok value) (z : Symbol → K) :
    entry.2.HoldsAt z unknowns ↔ value.HasValue z (z (keyOf unknowns entry.1)) := by
  obtain ⟨hlt, c, r, htracks, hone⟩ := (h.eliminated z).pivots entry hentry
  obtain ⟨value', hvalue', hat, _⟩ := exists_valueOf hlt htracks hone
  rw [hvalue] at hvalue'
  cases hvalue'
  rw [htracks.holdsAt_iff]
  constructor
  · intro hbalance
    rw [hbalance, sub_zero] at hat
    exact hat
  · intro hown
    exact sub_eq_self.1 (hat.unique hown)

/-- The values that are read off describe the points at which all rows hold. -/
theorem Reached.exists_solution (h : Reached unknowns rows unknowns.length tableau)
    (hpending : ∀ row ∈ tableau.pending, row.rhs.isZero = true) :
    ∃ solution, readOff unknowns tableau.pivots ∅ = .ok solution ∧
      ∀ z, tableau.HoldsAt z unknowns ↔
        ∀ key value, solution.find? key = some value → value.HasValue z (z key) := by
  have hvalues : ∀ entry ∈ tableau.pivots,
      ∃ value, valueOf unknowns entry.1 entry.2 = .ok value := by
    intro entry hentry
    obtain ⟨hlt, c, r, htracks, hone⟩ := (h.eliminated (fun _ => 0)).pivots entry hentry
    obtain ⟨value, hvalue, _⟩ := exists_valueOf hlt htracks hone
    exact ⟨value, hvalue⟩
  obtain ⟨solution, hrun, hfind⟩ := exists_readings hvalues h.nodup_keys ∅
  refine ⟨solution, hrun, fun z => ⟨fun hholds key value hvalue => ?_, fun hdescribed => ?_⟩⟩
  · rcases (hfind key value).1 hvalue with ⟨entry, hentry, rfl, hread⟩ | ⟨_, hnone⟩
    · exact (h.holdsAt_pivot_iff hentry hread z).1 (hholds.pivots entry hentry)
    · cases hnone
  · refine ⟨fun entry hentry => ?_, fun row hrow => ?_⟩
    · obtain ⟨value, hread⟩ := hvalues entry hentry
      exact (h.holdsAt_pivot_iff hentry hread z).2
        (hdescribed _ value ((hfind _ value).2 (Or.inl ⟨entry, hentry, rfl, hread⟩)))
    · obtain ⟨c, r, htracks, hzeros⟩ := (h.eliminated z).pending row hrow
      exact (htracks.holdsAt_iff_rhs hzeros).2 (hpending row hrow)

/-- Unless the rows without a pivot contradict each other, all rows hold where the unknowns without
a pivot are zero and the others are the right-hand sides of their rows. -/
theorem Reached.exists_point (h : Reached unknowns rows unknowns.length tableau)
    (hpending : ∀ row ∈ tableau.pending, row.rhs.isZero = true) :
    ∃ z, tableau.HoldsAt z unknowns := by
  have hvalue (symbol : Symbol) : ∃ x : K,
      (∀ entry ∈ tableau.pivots, keyOf unknowns entry.1 = symbol →
        Number (fun _ => 0) entry.2.rhs x) ∧
      ((∀ entry ∈ tableau.pivots, keyOf unknowns entry.1 ≠ symbol) → x = 0) := by
    by_cases hkey : ∃ entry ∈ tableau.pivots, keyOf unknowns entry.1 = symbol
    · obtain ⟨entry, hentry, hsymbol⟩ := hkey
      obtain ⟨_, c, r, htracks, _⟩ := (h.eliminated (fun _ => 0)).pivots entry hentry
      refine ⟨r, fun other hother hsame => ?_, fun hnone => absurd hsymbol (hnone entry hentry)⟩
      rw [List.inj_on_of_nodup_map h.nodup_keys hother hentry (hsame.trans hsymbol.symm)]
      exact htracks.rhs
    · exact ⟨0, fun entry hentry hsymbol => absurd ⟨entry, hentry, hsymbol⟩ hkey, fun _ => rfl⟩
  choose z hpivots hfree using hvalue
  refine ⟨z, fun entry hentry => ?_, fun row hrow => ?_⟩
  · obtain ⟨hlt, c, r, htracks, hone⟩ := (h.eliminated (fun _ => 0)).pivots entry hentry
    have hown : z (keyOf unknowns entry.1) = r :=
      (hpivots _ entry hentry rfl).unique htracks.rhs
    -- an unknown with another pivot does not occur in this row
    have hothers (i : Nat) (hi : i < unknowns.length) (hne : i ≠ entry.1) :
        c i * z (keyOf unknowns i) = 0 := by
      by_cases hkey : ∃ other ∈ tableau.pivots, keyOf unknowns other.1 = keyOf unknowns i
      · obtain ⟨other, hother, hkey⟩ := hkey
        have hzero : (entry.2.at i).isZero = true := by
          by_cases hrepeated : Repeated unknowns i
          · exact (h.blank i hrepeated).pivots entry hentry
          · have hcolumn := eq_of_keyOf_eq ((h.eliminated (fun _ => 0)).pivots other hother).1 hi
              (h.not_repeated hother) hrepeated hkey
            subst hcolumn
            exact (h.echelon.pivots entry hentry).2 other hother hne
        rw [(htracks.coeffs i hi).isZero_iff.1 hzero, zero_mul]
      · push Not at hkey
        rw [hfree _ hkey, mul_zero]
    have hsum : ∑ i ∈ Finset.range unknowns.length, c i * columnValue z unknowns i = r := by
      rw [Finset.sum_eq_single entry.1]
      · rw [hone, one_mul]
        exact hown
      · exact fun i hi hne => hothers i (Finset.mem_range.1 hi) hne
      · exact fun hout => absurd (Finset.mem_range.2 hlt) hout
    rw [(htracks.anywhere z).holdsAt_iff, balance, hsum, sub_self]
  · obtain ⟨c, r, htracks, hzeros⟩ := (h.eliminated z).pending row hrow
    exact (htracks.holdsAt_iff_rhs hzeros).2 (hpending row hrow)

end Reading

section Solve

/-- A system of polynomials in the unknowns alone is found to be inconsistent if it has no solution,
and solved otherwise. -/
theorem solve_cases (hlinear : applies unknowns polys = true) (hne : polys ≠ [])
    (hpolys : ∀ p ∈ polys, p.isZero = false ∧ p.Within (· ∈ unknowns)) :
    (∃ residue, solve 0 unknowns polys = .ok (.inconsistent residue) ∧
      ¬∃ z : Symbol → K, ∀ p ∈ polys, p.value z = 0) ∨
    ∃ solution, solve 0 unknowns polys = .ok (.solved solution) ∧
      (∃ z : Symbol → K, ∀ p ∈ polys, p.value z = 0) ∧
      ∀ z : Symbol → K, (∀ p ∈ polys, p.value z = 0) ↔
        ∀ key value, solution.find? key = some value → value.HasValue z (z key) := by
  obtain ⟨rows, hrows, hnumeric, hblank, hsolved⟩ :=
    exists_rows hlinear (fun p hp => (hpolys p hp).2)
  obtain ⟨tableau, h⟩ := exists_reached hnumeric hblank (Nat.le_refl _)
  have hholds (z : Symbol → K) : tableau.HoldsAt z unknowns ↔ ∀ p ∈ polys, p.value z = 0 := by
    rw [h.holds z, hsolved z]
  have hrhs (row : Row K) (hrow : row ∈ tableau.pending) : ∃ x, Number (fun _ => 0) row.rhs x := by
    obtain ⟨c, r, htracks, _⟩ := (h.eliminated (fun _ => 0)).pending row hrow
    exact ⟨r, htracks.rhs⟩
  unfold solve
  rw [hrows, except_ok_bind]
  dsimp only
  rw [zero_mul, zero_mul, h.run, except_ok_bind]
  rcases residual_cases hrhs with ⟨hnone, hpending⟩ | ⟨row, hrow, hnonzero, hsome⟩
  · obtain ⟨solution, hsolution, hdescribes⟩ := h.exists_solution hpending
    obtain ⟨z, hz⟩ := h.exists_point hpending
    have hpivots : tableau.pivots.isEmpty = false := by
      -- without a pivot every point would be a solution
      rw [Bool.eq_false_iff]
      intro hempty
      obtain ⟨p, hp⟩ := List.exists_mem_of_ne_nil polys hne
      obtain ⟨hnonzero, hwithin⟩ := hpolys p hp
      have : Infinite K := CharZero.infinite K
      obtain ⟨w, hw⟩ := Polynomial.exists_value_ne_zero hwithin.proper hwithin.natural hnonzero
      refine hw ((hholds w).1 ⟨?_, fun row hrow => ?_⟩ p hp)
      · rw [List.isEmpty_iff.1 hempty]
        nofun
      · obtain ⟨c, r, htracks, hzeros⟩ := (h.eliminated w).pending row hrow
        exact (htracks.holdsAt_iff_rhs hzeros).2 (hpending row hrow)
    right
    refine ⟨solution, ?_, ⟨z, (hholds z).1 hz⟩, fun z => ?_⟩
    · rw [hnone]
      dsimp only
      rw [hpivots, if_neg Bool.false_ne_true]
      exact except_bind_eq_ok.2 ⟨solution, hsolution, rfl⟩
    · rw [← hholds z, hdescribes z]
  · left
    refine ⟨row.rhs, by rw [hsome]; rfl, ?_⟩
    rintro ⟨z, hz⟩
    obtain ⟨c, r, htracks, hzeros⟩ := (h.eliminated z).pending row hrow
    have hzero := (htracks.holdsAt_iff_rhs hzeros).1 (((hholds z).2 hz).pending row hrow)
    rw [hzero] at hnonzero
    cases hnonzero

end Solve

end Linear

namespace Solver

variable {K : Type} [ExactScalar K]

/-- A linear system in the unknowns alone gets a definite answer: there is no solution if it has
none, and otherwise there is one candidate, which describes exactly its solutions. -/
theorem linearAnswer_describes_the_solutions (settings : SolverSettings K)
    (hsettings : settings.zeroTolerance = 0) (unknowns : List Symbol) (polys : List (Polynomial K))
    (hne : polys ≠ [])
    (hpolys : ∀ p ∈ polys, p.isZero = false ∧ p.Proper ∧ p.All (Powers.Over (· ∈ unknowns)))
    (hlinear : Linear.applies unknowns polys = true) (state : SolverState) :
    ∃ answer after, outcome (linearAnswer settings unknowns polys) state = (.ok answer, after) ∧
      (answer = .noSolution ↔ ¬∃ z : Symbol → K, ∀ p ∈ polys, p.value z = 0) ∧
      answer ≠ .indeterminate ∧
      (answer ≠ .noSolution → ∃ candidate, answer = .solved [candidate] ∧
        ∀ z : Symbol → K, (∀ p ∈ polys, p.value z = 0) ↔
          ∀ key value, candidate.find? key = some value → value.HasValue z (z key)) := by
  unfold linearAnswer
  rw [hsettings]
  rcases Linear.solve_cases hlinear hne (fun p hp => ⟨(hpolys p hp).1,
    Linear.within_of_applies hlinear hp (hpolys p hp).2.1 (hpolys p hp).2.2⟩) with
    ⟨residue, hsolve, hunsolvable⟩ | ⟨solution, hsolve, hsolvable, hdescribes⟩
  · rw [hsolve]
    have hrun : ∃ after, outcome (do
        if settings.verbose then
          Elimination.tell
            ("  [PolynomialOracle] Inconsistent linear system: 0 = " ++ residue.text 6)
        pure .noSolution : SolverAction K (Answer K)) state = (.ok .noSolution, after) := by
      split
      · exact ⟨_, rfl⟩
      · exact ⟨_, rfl⟩
    obtain ⟨after, hrun⟩ := hrun
    exact ⟨.noSolution, after, hrun, ⟨fun _ => hunsolvable, fun _ => rfl⟩, nofun,
      fun hnone => absurd rfl hnone⟩
  · rw [hsolve]
    refine ⟨.solved [solution], state, rfl, ⟨nofun, fun hnone => absurd hsolvable hnone⟩, nofun,
      fun _ => ⟨solution, rfl, hdescribes⟩⟩

section Instances

/-- The sum of two numbers is three, and so is half of twice that sum. -/
def dependentSums : List (Polynomial Rat) :=
  let sum : Polynomial Rat := .ofSymbol ⟨"x", false⟩ + .ofSymbol ⟨"y", false⟩ - .const 3
  [sum, sum + sum]

/-- One of the numbers stays free. -/
theorem dependent_sums_are_described :
    let unknowns : List Symbol := [⟨"x", false⟩, ⟨"y", false⟩]
    let candidate : Solution Rat :=
      .single ⟨"x", false⟩ ⟨.const 3 - .ofSymbol ⟨"y", false⟩, 1⟩
    (outcome (linearAnswer Rational.settings unknowns dependentSums) (start 42)).1 =
      .ok (.solved [candidate]) ∧
    ∀ z : Symbol → Rat, (∀ p ∈ dependentSums, p.value z = 0) ↔
      ∀ key value, candidate.find? key = some value → value.HasValue z (z key) := by
  intro unknowns candidate
  have hcandidates : candidatesOf
      (outcome (linearAnswer Rational.settings unknowns dependentSums) (start 42)).1 =
        [candidate] := by decide +kernel
  have hanswer := eq_solved (hcandidates ▸ List.cons_ne_nil _ _)
  rw [hcandidates] at hanswer
  obtain ⟨answer, after, hrun, _, _, hdescribes⟩ := linearAnswer_describes_the_solutions
    Rational.settings rfl unknowns dependentSums (List.cons_ne_nil _ _)
    (by decide +kernel) (by decide +kernel) (start 42)
  refine ⟨hanswer, ?_⟩
  rw [hrun] at hanswer
  cases hanswer
  obtain ⟨found, heq, hsolutions⟩ := hdescribes nofun
  cases heq
  exact hsolutions

end Instances

end Solver

end Ramify
