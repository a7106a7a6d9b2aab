import Ramify.Proofs.Solver.Elimination
import Ramify.Proofs.Solver.Tableau

/-!
Gauss-Jordan elimination over exact numbers, for systems in the unknowns alone. At a point where all
polynomials vanish every row holds, and each step keeps it so. In the end the rows without a pivot
say that zero is zero, and each of the others gives its unknown the value that it has at the point.
-/

namespace Ramify.Linear

open Elimination (Vanishes)

variable {K : Type} [ExactScalar K] {z : Symbol → K}

section Reading

variable {unknowns : List Symbol} {polys : List (Polynomial K)}

omit [ExactScalar K] in
private theorem le_foldl_add (degrees : List Int) (start : Int) (h : ∀ d ∈ degrees, 0 ≤ d) :
    start ≤ degrees.foldl (· + ·) start := by
  induction degrees generalizing start with
  | nil => exact le_refl _
  | cons d rest ih =>
      have hd := h d List.mem_cons_self
      have hrest := ih (start + d) (fun e he => h e (List.mem_cons_of_mem d he))
      rw [List.foldl_cons]
      omega

/-- A term of a linear system is a number, or a number times one unknown. -/
theorem linear_term (h : applies unknowns polys = true) {p : Polynomial K} (hp : p ∈ polys)
    (hwithin : p.Within (· ∈ unknowns)) {m : Monomial K} (hm : m ∈ p.terms) :
    m.exponents = ∅ ∨ ∃ s ∈ unknowns, ∀ t, m.exponents.get t = if s = t then 1 else 0 := by
  have hterm := List.all_eq_true.1 (List.all_eq_true.1 h p hp) m hm
  have hfilter : m.exponents.entries.filter (fun entry => unknowns.contains entry.1) =
      m.exponents.entries := by
    apply List.filter_eq_self.2
    intro entry hentry
    obtain ⟨hget, hne⟩ := (Powers.mem_entries_iff m.exponents entry).1 hentry
    exact List.contains_iff_mem.2 (hwithin.over m hm entry.1 (hget ▸ hne))
  simp only [hfilter, Bool.and_eq_true, decide_eq_true_eq, List.all_eq_true] at hterm
  have hpositive (entry : Symbol × Int) (hentry : entry ∈ m.exponents.entries) : 1 ≤ entry.2 := by
    obtain ⟨hget, hne⟩ := (Powers.mem_entries_iff m.exponents entry).1 hentry
    have hnatural := hwithin.natural m hm entry.1
    omega
  cases hentries : m.exponents.entries with
  | nil =>
      left
      apply Powers.ext_get
      intro s
      by_contra hne
      have hmem := (Powers.mem_entries_iff m.exponents (s, m.exponents.get s)).2 ⟨rfl, hne⟩
      rw [hentries] at hmem
      cases hmem
  | cons first rest =>
      right
      rw [hentries] at hterm hpositive
      have hfirst := hpositive first List.mem_cons_self
      have hrest : rest = [] := by
        cases rest with
        | nil => rfl
        | cons second more =>
            have hsecond := hpositive second (List.mem_cons_of_mem _ List.mem_cons_self)
            have hmore := le_foldl_add (more.map Prod.snd) (0 + first.2 + second.2) (by
              intro d hd
              obtain ⟨entry, hentry, rfl⟩ := List.mem_map.1 hd
              have hone := hpositive entry
                (List.mem_cons_of_mem _ (List.mem_cons_of_mem _ hentry))
              omega)
            have htotal := hterm.2
            rw [List.map_cons, List.map_cons, List.foldl_cons, List.foldl_cons] at htotal
            omega
      have hone : first.2 = 1 := by
        have htotal := hterm.2
        rw [hrest, List.map_singleton, List.foldl_cons, List.foldl_nil] at htotal
        omega
      have hmem : first ∈ m.exponents.entries := hentries ▸ List.mem_cons_self
      have hget := ((Powers.mem_entries_iff m.exponents first).1 hmem).1
      refine ⟨first.1, hwithin.over m hm first.1 (by omega), ?_⟩
      intro t
      split
      · rename_i hsame
        rw [← hsame, hget, hone]
      · rename_i hother
        by_contra hne
        have hthere := (Powers.mem_entries_iff m.exponents (t, m.exponents.get t)).2 ⟨rfl, hne⟩
        rw [hentries, hrest] at hthere
        exact hother (congrArg Prod.fst (List.mem_singleton.1 hthere)).symm

/-- A term is added to the row it belongs to. -/
theorem exists_addTerm (h : applies unknowns polys = true) {p : Polynomial K} (hp : p ∈ polys)
    (hwithin : p.Within (· ∈ unknowns)) {m : Monomial K} (hm : m ∈ p.terms) {row : Row K}
    {c : Nat → K} {r : K} (hrow : Tracks z unknowns.length row c r) :
    ∃ after c' r', addTerm unknowns row m = .ok after ∧ Tracks z unknowns.length after c' r' ∧
      balance (columnValue z unknowns) unknowns.length c' r' =
        balance (columnValue z unknowns) unknowns.length c r + m.value z := by
  unfold addTerm
  rcases linear_term h hp hwithin hm with hempty | ⟨s, hs, hget⟩
  · have hnone : unknowns.findIdx? (fun symbol => m.degree symbol == 1) = none := by
      rw [List.findIdx?_eq_none_iff]
      intro symbol _
      unfold Monomial.degree
      rw [hempty]
      rfl
    rw [hnone]
    have hmonomial : m = ⟨m.coeff, ∅⟩ := by rw [← hempty]
    have hnumber : Number z (.ofMonomial m) m.coeff := by
      rw [hmonomial]
      exact Number.ofMonomial m.coeff
    obtain ⟨rhs, hrhs, _⟩ := Fraction.hasValue_sub hrow.rhs.value hnumber.value
    refine ⟨{ row with rhs := rhs }, c, r - m.coeff, except_bind_eq_ok.2 ⟨rhs, hrhs, rfl⟩,
      ⟨hrow.length, hrow.coeffs, hrow.rhs.sub hnumber hrhs⟩, ?_⟩
    have hvalue : m.value z = m.coeff := by
      unfold Monomial.value
      rw [hempty, Powers.value_one, mul_one]
    unfold balance
    rw [hvalue]
    ring
  · have hsome : ∃ column, unknowns.findIdx? (fun symbol => m.degree symbol == 1) = some column ∧
        column < unknowns.length ∧ unknowns.getD column default = s := by
      cases hfind : unknowns.findIdx? (fun symbol => m.degree symbol == 1) with
      | none =>
          rw [List.findIdx?_eq_none_iff] at hfind
          have hdegree := hfind s hs
          unfold Monomial.degree at hdegree
          rw [hget, if_pos rfl] at hdegree
          cases hdegree
      | some column =>
          obtain ⟨hlt, hdegree, _⟩ := List.findIdx?_eq_some_iff_getElem.1 hfind
          refine ⟨column, rfl, hlt, ?_⟩
          have hone : m.exponents.get unknowns[column] = 1 := eq_of_beq hdegree
          rw [hget] at hone
          rw [List.getD_eq_getElem?_getD, List.getElem?_eq_getElem hlt, Option.getD_some]
          split at hone
          · rename_i hsame
            exact hsame.symm
          · cases hone
    obtain ⟨column, hcolumn, hlt, hsymbol⟩ := hsome
    have herase : m.exponents.erase s = ∅ := by
      apply Powers.ext_get
      intro t
      rw [Powers.get_erase, hget]
      split <;> rfl
    rw [hcolumn]
    dsimp only
    rw [hsymbol, herase]
    have hterm : Number z (.ofMonomial ⟨m.coeff, ∅⟩) m.coeff := .ofMonomial m.coeff
    obtain ⟨sum, hsum, _⟩ := Fraction.hasValue_add (hrow.coeffs column hlt).value hterm.value
    have hnumber := (hrow.coeffs column hlt).add hterm hsum
    refine ⟨row.put column sum, _, r, except_bind_eq_ok.2 ⟨sum, hsum, rfl⟩,
      hrow.put hlt hnumber, ?_⟩
    have hvalue : m.value z = m.coeff * columnValue z unknowns column := by
      unfold Monomial.value columnValue
      rw [Powers.value_erase z m.exponents s, herase, Powers.value_one, hget, if_pos rfl, zpow_one,
        one_mul, hsymbol]
    rw [balance_update _ hlt, hvalue]

/-- The row of a polynomial is a row of numbers, and its balance is the value of the polynomial. -/
theorem exists_rowOf (z : Symbol → K) (h : applies unknowns polys = true) {p : Polynomial K}
    (hp : p ∈ polys) (hwithin : p.Within (· ∈ unknowns)) :
    ∃ row c r, rowOf unknowns p = .ok row ∧ Tracks z unknowns.length row c r ∧
      balance (columnValue z unknowns) unknowns.length c r = p.value z := by
  have hfold (terms : List (Monomial K)) (hterms : ∀ m ∈ terms, m ∈ p.terms) (start : Row K)
      (c : Nat → K) (r : K) (hstart : Tracks z unknowns.length start c r) :
      ∃ last c' r', terms.foldlM (addTerm unknowns) start = .ok last ∧
        Tracks z unknowns.length last c' r' ∧
        balance (columnValue z unknowns) unknowns.length c' r' =
          balance (columnValue z unknowns) unknowns.length c r +
            (terms.map (Monomial.value z)).sum := by
    induction terms generalizing start c r with
    | nil => exact ⟨start, c, r, rfl, hstart, by simp⟩
    | cons m rest ih =>
        obtain ⟨middle, c', r', hmiddle, htracks, hbalance⟩ :=
          exists_addTerm h hp hwithin (hterms m List.mem_cons_self) hstart
        obtain ⟨last, c'', r'', hrun, hlast, hbalance'⟩ :=
          ih (fun k hk => hterms k (List.mem_cons_of_mem m hk)) middle c' r' htracks
        refine ⟨last, c'', r'', ?_, hlast, ?_⟩
        · rw [List.foldlM_cons, hmiddle]
          exact hrun
        · rw [hbalance', hbalance, List.map_cons, List.sum_cons, add_assoc]
  have hzeros : Tracks z unknowns.length ⟨unknowns.map (fun _ => .zero), .zero⟩ (fun _ => 0) 0 := by
    refine ⟨List.length_map _, ?_, Number.zero z⟩
    intro i hi
    have hat : (Row.mk (unknowns.map (fun _ => (.zero : Fraction K))) .zero).at i = .zero := by
      unfold Row.at
      rw [List.getD_eq_getElem?_getD, List.getElem?_map]
      cases unknowns[i]? <;> rfl
    rw [hat]
    exact Number.zero z
  obtain ⟨row, c, r, hrow, htracks, hbalance⟩ := hfold p.terms (fun _ hm => hm) _ _ _ hzeros
  refine ⟨row, c, r, hrow, htracks, ?_⟩
  rw [hbalance]
  unfold balance
  simp
  rfl

theorem tracks_rowOf (h : applies unknowns polys = true) {p : Polynomial K} (hp : p ∈ polys)
    (hwithin : p.Within (· ∈ unknowns)) {row : Row K} (hrow : rowOf unknowns p = .ok row) :
    ∃ c r, Tracks z unknowns.length row c r ∧
      balance (columnValue z unknowns) unknowns.length c r = p.value z := by
  obtain ⟨row', c, r, hrow', htracks, hbalance⟩ := exists_rowOf z h hp hwithin
  rw [hrow] at hrow'
  cases hrow'
  exact ⟨c, r, htracks, hbalance⟩

end Reading

section Solve

variable {unknowns : List Symbol} {polys : List (Polynomial K)}

/-- The rows after the elimination of `k` columns, at a point where the system vanishes. -/
structure Reduced (z : Symbol → K) (unknowns : List Symbol) (k : Nat) (tableau : Tableau K) :
    Prop where
  pivots : ∀ entry ∈ tableau.pivots,
    entry.1 < k ∧ ∃ c, Holds z unknowns entry.2 c ∧ c entry.1 = 1
  pending : ∀ row ∈ tableau.pending, ∃ c, Holds z unknowns row c ∧ ∀ j < k, c j = 0

theorem reduced_iff {k : Nat} {tableau : Tableau K} :
    Reduced z unknowns k tableau ↔
      Eliminated z unknowns.length k tableau ∧ tableau.HoldsAt z unknowns := by
  constructor
  · intro h
    refine ⟨⟨fun entry hentry => ?_, fun row hrow => ?_⟩,
      ⟨fun entry hentry => ?_, fun row hrow => ?_⟩⟩
    · obtain ⟨hlt, c, ⟨r, htracks, _⟩, hone⟩ := h.pivots entry hentry
      exact ⟨hlt, c, r, htracks, hone⟩
    · obtain ⟨c, ⟨r, htracks, _⟩, hzeros⟩ := h.pending row hrow
      exact ⟨c, r, htracks, hzeros⟩
    · obtain ⟨_, c, hholds, _⟩ := h.pivots entry hentry
      exact ⟨c, hholds⟩
    · obtain ⟨c, hholds, _⟩ := h.pending row hrow
      exact ⟨c, hholds⟩
  · rintro ⟨heliminated, hholds⟩
    refine ⟨fun entry hentry => ?_, fun row hrow => ?_⟩
    · obtain ⟨hlt, c, r, htracks, hone⟩ := heliminated.pivots entry hentry
      exact ⟨hlt, c, ⟨r, htracks, htracks.holdsAt_iff.1 (hholds.pivots entry hentry)⟩, hone⟩
    · obtain ⟨c, r, htracks, hzeros⟩ := heliminated.pending row hrow
      exact ⟨c, ⟨r, htracks, htracks.holdsAt_iff.1 (hholds.pending row hrow)⟩, hzeros⟩

/-- One column is eliminated. -/
theorem reduced_step {k : Nat} (hk : k < unknowns.length) {tableau after : Tableau K}
    (h : Reduced z unknowns k tableau) (hrun : step 0 tableau k = .ok after) :
    Reduced z unknowns (k + 1) after := by
  obtain ⟨heliminated, hholds⟩ := reduced_iff.1 h
  have hstepped := stepped_of_step hk heliminated hrun
  exact reduced_iff.2 ⟨eliminated_step hk heliminated hstepped,
    (holdsAt_step hk heliminated hstepped).2 hholds⟩

/-- All columns are eliminated. -/
theorem reduced_steps {rows : List (Row K)} (hrows : ∀ row ∈ rows, ∃ c, Holds z unknowns row c)
    {tableau : Tableau K}
    (hrun : (List.range unknowns.length).foldlM (step 0) ⟨[], rows⟩ = .ok tableau) :
    Reduced z unknowns unknowns.length tableau := by
  have hfold (n : Nat) (hn : n ≤ unknowns.length) (last : Tableau K)
      (hlast : (List.range n).foldlM (step 0) ⟨[], rows⟩ = .ok last) :
      Reduced z unknowns n last := by
    induction n generalizing last with
    | zero =>
        cases hlast
        refine ⟨nofun, fun row hrow => ?_⟩
        obtain ⟨c, hc⟩ := hrows row hrow
        exact ⟨c, hc, nofun⟩
    | succ n ih =>
        rw [List.range_succ, List.foldlM_append] at hlast
        obtain ⟨middle, hmiddle, hlast⟩ := except_bind_eq_ok.1 hlast
        rw [List.foldlM_cons] at hlast
        obtain ⟨last', hstep, hlast⟩ := except_bind_eq_ok.1 hlast
        cases hlast
        exact reduced_step hn (ih (Nat.le_of_succ_le hn) middle hmiddle) hstep
  exact hfold unknowns.length (le_refl _) tableau hrun

/-- A row all of whose coefficients are zero says that zero is zero. -/
theorem residual_reduced {tableau : Tableau K} (h : Reduced z unknowns unknowns.length tableau)
    (bound : K) : residual bound tableau.pending = none := by
  have hall (rows : List (Row K)) (hrows : ∀ row ∈ rows, row ∈ tableau.pending) :
      residual bound rows = none := by
    induction rows with
    | nil => rfl
    | cons row rest ih =>
        obtain ⟨c, ⟨r, htracks, hbalance⟩, hzeros⟩ := h.pending row (hrows row List.mem_cons_self)
        have hrhs := (htracks.holdsAt_iff_rhs hzeros).1 ⟨c, r, htracks, hbalance⟩
        unfold residual
        dsimp only
        rw [hrhs, Bool.true_or, if_pos rfl]
        exact ih (fun other hother => hrows other (List.mem_cons_of_mem row hother))
  exact hall tableau.pending (fun _ hrow => hrow)

/-- The terms with the other unknowns are subtracted one by one. -/
theorem exists_subTerms {P : Symbol → Prop} {c x : Nat → K} (column : Nat)
    (entries : List ((Symbol × Fraction K) × Nat))
    (hentries : ∀ entry ∈ entries,
      Number z entry.1.2 (c entry.2) ∧ z entry.1.1 = x entry.2 ∧ P entry.1.1)
    {start : Fraction K} {v : K} (hstart : start.HasValue z v) (hover : start.Over P) :
    ∃ last, entries.foldlM (fun (acc : Fraction K) entry =>
        if entry.2 == column || entry.1.2.isZero then pure acc
        else do acc.sub (← entry.1.2.mul (.ofSymbol entry.1.1))) start = .ok last ∧
      last.HasValue z (v - (entries.map (fun entry =>
        if entry.2 = column then 0 else c entry.2 * x entry.2)).sum) ∧ last.Over P := by
  induction entries generalizing start v with
  | nil =>
      refine ⟨start, rfl, ?_, hover⟩
      rw [List.map_nil, List.sum_nil, sub_zero]
      exact hstart
  | cons entry rest ih =>
      obtain ⟨hnumber, hsymbol, hoccurs⟩ := hentries entry List.mem_cons_self
      have hstep : ∃ middle, (if entry.2 == column || entry.1.2.isZero then pure start
            else do start.sub (← entry.1.2.mul (.ofSymbol entry.1.1)) :
              Except AlgebraError (Fraction K)) = .ok middle ∧
          middle.HasValue z (v - if entry.2 = column then 0 else c entry.2 * x entry.2) ∧
          middle.Over P := by
        split
        · rename_i hskip
          rw [Bool.or_eq_true, beq_iff_eq, hnumber.isZero_iff] at hskip
          have hnothing : (if entry.2 = column then 0 else c entry.2 * x entry.2) = 0 := by
            rcases hskip with hsame | hzero
            · exact if_pos hsame
            · rw [hzero, zero_mul, ite_self]
          rw [hnothing, sub_zero]
          exact ⟨start, rfl, hstart, hover⟩
        · rename_i htake
          rw [Bool.or_eq_true, beq_iff_eq, not_or] at htake
          obtain ⟨product, hproduct, hproductValue⟩ :=
            Fraction.hasValue_mul hnumber.value (Fraction.hasValue_ofSymbol z entry.1.1)
          obtain ⟨middle, hmiddle, hvalue⟩ := Fraction.hasValue_sub hstart hproductValue
          have hproductOver := (Fraction.within_mul (hnumber.within.over.imp fun _ => False.elim)
            (Fraction.within_ofSymbol hoccurs).over hproduct).over
          rw [if_neg htake.1, ← hsymbol]
          exact ⟨middle, except_bind_eq_ok.2 ⟨product, hproduct, hmiddle⟩, hvalue,
            (Fraction.within_sub hover hproductOver hmiddle).over⟩
      obtain ⟨middle, hmiddle, hvalue, hmiddleOver⟩ := hstep
      obtain ⟨last, hlast, hlastValue, hlastOver⟩ :=
        ih (fun other hother => hentries other (List.mem_cons_of_mem entry hother)) hvalue
          hmiddleOver
      refine ⟨last, ?_, ?_, hlastOver⟩
      · rw [List.foldlM_cons, hmiddle]
        exact hlast
      · rw [List.map_cons, List.sum_cons, ← sub_sub]
        exact hlastValue

/-- The value of an unknown from its pivot row is the one it has at the point, less the balance of
the row. -/
theorem exists_valueOf {column : Nat} (hcolumn : column < unknowns.length) {row : Row K}
    {c : Nat → K} {r : K} (h : Tracks z unknowns.length row c r) (hone : c column = 1) :
    ∃ value, valueOf unknowns column row = .ok value ∧
      value.HasValue z (columnValue z unknowns column -
        balance (columnValue z unknowns) unknowns.length c r) ∧
      value.Over (· ∈ unknowns) := by
  have hentries (entry : (Symbol × Fraction K) × Nat)
      (hentry : entry ∈ (unknowns.zip row.coeffs).zipIdx) :
      Number z entry.1.2 (c entry.2) ∧ z entry.1.1 = columnValue z unknowns entry.2 ∧
        entry.1.1 ∈ unknowns := by
    have hpair := List.getElem?_zip_eq_some.1 (List.mem_zipIdx_iff_getElem?.1 hentry)
    obtain ⟨hlt, _⟩ := List.getElem?_eq_some_iff.1 hpair.1
    have hnumber := h.coeffs entry.2 hlt
    unfold Row.at at hnumber
    rw [List.getD_eq_getElem?_getD, hpair.2] at hnumber
    refine ⟨hnumber, ?_, List.mem_of_getElem? hpair.1⟩
    unfold columnValue
    rw [List.getD_eq_getElem?_getD, hpair.1]
    rfl
  obtain ⟨total, htotal, htotalValue, hover⟩ := exists_subTerms column _ hentries
    h.rhs.value (h.rhs.within.over.imp fun _ => False.elim)
  obtain ⟨value, hvalue, hcanonical⟩ := Fraction.hasValue_canonical htotalValue
  refine ⟨value, except_bind_eq_ok.2 ⟨total, htotal, hvalue⟩, ?_,
    (Fraction.within_canonical hover hvalue).over⟩
  have hindices : ((unknowns.zip row.coeffs).zipIdx.map (fun entry =>
      if entry.2 = column then 0 else c entry.2 * columnValue z unknowns entry.2)).sum =
      ∑ i ∈ Finset.range unknowns.length,
        if i = column then 0 else c i * columnValue z unknowns i := by
    have hlength : (unknowns.zip row.coeffs).length = unknowns.length := by
      rw [List.length_zip, h.length, Nat.min_self]
    have hmap : (unknowns.zip row.coeffs).zipIdx.map (fun entry =>
        if entry.2 = column then 0 else c entry.2 * columnValue z unknowns entry.2) =
        ((unknowns.zip row.coeffs).zipIdx.map Prod.snd).map (fun i =>
          if i = column then 0 else c i * columnValue z unknowns i) := by
      rw [List.map_map]
      rfl
    rw [hmap, List.zipIdx_map_snd, hlength, ← List.range_eq_range']
    rfl
  have hsplit : ∑ i ∈ Finset.range unknowns.length, c i * columnValue z unknowns i =
      columnValue z unknowns column + ∑ i ∈ Finset.range unknowns.length,
        if i = column then 0 else c i * columnValue z unknowns i := by
    have hmem := Finset.mem_range.2 hcolumn
    rw [← Finset.add_sum_erase _ _ hmem, ← Finset.add_sum_erase _ (fun i =>
      if i = column then 0 else c i * columnValue z unknowns i) hmem, hone, one_mul, if_pos rfl,
      zero_add]
    congr 1
    apply Finset.sum_congr rfl
    intro i hi
    rw [if_neg (Finset.ne_of_mem_erase hi)]
  have hresult : r - ((unknowns.zip row.coeffs).zipIdx.map (fun entry =>
      if entry.2 = column then 0 else c entry.2 * columnValue z unknowns entry.2)).sum =
      columnValue z unknowns column -
        balance (columnValue z unknowns) unknowns.length c r := by
    unfold balance
    rw [hsplit, hindices]
    ring
  rw [← hresult]
  exact hcanonical

/-- Where the pivot row holds, this is the value that the unknown has. -/
theorem hasValue_valueOf (hunits : ∀ s ∈ unknowns, s.isUnit = false) {column : Nat}
    (hcolumn : column < unknowns.length) {row : Row K} {c : Nat → K} (h : Holds z unknowns row c)
    (hone : c column = 1) {value : Fraction K} (hrun : valueOf unknowns column row = .ok value) :
    value.HasValue z (columnValue z unknowns column) ∧
      value.Over (fun s => s.isUnit = false) := by
  obtain ⟨r, htracks, hbalance⟩ := h
  obtain ⟨value', hrun', hvalue, hover⟩ := exists_valueOf hcolumn htracks hone
  rw [hrun] at hrun'
  cases hrun'
  rw [hbalance, sub_zero] at hvalue
  exact ⟨hvalue, hover.imp hunits⟩

def Outcome.Covers (z : Symbol → K) : Outcome K → Prop
  | .solved solution => Describes z solution
  | .inconsistent _ => False
  | .undetermined => True

/-- At a point where a linear system vanishes it is not called inconsistent, and the values of the
unknowns are those of the point. -/
theorem covers_solve (h : Vanishes z unknowns polys) (hlinear : applies unknowns polys = true)
    {outcome : Outcome K} (hrun : solve 0 unknowns polys = .ok outcome) : outcome.Covers z := by
  unfold solve at hrun
  obtain ⟨rows, hrows, hrun⟩ := except_bind_eq_ok.1 hrun
  dsimp only at hrun
  rw [zero_mul] at hrun
  obtain ⟨tableau, htableau, hrun⟩ := except_bind_eq_ok.1 hrun
  have hholds (row : Row K) (hrow : row ∈ rows) : ∃ c, Holds z unknowns row c := by
    obtain ⟨p, hp, hread⟩ := except_mapM_mem hrows row hrow
    obtain ⟨c, r, htracks, hbalance⟩ := tracks_rowOf hlinear hp (h.within p hp) hread
    rw [h.value p hp] at hbalance
    exact ⟨c, r, htracks, hbalance⟩
  have hreduced := reduced_steps hholds htableau
  rw [residual_reduced hreduced] at hrun
  dsimp only at hrun
  split at hrun
  · cases hrun
    trivial
  · obtain ⟨solution, hsolution, hrun⟩ := except_bind_eq_ok.1 hrun
    cases hrun
    have hempty : Describes z (∅ : Solution K) := by
      intro symbol value hvalue
      cases hvalue
    apply except_foldlM ?_ hempty hsolution
    intro entry hentry before after hbefore hinsert
    obtain ⟨value, hvalue, hinsert⟩ := except_bind_eq_ok.1 hinsert
    cases hinsert
    obtain ⟨hlt, c, hc, hone⟩ := hreduced.pivots entry hentry
    obtain ⟨hat, hover⟩ := hasValue_valueOf h.units hlt hc hone hvalue
    exact Elimination.describes_insert hbefore hat hover

end Solve

end Ramify.Linear