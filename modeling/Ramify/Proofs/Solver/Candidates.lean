import Ramify.Engine
import Ramify.Proofs.Solver.Every
import Ramify.Proofs.Solver.Sound

/-!
What the candidates of the solver look like. Over whatever type of numbers it calculates, and
whether or not it searches by chance, the solver gives values to no other unknowns than those that
it was asked for, and each value is the result of a calculation.
-/

namespace Ramify

variable {K : Type} [Scalar K]

/-- A fraction that a calculation gives: a number, or a quotient that was brought into normal
form. -/
def Fraction.Made (a : Fraction K) : Prop :=
  (∃ x, a = .const x) ∨ ∃ num den, Fraction.make num den = .ok a

theorem Fraction.made_const (x : K) : (Fraction.const x).Made := Or.inl ⟨x, rfl⟩

theorem Fraction.made_make {num den : Polynomial K} {a : Fraction K} (h : make num den = .ok a) :
    a.Made := Or.inr ⟨num, den, h⟩

/-- A candidate that gives calculated values to some of the unknowns, and to nothing else. -/
def CandidateFor (unknowns : List Symbol) (candidate : Solution K) : Prop :=
  ∀ symbol value, candidate.find? symbol = some value → symbol ∈ unknowns ∧ value.Made

theorem candidateFor_empty (unknowns : List Symbol) :
    CandidateFor unknowns (∅ : Solution K) := nofun

theorem CandidateFor.insert {fewer unknowns : List Symbol} {candidate : Solution K}
    (h : CandidateFor fewer candidate) (hfewer : ∀ s ∈ fewer, s ∈ unknowns) {symbol : Symbol}
    (hsymbol : symbol ∈ unknowns) {value : Fraction K} (hvalue : value.Made) :
    CandidateFor unknowns (candidate.insert symbol value) := by
  intro other found hfound
  rw [SortedMap.find?_insert] at hfound
  split at hfound
  · rename_i hsame
    cases hfound
    exact ⟨hsame ▸ hsymbol, hvalue⟩
  · exact (h other found hfound).imp_left (hfewer other)

/-- No value is given to a symbol that is not among the unknowns. -/
theorem CandidateFor.find?_eq_none {unknowns : List Symbol} {candidate : Solution K}
    (h : CandidateFor unknowns candidate) {symbol : Symbol} (hsymbol : symbol ∉ unknowns) :
    candidate.find? symbol = none := by
  cases hfind : candidate.find? symbol with
  | none => rfl
  | some value => exact absurd (h symbol value hfind).1 hsymbol

theorem PurePower.made_rootsOf {degree : Nat} {ratio : K} {exponents : Exponents}
    {values : List (Fraction K)} (h : rootsOf degree ratio exponents = .ok values) :
    ∀ value ∈ values, value.Made := by
  unfold rootsOf at h
  obtain ⟨unit, _, h⟩ := except_bind_eq_ok.1 h
  split at h
  · split at h
    · cases h
      nofun
    · obtain ⟨left, hleft, h⟩ := except_bind_eq_ok.1 h
      obtain ⟨right, hright, h⟩ := except_bind_eq_ok.1 h
      cases h
      intro value hvalue
      simp only [List.mem_cons, List.not_mem_nil, or_false] at hvalue
      rcases hvalue with rfl | rfl
      · exact Fraction.made_make hleft
      · exact Fraction.made_make hright
  · obtain ⟨root, hroot, h⟩ := except_bind_eq_ok.1 h
    cases h
    intro value hvalue
    rw [List.mem_singleton.1 hvalue]
    exact Fraction.made_make hroot

theorem PurePower.made_roots {p : Polynomial K} {symbol : Symbol} {values : List (Fraction K)}
    (h : roots p symbol = .ok (some values)) : ∀ value ∈ values, value.Made := by
  unfold roots at h
  obtain ⟨parts, _, h⟩ := except_bind_eq_ok.1 h
  match parts, h with
  | some (_, _, none), h =>
      cases h
      intro value hvalue
      rw [List.mem_singleton.1 hvalue]
      exact Fraction.made_const 0
  | some (degree, a, some b), h =>
      have hlast (ratio : K) (exponents : Exponents)
          (h : (if divisible degree exponents then some <$> rootsOf degree ratio exponents
            else pure none) = .ok (some values)) : ∀ value ∈ values, value.Made := by
        split at h
        · cases hroots : rootsOf degree ratio exponents with
          | error cause =>
              rw [hroots] at h
              cases h
          | ok found =>
              rw [hroots] at h
              cases h
              exact made_rootsOf hroots
        · cases h
      exact hlast _ _ h

namespace Newton

/-- A step moves the coordinates that a point has. -/
theorem keys_move {point moved : SortedMap Symbol K} {deltas : List (Symbol × K)}
    (h : move point deltas = .ok moved) (symbol : Symbol) :
    symbol ∈ moved.keys ↔ symbol ∈ point.keys := by
  induction deltas generalizing point with
  | nil =>
      cases h
      exact Iff.rfl
  | cons entry rest ih =>
      unfold move at h
      split at h
      · cases h
      · rename_i value hvalue
        rw [ih h, SortedMap.mem_keys_iff, SortedMap.mem_keys_iff, SortedMap.find?_insert]
        split
        · rename_i hsame
          rw [← hsame, hvalue]
          simp
        · exact Iff.rfl

theorem point_finish (problem : Problem K) (limits : Limits K) (point : SortedMap Symbol K)
    (last : List K) : (finish problem limits point last).point = point := by
  unfold finish
  split
  · rfl
  · split <;> rfl

/-- A result that does not converge, or whose point has the given coordinates and no others. -/
def Result.Keeps (keys : List Symbol) (result : Result K) : Prop :=
  result.converged = true → ∀ symbol, symbol ∈ result.point.keys ↔ symbol ∈ keys

/-- A run that converges ends at a point with the coordinates of the one that it started from. -/
theorem keeps_steps (numerics : Numerics K) (problem : Problem K) (limits : Limits K)
    (remaining done : Nat) (point : SortedMap Symbol K) (last : List K) :
    (steps numerics problem limits remaining done point last).Keeps point.keys := by
  induction remaining generalizing done point last with
  | zero =>
      intro _ symbol
      rw [steps, point_finish]
  | succ remaining ih =>
      rw [steps]
      dsimp only
      split
      · nofun
      split
      · nofun
      split
      · exact fun _ _ => Iff.rfl
      split
      · nofun
      split
      · nofun
      split
      · nofun
      · rename_i moved hmoved
        intro hconverged symbol
        exact (ih (done + 1) moved _ hconverged symbol).trans (keys_move hmoved symbol)

theorem keeps_refine (numerics : Numerics K) (problem : Problem K) (limits : Limits K)
    (point : SortedMap Symbol K) :
    (refine numerics problem limits point).Keeps point.keys := by
  unfold refine
  split
  · split
    · exact fun _ _ => Iff.rfl
    · split <;> exact fun _ _ => Iff.rfl
  · exact keeps_steps numerics problem limits _ 0 point []

end Newton

namespace Linear

variable {unknowns : List Symbol} {polys : List (Polynomial K)}

/-- Each elimination of a column gives at most that column a pivot. -/
theorem columns_step {bound : K} {tableau after : Tableau K} {column : Nat} {P : Nat → Prop}
    (hpivots : ∀ entry ∈ tableau.pivots, P entry.1) (hcolumn : P column)
    (h : step bound tableau column = .ok after) : ∀ entry ∈ after.pivots, P entry.1 := by
  unfold step at h
  dsimp only at h
  split at h
  · cases h
    exact hpivots
  · obtain ⟨pivot, _, h⟩ := except_bind_eq_ok.1 h
    obtain ⟨pivots, hmap, h⟩ := except_bind_eq_ok.1 h
    obtain ⟨rest, _, h⟩ := except_bind_eq_ok.1 h
    cases h
    intro entry hentry
    rcases List.mem_append.1 hentry with hold | hnew
    · obtain ⟨before, hbefore, hclear⟩ := except_mapM_mem hmap entry hold
      obtain ⟨row, _, hclear⟩ := except_bind_eq_ok.1 hclear
      cases hclear
      exact hpivots before hbefore
    · rw [List.mem_singleton.1 hnew]
      exact hcolumn

theorem residual_ne_solved {bound : K} {rows : List (Row K)} {solution : Solution K} :
    residual bound rows ≠ some (.solved solution) := by
  induction rows with
  | nil => nofun
  | cons row rest ih =>
      have hrow (negligible : Bool) :
          (if row.rhs.isZero || negligible then residual bound rest
            else if row.rhs.isQuantity then some (.inconsistent row.rhs)
            else some .undetermined) ≠ some (.solved solution) := by
        split
        · exact ih
        · split <;> simp
      exact hrow _

/-- Puts the values that are read off pivot rows into a solution. -/
def readOff (unknowns : List Symbol) (pivots : List (Nat × Row K)) (start : Solution K) :
    Except AlgebraError (Solution K) :=
  pivots.foldlM (fun (acc : Solution K) entry => do
    pure (acc.insert (unknowns.getD entry.1 default) (← valueOf unknowns entry.1 entry.2))) start

section ReadOff

variable {pivots : List (Nat × Row K)} {solution : Solution K}

/-- Each value is that of the unknown of a pivot row, read off that row. -/
theorem exists_pivot_of_readOff (hread : readOff unknowns pivots ∅ = .ok solution)
    {symbol : Symbol} {value : Fraction K} (hvalue : solution.find? symbol = some value) :
    ∃ entry ∈ pivots, unknowns.getD entry.1 default = symbol ∧
      valueOf unknowns entry.1 entry.2 = .ok value := by
  refine except_foldlM (Q := fun (acc : Solution K) => ∀ symbol value,
    acc.find? symbol = some value → ∃ entry ∈ pivots, unknowns.getD entry.1 default = symbol ∧
      valueOf unknowns entry.1 entry.2 = .ok value) ?_
        (fun _ _ hnone => by cases hnone) hread symbol
    value hvalue
  intro entry hentry before after hbefore hinsert symbol value hvalue
  obtain ⟨found, hfound, hinsert⟩ := except_bind_eq_ok.1 hinsert
  cases hinsert
  rw [SortedMap.find?_insert] at hvalue
  split at hvalue
  · rename_i hsame
    cases hvalue
    exact ⟨entry, hentry, hsame, hfound⟩
  · exact hbefore symbol value hvalue

/-- A value that is read off is never taken out again. -/
theorem isEmpty_of_readOff {start : Solution K} (hsome : pivots ≠ [])
    (hread : readOff unknowns pivots start = .ok solution) : solution.isEmpty = false := by
  obtain ⟨first, rest, rfl⟩ := List.exists_cons_of_ne_nil hsome
  rw [readOff, List.foldlM_cons] at hread
  obtain ⟨started, hstarted, hrest⟩ := except_bind_eq_ok.1 hread
  have hfilled (acc after : Solution K) (entry : Nat × Row K)
      (hinsert : (do pure (acc.insert (unknowns.getD entry.1 default)
        (← valueOf unknowns entry.1 entry.2))) = (.ok after : Except AlgebraError (Solution K))) :
      after.isEmpty = false := by
    obtain ⟨value, _, hinsert⟩ := except_bind_eq_ok.1 hinsert
    cases hinsert
    exact SortedMap.isEmpty_insert _ _ _
  exact except_foldlM (Q := fun (acc : Solution K) => acc.isEmpty = false)
    (fun entry _ before after _ hinsert => hfilled before after entry hinsert)
    (hfilled start started first hstarted) hrest

/-- A linear system that is solved was brought to a tableau, and the solution consists of the values
that are read off its pivot rows. -/
theorem exists_tableau_of_solved {tolerance : K}
    (h : solve tolerance unknowns polys = .ok (.solved solution)) :
    ∃ rows bound tableau, polys.mapM (rowOf unknowns) = .ok rows ∧
      (List.range unknowns.length).foldlM (step bound) ⟨[], rows⟩ = .ok tableau ∧
      solution.isEmpty = false ∧ ∀ symbol value, solution.find? symbol = some value →
        ∃ entry ∈ tableau.pivots, unknowns[entry.1]? = some symbol ∧
          valueOf unknowns entry.1 entry.2 = .ok value := by
  unfold solve at h
  obtain ⟨rows, hrows, h⟩ := except_bind_eq_ok.1 h
  obtain ⟨tableau, htableau, h⟩ := except_bind_eq_ok.1 h
  have hcolumns : ∀ entry ∈ tableau.pivots, entry.1 < unknowns.length := by
    refine except_foldlM (Q := fun (t : Tableau K) => ∀ entry ∈ t.pivots,
      entry.1 < unknowns.length) ?_ (List.forall_mem_nil _) htableau
    intro column hcolumn before after hpivots hstep
    exact columns_step (P := fun i => i < unknowns.length) hpivots (List.mem_range.1 hcolumn) hstep
  split at h
  · rename_i outcome hresidual
    cases h
    exact absurd hresidual residual_ne_solved
  split at h
  · cases h
  rename_i hsome
  obtain ⟨found, hread, h⟩ := except_bind_eq_ok.1 h
  cases h
  refine ⟨rows, _, tableau, hrows, htableau,
    isEmpty_of_readOff (fun hnone => hsome (List.isEmpty_iff.2 hnone)) hread, ?_⟩
  intro symbol value hvalue
  obtain ⟨entry, hentry, hsymbol, hvalueOf⟩ := exists_pivot_of_readOff hread hvalue
  refine ⟨entry, hentry, ?_, hvalueOf⟩
  rw [List.getD_eq_getElem?_getD, List.getElem?_eq_getElem (hcolumns entry hentry)] at hsymbol
  rw [List.getElem?_eq_getElem (hcolumns entry hentry)]
  exact congrArg some hsymbol

end ReadOff

/-- A linear system is solved for the unknowns of its pivot columns. -/
theorem candidateFor_solve {tolerance : K} {solution : Solution K}
    (h : solve tolerance unknowns polys = .ok (.solved solution)) :
    CandidateFor unknowns solution := by
  obtain ⟨rows, bound, tableau, _, _, _, hfrom⟩ := exists_tableau_of_solved h
  intro symbol value hvalue
  obtain ⟨entry, _, hsymbol, hvalueOf⟩ := hfrom symbol value hvalue
  unfold valueOf at hvalueOf
  obtain ⟨total, _, hcanonical⟩ := except_bind_eq_ok.1 hvalueOf
  exact ⟨List.mem_of_getElem? hsymbol, Fraction.made_make hcanonical⟩

end Linear

namespace Elimination

variable {unknowns : List Symbol} {active : List (Polynomial K)}

/-- The solutions of an elimination are candidates for the unknowns. -/
def Among (unknowns : List Symbol) : Elimination K → Prop
  | .solved solutions => ∀ solution ∈ solutions, CandidateFor unknowns solution
  | .inconsistent | .unknown => True

/-- A treatment of systems that solves for their unknowns. -/
def Confined (next : Continuation K) : Prop :=
  ∀ unknowns polys, Yields (Among unknowns) (next unknowns polys)

/-- A move is about one of the unknowns, and the values that it gives to it are calculated. -/
def Legal (unknowns : List Symbol) : Move K → Prop
  | .split _ symbol values => symbol ∈ unknowns ∧ ∀ value ∈ values, value.Made
  | .express _ symbol _ _ => symbol ∈ unknowns
  | .search => True

theorem among_iff {result : Elimination K} :
    Among unknowns result ↔ Every (CandidateFor unknowns) result := by
  cases result <;> exact Iff.rfl

theorem Chosen.legal {numerics : Numerics K} {settings : SolverSettings K} {move : Move K}
    (h : Chosen numerics settings unknowns active move) : Legal unknowns move := by
  cases h with
  | purePower hp honly hroots => exact ⟨mem_of_only honly, PurePower.made_roots hroots⟩
  | univariate hp honly hsymbol hparts =>
      refine ⟨hsymbol, fun value hvalue => ?_⟩
      obtain ⟨root, _, rfl⟩ := List.mem_map.1 hvalue
      exact Fraction.made_const root
  | linear hp hsymbol hparts => exact (mem_unknownsAmong.1 hsymbol).2
  | search => trivial

section Search

/-- A drawn point has a coordinate for each unknown, and no other. -/
theorem keys_drawPoint (unknowns : List Symbol) (generator : Twister) (symbol : Symbol) :
    symbol ∈ ((drawPoint unknowns).run generator : SortedMap Symbol K × Twister).1.keys ↔
      symbol ∈ unknowns := by
  have hfold (symbols : List Symbol) (point : SortedMap Symbol K) (generator : Twister) :
      symbol ∈ ((symbols.foldlM (fun (point : SortedMap Symbol K) (symbol : Symbol) => do
        let low : K := Scalar.ofInt (-10)
        pure (point.insert symbol (← Twister.uniform low (Scalar.ofInt 10)))) point :
          StateM Twister _).run generator).1.keys ↔ symbol ∈ symbols ∨ symbol ∈ point.keys := by
    induction symbols generalizing point generator with
    | nil => exact (or_iff_right List.not_mem_nil).symm
    | cons first rest ih =>
        rw [List.foldlM_cons]
        refine (ih _ _).trans ?_
        rw [SortedMap.mem_keys_iff, SortedMap.mem_keys_iff, SortedMap.find?_insert, List.mem_cons]
        split
        · rename_i hsame
          simp [hsame]
        · rename_i hne
          simp [Ne.symm hne]
  refine (hfold unknowns ∅ generator).trans ?_
  simp [SortedMap.keys]

theorem keys_searchPoints (numerics : Numerics K) (settings : SolverSettings K)
    (problem : Newton.Problem K) (starts : Nat) {found : List (SortedMap Symbol K)}
    (hfound : ∀ point ∈ found, ∀ s, s ∈ point.keys ↔ s ∈ problem.unknowns) :
    Yields (fun points => ∀ point ∈ points, ∀ s, s ∈ point.keys ↔ s ∈ problem.unknowns)
      (searchPoints numerics settings problem starts found) := by
  induction starts generalizing found with
  | zero => exact .pure hfound
  | succ starts ih =>
      intro state points after hrun
      unfold searchPoints at hrun
      rw [outcome_get_bind] at hrun
      refine ih ?_ _ points after hrun
      intro point hpoint
      split at hpoint
      · rename_i hconverged
        rcases List.mem_append.1 hpoint with hold | hnew
        · exact hfound point hold
        · rw [List.mem_singleton.1 hnew]
          intro s
          exact (Newton.keeps_refine _ _ _ _ (Bool.and_eq_true_iff.1 hconverged).1 s).trans
            (keys_drawPoint _ _ s)
      · exact hfound point hpoint

theorem mem_insertPoint {point other : SortedMap Symbol K} {points : List (SortedMap Symbol K)}
    (h : other ∈ insertPoint point points) : other = point ∨ other ∈ points := by
  induction points with
  | nil => exact Or.inl (List.mem_singleton.1 h)
  | cons first rest ih =>
      unfold insertPoint at h
      split at h
      · exact List.mem_cons.1 h
      · rcases List.mem_cons.1 h with rfl | h
        · exact Or.inr List.mem_cons_self
        · exact (ih h).imp_right (List.mem_cons_of_mem first)

theorem mem_sorted {found sorted : List (SortedMap Symbol K)} {point : SortedMap Symbol K}
    (h : point ∈ found.foldl (fun acc point => insertPoint point acc) sorted) :
    point ∈ found ∨ point ∈ sorted := by
  induction found generalizing sorted with
  | nil => exact Or.inr h
  | cons first rest ih =>
      rcases ih h with hrest | hsorted
      · exact Or.inl (List.mem_cons_of_mem first hrest)
      · rcases mem_insertPoint hsorted with rfl | hsorted
        · exact Or.inl List.mem_cons_self
        · exact Or.inr hsorted

/-- What a search finds are points in the unknowns. -/
theorem confined_search (numerics : Numerics K) (settings : SolverSettings K) :
    Confined (search numerics settings) := by
  intro unknowns active
  unfold search
  dsimp only
  split
  · exact .pure trivial
  rename_i hpresent
  split
  · exact .pure trivial
  refine Yields.bind (keys_searchPoints numerics settings _ _ (List.forall_mem_nil _))
    (fun found hfound => ?_)
  have hsolved : Among unknowns (.solved
      ((found.foldl (fun acc point => insertPoint point acc) []).map
        (fun point => point.mapValues Fraction.const))) := by
    intro solution hsolution symbol value hvalue
    obtain ⟨point, hpoint, rfl⟩ := List.mem_map.1 hsolution
    obtain ⟨⟨key, x⟩, hentry, hsame⟩ :=
      List.mem_map.1 ((SortedMap.mem_entries_iff _ (symbol, value)).2 hvalue)
    cases hsame
    have hkey : key ∈ point.keys := List.mem_map.2 ⟨(key, x), hentry, rfl⟩
    have hin := (hfound point ((mem_sorted hpoint).resolve_right List.not_mem_nil) key).1 hkey
    refine ⟨?_, Fraction.made_const x⟩
    -- the search is made only if all symbols are unknowns
    by_contra hout
    exact hpresent (List.any_eq_true.2 ⟨key, hin, by simpa using Or.inr hout⟩)
  have hend : Yields (Among unknowns) (if found.isEmpty then pure .unknown else pure (.solved
      ((found.foldl (fun acc point => insertPoint point acc) []).map
        (fun point => point.mapValues Fraction.const))) : SolverAction K (Elimination K)) := by
    split
    · exact .pure trivial
    · exact .pure hsolved
  split
  · exact .bind (Q := fun _ => True) (fun _ _ _ _ => trivial) (fun _ _ => hend)
  · exact hend

end Search

section Rounds

variable {next : Continuation K} {symbol : Symbol} {rest : List (Polynomial K)}

theorem among_splitOn (hnext : Confined next) (tolerance : K) (hsymbol : symbol ∈ unknowns)
    (values : List (Fraction K)) (hvalues : ∀ value ∈ values, value.Made)
    {found : List (Solution K)} (hfound : ∀ solution ∈ found, CandidateFor unknowns solution) :
    Yields (Among unknowns) (splitOn tolerance next unknowns symbol rest values found) := by
  refine (every_splitOn values (fun value hvalue reduced _ => ?_) hfound).imp
    (fun _ => among_iff.2)
  exact (hnext _ reduced).imp fun _ houtcome => (among_iff.1 houtcome).imp fun _ hsolution =>
    hsolution.insert (fun _ => mem_of_mem_others) hsymbol (hvalues value hvalue)

theorem among_expressOn (hnext : Confined next) (tolerance : K) (hsymbol : symbol ∈ unknowns)
    (slope offset : Polynomial K) :
    Yields (Among unknowns) (expressOn tolerance next unknowns symbol slope offset rest) := by
  refine (every_expressOn (fun value _ => ?_) (fun _ => ?_)).imp (fun _ => among_iff.2)
  · refine every_substitute fun reduced _ => ?_
    exact (hnext _ reduced).imp fun _ houtcome => (among_iff.1 houtcome).imp
      fun _ hsolution a result _ hcanonical =>
        hsolution.insert (fun _ => mem_of_mem_others) hsymbol (Fraction.made_make hcanonical)
  · exact (hnext unknowns _).imp fun _ => among_iff.1

/-- Elimination solves for the unknowns, if what takes over from it does. -/
theorem confined_eliminate {fallback : Continuation K} (hfallback : Confined fallback)
    (numerics : Numerics K) (settings : SolverSettings K) (rounds : Nat) :
    Confined (eliminate fallback numerics settings rounds) := by
  intro unknowns polys
  refine yields_eliminate (fun _ _ => True) (fun unknowns _ => Among unknowns) ?_ ?_ ?_ ?_ ?_ ?_
    rounds unknowns polys trivial
  · exact fun _ _ _ _ => trivial
  · exact fun unknowns _ _ _ => List.forall_mem_singleton.2 (candidateFor_empty unknowns)
  · exact fun _ _ => trivial
  · intro rounds hnext unknowns polys active index symbol values _ _ hmove
    exact among_splitOn (fun unknowns polys => hnext unknowns polys trivial) _ hmove.legal.1 values
      hmove.legal.2 (List.forall_mem_nil _)
  · intro rounds hnext unknowns polys active index symbol slope offset _ _ hmove
    exact among_expressOn (fun unknowns polys => hnext unknowns polys trivial) _ hmove.legal slope
      offset
  · exact fun unknowns polys active _ _ => hfallback unknowns active

end Rounds

end Elimination

/-- The candidates of an answer are candidates for the unknowns. -/
def Answer.Among (unknowns : List Symbol) : Answer K → Prop
  | .solved candidates => ∀ candidate ∈ candidates, CandidateFor unknowns candidate
  | .noSolution | .indeterminate => True

namespace Solver

variable {unknowns : List Symbol}

theorem among_ofCandidates {candidates : List (Solution K)}
    (h : ∀ candidate ∈ candidates, CandidateFor unknowns candidate) :
    (Answer.ofCandidates candidates).Among unknowns := by
  cases candidates with
  | nil => trivial
  | cons first rest => exact h

theorem among_linearAnswer (settings : SolverSettings K) (unknowns : List Symbol)
    (polys : List (Polynomial K)) :
    Yields (Answer.Among unknowns) (linearAnswer settings unknowns polys) := by
  refine Yields.bind (Elimination.yields_lift _) (fun outcome houtcome => ?_)
  cases outcome with
  | undetermined => exact .pure trivial
  | inconsistent residue => exact yields_tell _ _ trivial
  | solved solution =>
      refine .pure fun candidate hcandidate => ?_
      rw [List.mem_singleton.1 hcandidate]
      exact Linear.candidateFor_solve houtcome

theorem among_eliminationAnswer {fallback : Elimination.Continuation K}
    (hfallback : Elimination.Confined fallback) (numerics : Numerics K)
    (settings : SolverSettings K) (unknowns : List Symbol) (polys : List (Polynomial K)) :
    Yields (Answer.Among unknowns)
      (eliminationAnswer fallback numerics settings unknowns polys) := by
  refine Yields.bind (Elimination.confined_eliminate hfallback numerics settings rounds unknowns
    polys) (fun outcome houtcome => ?_)
  cases outcome with
  | solved solutions => exact .pure (among_ofCandidates houtcome)
  | inconsistent => exact .pure trivial
  | unknown => exact .pure trivial

/-- Verification keeps candidates or drops them. -/
theorem among_verify (settings : SolverSettings K) (relations : List (Relation K))
    (candidates verified : List (Solution K))
    (hcandidates : ∀ candidate ∈ candidates, CandidateFor unknowns candidate)
    (hverified : ∀ candidate ∈ verified, CandidateFor unknowns candidate) :
    Yields (fun kept => ∀ candidate ∈ kept, CandidateFor unknowns candidate)
      (verify settings relations candidates verified) := by
  induction candidates generalizing verified with
  | nil => exact .pure hverified
  | cons first rest ih =>
      have hrest := fun c hc => hcandidates c (List.mem_cons_of_mem first hc)
      unfold verify
      split
      · exact .throw _
      · dsimp only
        split
        · exact .bind (Q := fun _ => True) (fun _ _ _ _ => trivial)
            (fun _ _ => ih verified hrest hverified)
        · exact ih verified hrest hverified
      · apply ih _ hrest
        intro candidate hcandidate
        split at hcandidate
        · exact hverified candidate hcandidate
        · rcases List.mem_append.1 hcandidate with hold | hnew
          · exact hverified candidate hold
          · rw [List.mem_singleton.1 hnew]
            exact hcandidates first List.mem_cons_self

theorem among_conclude (settings : SolverSettings K) (relations : List (Relation K))
    {answer : Answer K} (h : answer.Among unknowns) :
    Yields (Answer.Among unknowns) (conclude settings relations answer) := by
  cases answer with
  | noSolution => exact yields_tell _ _ trivial
  | indeterminate => exact yields_tell _ _ trivial
  | solved candidates =>
      refine Yields.bind (among_verify settings relations candidates [] h nofun)
        (fun verified hverified => ?_)
      exact yields_tell _ _ (among_ofCandidates hverified)

/-- The solver gives values to no other unknowns than those that it was asked for. -/
theorem among_solve (numerics : Numerics K) (settings : SolverSettings K)
    (relations : List (Relation K)) (unknowns : List Symbol) :
    Yields (Answer.Among unknowns) (solve numerics settings relations unknowns) := by
  unfold solve solveWith
  split
  · exact .pure trivial
  refine Yields.bind (Elimination.yields_lift _) (fun polys _ => ?_)
  split
  · exact .pure trivial
  split
  · exact .bind (among_linearAnswer settings unknowns polys)
      (fun answer hanswer => among_conclude settings relations hanswer)
  · exact .bind (among_eliminationAnswer (Elimination.confined_search numerics settings) numerics
      settings unknowns polys) (fun answer hanswer => among_conclude settings relations hanswer)

end Solver

/-- An engine whose candidates give calculated values to the unknowns that it was asked for, and to
nothing else. -/
def Engine.Confined {σ : Type} (engine : Engine K σ) : Prop :=
  ∀ relations unknowns state answer,
    (engine.ask relations unknowns state).1 = .ok answer → answer.Among unknowns

theorem Engine.confined_polynomial (numerics : Numerics K) (settings : SolverSettings K) :
    (Engine.polynomial numerics settings).Confined := by
  intro relations unknowns generator answer hanswer
  exact Solver.among_solve numerics settings relations unknowns ⟨generator, #[]⟩ answer _
    (Prod.ext hanswer rfl)

section Repetition

/-- An answer that lists no candidate twice. -/
def Answer.Repeatless {K : Type} : Answer K → Prop
  | .solved candidates => candidates.Nodup
  | .noSolution | .indeterminate => True

/-- An engine that lists no candidate twice. -/
def Engine.Repeatless {K σ : Type} (engine : Engine K σ) : Prop :=
  ∀ relations unknowns state answer,
    (engine.ask relations unknowns state).1 = .ok answer → answer.Repeatless

variable {K : Type} [ExactScalar K]

namespace Solver

/-- Verification keeps each candidate once. -/
theorem nodup_verify (settings : SolverSettings K) (relations : List (Relation K))
    (candidates verified : List (Solution K)) (h : verified.Nodup) :
    Yields List.Nodup (verify settings relations candidates verified) := by
  induction candidates generalizing verified with
  | nil => exact .pure h
  | cons first rest ih =>
      unfold verify
      split
      · exact .throw _
      · dsimp only
        split
        · exact .bind (Q := fun _ => True) (fun _ _ _ _ => trivial) (fun _ _ => ih verified h)
        · exact ih verified h
      · apply ih
        split
        · exact h
        · rename_i hnew
          have hfirst : first ∉ verified := fun hmem => hnew (List.contains_iff_mem.2 hmem)
          exact h.append (List.nodup_singleton first)
            (List.disjoint_singleton.2 hfirst)

theorem repeatless_conclude (settings : SolverSettings K) (relations : List (Relation K))
    (answer : Answer K) : Yields Answer.Repeatless (conclude settings relations answer) := by
  cases answer with
  | noSolution => exact yields_tell _ _ trivial
  | indeterminate => exact yields_tell _ _ trivial
  | solved candidates =>
      refine Yields.bind (nodup_verify settings relations candidates [] List.nodup_nil)
        (fun verified hverified => yields_tell _ _ ?_)
      cases verified with
      | nil => trivial
      | cons first rest => exact hverified

/-- The solver lists no candidate twice. -/
theorem repeatless_solve (numerics : Numerics K) (settings : SolverSettings K)
    (relations : List (Relation K)) (unknowns : List Symbol) :
    Yields Answer.Repeatless (solve numerics settings relations unknowns) := by
  unfold solve solveWith
  split
  · exact .pure trivial
  refine Yields.bind (Elimination.yields_lift _) (fun polys _ => ?_)
  split
  · exact .pure trivial
  split
  · exact .bind (Q := fun _ => True) (fun _ _ _ _ => trivial)
      (fun answer _ => repeatless_conclude settings relations answer)
  · exact .bind (Q := fun _ => True) (fun _ _ _ _ => trivial)
      (fun answer _ => repeatless_conclude settings relations answer)

end Solver

theorem Engine.repeatless_polynomial (numerics : Numerics K) (settings : SolverSettings K) :
    (Engine.polynomial numerics settings).Repeatless := by
  intro relations unknowns generator answer hanswer
  exact Solver.repeatless_solve numerics settings relations unknowns ⟨generator, #[]⟩ answer _
    (Prod.ext hanswer rfl)

end Repetition

end Ramify
