import Ramify.Proofs.Action
import Ramify.Solver.Elimination

/-!
The rounds of an elimination. For each move that can be chosen it is said which polynomial the move
uses up and what it is made from, and what each move preserves is preserved by a whole elimination.
-/

namespace Ramify.Elimination

variable {K : Type} {unknowns : List Symbol} {active : List (Polynomial K)}

theorem mem_unknownsAmong {p : Polynomial K} {symbol : Symbol} :
    symbol ∈ unknownsAmong unknowns p ↔ symbol ∈ p.symbols ∧ symbol ∈ unknowns := by
  unfold unknownsAmong
  rw [List.mem_filter, List.contains_iff_mem]

theorem mem_of_mem_others {s symbol : Symbol} (h : s ∈ unknowns.filter (· ≠ symbol)) :
    s ∈ unknowns :=
  (List.mem_filter.1 h).1

theorem not_mem_others (unknowns : List Symbol) (symbol : Symbol) :
    symbol ∉ unknowns.filter (· ≠ symbol) := by
  intro h
  simpa using (List.mem_filter.1 h).2

theorem mem_of_only {p : Polynomial K} {symbol : Symbol}
    (h : unknownsAmong unknowns p = [symbol]) : symbol ∈ unknowns :=
  (mem_unknownsAmong.1 (h ▸ List.mem_singleton_self symbol)).2

/-- A polynomial of a system is the one that is used up, or one of the others. -/
theorem eq_or_mem_others {p q : Polynomial K} {index : Nat} (hp : active[index]? = some p)
    (hq : q ∈ active) : q = p ∨ q ∈ others index active := by
  obtain ⟨i, hi⟩ := List.mem_iff_getElem?.1 hq
  by_cases hsame : i = index
  · rw [hsame, hp] at hi
    exact Or.inl (Option.some.inj hi).symm
  · exact Or.inr (List.mem_eraseIdx_iff_getElem?.2 ⟨i, hsame, hi⟩)

theorem yields_lift {α : Type} (result : Except AlgebraError α) :
    Yields (fun x => result = .ok x) (lift result : SolverAction K α) := by
  cases result with
  | ok x => exact .pure rfl
  | error cause => exact .throw _

variable [Scalar K]

/-- The moves that can be chosen for a system. -/
inductive Chosen (numerics : Numerics K) (settings : SolverSettings K) (unknowns : List Symbol)
    (active : List (Polynomial K)) : Move K → Prop
  /-- A pure power is split on its roots. -/
  | purePower {p : Polynomial K} {index : Nat} {symbol : Symbol} {values : List (Fraction K)}
      (hp : active[index]? = some p) (honly : unknownsAmong unknowns p = [symbol])
      (hroots : PurePower.roots p symbol = .ok (some values)) :
      Chosen numerics settings unknowns active (.split index symbol values)
  /-- A polynomial in one unknown is split on its real roots. -/
  | univariate {p : Polynomial K} {index : Nat} {symbol : Symbol} {parts : List (Polynomial K)}
      (hp : active[index]? = some p) (honly : p.symbols = [symbol]) (hsymbol : symbol ∈ unknowns)
      (hparts : p.splitBy symbol = .ok parts) :
      Chosen numerics settings unknowns active (.split index symbol
        ((RealRoots.find numerics settings (parts.map Polynomial.constantCoeff)).map
          Fraction.const))
  /-- An unknown that occurs linearly is expressed. -/
  | linear {p : Polynomial K} {index : Nat} {symbol : Symbol} {slope offset : Polynomial K}
      (hp : active[index]? = some p) (hsymbol : symbol ∈ unknownsAmong unknowns p)
      (hparts : p.splitBy symbol = .ok [offset, slope]) :
      Chosen numerics settings unknowns active (.express index symbol slope offset)
  | search : Chosen numerics settings unknowns active .search

variable {numerics : Numerics K} {settings : SolverSettings K}

theorem chosen_purePowerMove {move : Move K}
    (h : purePowerMove unknowns active = .ok (some move)) :
    Chosen numerics settings unknowns active move := by
  obtain ⟨⟨p, index⟩, hmem, hfound⟩ := except_findSomeM? h
  have hp := List.mem_zipIdx_iff_getElem?.1 hmem
  dsimp only at hfound
  split at hfound
  · rename_i symbol hsymbol
    obtain ⟨roots?, hroots, hfound⟩ := except_bind_eq_ok.1 hfound
    cases roots? with
    | none => cases hfound
    | some values =>
        cases hfound
        exact .purePower hp hsymbol hroots
  · cases hfound

theorem chosen_univariate {index : Nat} {symbol : Symbol} {p : Polynomial K} {coeffs : List K}
    (h : univariate unknowns active = .ok (some (index, symbol, p, coeffs))) :
    Chosen numerics settings unknowns active
      (.split index symbol ((RealRoots.find numerics settings coeffs).map Fraction.const)) := by
  obtain ⟨⟨q, i⟩, hmem, hfound⟩ := except_findSomeM? h
  have hq := List.mem_zipIdx_iff_getElem?.1 hmem
  dsimp only at hfound
  split at hfound
  · rename_i s hs
    split at hfound
    · rename_i hcontains
      obtain ⟨parts, hparts, hfound⟩ := except_bind_eq_ok.1 hfound
      cases hfound
      exact .univariate hq hs (List.contains_iff_mem.1 hcontains) hparts
    · cases hfound
  · cases hfound

theorem chosen_linearMove {numericOnly : Bool} {move : Move K}
    (h : linearMove numericOnly unknowns active = .ok (some move)) :
    Chosen numerics settings unknowns active move := by
  obtain ⟨⟨p, index⟩, hmem, hfound⟩ := except_findSomeM? h
  have hp := List.mem_zipIdx_iff_getElem?.1 hmem
  obtain ⟨symbol, hsymbol, hfound⟩ := except_findSomeM? hfound
  split at hfound
  · cases hfound
  · obtain ⟨parts, hparts, hfound⟩ := except_bind_eq_ok.1 hfound
    split at hfound
    · rename_i offset slope
      split at hfound
      · cases hfound
      · cases hfound
        exact .linear hp hsymbol hparts
    · cases hfound

theorem chosen_chooseMove (numerics : Numerics K) (settings : SolverSettings K)
    (unknowns : List Symbol) (active : List (Polynomial K)) :
    Yields (Chosen numerics settings unknowns active)
      (chooseMove numerics settings unknowns active) := by
  unfold chooseMove
  refine Yields.bind (yields_lift _) (fun power hpower => ?_)
  cases power with
  | some move => exact .pure (chosen_purePowerMove hpower)
  | none =>
      refine Yields.bind (yields_lift _) (fun single hsingle => ?_)
      cases single with
      | some found =>
          obtain ⟨index, symbol, p, coeffs⟩ := found
          dsimp only
          split
          · exact .bind (Q := fun _ => True) (fun _ _ _ _ => trivial)
              (fun _ _ => .pure (chosen_univariate hsingle))
          · exact .pure (chosen_univariate hsingle)
      | none =>
          refine Yields.bind (yields_lift _) (fun numeric hnumeric => ?_)
          cases numeric with
          | some move => exact .pure (chosen_linearMove hnumeric)
          | none =>
              refine Yields.bind (yields_lift _) (fun symbolic hsymbolic => ?_)
              cases symbolic with
              | some move => exact .pure (chosen_linearMove hsymbolic)
              | none => exact .pure .search

/-- What is preserved by each move, by the end of a system and by what takes over holds of every
elimination. -/
theorem yields_eliminate {fallback : Continuation K}
    (Pre : List Symbol → List (Polynomial K) → Prop)
    (Post : List Symbol → List (Polynomial K) → Elimination K → Prop)
    (hinconsistent : ∀ unknowns polys, Pre unknowns polys →
      standing unknowns polys = .inconsistent → Post unknowns polys .inconsistent)
    (hsettled : ∀ unknowns polys, Pre unknowns polys →
      standing unknowns polys = .settled false → Post unknowns polys (.solved [∅]))
    (hunknown : ∀ unknowns polys, Post unknowns polys .unknown)
    (hsplit : ∀ rounds, (∀ unknowns polys, Pre unknowns polys →
        Yields (Post unknowns polys) (eliminate fallback numerics settings rounds unknowns polys)) →
      ∀ unknowns polys active index symbol values, Pre unknowns polys →
        standing unknowns polys = .active active →
        Chosen numerics settings unknowns active (.split index symbol values) →
        Yields (Post unknowns polys) (splitOn settings.residualTolerance
          (eliminate fallback numerics settings rounds) unknowns symbol (others index active)
          values []))
    (hexpress : ∀ rounds, (∀ unknowns polys, Pre unknowns polys →
        Yields (Post unknowns polys) (eliminate fallback numerics settings rounds unknowns polys)) →
      ∀ unknowns polys active index symbol slope offset, Pre unknowns polys →
        standing unknowns polys = .active active →
        Chosen numerics settings unknowns active (.express index symbol slope offset) →
        Yields (Post unknowns polys) (expressOn settings.residualTolerance
          (eliminate fallback numerics settings rounds) unknowns symbol slope offset
          (others index active)))
    (hfallback : ∀ unknowns polys active, Pre unknowns polys →
      standing unknowns polys = .active active →
      Yields (Post unknowns polys) (fallback unknowns active)) (rounds : Nat) :
    ∀ unknowns polys, Pre unknowns polys →
      Yields (Post unknowns polys)
        (eliminate fallback numerics settings rounds unknowns polys) := by
  induction rounds with
  | zero =>
      intro unknowns polys hpre
      unfold eliminate
      split
      · rename_i hstanding
        exact .pure (hinconsistent unknowns polys hpre hstanding)
      · exact .pure (hunknown unknowns polys)
      · rename_i hstanding
        exact .pure (hsettled unknowns polys hpre hstanding)
      · exact .pure (hunknown unknowns polys)
  | succ rounds ih =>
      intro unknowns polys hpre
      unfold eliminate
      split
      · rename_i hstanding
        exact .pure (hinconsistent unknowns polys hpre hstanding)
      · exact .pure (hunknown unknowns polys)
      · rename_i hstanding
        exact .pure (hsettled unknowns polys hpre hstanding)
      · rename_i active hstanding
        refine Yields.bind (chosen_chooseMove numerics settings unknowns active)
          (fun move hmove => ?_)
        cases move with
        | split index symbol values =>
            exact hsplit _ ih unknowns polys active index symbol values hpre hstanding hmove
        | express index symbol slope offset =>
            exact hexpress _ ih unknowns polys active index symbol slope offset hpre hstanding hmove
        | search => exact hfallback unknowns polys active hpre hstanding

end Ramify.Elimination
