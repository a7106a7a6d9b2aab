import Ramify.Proofs.Solver.Elimination

/-!
What holds of every solution of an elimination. A move puts values into the solutions of the rounds
within, so it is enough to look at what they become; the way through the values of a split, and the
two cases of an expressed symbol, are the same for all properties.
-/

namespace Ramify.Elimination

variable {K : Type} {Q R : Solution K → Prop}

/-- Every solution of an elimination has a property. -/
def Every (Q : Solution K → Prop) : Elimination K → Prop
  | .solved solutions => ∀ solution ∈ solutions, Q solution
  | .inconsistent | .unknown => True

theorem Every.imp {result : Elimination K} (h : Every Q result)
    (himp : ∀ solution, Q solution → R solution) : Every R result := by
  cases result with
  | unknown => trivial
  | inconsistent => trivial
  | solved solutions => exact fun solution hsolution => himp solution (h solution hsolution)

theorem Every.and {result : Elimination K} (hleft : Every Q result) (hright : Every R result) :
    Every (fun solution => Q solution ∧ R solution) result := by
  cases result with
  | unknown => trivial
  | inconsistent => trivial
  | solved solutions =>
      exact fun solution hsolution => ⟨hleft solution hsolution, hright solution hsolution⟩

theorem every_ofSolutions {solutions : List (Solution K)}
    (h : ∀ solution ∈ solutions, Q solution) : Every Q (ofSolutions solutions) := by
  cases solutions with
  | nil => trivial
  | cons first rest => exact h

theorem every_either {left right : Elimination K} (hleft : Every Q left) (hright : Every Q right) :
    Every Q (either left right) := by
  cases left with
  | unknown => trivial
  | inconsistent => cases right <;> exact hright
  | solved solutions =>
      cases right with
      | unknown => trivial
      | inconsistent => exact hleft
      | solved more =>
          intro solution hsolution
          exact (List.mem_append.1 hsolution).elim (hleft solution) (hright solution)

variable [Scalar K] {tolerance : K} {next : Continuation K} {unknowns : List Symbol}
  {symbol : Symbol} {rest : List (Polynomial K)}

/-- What holds of the solutions of a split: each value is put into the solutions of what is left. -/
theorem every_splitOn (values : List (Fraction K)) {found : List (Solution K)}
    (hnext : ∀ value ∈ values, ∀ reduced,
      rest.mapM (reduce tolerance (.single symbol value)) = .ok reduced →
      Yields (Every (fun solution => Q (solution.insert symbol value)))
        (next (unknowns.filter (· ≠ symbol)) reduced))
    (hfound : ∀ solution ∈ found, Q solution) :
    Yields (Every Q) (splitOn tolerance next unknowns symbol rest values found) := by
  induction values generalizing found with
  | nil => exact .pure (every_ofSolutions hfound)
  | cons value values ih =>
      obtain ⟨hvalue, hvalues⟩ := List.forall_mem_cons.1 hnext
      unfold splitOn
      cases hreduced : rest.mapM (reduce tolerance (.single symbol value)) with
      | error cause =>
          dsimp only
          split
          · exact ih hvalues hfound
          · exact .throw _
      | ok reduced =>
          refine Yields.bind (hvalue reduced hreduced) (fun outcome houtcome => ?_)
          cases outcome with
          | unknown => exact .pure trivial
          | inconsistent => exact ih hvalues hfound
          | solved solutions =>
              apply ih hvalues
              intro solution hsolution
              rcases List.mem_append.1 hsolution with hold | hnew
              · exact hfound solution hold
              · obtain ⟨before, hbefore, rfl⟩ := List.mem_map.1 hnew
                exact houtcome before hbefore

/-- A completed solution is one of the given ones, with the value of the symbol put in. -/
theorem mem_complete {value : Fraction K} {solutions completed : List (Solution K)}
    (h : complete symbol value solutions = .ok completed) {solution : Solution K}
    (hmem : solution ∈ completed) :
    ∃ before ∈ solutions, ∃ a result, value.subst before = .ok a ∧ a.canonical = .ok result ∧
      solution = before.insert symbol result := by
  induction solutions generalizing completed with
  | nil =>
      cases h
      cases hmem
  | cons first others ih =>
      have hlater {more : List (Solution K)} (hmore : complete symbol value others = .ok more)
          (hin : solution ∈ more) : ∃ before ∈ first :: others, ∃ a result,
            value.subst before = .ok a ∧ a.canonical = .ok result ∧
              solution = before.insert symbol result := by
        obtain ⟨before, hbefore, hresult⟩ := ih hmore hin
        exact ⟨before, List.mem_cons_of_mem first hbefore, hresult⟩
      unfold complete at h
      split at h
      · rename_i result hresult
        obtain ⟨more, hmore, h⟩ := except_bind_eq_ok.1 h
        cases h
        rcases List.mem_cons.1 hmem with rfl | hin
        · obtain ⟨a, hsubst, hcanonical⟩ := except_bind_eq_ok.1 hresult
          exact ⟨first, List.mem_cons_self, a, result, hsubst, hcanonical, rfl⟩
        · exact hlater hmore hin
      · split at h
        · exact hlater h hmem
        · cases h

/-- What holds of the solutions after a substitution: they are those of what is left, with the value
of the expressed symbol put in. -/
theorem every_substitute {value : Fraction K}
    (hnext : ∀ reduced, rest.mapM (reduce tolerance (.single symbol value)) = .ok reduced →
      Yields (Every (fun solution => ∀ a result, value.subst solution = .ok a →
        a.canonical = .ok result → Q (solution.insert symbol result)))
        (next (unknowns.filter (· ≠ symbol)) reduced)) :
    Yields (Every Q) (substitute tolerance next unknowns symbol value rest) := by
  unfold substitute
  refine Yields.bind (yields_lift _) (fun reduced hreduced => ?_)
  refine Yields.bind (hnext reduced hreduced) (fun outcome houtcome => ?_)
  cases outcome with
  | unknown => exact .pure trivial
  | inconsistent => exact .pure trivial
  | solved solutions =>
      refine Yields.bind (yields_lift _) (fun completed hcompleted => ?_)
      refine .pure (every_ofSolutions fun solution hsolution => ?_)
      obtain ⟨before, hbefore, a, result, hsubst, hcanonical, rfl⟩ :=
        mem_complete hcompleted hsolution
      exact houtcome before hbefore a result hsubst hcanonical

/-- What holds of the solutions where a symbol is expressed: it holds in the regular case, and in
the case that slope and offset vanish if that is looked at. -/
theorem every_expressOn {slope offset : Polynomial K}
    (hregular : ∀ value, (Fraction.ofPolynomial (-offset)).div (.ofPolynomial slope) = .ok value →
      Yields (Every Q) (substitute tolerance next unknowns symbol value rest))
    (hvanishing : slope.isQuantity = false →
      Yields (Every Q) (next unknowns (rest ++ [slope, offset]))) :
    Yields (Every Q) (expressOn tolerance next unknowns symbol slope offset rest) := by
  unfold expressOn
  refine Yields.bind (yields_lift _) (fun value hvalue => ?_)
  refine Yields.bind (hregular value hvalue) (fun regular hregular => ?_)
  split
  · exact .pure hregular
  · rename_i hcan
    simp only [Bool.or_eq_true, not_or, Bool.not_eq_true] at hcan
    refine Yields.bind (hvanishing hcan.2) (fun vanishing hvanishing => ?_)
    exact .pure (every_either hregular hvanishing)

end Ramify.Elimination
