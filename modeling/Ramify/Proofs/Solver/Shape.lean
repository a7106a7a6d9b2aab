import Ramify.Proofs.Algebra.Normal
import Ramify.Proofs.Scalar.Binary64
import Ramify.Proofs.Solver.Denial
import Ramify.Proofs.Solver.Echelon

/-!
The shape of an answer. Whichever way the candidates of an answer are found, by rows, by elimination
or by a search, and over whatever type of numbers, they are different from each other, give values
to unknowns that were asked for, and are in solved form. Those without unknowns have been put into
the relations, and the two sides were not found to be too far apart. So they are close to each other
where their distance, and the bound on it, are numbers, as they always are over exact numbers.
-/

namespace Ramify

variable {K : Type} [Scalar K] {unknowns : List Symbol}

/-- How far two values may be apart. -/
def residualBound (tolerance left right : K) : K :=
  tolerance * Scalar.max 1 (Scalar.abs left + Scalar.abs right)

/-- A relation that is defined at a candidate, and that holds there within a tolerance if nothing
but quantities is left. Between two infinite values there is no distance, and there may be no bound.
-/
def Relation.AgreesAt (tolerance : K) (candidate : Solution K) (r : Relation K) : Prop :=
  ∃ lhs rhs, r.lhs.subst candidate = .ok lhs ∧ r.rhs.subst candidate = .ok rhs ∧
    (lhs.isQuantity = true → rhs.isQuantity = true →
      ∃ left right, Units.baseValue lhs = .ok (some left) ∧
        Units.baseValue rhs = .ok (some right) ∧
        (Scalar.isNaN (Scalar.abs (left - right)) = false →
          Scalar.isNaN (residualBound tolerance left right) = false →
          Scalar.abs (left - right) ≤ residualBound tolerance left right))

/-- What can be relied on where a candidate for unknowns is put to use. -/
structure Presentable (tolerance : K) (relations : List (Relation K)) (unknowns : List Symbol)
    (candidate : Solution K) : Prop where
  nonempty : candidate.isEmpty = false
  asked : ∀ key ∈ candidate.keys, key ∈ unknowns
  /-- Nothing that has a value occurs in a value. -/
  solved : ∀ key ∈ candidate.keys, ∀ entry ∈ candidate.entries, key ∉ entry.2.symbols
  /-- Once the candidate has been substituted, there is nothing left to replace. -/
  replaced : ∀ a b : Fraction K, a.subst candidate = .ok b → ∀ key ∈ candidate.keys, key ∉ b.symbols
  /-- To substitute it again is to substitute nothing. -/
  again : ∀ a b : Fraction K, a.subst candidate = .ok b → b.subst candidate = b.subst ∅
  /-- Where calculation is exact, to substitute it once is to substitute it repeatedly. -/
  once : Scalar.IsExact K → ∀ a b : Fraction K, a.subst candidate = .ok b →
    b.subst candidate = .ok b
  checked : (∀ entry ∈ candidate.entries, entry.2.unknowns = []) →
    ∀ r ∈ relations, r.AgreesAt tolerance candidate

/-- An answer whose candidates are in solved form, none of them empty. -/
def Answer.InSolvedForm : Answer K → Prop
  | .solved candidates => ∀ candidate ∈ candidates,
      SolvedForm (fun _ => True) candidate ∧ candidate.isEmpty = false
  | .noSolution | .indeterminate => True

namespace Solver

section Verification

variable [Scalar.Comparable K] {tolerance : K} {candidate : Solution K}
  {relations : List (Relation K)}

/-- The two sides of a relation that a candidate passes are defined, and close to each other. -/
theorem agreesAt_of_holdsAt {r : Relation K} (h : holdsAt tolerance candidate r = .ok true) :
    r.AgreesAt tolerance candidate := by
  have hdefined {a : Fraction K} {b : Fraction K}
      (hlift : (Failure.liftAlgebra (a.subst candidate) : Except (Failure K) (Fraction K)) =
        .ok b) :
      a.subst candidate = .ok b := by
    cases hsubst : a.subst candidate with
    | error cause =>
        rw [hsubst] at hlift
        cases hlift
    | ok value =>
        rw [hsubst] at hlift
        cases hlift
        rfl
  unfold holdsAt at h
  obtain ⟨lhs, hlhs, h⟩ := except_bind_eq_ok.1 h
  obtain ⟨rhs, hrhs, h⟩ := except_bind_eq_ok.1 h
  refine ⟨lhs, rhs, hdefined hlhs, hdefined hrhs, fun hleft hright => ?_⟩
  rw [hleft, hright, Bool.and_self, if_pos rfl] at h
  obtain ⟨left?, hleftValue, h⟩ := except_bind_eq_ok.1 h
  obtain ⟨right?, hrightValue, h⟩ := except_bind_eq_ok.1 h
  have hagree : agree tolerance left? right? = true := Except.ok.inj h
  cases left? with
  | none => cases hagree
  | some left =>
      cases right? with
      | none => cases hagree
      | some right =>
          refine ⟨left, right, hleftValue, hrightValue, fun hresidual hbound => ?_⟩
          have hnot : ¬residualBound tolerance left right < Scalar.abs (left - right) :=
            of_decide_eq_false ((Bool.not_eq_true' _).mp hagree)
          exact Scalar.Comparable.le_of_not_lt hresidual hbound hnot

theorem agreesAt_of_allHold (h : allHold tolerance candidate relations = .ok true) :
    ∀ r ∈ relations, r.AgreesAt tolerance candidate := by
  induction relations with
  | nil => exact List.forall_mem_nil _
  | cons first rest ih =>
      unfold allHold at h
      split at h
      · rename_i hfirst
        exact List.forall_mem_cons.2 ⟨agreesAt_of_holdsAt hfirst, ih h⟩
      · cases h
      · split at h
        · cases h
        · cases h

/-- The relations have been looked at if no unknown is left in a confirmed candidate. -/
theorem agreesAt_of_confirms (h : confirms tolerance relations candidate = .ok true)
    (hnumbers : ∀ entry ∈ candidate.entries, entry.2.unknowns = []) :
    ∀ r ∈ relations, r.AgreesAt tolerance candidate := by
  unfold confirms at h
  rw [if_neg] at h
  · exact agreesAt_of_allHold h
  · intro hany
    obtain ⟨entry, hentry, hunknowns⟩ := List.any_eq_true.1 hany
    rw [hnumbers entry hentry] at hunknowns
    cases hunknowns

omit [Scalar.Comparable K] in
/-- Verification keeps confirmed candidates out of those that it is given, each once. -/
theorem kept_verify {Q : Solution K → Prop} (settings : SolverSettings K)
    (relations : List (Relation K)) (candidates verified : List (Solution K))
    (hcandidates : ∀ candidate ∈ candidates, Q candidate)
    (hverified : ∀ candidate ∈ verified, Q candidate ∧
      confirms settings.residualTolerance relations candidate = .ok true)
    (hdistinct : verified.Pairwise (fun a b => (b == a) = false)) :
    Yields (fun kept => (∀ candidate ∈ kept, Q candidate ∧
        confirms settings.residualTolerance relations candidate = .ok true) ∧
        kept.Pairwise (fun a b => (b == a) = false))
      (verify settings relations candidates verified) := by
  induction candidates generalizing verified with
  | nil => exact .pure ⟨hverified, hdistinct⟩
  | cons first rest ih =>
      obtain ⟨hfirst, hrest⟩ := List.forall_mem_cons.1 hcandidates
      unfold verify
      split
      · exact .throw _
      · dsimp only
        split
        · exact .bind (Q := fun _ => True) (fun _ _ _ _ => trivial)
            (fun _ _ => ih verified hrest hverified hdistinct)
        · exact ih verified hrest hverified hdistinct
      · rename_i hconfirms
        split
        · exact ih verified hrest hverified hdistinct
        · rename_i hnew
          apply ih _ hrest
          · exact List.forall_mem_append.2 ⟨hverified,
              List.forall_mem_singleton.2 ⟨hfirst, hconfirms⟩⟩
          · refine List.pairwise_append.2 ⟨hdistinct, List.pairwise_singleton _ _, ?_⟩
            intro a ha b hb
            rw [List.mem_singleton.1 hb]
            rw [List.contains_eq_any_beq, Bool.not_eq_true, List.any_eq_false] at hnew
            simpa using hnew a ha

end Verification

section Answers

variable {settings : SolverSettings K} {polys : List (Polynomial K)}

theorem inSolvedForm_linearAnswer (hunits : ∀ s ∈ unknowns, s.isUnit = false)
    (hdistinct : unknowns.Nodup) (hlinear : Linear.applies unknowns polys = true) :
    Yields Answer.InSolvedForm (linearAnswer settings unknowns polys) := by
  refine Yields.bind (Elimination.yields_lift _) (fun outcome houtcome => ?_)
  cases outcome with
  | undetermined => exact .pure trivial
  | inconsistent residue => exact yields_tell _ _ trivial
  | solved solution =>
      exact .pure (List.forall_mem_singleton.2
        (Linear.solvedForm_solve hunits hdistinct hlinear houtcome))

omit [Scalar K] in
/-- Polynomials in which no unknown occurs are linear. -/
theorem applies_of_isQuantity (hunits : ∀ s ∈ unknowns, s.isUnit = false)
    (h : ∀ p ∈ polys, p.isQuantity = true) : Linear.applies unknowns polys = true := by
  unfold Linear.applies
  refine List.all_eq_true.2 fun p hp => List.all_eq_true.2 fun m hm => ?_
  have hnone : m.exponents.entries.filter (fun entry => unknowns.contains entry.1) = [] := by
    rw [List.filter_eq_nil_iff]
    intro entry hentry hmem
    have hunit := PurePower.unitsOnly_entry
      (PurePower.unitsOnly_of_isQuantity (h p hp) hm) hentry
    rw [hunits entry.1 (List.contains_iff_mem.1 hmem)] at hunit
    cases hunit
  rw [hnone]
  rfl

theorem inSolvedForm_eliminationAnswer (numerics : Numerics K) (settings : SolverSettings K)
    (hunits : ∀ s ∈ unknowns, s.isUnit = false)
    (hunlinear : ¬Linear.applies unknowns polys = true) :
    Yields Answer.InSolvedForm (eliminationAnswer (Elimination.search numerics settings) numerics
      settings unknowns polys) := by
  have hunclear : ∃ p ∈ polys, p.isQuantity = false := by
    by_contra hnone
    refine hunlinear (applies_of_isQuantity hunits fun p hp => ?_)
    by_contra hp'
    exact hnone ⟨p, hp, by simpa using hp'⟩
  refine Yields.bind (Elimination.shaping_eliminate (Elimination.shaping_search numerics settings)
    numerics settings rounds (fun _ => True) unknowns polys (fun _ _ => trivial) hunits
    (fun _ _ _ _ _ _ => trivial)) (fun outcome houtcome => ?_)
  cases outcome with
  | inconsistent => exact .pure trivial
  | unknown => exact .pure trivial
  | solved solutions =>
      refine .pure ?_
      cases solutions with
      | nil => trivial
      | cons first rest =>
          exact fun solution hsolution =>
            (houtcome solution hsolution).imp_right fun hnonempty => hnonempty hunclear

/-- An answer with candidates has some, all different, in solved form and confirmed. -/
def Concluded (tolerance : K) (relations : List (Relation K)) : Answer K → Prop
  | .solved candidates =>
      candidates ≠ [] ∧ candidates.Pairwise (fun a b => (b == a) = false) ∧
        ∀ candidate ∈ candidates,
          (SolvedForm (fun _ => True) candidate ∧ candidate.isEmpty = false) ∧
            confirms tolerance relations candidate = .ok true
  | .noSolution | .indeterminate => True

theorem concluded_conclude (settings : SolverSettings K) (relations : List (Relation K))
    {answer : Answer K} (h : answer.InSolvedForm) :
    Yields (Concluded settings.residualTolerance relations)
      (conclude settings relations answer) := by
  cases answer with
  | noSolution => exact yields_tell _ _ trivial
  | indeterminate => exact yields_tell _ _ trivial
  | solved candidates =>
      refine Yields.bind (kept_verify settings relations candidates [] h (List.forall_mem_nil _)
        List.Pairwise.nil) (fun verified hverified => yields_tell _ _ ?_)
      cases verified with
      | nil => trivial
      | cons first rest => exact ⟨List.cons_ne_nil first rest, hverified.2, hverified.1⟩

theorem concluded_solve (numerics : Numerics K) (settings : SolverSettings K)
    (relations : List (Relation K)) (hunits : ∀ s ∈ unknowns, s.isUnit = false)
    (hdistinct : unknowns.Nodup) :
    Yields (Concluded settings.residualTolerance relations)
      (solve numerics settings relations unknowns) := by
  unfold solve solveWith
  split
  · exact .pure trivial
  refine Yields.bind (Elimination.yields_lift _) (fun polys _ => ?_)
  split
  · exact .pure trivial
  split
  · rename_i hlinear
    exact .bind (inSolvedForm_linearAnswer hunits hdistinct hlinear)
      (fun answer hanswer => concluded_conclude settings relations hanswer)
  · rename_i hunlinear
    exact .bind (inSolvedForm_eliminationAnswer numerics settings hunits hunlinear)
      (fun answer hanswer => concluded_conclude settings relations hanswer)

end Answers

section Values

def candidatesOf (answer : Except (Failure K) (Answer K)) : List (Solution K) :=
  match answer with
  | .ok (.solved candidates) => candidates
  | _ => []

omit [Scalar K] in
theorem eq_solved {answer : Except (Failure K) (Answer K)} (h : candidatesOf answer ≠ []) :
    answer = .ok (.solved (candidatesOf answer)) := by
  unfold candidatesOf at h ⊢
  split at h
  · rfl
  · exact absurd rfl h

/-- The values in base units that the two sides of a relation have at a candidate. -/
def valuesAt (candidate : Solution K) (r : Relation K) : Option (K × K) :=
  match r.lhs.subst candidate, r.rhs.subst candidate with
  | .ok lhs, .ok rhs =>
    if lhs.isQuantity && rhs.isQuantity then
      match Units.baseValue lhs, Units.baseValue rhs with
      | .ok (some left), .ok (some right) => some (left, right)
      | _, _ => none
    else none
  | _, _ => none

/-- Where calculation is exact, to substitute nothing into what a substitution has left changes
nothing. -/
theorem subst_nothing (hexact : Scalar.IsExact K) {candidate : Solution K} {a b : Fraction K}
    (h : a.subst candidate = .ok b) : b.subst ∅ = .ok b := by
  obtain ⟨exact, rfl⟩ := hexact
  unfold Fraction.subst at h
  obtain ⟨num, _, h⟩ := except_bind_eq_ok.1 h
  obtain ⟨den, _, hdiv⟩ := except_bind_eq_ok.1 h
  exact (Fraction.reduced_div hdiv).subst_of_disjoint (Fraction.over_iff.2 fun _ _ => rfl)

section Exact

variable {E : Type} [ExactScalar E] {candidate : Solution E} {r : Relation E} {tolerance : E}

/-- Over exact numbers the bound holds wherever the two sides have values. -/
theorem residual_le_of_agreesAt (h : r.AgreesAt tolerance candidate) {left right : E}
    (hvalues : valuesAt candidate r = some (left, right)) :
    |left - right| ≤ residualBound tolerance left right := by
  obtain ⟨lhs, rhs, hlhs, hrhs, hclose⟩ := h
  unfold valuesAt at hvalues
  rw [hlhs, hrhs] at hvalues
  dsimp only at hvalues
  split at hvalues
  · rename_i hquantities
    obtain ⟨hleft, hright⟩ := Bool.and_eq_true_iff.1 hquantities
    obtain ⟨x, y, hx, hy, hbound⟩ := hclose hleft hright
    rw [hx, hy] at hvalues
    cases hvalues
    rw [← ExactScalar.scalar_abs]
    exact hbound (ExactScalar.isNaN_eq _) (ExactScalar.isNaN_eq _)
  · cases hvalues

end Exact

end Values

section Statement

/-- The candidates of an answer are different from each other, and each of them can be put to
use. -/
theorem solved_answer_is_presentable [Scalar.Comparable K] (numerics : Numerics K)
    (settings : SolverSettings K) (relations : List (Relation K))
    (hunits : ∀ s ∈ unknowns, s.isUnit = false) (hdistinct : unknowns.Nodup)
    {state after : SolverState} {candidates : List (Solution K)}
    (h : outcome (solve numerics settings relations unknowns) state =
      (.ok (.solved candidates), after)) :
    candidates ≠ [] ∧ candidates.Pairwise (fun a b => (b == a) = false) ∧
      ∀ candidate ∈ candidates,
        Presentable settings.residualTolerance relations unknowns candidate := by
  obtain ⟨hsome, hdifferent, hshape⟩ :=
    concluded_solve numerics settings relations hunits hdistinct state _ after h
  refine ⟨hsome, hdifferent, fun candidate hcandidate => ?_⟩
  obtain ⟨⟨hsolved, hnonempty⟩, hconfirms⟩ := hshape candidate hcandidate
  have hfor : CandidateFor unknowns candidate :=
    among_solve numerics settings relations unknowns state _ after h candidate hcandidate
  have hkey {key : Symbol} (hkey : key ∈ candidate.keys) :
      ∃ value, candidate.find? key = some value := by
    obtain ⟨entry, hentry, rfl⟩ := List.mem_map.1 hkey
    exact ⟨entry.2, (SortedMap.mem_entries_iff _ entry).1 hentry⟩
  have habsent {a : Fraction K} (ha : a.Over (fun s => True ∧ candidate.find? s = none)) :
      ∀ key ∈ candidate.keys, key ∉ a.symbols := by
    intro key hmem hoccurs
    obtain ⟨value, hvalue⟩ := hkey hmem
    rw [(Fraction.over_iff.1 ha key hoccurs).2] at hvalue
    cases hvalue
  have hagain {a b : Fraction K} (hsubst : a.subst candidate = .ok b) :
      b.subst candidate = b.subst ∅ := by
    have hfree := hsolved.subst (Fraction.over_iff.2 fun _ _ => trivial) hsubst
    exact (hfree.imp fun _ hs => hs.2).subst_congr
  exact {
    nonempty := hnonempty
    asked := fun key hmem => by
      obtain ⟨value, hvalue⟩ := hkey hmem
      exact (hfor key value hvalue).1
    solved := fun key hmem entry hentry =>
      habsent (hsolved entry.1 entry.2 ((SortedMap.mem_entries_iff _ entry).1 hentry)).2 key hmem
    replaced := fun a b hsubst =>
      habsent (hsolved.subst (Fraction.over_iff.2 fun _ _ => trivial) hsubst)
    again := fun _ _ => hagain
    once := fun hexact _ _ hsubst => (hagain hsubst).trans (subst_nothing hexact hsubst)
    checked := agreesAt_of_confirms hconfirms }

def second : Symbol := ⟨"y", false⟩

/-- The relations that the square of a number is four, and that another number is its successor. -/
def squareAndSuccessor : List (Relation Rat) :=
  [⟨.ofMonomial (.single 1 unknown 2), .const 4, ""⟩,
    ⟨.ofSymbol second, .ofPolynomial (.ofSymbol unknown + 1), ""⟩]

/-- Two pairs of numbers are found. Both are checked: each relation holds exactly. To substitute
them twice is to substitute them once. -/
theorem square_and_successor_are_presentable :
    let run := outcome (solve Methods.standard Rational.settings squareAndSuccessor
      [unknown, second]) (start 42)
    let candidates := candidatesOf run.1
    candidates.length = 2 ∧ ∀ candidate ∈ candidates,
      Presentable Rational.settings.residualTolerance squareAndSuccessor [unknown, second]
        candidate ∧
      (∀ a b : Fraction Rat, a.subst candidate = .ok b → b.subst candidate = .ok b) ∧
      ∀ r ∈ squareAndSuccessor, ∃ left right, valuesAt candidate r = some (left, right) ∧
        |left - right| ≤ residualBound Rational.settings.residualTolerance left right := by
  intro run candidates
  have hlength : candidates.length = 2 := by decide +kernel
  have hsome : candidates ≠ [] := List.ne_nil_of_length_eq_add_one hlength
  have hrun : run = (.ok (.solved candidates), run.2) := Prod.ext (eq_solved hsome) rfl
  obtain ⟨_, _, hpresentable⟩ := solved_answer_is_presentable Methods.standard Rational.settings
    squareAndSuccessor (by decide) (by decide) hrun
  have hmeasured : ∀ candidate ∈ candidates, (∀ entry ∈ candidate.entries,
      entry.2.unknowns = []) ∧ ∀ r ∈ squareAndSuccessor,
        (valuesAt candidate r).isSome = true := by decide +kernel
  refine ⟨hlength, fun candidate hcandidate => ?_⟩
  have hholds := hpresentable candidate hcandidate
  refine ⟨hholds, hholds.once ExactScalar.isExact, fun r hr => ?_⟩
  obtain ⟨hnumbers, hvalued⟩ := hmeasured candidate hcandidate
  obtain ⟨⟨left, right⟩, hvalues⟩ := Option.isSome_iff_exists.1 (hvalued r hr)
  exact ⟨left, right, hvalues, residual_le_of_agreesAt (hholds.checked hnumbers r hr) hvalues⟩

/-- The relation that a large number divided by an unknown is a smaller one divided by its
square. -/
def largeQuotients : List (Relation Binary64) :=
  [⟨⟨.const 1e300, .ofSymbol unknown⟩, ⟨.const 1e290, .ofMonomial (.single 1 unknown 2)⟩, ""⟩]

def unity : List (Relation Binary64) := [⟨.ofSymbol unknown, .const 1, ""⟩]

/-- Whether an answer has a candidate without unknowns at which the two sides of a relation are
further apart than the bound allows. -/
def exceeds (tolerance : K) (relations : List (Relation K))
    (answer : Except (Failure K) (Answer K)) : Bool :=
  (candidatesOf answer).any (fun candidate =>
    candidate.entries.all (fun entry => entry.2.unknowns.isEmpty) &&
      relations.any (fun r =>
        match valuesAt candidate r with
        | some (left, right) =>
          !decide (Scalar.abs (left - right) ≤ residualBound tolerance left right)
        | none => false))

/-- Both sides of a relation can become infinite at a candidate, and a tolerance may be given that
is not a number. Then there is no residual, or no bound, and the candidate is kept all the same. -/
theorem missing_residual_is_accepted :
    exceeds SolverSettings.standard.residualTolerance largeQuotients
      (outcome (solve Methods.standard .standard largeQuotients [unknown]) (start 42)).1 = true ∧
    exceeds Scalar.nan unity (outcome (solve Methods.standard
      { SolverSettings.standard with residualTolerance := Scalar.nan } unity [unknown])
      (start 42)).1 = true := by
  constructor <;> decide +kernel

/-- A fraction of which a term has a coefficient far below that of another one. -/
def distantTerms : Fraction Binary64 :=
  ⟨.ofTerms [.single 1e-200 second 1, .single 1 unknown 1],
    .ofTerms [.single 1e200 ⟨"z", false⟩ 1, .const 1]⟩

def changesAgain (a : Fraction K) (candidate : Solution K) : Bool :=
  match a.subst candidate with
  | .ok once =>
    match once.subst candidate with
    | .ok twice => !(twice == once)
    | .error _ => false
  | .error _ => false

/-- Where calculation rounds, to substitute once is not to substitute repeatedly: a coefficient that
has become zero stays in a fraction until the next calculation. -/
theorem second_substitution_drops_vanished_term :
    (candidatesOf (outcome (solve Methods.standard .standard unity [unknown]) (start 42)).1).any
      (changesAgain distantTerms) = true := by
  decide +kernel

end Statement

end Solver

end Ramify
