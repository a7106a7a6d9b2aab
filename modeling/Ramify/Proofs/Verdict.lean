import Ramify.Proofs.Algebra.Equality
import Ramify.Proofs.Algebra.Evaluation
import Ramify.Proofs.Units.Tables
import Ramify.Proofs.Worksheet.Rational

/-!
What verdicts mean over exact numbers. A relation with unknowns is redundant exactly if its sides
are equal as functions, whatever the judge has seen. A quantity is compared on numbers, also with
itself, and its value counts as missing if its denominator is below the resolution of the numbers;
so identical sides are redundant unless this happens under one of the two tables.
-/

namespace Ramify

namespace FactorTable

section Points

variable {K : Type} [Scalar K]

/-- Whether a table has factors for a quantity, or draws those that it does not have. -/
def Assigns (table : FactorTable K) (a : Fraction K) : Prop :=
  ∃ point after, outcome (pointOf a) table = (.ok point, after)

end Points

variable {K : Type} [ExactScalar K]

/-- Whether moreover the denominator of the quantity is not below the resolution under them. -/
def Resolves (table : FactorTable K) (a : Fraction K) : Prop :=
  ∃ point after, outcome (pointOf a) table = (.ok point, after) ∧
    Scalar.resolution ≤ |a.den.value (assignment point)|

theorem Resolves.assigns {table : FactorTable K} {a : Fraction K} (h : table.Resolves a) :
    table.Assigns a := by
  obtain ⟨point, after, hpoint, _⟩ := h
  exact ⟨point, after, hpoint⟩

theorem resolves_iff {table after : FactorTable K} {a : Fraction K} {point : SortedMap Symbol K}
    (h : outcome (pointOf a) table = (.ok point, after)) :
    table.Resolves a ↔ Scalar.resolution ≤ |a.den.value (assignment point)| := by
  constructor
  · rintro ⟨other, after', hother, hlarge⟩
    rw [h] at hother
    cases hother
    exact hlarge
  · exact fun hlarge => ⟨point, after, h, hlarge⟩

end FactorTable

namespace Rational

/-- The unit of a thousandth. It has no dimension, so that no factor is drawn for it. -/
def permille : Symbol := .unit "permille"

def inversePower (exponent : Int) : Fraction Rat :=
  ⟨1, ⟨[.single 1 permille exponent], List.pairwise_singleton _ _⟩⟩

theorem outcome_pointOf_permille {a : Fraction Rat} (h : a.symbols = [permille])
    (table : FactorTable Rat) :
    outcome (FactorTable.pointOf a) table = (.ok (.single permille 1e-3), table) := by
  have hfind : Units.find? (K := Rat) "permille" = some ⟨1e-3, ∅⟩ := rfl
  unfold FactorTable.pointOf FactorTable.factor
  rw [h]
  simp only [List.foldlM_cons, List.foldlM_nil, permille, Symbol.unit]
  rw [hfind]
  rfl

/-- Seeds eleven and twelve have a judge without tolerance. -/
theorem exists_judge_of_seeds :
    ∃ judge : Judge Rat, Judge.create 11 12 0.2 0 = .ok judge ∧ judge.tolerance = 0 := by
  obtain ⟨first, hfirst⟩ := exists_table 11
  obtain ⟨second, hsecond⟩ := exists_table 12
  refine ⟨⟨first, second, 0, .none⟩, ?_, rfl⟩
  unfold Judge.create
  rw [hfirst, hsecond]
  rfl

end Rational

namespace SmallestSize

variable {K : Type} [ExactScalar K]

theorem value_observe_nonneg {smallest : SmallestSize K} (h : 0 ≤ smallest.value) (coeff : K) :
    0 ≤ (smallest.observe coeff).value := by
  have hsize : 0 ≤ Scalar.abs coeff := by
    rw [ExactScalar.scalar_abs]
    exact abs_nonneg coeff
  unfold observe
  dsimp only
  split
  · exact h
  · split
    · exact hsize
    · split
      · exact hsize
      · exact h

end SmallestSize

namespace Judge

section Comparison

variable {K : Type} [Scalar K] {judge : Judge K} {a : Fraction K}

/-- The judges there are: new ones, and those that have judged a relation. -/
inductive Arises : Judge K → Prop
  | created {firstSeed secondSeed : UInt32} {spread tolerance : K} {judge : Judge K}
      (h : create firstSeed secondSeed spread tolerance = .ok judge) : Arises judge
  | judged {judge : Judge K} (lhs rhs : Fraction K) (h : Arises judge) :
      Arises (outcome (verdict lhs rhs) judge).2

/-- A failure for which an argument is to blame is taken for disagreement. -/
theorem agreeUnder_of_invalidArgument {table after : FactorTable K} {lhs rhs : Fraction K}
    {failure : Failure K} (judge : Judge K)
    (h : outcome (values lhs rhs) table = (.error failure, after))
    (hkind : failure.isInvalidArgument = true) :
    judge.agreeUnder table lhs rhs = (.ok false, after) := by
  unfold outcome at h
  unfold agreeUnder
  rw [h]
  dsimp only
  rw [hkind]
  rfl

/-- The second evaluation of a quantity gives what the first one did. -/
theorem outcome_values_self {table after : FactorTable K} {point : SortedMap Symbol K}
    (h : outcome (FactorTable.pointOf a) table = (.ok point, after)) :
    outcome (values a a) table =
      match a.eval point with
      | .ok value => (.ok (value, value), after)
      | .error cause => (.error (.algebra cause), after) := by
  have hfirst := FactorTable.outcome_eval h
  unfold values
  cases heval : a.eval point with
  | error cause =>
      rw [heval] at hfirst
      rw [outcome_bind_error _ hfirst]
  | ok value =>
      rw [heval] at hfirst
      have hsecond := (FactorTable.learns_eval a).repeats table value after after hfirst (.refl _)
      rw [outcome_bind_ok _ hfirst, outcome_bind_ok _ hsecond]
      rfl

/-- Without factors for a quantity, its comparison does not succeed. -/
theorem agreeUnder_of_not_assigns {table : FactorTable K} (h : ¬ table.Assigns a)
    (judge : Judge K) : (judge.agreeUnder table a a).1 ≠ .ok true := by
  rcases hpoint : outcome (FactorTable.pointOf a) table with ⟨failure | point, after⟩
  · have hvalues : outcome (values a a) table = (.error failure, after) := by
      unfold values FactorTable.eval
      rw [bind_assoc, outcome_bind_error _ hpoint]
    exact (agreeUnder_of_failure judge hvalues).1
  · exact absurd ⟨point, after, hpoint⟩ h

/-- The verdict on quantities whose comparison succeeds under both tables. The second one is asked
only if they agree under the first. -/
theorem outcome_verdict_of_agreeUnder {lhs rhs : Fraction K} {first second : FactorTable K}
    {agreed agreed' : Bool} (h : (lhs.unknowns.isEmpty && rhs.unknowns.isEmpty) = true)
    (hfirst : judge.agreeUnder judge.first lhs rhs = (.ok agreed, first))
    (hsecond : { judge with first := first }.agreeUnder judge.second lhs rhs =
      (.ok agreed', second)) :
    outcome (verdict lhs rhs) judge =
      (.ok (if agreed && agreed' then .redundant else .contradiction),
        { judge with first := first, second := if agreed then second else judge.second }) := by
  have hrunFirst := outcome_agreeUnderFirst lhs rhs judge
  have hrunSecond := outcome_agreeUnderSecond lhs rhs { judge with first := first }
  rw [hfirst] at hrunFirst
  rw [hsecond] at hrunSecond
  unfold verdict
  rw [if_pos h, outcome_bind_ok _ hrunFirst]
  cases agreed with
  | false => rfl
  | true =>
      simp only [if_true]
      rw [outcome_bind_ok _ hrunSecond]
      cases agreed' <;> rfl

theorem verdict_of_agreeUnder {lhs rhs : Fraction K} {first second : FactorTable K}
    {agreed agreed' : Bool} (h : (lhs.unknowns.isEmpty && rhs.unknowns.isEmpty) = true)
    (hfirst : judge.agreeUnder judge.first lhs rhs = (.ok agreed, first))
    (hsecond : { judge with first := first }.agreeUnder judge.second lhs rhs =
      (.ok agreed', second)) :
    (outcome (verdict lhs rhs) judge).1 =
      .ok (if agreed && agreed' then .redundant else .contradiction) :=
  congrArg Prod.fst (outcome_verdict_of_agreeUnder h hfirst hsecond)

omit [Scalar K] in
theorem isEmpty_unknowns_self (h : a.unknowns = []) :
    (a.unknowns.isEmpty && a.unknowns.isEmpty) = true := by
  rw [h]
  rfl

/-- A quantity that is found equal to itself has factors in both tables. -/
theorem assigns_of_redundant (hunknowns : a.unknowns = [])
    (h : (outcome (verdict a a) judge).1 = .ok .redundant) :
    judge.first.Assigns a ∧ judge.second.Assigns a := by
  rcases verdict_quantities (isEmpty_unknowns_self hunknowns) judge with
    ⟨hne, _⟩ | ⟨first, second, hfirst, hsecond, _⟩
  · exact absurd h hne
  · constructor
    · by_contra hnot
      exact agreeUnder_of_not_assigns hnot judge (congrArg Prod.fst hfirst)
    · by_contra hnot
      exact agreeUnder_of_not_assigns hnot _ (congrArg Prod.fst hsecond)

end Comparison

section Unknowns

variable {K : Type} [ExactField K] {lhs rhs : Fraction K}

theorem exists_difference (hlhs : lhs.Canonical) (hrhs : rhs.Canonical) :
    ∃ gap, difference lhs rhs = .ok gap ∧
      (gap.isZero = true ↔ lhs.num * rhs.den = rhs.num * lhs.den) := by
  unfold difference
  split
  · obtain ⟨gap, hgap, hzero⟩ := hrhs.exists_sub hlhs
    refine ⟨gap, ?_, hzero.trans eq_comm⟩
    rw [hgap, except_ok_bind, (Fraction.canonical_make hgap).canonical_eq]
  · obtain ⟨gap, hgap, hzero⟩ := hlhs.exists_sub hrhs
    refine ⟨gap, ?_, hzero⟩
    rw [hgap, except_ok_bind, (Fraction.canonical_make hgap).canonical_eq]

/-- The verdict on a relation with unknowns, whatever the judge has seen. -/
theorem verdict_of_unknowns (hlhs : lhs.Canonical) (hrhs : rhs.Canonical)
    (h : lhs.unknowns ≠ [] ∨ rhs.unknowns ≠ []) (judge : Judge K) :
    ((outcome (verdict lhs rhs) judge).1 = .ok .redundant ↔
      lhs.num * rhs.den = rhs.num * lhs.den) ∧
    ((outcome (verdict lhs rhs) judge).1 = .ok .usable ↔
      ¬ lhs.num * rhs.den = rhs.num * lhs.den) := by
  have hsome : ¬ (lhs.unknowns.isEmpty && rhs.unknowns.isEmpty) = true := by
    rw [Bool.and_eq_true, List.isEmpty_iff, List.isEmpty_iff]
    rintro ⟨hleft, hright⟩
    exact h.elim (fun hne => hne hleft) (fun hne => hne hright)
  obtain ⟨gap, hgap, hzero⟩ := exists_difference hlhs hrhs
  rw [verdict_unknowns hsome, hgap, ← hzero]
  dsimp only
  split
  · rename_i hgapZero
    exact ⟨⟨fun _ => hgapZero, fun _ => rfl⟩, ⟨nofun, fun hne => absurd hgapZero hne⟩⟩
  · rename_i hgapNonzero
    exact ⟨⟨nofun, fun hgapZero => absurd hgapZero hgapNonzero⟩,
      ⟨fun _ => hgapNonzero, fun _ => rfl⟩⟩

/-- Over an infinite field the difference of two fractions is zero exactly if multiplication
crosswise gives the same polynomial, and exactly if the fractions take the same values. So a
relation with an unknown is redundant exactly if its sides are equal as functions, and usable
otherwise. -/
theorem relations_with_unknowns_are_decided [Infinite K] (hlhs : lhs.Canonical)
    (hrhs : rhs.Canonical) :
    (∃ gap, lhs.sub rhs = .ok gap ∧
      (gap.isZero = true ↔ lhs.num * rhs.den = rhs.num * lhs.den)) ∧
    (lhs.num * rhs.den = rhs.num * lhs.den ↔ lhs.SameValues rhs) ∧
    ∀ judge : Judge K, lhs.unknowns ≠ [] ∨ rhs.unknowns ≠ [] →
      ((outcome (verdict lhs rhs) judge).1 = .ok .redundant ↔ lhs.SameValues rhs) ∧
      ((outcome (verdict lhs rhs) judge).1 = .ok .usable ↔ ¬ lhs.SameValues rhs) := by
  refine ⟨hlhs.exists_sub hrhs, (hlhs.sameValues_iff hrhs).symm, ?_⟩
  intro judge hunknowns
  rw [hlhs.sameValues_iff hrhs]
  exact verdict_of_unknowns hlhs hrhs hunknowns judge

/-- The factor that `x * x - 1` shares with `x - 1` is not cancelled, but the quotient is found
equal to `x + 1`. -/
theorem quotient_with_common_factor_is_redundant :
    let x : Monomial Rat := .ofSymbol ⟨"x", false⟩
    let quotient : Fraction Rat := ⟨.ofTerms [x * x, .const (-1)], .ofTerms [x, .const (-1)]⟩
    let sum : Fraction Rat := ⟨.ofTerms [x, .const 1], 1⟩
    quotient ≠ sum ∧ quotient.SameValues sum ∧
      (outcome (verdict quotient sum) Rational.judge).1 = .ok .redundant := by
  intro x quotient sum
  have hquotient : Fraction.make quotient.num quotient.den = .ok quotient := by decide +kernel
  have hsum : Fraction.make sum.num sum.den = .ok sum := by decide +kernel
  obtain ⟨_, hcross, hverdict⟩ := relations_with_unknowns_are_decided
    (Fraction.canonical_make hquotient) (Fraction.canonical_make hsum)
  have hsame : quotient.SameValues sum := hcross.1 (eq_of_beq (by decide +kernel))
  exact ⟨by decide +kernel, hsame,
    (hverdict Rational.judge (Or.inl (by decide +kernel))).1.2 hsame⟩

end Unknowns

section Quantities

variable {K : Type} [ExactScalar K] {judge : Judge K} {a : Fraction K}

theorem smallest_observe_nonneg (h : 0 ≤ judge.smallest.value) (a : Fraction K) :
    0 ≤ (judge.observe a).smallest.value := by
  have hfold (terms : List (Monomial K)) (smallest : SmallestSize K) (h : 0 ≤ smallest.value) :
      0 ≤ (terms.foldl (fun acc m => acc.observe m.coeff) smallest).value := by
    induction terms generalizing smallest with
    | nil => exact h
    | cons m rest ih => exact ih _ (SmallestSize.value_observe_nonneg h m.coeff)
  exact hfold a.num.terms judge.smallest h

theorem smallest_verdict_nonneg (h : 0 ≤ judge.smallest.value) (lhs rhs : Fraction K) :
    0 ≤ (outcome (verdict lhs rhs) judge).2.smallest.value := by
  by_cases hquantities : (lhs.unknowns.isEmpty && rhs.unknowns.isEmpty) = true
  · rcases verdict_quantities hquantities judge with
      ⟨_, _, _, _, _, hsmallest⟩ | ⟨first, second, _, _, hrun⟩
    · rw [hsmallest]
      exact h
    · rw [hrun]
      exact h
  · rw [verdict_unknowns hquantities]
    cases difference lhs rhs with
    | error cause => exact h
    | ok gap =>
        dsimp only
        split
        · exact h
        · exact smallest_observe_nonneg (smallest_observe_nonneg h lhs) rhs

/-- No judge has a negative smallest size. -/
theorem Arises.smallest_nonneg (h : judge.Arises) : 0 ≤ judge.smallest.value := by
  induction h with
  | created hcreate =>
      unfold create at hcreate
      obtain ⟨first, _, hcreate⟩ := except_bind_eq_ok.1 hcreate
      obtain ⟨second, _, hcreate⟩ := except_bind_eq_ok.1 hcreate
      cases hcreate
      exact zero_le_one
  | judged lhs rhs _ ih => exact smallest_verdict_nonneg ih lhs rhs

/-- Equal values agree, also where a side is zero. -/
theorem agree_of_same_value (htolerance : 0 ≤ judge.tolerance)
    (hmargin : 0 ≤ judge.tolerance * judge.smallest.value) {lhs rhs : Fraction K} {v : K}
    (hlhs : lhs.isZero = true → v = 0) (hrhs : rhs.isZero = true → v = 0) :
    judge.agree lhs rhs (some v) (some v) = true := by
  unfold agree
  simp only [ExactScalar.scalar_abs]
  split
  · rename_i hzero
    rw [hlhs hzero, abs_zero]
    exact decide_eq_true hmargin
  · split
    · rename_i hzero
      rw [hrhs hzero, abs_zero]
      exact decide_eq_true hmargin
    · rw [sub_self, abs_zero]
      exact decide_eq_true (mul_nonneg htolerance (abs_nonneg _))

/-- A quantity agrees with itself under the factors of a table if its denominator is not below the
resolution. -/
theorem agreeUnder_self (htolerance : 0 ≤ judge.tolerance) (hsmallest : 0 ≤ judge.smallest.value)
    (ha : a.Canonical) {table after : FactorTable K} {point : SortedMap Symbol K}
    (h : outcome (FactorTable.pointOf a) table = (.ok point, after)) :
    judge.agreeUnder table a a =
      (.ok (decide (Scalar.resolution ≤ |a.den.value (assignment point)|)), after) := by
  have hvalues := outcome_values_self h
  rw [ha.eval_eq (Fraction.over_iff.2 (FactorTable.covered_pointOf h))] at hvalues
  by_cases hsmall : |a.den.value (assignment point)| < Scalar.resolution
  · rw [decide_eq_false (not_le.2 hsmall)]
    rw [if_pos hsmall] at hvalues
    -- the values are missing, or the evaluation fails; both are taken for disagreement
    by_cases hnum : |a.num.value (assignment point)| < Scalar.resolution
    · rw [if_pos hnum] at hvalues
      rw [agreeUnder_of_values judge hvalues]
      rfl
    · rw [if_neg hnum] at hvalues
      exact agreeUnder_of_invalidArgument judge hvalues rfl
  · rw [if_neg hsmall] at hvalues
    have hvalue (hzero : a.isZero = true) :
        a.num.value (assignment point) / a.den.value (assignment point) = 0 := by
      rw [Polynomial.value_of_isZero hzero, zero_div]
    rw [agreeUnder_of_values judge hvalues, decide_eq_true (not_lt.1 hsmall),
      agree_of_same_value htolerance (mul_nonneg htolerance hsmallest) hvalue hvalue]

/-- The verdict on a quantity and itself, where both tables have factors for it. -/
theorem verdict_self_of_points (hjudge : judge.Arises) (htolerance : 0 ≤ judge.tolerance)
    (ha : a.Canonical) (hunknowns : a.unknowns = []) {point point' : SortedMap Symbol K}
    {first second : FactorTable K}
    (hfirst : outcome (FactorTable.pointOf a) judge.first = (.ok point, first))
    (hsecond : outcome (FactorTable.pointOf a) judge.second = (.ok point', second)) :
    (outcome (verdict a a) judge).1 =
      .ok (if Scalar.resolution ≤ |a.den.value (assignment point)| ∧
          Scalar.resolution ≤ |a.den.value (assignment point')| then .redundant
        else .contradiction) := by
  have hthen : { judge with first := first }.agreeUnder judge.second a a = _ :=
    agreeUnder_self htolerance hjudge.smallest_nonneg ha hsecond
  rw [verdict_of_agreeUnder (isEmpty_unknowns_self hunknowns)
    (agreeUnder_self htolerance hjudge.smallest_nonneg ha hfirst) hthen]
  simp only [← Bool.decide_and, decide_eq_true_eq]

/-- Identical sides are redundant if an unknown occurs in them, and otherwise if their denominator
is not below the resolution under either table. Where a denominator that is not zero is below it, a
relation that holds identically is denied. -/
theorem identical_sides_are_redundant_iff (hjudge : judge.Arises)
    (htolerance : 0 ≤ judge.tolerance) (ha : a.Canonical) :
    ((outcome (verdict a a) judge).1 = .ok .redundant ↔
      (a.unknowns = [] → judge.first.Resolves a ∧ judge.second.Resolves a)) ∧
    (judge.first.Assigns a → judge.second.Assigns a →
      (outcome (verdict a a) judge).1 ≠ .ok .redundant →
      (outcome (verdict a a) judge).1 = .ok .contradiction) := by
  by_cases hunknowns : a.unknowns = []
  · by_cases hassigns : judge.first.Assigns a ∧ judge.second.Assigns a
    · obtain ⟨⟨point, first, hfirst⟩, ⟨point', second, hsecond⟩⟩ := hassigns
      rw [verdict_self_of_points hjudge htolerance ha hunknowns hfirst hsecond,
        FactorTable.resolves_iff hfirst, FactorTable.resolves_iff hsecond]
      split
      · rename_i hboth
        exact ⟨⟨fun _ _ => hboth, fun _ => rfl⟩, fun _ _ hne => absurd rfl hne⟩
      · rename_i hnot
        exact ⟨⟨nofun, fun h => absurd (h hunknowns) hnot⟩, fun _ _ _ => rfl⟩
    · have hdenied : (outcome (verdict a a) judge).1 ≠ .ok .redundant :=
        fun hredundant => hassigns (assigns_of_redundant hunknowns hredundant)
      refine ⟨⟨fun h => absurd h hdenied, fun h => ?_⟩, fun h h' => absurd ⟨h, h'⟩ hassigns⟩
      obtain ⟨hfirst, hsecond⟩ := h hunknowns
      exact absurd ⟨hfirst.assigns, hsecond.assigns⟩ hassigns
  · have hverdict := (verdict_of_unknowns ha ha (Or.inl hunknowns) judge).1.2 rfl
    exact ⟨⟨fun _ h => absurd h hunknowns, fun _ => hverdict⟩, fun _ _ hne => absurd hverdict hne⟩

open Rational (inversePower permille)

/-- One over the fifth power of a thousandth is found equal to itself. -/
theorem inverse_fifth_power_is_itself :
    ∃ judge : Judge Rat, create 11 12 0.2 0 = .ok judge ∧
      (outcome (verdict (inversePower 5) (inversePower 5)) judge).1 = .ok .redundant := by
  obtain ⟨judge, hcreate, htolerance⟩ := Rational.exists_judge_of_seeds
  have hmake : Fraction.make 1 (inversePower 5).den = .ok (inversePower 5) := by decide +kernel
  have hresolves (table : FactorTable Rat) : table.Resolves (inversePower 5) := by
    refine ⟨_, _, Rational.outcome_pointOf_permille (by decide +kernel) table, ?_⟩
    decide +kernel
  refine ⟨judge, hcreate, ?_⟩
  exact (identical_sides_are_redundant_iff (.created hcreate) htolerance.ge
    (Fraction.canonical_make hmake)).1.2 (fun _ => ⟨hresolves _, hresolves _⟩)

/-- One over the sixth power of a thousandth is denied to be equal to itself, although its
denominator is not zero under either table. -/
theorem inverse_sixth_power_is_denied :
    ∃ judge : Judge Rat, create 11 12 0.2 0 = .ok judge ∧
      (∀ table ∈ [judge.first, judge.second], ∃ point,
        (outcome (FactorTable.pointOf (inversePower 6)) table).1 = .ok point ∧
        (inversePower 6).den.eval point = .ok 1e-18) ∧
      (outcome (verdict (inversePower 6) (inversePower 6)) judge).1 = .ok .contradiction := by
  obtain ⟨judge, hcreate, htolerance⟩ := Rational.exists_judge_of_seeds
  have hmake : Fraction.make 1 (inversePower 6).den = .ok (inversePower 6) := by decide +kernel
  have hpoint (table : FactorTable Rat) :=
    Rational.outcome_pointOf_permille (a := inversePower 6) (by decide +kernel) table
  have hsmall : ¬ (Scalar.resolution : Rat) ≤
      |(inversePower 6).den.value (assignment (.single permille 1e-3))| := by decide +kernel
  refine ⟨judge, hcreate, ?_, ?_⟩
  · intro table _
    exact ⟨_, congrArg Prod.fst (hpoint table), by decide +kernel⟩
  · rw [verdict_self_of_points (.created hcreate) htolerance.ge (Fraction.canonical_make hmake)
      (by decide +kernel) (hpoint judge.first) (hpoint judge.second), if_neg (fun h => hsmall h.1)]

end Quantities

end Judge

end Ramify
