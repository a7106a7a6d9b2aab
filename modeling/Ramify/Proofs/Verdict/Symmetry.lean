import Mathlib.Data.List.Perm.Basic
import Ramify.Proofs.Units.Scaling
import Ramify.Proofs.Verdict

/-!
Verdicts do not depend on which side is which. The difference of two sides is taken from the one
that has unknowns, the comparison with zero looks at the left side first, and so does the
evaluation; but a difference is zero from either end, a failed evaluation counts as disagreement
whichever side it comes from, and two sides that are both zero are the same. What a judge learns is
the least of some sizes, whatever their order, and it draws no factor for tags that it has met
before.
-/

namespace Ramify

namespace SmallestSize

variable {K : Type} [ExactScalar K]

/-- A coefficient that counts lowers the smallest size to its own, if that is smaller. -/
theorem observe_eq_min {smallest : SmallestSize K} {coeff : K}
    (h : (Scalar.abs coeff == 0 || !Scalar.isFinite (Scalar.abs coeff)) = false) :
    smallest.observe coeff = ⟨some ((smallest.seen.map (min |coeff|)).getD |coeff|)⟩ := by
  unfold observe
  dsimp only
  rw [h, if_neg Bool.false_ne_true]
  rcases smallest with ⟨_ | least⟩
  · simp
  · simp only [ExactScalar.scalar_abs, Option.map_some, Option.getD_some]
    split
    · rename_i hless
      rw [min_eq_left hless.le]
    · rename_i hnot
      rw [min_eq_right (not_lt.1 hnot)]

theorem observe_comm (smallest : SmallestSize K) (x y : K) :
    (smallest.observe x).observe y = (smallest.observe y).observe x := by
  have hvoid {coeff : K}
      (h : (Scalar.abs coeff == 0 || !Scalar.isFinite (Scalar.abs coeff)) = true)
      (smallest : SmallestSize K) : smallest.observe coeff = smallest :=
    observe_of_knows (Or.inl h)
  cases hx : (Scalar.abs x == 0 || !Scalar.isFinite (Scalar.abs x)) with
  | true => rw [hvoid hx, hvoid hx]
  | false =>
      cases hy : (Scalar.abs y == 0 || !Scalar.isFinite (Scalar.abs y)) with
      | true => rw [hvoid hy, hvoid hy]
      | false =>
          rw [observe_eq_min hx, observe_eq_min hy, observe_eq_min hy, observe_eq_min hx]
          cases smallest.seen with
          | none => simp [min_comm]
          | some least => simp [min_left_comm]

end SmallestSize

namespace Rational

/-- Some table of a seed has been asked for a tag that is not registered. -/
theorem exists_table_of_tag (seed : UInt32) {name : String}
    (hname : Units.find? (K := Rat) name = none) :
    ∃ table : FactorTable Rat, table.Arises ∧ table.Has name := by
  obtain ⟨table, hcreate, hgap⟩ := exists_table_of_no_gap seed
  have hasks : (FactorTable.factor (.unit name) : FactorTable.Action Rat Rat) =
      FactorTable.baseStandIn name := FactorTable.factor_of_unregistered rfl hname
  have hfactor : ∃ value after,
      outcome (FactorTable.factor (.unit name)) table = (.ok value, after) := by
    rw [hasks]
    unfold FactorTable.baseStandIn
    rw [outcome_get_bind]
    cases table.factors.find? name with
    | some value => exact ⟨value, table, rfl⟩
    | none =>
        obtain ⟨value, after, hdraw, _⟩ := drawFor_of_no_gap name hgap
        exact ⟨value, after, hdraw⟩
  obtain ⟨value, after, hrun⟩ := hfactor
  have hleads : table.Leads (outcome (FactorTable.factor (.unit name)) table).2 :=
    .factor (.unit name) .refl
  rw [hrun] at hleads
  rw [hasks] at hrun
  exact ⟨after, ⟨seed, 0.2, 0, table, hcreate, hleads⟩,
    FactorTable.has_of_find? (FactorTable.find?_of_baseStandIn hrun)⟩

end Rational

namespace Judge

variable {K : Type} [ExactScalar K] {judge : Judge K} {a b : Fraction K}

/-- The order in which two numerators are looked at does not matter. -/
theorem observe_comm (judge : Judge K) (a b : Fraction K) :
    (judge.observe a).observe b = (judge.observe b).observe a := by
  have hcomm : RightCommutative fun (acc : SmallestSize K) (m : Monomial K) =>
      acc.observe m.coeff := ⟨fun acc m n => SmallestSize.observe_comm acc m.coeff n.coeff⟩
  have hperm : (a.num.terms ++ b.num.terms).Perm (b.num.terms ++ a.num.terms) :=
    List.perm_append_comm
  have hfold :
      (a.num.terms ++ b.num.terms).foldl (fun acc m => acc.observe m.coeff) judge.smallest =
      (b.num.terms ++ a.num.terms).foldl (fun acc m => acc.observe m.coeff) judge.smallest :=
    hperm.foldl_eq judge.smallest
  rw [List.foldl_append, List.foldl_append] at hfold
  unfold observe
  rw [hfold]

/-- Whether two evaluated sides agree. A failed evaluation agrees with nothing. -/
def agreeEvaluated (judge : Judge K) (lhs rhs : Fraction K) :
    Except AlgebraError (Option K) → Except AlgebraError (Option K) → Bool
  | .ok v, .ok w => judge.agree lhs rhs v w
  | _, _ => false

/-- Unless both sides are zero, it does not matter which one is looked at first. -/
theorem agree_comm (h : a.isZero = false ∨ b.isZero = false) (v w : Option K) :
    judge.agree a b v w = judge.agree b a w v := by
  rcases v with _ | v
  · cases w <;> rfl
  rcases w with _ | w
  · rfl
  unfold agree
  cases ha : a.isZero with
  | true =>
      have hb : b.isZero = false := h.resolve_left (ne_false_of_eq_true ha)
      rw [hb]
      rfl
  | false =>
      cases hb : b.isZero with
      | true => rfl
      | false =>
          simp only [Bool.false_eq_true, if_false, ExactScalar.scalar_abs]
          rw [abs_sub_comm, add_comm]

theorem agreeEvaluated_comm (h : a.isZero = false ∨ b.isZero = false)
    (v w : Except AlgebraError (Option K)) :
    judge.agreeEvaluated a b v w = judge.agreeEvaluated b a w v := by
  cases v <;> cases w <;> first
    | exact agree_comm h _ _
    | rfl

/-- The evaluation of a quantity fails only for a reason that is taken for disagreement. -/
theorem isInvalidArgument_of_eval (ha : a.Canonical) {point : SortedMap Symbol K}
    (hcovered : ∀ symbol ∈ a.symbols, Covered point symbol) {cause : AlgebraError}
    (h : a.eval point = .error cause) :
    (Failure.algebra cause : Failure K).isInvalidArgument = true := by
  rw [ha.eval_eq (Fraction.over_iff.2 hcovered)] at h
  split at h
  · split at h
    · cases h
    · cases h
      rfl
  · cases h

/-- Two quantities for which nothing has to be drawn are compared on their values. -/
theorem agreeUnder_of_points (judge : Judge K) (ha : a.Canonical) (hb : b.Canonical)
    {table : FactorTable K} {point point' : SortedMap Symbol K}
    (hpoint : outcome (FactorTable.pointOf a) table = (.ok point, table))
    (hpoint' : outcome (FactorTable.pointOf b) table = (.ok point', table)) :
    judge.agreeUnder table a b =
      (.ok (judge.agreeEvaluated a b (a.eval point) (b.eval point')), table) := by
  have hleft := FactorTable.outcome_eval hpoint
  have hright := FactorTable.outcome_eval hpoint'
  cases hv : a.eval point with
  | error cause =>
      rw [hv] at hleft
      apply agreeUnder_of_invalidArgument judge
      · unfold values
        exact outcome_bind_error _ hleft
      · exact isInvalidArgument_of_eval ha (FactorTable.covered_pointOf hpoint) hv
  | ok v =>
      rw [hv] at hleft
      cases hw : b.eval point' with
      | error cause =>
          rw [hw] at hright
          apply agreeUnder_of_invalidArgument judge
          · unfold values
            rw [outcome_bind_ok _ hleft]
            exact outcome_bind_error _ hright
          · exact isInvalidArgument_of_eval hb (FactorTable.covered_pointOf hpoint') hw
      | ok w =>
          rw [hw] at hright
          apply agreeUnder_of_values judge
          unfold values
          rw [outcome_bind_ok _ hleft, outcome_bind_ok _ hright]
          rfl

/-- Quantities for which nothing has to be drawn are judged without learning anything. -/
theorem outcome_verdict_of_points (hconstant : (a.unknowns.isEmpty && b.unknowns.isEmpty) = true)
    (ha : a.Canonical) (hb : b.Canonical) {p q p' q' : SortedMap Symbol K}
    (hp : outcome (FactorTable.pointOf a) judge.first = (.ok p, judge.first))
    (hq : outcome (FactorTable.pointOf b) judge.first = (.ok q, judge.first))
    (hp' : outcome (FactorTable.pointOf a) judge.second = (.ok p', judge.second))
    (hq' : outcome (FactorTable.pointOf b) judge.second = (.ok q', judge.second)) :
    outcome (verdict a b) judge =
      (.ok (if judge.agreeEvaluated a b (a.eval p) (b.eval q) &&
          judge.agreeEvaluated a b (a.eval p') (b.eval q') then .redundant
        else .contradiction), judge) := by
  rw [outcome_verdict_of_agreeUnder hconstant (agreeUnder_of_points judge ha hb hp hq)
    (agreeUnder_of_points judge ha hb hp' hq'), ite_self]

/-- They are judged alike from either side. -/
theorem verdict_quantities_comm (hconstant : (a.unknowns.isEmpty && b.unknowns.isEmpty) = true)
    (ha : a.Canonical) (hb : b.Canonical)
    (hfirst : ∀ c ∈ [a, b], ∃ point, outcome (FactorTable.pointOf c) judge.first =
      (.ok point, judge.first))
    (hsecond : ∀ c ∈ [a, b], ∃ point, outcome (FactorTable.pointOf c) judge.second =
      (.ok point, judge.second)) :
    ∃ found, outcome (verdict a b) judge = (.ok found, judge) ∧
      outcome (verdict b a) judge = (.ok found, judge) := by
  obtain ⟨p, hp⟩ := hfirst a (by simp)
  obtain ⟨q, hq⟩ := hfirst b (by simp)
  obtain ⟨p', hp'⟩ := hsecond a (by simp)
  obtain ⟨q', hq'⟩ := hsecond b (by simp)
  have hforth := outcome_verdict_of_points hconstant ha hb hp hq hp' hq'
  refine ⟨_, hforth, ?_⟩
  by_cases hnonzero : a.isZero = false ∨ b.isZero = false
  · rw [Bool.and_comm] at hconstant
    rw [outcome_verdict_of_points hconstant hb ha hq hp hq' hp',
      agreeEvaluated_comm hnonzero, agreeEvaluated_comm hnonzero]
  · -- there is only one canonical fraction that is zero
    rw [not_or, Bool.not_eq_false, Bool.not_eq_false] at hnonzero
    have hsame : a = b := (ha.eq_zero hnonzero.1).trans (hb.eq_zero hnonzero.2).symm
    subst hsame
    exact hforth

/-- A relation with unknowns is judged alike from either side. -/
theorem verdict_unknowns_comm (hunknown : ¬(a.unknowns.isEmpty && b.unknowns.isEmpty) = true)
    (ha : a.Canonical) (hb : b.Canonical) (judge : Judge K) :
    ∃ found after, outcome (verdict a b) judge = (.ok found, after) ∧
      outcome (verdict b a) judge = (.ok found, after) ∧ after.first = judge.first ∧
      after.second = judge.second := by
  have hunknown' : ¬(b.unknowns.isEmpty && a.unknowns.isEmpty) = true := by
    rw [Bool.and_comm]
    exact hunknown
  obtain ⟨gap, hgap, hzero⟩ := exists_difference ha hb
  obtain ⟨gap', hgap', hzero'⟩ := exists_difference hb ha
  -- the two differences are zero together
  have hsame : gap'.isZero = gap.isZero := by
    rw [Bool.eq_iff_iff, hzero, hzero', eq_comm]
  rw [verdict_unknowns hunknown, verdict_unknowns hunknown', hgap, hgap']
  dsimp only
  rw [hsame, observe_comm judge b a]
  split
  · exact ⟨_, _, rfl, rfl, rfl, rfl⟩
  · exact ⟨_, _, rfl, rfl, rfl, rfl⟩

omit [ExactScalar K] in
theorem isUnit_of_no_unknowns (h : a.unknowns = []) {symbol : Symbol}
    (hsymbol : symbol ∈ a.symbols) :
    symbol.isUnit = true := by
  unfold Fraction.unknowns at h
  simpa using List.filter_eq_nil_iff.1 h symbol hsymbol

/-- Judges whose tables have the factors of all unregistered tags that occur find the same verdict
on two sides and on the sides exchanged, and have learnt the same afterwards. No factor is drawn. -/
theorem verdicts_are_symmetric (ha : a.Canonical) (hb : b.Canonical) (hfirst : judge.first.Arises)
    (hsecond : judge.second.Arises)
    (hknown : ∀ symbol, symbol ∈ a.symbols ∨ symbol ∈ b.symbols → symbol.isUnit = true →
      Units.find? (K := K) symbol.name = none →
        judge.first.Has symbol.name ∧ judge.second.Has symbol.name) :
    ∃ found after, outcome (verdict a b) judge = (.ok found, after) ∧
      outcome (verdict b a) judge = (.ok found, after) ∧ after.first = judge.first ∧
      after.second = judge.second := by
  by_cases hconstant : (a.unknowns.isEmpty && b.unknowns.isEmpty) = true
  · have hnone := hconstant
    rw [Bool.and_eq_true, List.isEmpty_iff, List.isEmpty_iff] at hnone
    have hmentioned : ∀ c ∈ [a, b], ∀ symbol ∈ c.symbols, symbol.isUnit = true ∧
        (Units.find? (K := K) symbol.name = none →
          judge.first.Has symbol.name ∧ judge.second.Has symbol.name) := by
      simp only [List.forall_mem_cons]
      refine ⟨fun symbol hsymbol => ?_, fun symbol hsymbol => ?_, nofun⟩
      · have hunit := isUnit_of_no_unknowns hnone.1 hsymbol
        exact ⟨hunit, hknown symbol (Or.inl hsymbol) hunit⟩
      · have hunit := isUnit_of_no_unknowns hnone.2 hsymbol
        exact ⟨hunit, hknown symbol (Or.inr hsymbol) hunit⟩
    have hquiet (table : FactorTable K) (htable : table.Arises)
        (hhas : ∀ name, judge.first.Has name ∧ judge.second.Has name → table.Has name) :
        ∀ c ∈ [a, b], ∃ point, outcome (FactorTable.pointOf c) table = (.ok point, table) := by
      intro c hc
      apply FactorTable.exists_point_of_has htable.complete
      intro symbol hsymbol
      obtain ⟨hunit, hself⟩ := hmentioned c hc symbol hsymbol
      exact ⟨hunit, fun hnone => hhas symbol.name (hself hnone)⟩
    obtain ⟨found, hforth, hback⟩ := verdict_quantities_comm hconstant ha hb
      (hquiet judge.first hfirst fun _ h => h.1) (hquiet judge.second hsecond fun _ h => h.2)
    exact ⟨found, judge, hforth, hback, rfl, rfl⟩
  · exact verdict_unknowns_comm hconstant ha hb judge

/-- Two prices per time, under tables that have been asked for the currency. -/
theorem prices_are_compared_alike :
    let price (x : Rat) (time : String) : Fraction Rat :=
      ⟨.ofMonomial (.single x (.unit "EUR") 1), .ofSymbol (.unit time)⟩
    ∃ judge : Judge Rat, judge.first.Has "EUR" ∧ judge.second.Has "EUR" ∧
      ∃ found after, outcome (verdict (price 2 "h") (price 48 "day")) judge = (.ok found, after) ∧
        outcome (verdict (price 48 "day") (price 2 "h")) judge = (.ok found, after) ∧
        after.first = judge.first ∧ after.second = judge.second := by
  intro price
  have hname : Units.find? (K := Rat) "EUR" = none := rfl
  obtain ⟨first, hfirst, hfirst'⟩ := Rational.exists_table_of_tag 11 hname
  obtain ⟨second, hsecond, hsecond'⟩ := Rational.exists_table_of_tag 12 hname
  have hmake (x : Rat) (time : String) (h : Fraction.make (price x time).num (price x time).den =
      .ok (price x time)) := Fraction.canonical_make h
  have htags : ∀ symbol ∈ (price 2 "h").symbols ++ (price 48 "day").symbols,
      (Units.find? (K := Rat) symbol.name).isNone = true → symbol.name = "EUR" := by
    decide +kernel
  refine ⟨⟨first, second, 0, .none⟩, hfirst', hsecond', ?_⟩
  apply verdicts_are_symmetric (hmake 2 "h" (by decide +kernel))
    (hmake 48 "day" (by decide +kernel))
    hfirst hsecond
  intro symbol hsymbol _ hnone
  rw [htags symbol (List.mem_append.2 hsymbol) (Option.isNone_iff_eq_none.2 hnone)]
  exact ⟨hfirst', hsecond'⟩

end Judge

end Ramify
