import Mathlib.Order.Defs.Unbundled
import Ramify.Proofs.Action
import Ramify.Proofs.SortedMap
import Ramify.Verdict

/-!
What a judge learns and never forgets. A factor that has been drawn stays, and the smallest size
only decreases, so that a relation that was judged once is judged again without learning anything.
Only a quantity compared with zero can be judged differently later, as its margin may have shrunk.
-/

namespace Ramify

namespace FactorTable

variable {K : Type} [Scalar K]

/-- The second table has the factors of the first. -/
def Extends (before after : FactorTable K) : Prop :=
  ∀ base value, before.factors.find? base = some value → after.factors.find? base = some value

omit [Scalar K] in
theorem Extends.refl (table : FactorTable K) : Extends table table := fun _ _ h => h

omit [Scalar K] in
theorem Extends.trans {a b c : FactorTable K} (hab : Extends a b) (hbc : Extends b c) :
    Extends a c := fun base value h => hbc base value (hab base value h)

/-- An action that only adds factors, and that gives the same result again, without drawing, once it
has succeeded. -/
structure Learns {α : Type} (action : Action K α) : Prop where
  grows : Moves Extends action
  repeats : ∀ table x after later, outcome action table = (.ok x, after) → Extends after later →
    outcome action later = (.ok x, later)

namespace Learns

variable {α β : Type}

omit [Scalar K] in
theorem pure (x : α) : Learns (Pure.pure x : Action K α) where
  grows := Extends.refl
  repeats := by
    intro table y after later hrun _
    cases hrun
    rfl

omit [Scalar K] in
theorem throw (failure : Failure K) : Learns (MonadExcept.throw failure : Action K α) where
  grows := Extends.refl
  repeats := by
    intro table y after later hrun _
    cases hrun

omit [Scalar K] in
theorem bind {action : Action K α} {next : α → Action K β} (hfirst : Learns action)
    (hnext : ∀ x, Learns (next x)) : Learns (action >>= next) where
  grows := Moves.bind (R := Extends) (fun _ _ _ hab hbc => hab.trans hbc) hfirst.grows
    (fun x => (hnext x).grows)
  repeats := by
    intro table y after later hrun hlater
    rcases outcome_bind_cases action next table with ⟨cause, middle, _, hall⟩ |
      ⟨x, middle, hx, hall⟩
    · rw [hall] at hrun
      cases hrun
    · rw [hall] at hrun
      have hmiddle : Extends middle later := by
        have hgrows := (hnext x).grows middle
        rw [hrun] at hgrows
        exact hgrows.trans hlater
      rw [outcome_bind_ok next (hfirst.repeats table x middle later hx hmiddle)]
      exact (hnext x).repeats middle y after later hrun hlater

end Learns

/-- Drawing changes the generator only. -/
theorem exists_generator_drawWithin (attempts : Nat) (table : FactorTable K) :
    ∃ generator, (outcome (drawWithin attempts) table).2 =
      { table with generator := generator } := by
  induction attempts generalizing table with
  | zero => exact ⟨table.generator, rfl⟩
  | succ attempts ih =>
      rw [drawWithin, outcome_get_bind]
      generalize (Twister.uniform (1 - table.spread) (1 + table.spread)).run table.generator = drawn
      obtain ⟨candidate, generator⟩ := drawn
      change ∃ last, (outcome (if table.clashes candidate then drawWithin attempts
        else pure candidate) { table with generator := generator }).2 =
          { table with generator := last }
      split
      · exact ih { table with generator := generator }
      · exact ⟨generator, rfl⟩

/-- A factor that is not there yet is drawn and entered. -/
theorem outcome_drawFor (base : String) (table : FactorTable K) :
    (∃ failure generator,
      outcome (drawFor base) table = (.error failure, { table with generator := generator })) ∨
    ∃ value generator, outcome draw table = (.ok value, { table with generator := generator }) ∧
      outcome (drawFor base) table =
        (.ok value, ⟨generator, table.spread, table.gap, table.factors.insert base value⟩) := by
  obtain ⟨generator, hgenerator⟩ := exists_generator_drawWithin 10000 table
  change (outcome draw table).2 = _ at hgenerator
  unfold drawFor
  rcases outcome_bind_cases (draw : Action K K) (fun value => do
      modify fun table => { table with factors := table.factors.insert base value }
      pure value) table with
    ⟨failure, middle, hdraw, hall⟩ | ⟨value, middle, hdraw, hall⟩
  · rw [hdraw] at hgenerator
    obtain rfl : middle = _ := hgenerator
    exact Or.inl ⟨failure, generator, hall⟩
  · rw [hdraw] at hgenerator
    obtain rfl : middle = _ := hgenerator
    exact Or.inr ⟨value, generator, hdraw, by rw [hall]; rfl⟩

/-- The factor of a base dimension is in the table from then on. -/
theorem find?_of_baseStandIn {base : String} {x : K} {table after : FactorTable K}
    (h : outcome (baseStandIn base) table = (.ok x, after)) :
    after.factors.find? base = some x := by
  unfold baseStandIn at h
  rw [outcome_get_bind] at h
  cases hfind : table.factors.find? base with
  | some value =>
      rw [hfind] at h
      cases h
      exact hfind
  | none =>
      rw [hfind] at h
      change outcome (drawFor base) table = _ at h
      rcases outcome_drawFor base table with ⟨_, _, hall⟩ | ⟨value, _, _, hall⟩
      · rw [hall] at h
        cases h
      · rw [hall] at h
        cases h
        exact SortedMap.find?_insert_self _ _ _

/-- A factor that is in the table is not drawn. -/
theorem outcome_baseStandIn {base : String} {x : K} {table : FactorTable K}
    (h : table.factors.find? base = some x) :
    outcome (baseStandIn base) table = (.ok x, table) := by
  unfold baseStandIn
  rw [outcome_get_bind, h]
  rfl

theorem learns_baseStandIn (base : String) : Learns (baseStandIn base : Action K K) where
  grows := by
    intro table
    unfold baseStandIn
    rw [outcome_get_bind]
    cases hfind : table.factors.find? base with
    | some value => exact Extends.refl table
    | none =>
        dsimp only
        rcases outcome_drawFor base table with ⟨_, _, hall⟩ | ⟨value, _, _, hall⟩
        · rw [hall]
          exact Extends.refl table
        · rw [hall]
          intro other found h
          rw [SortedMap.find?_insert_of_ne]
          · exact h
          · rintro rfl
            rw [hfind] at h
            cases h
  repeats := by
    intro table x after later hrun hlater
    exact outcome_baseStandIn (hlater base x (find?_of_baseStandIn hrun))

/-- Actions that find out about a table by asking for factors of base dimensions only. -/
inductive Asks : {α : Type} → Action K α → Prop
  | pure {α : Type} (x : α) : Asks (Pure.pure x : Action K α)
  | throw {α : Type} (failure : Failure K) : Asks (MonadExcept.throw failure : Action K α)
  | base (base : String) : Asks (baseStandIn base : Action K K)
  | bind {α β : Type} {action : Action K α} {next : α → Action K β} :
      Asks action → (∀ x, Asks (next x)) → Asks (action >>= next)

namespace Asks

variable {α β : Type} {action : Action K α}

theorem foldlM {f : β → α → Action K β} (h : ∀ acc x, Asks (f acc x)) (xs : List α) (acc : β) :
    Asks (xs.foldlM f acc) := by
  induction xs generalizing acc with
  | nil => exact .pure acc
  | cons x rest ih =>
      rw [List.foldlM_cons]
      exact .bind (h acc x) ih

/-- They only add factors, and repeat their results, as asking for one factor does. -/
theorem learns (h : Asks action) : Learns action := by
  induction h with
  | pure x => exact .pure x
  | throw failure => exact .throw failure
  | base base => exact learns_baseStandIn base
  | bind _ _ hfirst hnext => exact .bind hfirst hnext

/-- What asking for a factor preserves, all these actions do. -/
theorem preserves {I : FactorTable K → Prop}
    (hbase : ∀ base, Preserves I (baseStandIn base : Action K K)) (h : Asks action) :
    Preserves I action := by
  induction h with
  | pure x => exact .pure x
  | throw failure => exact .throw failure
  | base base => exact hbase base
  | bind _ _ hfirst hnext => exact .bind hfirst hnext

end Asks

/-- The product of a number and powers of the factors of base dimensions. -/
def product (acc : K) (powers : List (String × Int)) : Action K K :=
  powers.foldlM (fun (acc : K) (entry : String × Int) => do
    pure (acc * Scalar.power (← baseStandIn entry.1) entry.2)) acc

theorem product_cons (acc : K) (first : String × Int) (rest : List (String × Int)) :
    product acc (first :: rest) =
      baseStandIn first.1 >>= fun value => product (acc * Scalar.power value first.2) rest := by
  unfold product
  rw [List.foldlM_cons, bind_assoc]
  rfl

theorem asks_product (acc : K) (powers : List (String × Int)) : Asks (product acc powers) := by
  unfold product
  apply Asks.foldlM
  intro acc entry
  exact .bind (.base entry.1) (fun _ => .pure _)

theorem factor_of_unknown {symbol : Symbol} (hunit : symbol.isUnit = false) :
    (factor symbol : Action K K) = throw (.notUnit symbol) := by
  unfold factor
  simp only [hunit, Bool.not_false, if_true]
  rfl

theorem factor_of_unregistered {symbol : Symbol} (hunit : symbol.isUnit = true)
    (h : Units.find? (K := K) symbol.name = none) :
    (factor symbol : Action K K) = baseStandIn symbol.name := by
  unfold factor
  simp only [hunit, Bool.not_true, Bool.false_eq_true, if_false, h]

theorem factor_of_registered {symbol : Symbol} (hunit : symbol.isUnit = true) {found : Measure K}
    (h : Units.find? symbol.name = some found) :
    (factor symbol : Action K K) = product found.scale found.dimension.entries := by
  unfold factor
  simp only [hunit, Bool.not_true, Bool.false_eq_true, if_false, h]
  rfl

theorem asks_factor (symbol : Symbol) : Asks (factor symbol : Action K K) := by
  cases hunit : symbol.isUnit with
  | false =>
      rw [factor_of_unknown hunit]
      exact .throw _
  | true =>
      cases hfind : Units.find? (K := K) symbol.name with
      | none =>
          rw [factor_of_unregistered hunit hfind]
          exact .base _
      | some found =>
          rw [factor_of_registered hunit hfind]
          exact asks_product _ _

theorem asks_pointOf (a : Fraction K) : Asks (pointOf a) := by
  unfold pointOf
  apply Asks.foldlM
  intro acc symbol
  split
  · exact .bind (.throw _) (fun _ => .bind (asks_factor symbol) (fun _ => .pure _))
  · exact .bind (asks_factor symbol) (fun _ => .pure _)

theorem asks_eval (a : Fraction K) : Asks (eval a) := by
  unfold eval
  apply Asks.bind (asks_pointOf a)
  intro point
  cases a.eval point with
  | ok value => exact .pure value
  | error cause => exact .throw _

theorem learns_eval (a : Fraction K) : Learns (eval a) := (asks_eval a).learns

end FactorTable

namespace SmallestSize

variable {K : Type} [Scalar K]

/-- A coefficient that would teach nothing: it does not count, or is not below the smallest size. -/
def Knows (smallest : SmallestSize K) (coeff : K) : Prop :=
  (Scalar.abs coeff == 0 || !Scalar.isFinite (Scalar.abs coeff)) = true ∨
    ∃ least, smallest.seen = some least ∧ ¬ Scalar.abs coeff < least

theorem observe_of_knows {smallest : SmallestSize K} {coeff : K} (h : smallest.Knows coeff) :
    smallest.observe coeff = smallest := by
  unfold observe
  rcases h with hvoid | ⟨least, hseen, hnot⟩
  · simp only [hvoid, if_true]
  · simp only [hseen, if_neg hnot, ite_self]

variable [IsStrictOrder K (· < ·)]

theorem knows_observe_self (smallest : SmallestSize K) (coeff : K) :
    (smallest.observe coeff).Knows coeff := by
  unfold Knows observe
  by_cases hvoid : (Scalar.abs coeff == 0 || !Scalar.isFinite (Scalar.abs coeff)) = true
  · exact Or.inl hvoid
  · right
    simp only [if_neg hvoid]
    cases hseen : smallest.seen with
    | none => exact ⟨_, rfl, irrefl _⟩
    | some least =>
        by_cases hless : Scalar.abs coeff < least
        · simp only [if_pos hless]
          exact ⟨_, rfl, irrefl _⟩
        · simp only [if_neg hless]
          exact ⟨least, hseen, hless⟩

theorem knows_observe {smallest : SmallestSize K} {coeff : K} (h : smallest.Knows coeff)
    (other : K) : (smallest.observe other).Knows coeff := by
  rcases h with hvoid | ⟨least, hseen, hnot⟩
  · exact Or.inl hvoid
  · right
    unfold observe
    by_cases hvoid : (Scalar.abs other == 0 || !Scalar.isFinite (Scalar.abs other)) = true
    · simp only [if_pos hvoid]
      exact ⟨least, hseen, hnot⟩
    · simp only [if_neg hvoid, hseen]
      by_cases hless : Scalar.abs other < least
      · simp only [if_pos hless]
        exact ⟨_, rfl, fun hbelow => hnot (IsTrans.trans _ _ _ hbelow hless)⟩
      · simp only [if_neg hless]
        exact ⟨least, hseen, hnot⟩

end SmallestSize

namespace Judge

variable {K : Type} [Scalar K]

/-- The second judge has learnt all that the first one has. -/
structure Extends (before after : Judge K) : Prop where
  first : before.first.Extends after.first
  second : before.second.Extends after.second
  tolerance : after.tolerance = before.tolerance
  smallest : ∀ coeff, before.smallest.Knows coeff → after.smallest.Knows coeff

theorem Extends.refl (judge : Judge K) : Extends judge judge :=
  ⟨.refl _, .refl _, rfl, fun _ h => h⟩

theorem Extends.trans {a b c : Judge K} (hab : Extends a b) (hbc : Extends b c) : Extends a c :=
  ⟨hab.first.trans hbc.first, hab.second.trans hbc.second, hbc.tolerance.trans hab.tolerance,
    fun coeff h => hbc.smallest coeff (hab.smallest coeff h)⟩

theorem learns_values (lhs rhs : Fraction K) : FactorTable.Learns (values lhs rhs) := by
  unfold values
  exact .bind (FactorTable.learns_eval lhs) (fun _ =>
    .bind (FactorTable.learns_eval rhs) (fun _ => .pure _))

theorem outcome_agreeUnderFirst (lhs rhs : Fraction K) (judge : Judge K) :
    outcome (agreeUnderFirst lhs rhs) judge =
      ((judge.agreeUnder judge.first lhs rhs).1,
        { judge with first := (judge.agreeUnder judge.first lhs rhs).2 }) := by
  unfold agreeUnderFirst
  rw [outcome_get_bind]
  generalize judge.agreeUnder judge.first lhs rhs = run
  obtain ⟨result, table⟩ := run
  cases result <;> rfl

theorem outcome_agreeUnderSecond (lhs rhs : Fraction K) (judge : Judge K) :
    outcome (agreeUnderSecond lhs rhs) judge =
      ((judge.agreeUnder judge.second lhs rhs).1,
        { judge with second := (judge.agreeUnder judge.second lhs rhs).2 }) := by
  unfold agreeUnderSecond
  rw [outcome_get_bind]
  generalize judge.agreeUnder judge.second lhs rhs = run
  obtain ⟨result, table⟩ := run
  cases result <;> rfl

theorem agreeUnder_of_values {table after : FactorTable K} {lhs rhs : Fraction K} {a b : Option K}
    (judge : Judge K) (h : outcome (values lhs rhs) table = (.ok (a, b), after)) :
    judge.agreeUnder table lhs rhs = (.ok (judge.agree lhs rhs a b), after) := by
  unfold outcome at h
  unfold agreeUnder
  rw [h]
  rfl

theorem agreeUnder_of_failure {table after : FactorTable K} {lhs rhs : Fraction K}
    {failure : Failure K} (judge : Judge K)
    (h : outcome (values lhs rhs) table = (.error failure, after)) :
    (judge.agreeUnder table lhs rhs).1 ≠ .ok true ∧
      (judge.agreeUnder table lhs rhs).2 = after := by
  unfold outcome at h
  unfold agreeUnder
  rw [h]
  dsimp only
  split
  · exact ⟨nofun, rfl⟩
  · exact ⟨nofun, rfl⟩

theorem extends_agreeUnder (judge : Judge K) (table : FactorTable K) (lhs rhs : Fraction K) :
    table.Extends (judge.agreeUnder table lhs rhs).2 := by
  have hgrows := (learns_values lhs rhs).grows table
  rcases hrun : outcome (values lhs rhs) table with ⟨failure | ⟨a, b⟩, after⟩
  · rw [hrun] at hgrows
    rw [(agreeUnder_of_failure judge hrun).2]
    exact hgrows
  · rw [hrun] at hgrows
    rw [agreeUnder_of_values judge hrun]
    exact hgrows

/-- Two quantities that agreed once have their values again under a larger table. -/
theorem agreeUnder_again {judge : Judge K} (later : Judge K) {table after larger : FactorTable K}
    {lhs rhs : Fraction K} (hagree : judge.agreeUnder table lhs rhs = (.ok true, after))
    (hlarger : after.Extends larger) :
    ∃ agreed, later.agreeUnder larger lhs rhs = (.ok agreed, larger) := by
  rcases hrun : outcome (values lhs rhs) table with ⟨failure | ⟨a, b⟩, middle⟩
  · have hfailed := (agreeUnder_of_failure judge hrun).1
    rw [hagree] at hfailed
    exact absurd rfl hfailed
  · rw [agreeUnder_of_values judge hrun] at hagree
    obtain rfl : middle = after := congrArg Prod.snd hagree
    have hagain := (learns_values lhs rhs).repeats table (a, b) middle larger hrun hlarger
    exact ⟨later.agree lhs rhs a b, agreeUnder_of_values later hagain⟩

/-- What judging two quantities does: it fails, denies, or confirms under both tables. -/
theorem verdict_quantities {lhs rhs : Fraction K}
    (h : (lhs.unknowns.isEmpty && rhs.unknowns.isEmpty) = true) (judge : Judge K) :
    ((outcome (verdict lhs rhs) judge).1 ≠ .ok .redundant ∧
      (outcome (verdict lhs rhs) judge).1 ≠ .ok .usable ∧
      judge.first.Extends (outcome (verdict lhs rhs) judge).2.first ∧
      judge.second.Extends (outcome (verdict lhs rhs) judge).2.second ∧
      (outcome (verdict lhs rhs) judge).2.tolerance = judge.tolerance ∧
      (outcome (verdict lhs rhs) judge).2.smallest = judge.smallest) ∨
    ∃ first second, judge.agreeUnder judge.first lhs rhs = (.ok true, first) ∧
      { judge with first := first }.agreeUnder judge.second lhs rhs = (.ok true, second) ∧
      outcome (verdict lhs rhs) judge =
        (.ok .redundant, { judge with first := first, second := second }) := by
  unfold verdict
  rw [if_pos h]
  have hfirst := outcome_agreeUnderFirst lhs rhs judge
  have hgrows := extends_agreeUnder judge judge.first lhs rhs
  rcases hagree : judge.agreeUnder judge.first lhs rhs with ⟨failure | agreed, first⟩
  · rw [hagree] at hfirst hgrows
    rw [outcome_bind_error _ hfirst]
    exact Or.inl ⟨nofun, nofun, hgrows, .refl _, rfl, rfl⟩
  · rw [hagree] at hfirst hgrows
    rw [outcome_bind_ok _ hfirst]
    cases agreed with
    | false => exact Or.inl ⟨nofun, nofun, hgrows, .refl _, rfl, rfl⟩
    | true =>
        have hsecond := outcome_agreeUnderSecond lhs rhs { judge with first := first }
        have hgrows' := extends_agreeUnder { judge with first := first } judge.second lhs rhs
        simp only [if_true]
        rcases hagree' : { judge with first := first }.agreeUnder judge.second lhs rhs with
          ⟨failure | agreed, second⟩
        · rw [hagree'] at hsecond hgrows'
          rw [outcome_bind_error _ hsecond]
          exact Or.inl ⟨nofun, nofun, hgrows, hgrows', rfl, rfl⟩
        · rw [hagree'] at hsecond hgrows'
          rw [outcome_bind_ok _ hsecond]
          cases agreed with
          | false => exact Or.inl ⟨nofun, nofun, hgrows, hgrows', rfl, rfl⟩
          | true => exact Or.inr ⟨first, second, rfl, hagree', rfl⟩

/-- What judging a relation with unknowns does: its worth does not depend on the judge. -/
theorem verdict_unknowns {lhs rhs : Fraction K}
    (h : ¬ (lhs.unknowns.isEmpty && rhs.unknowns.isEmpty) = true) (judge : Judge K) :
    outcome (verdict lhs rhs) judge =
      match difference lhs rhs with
      | .error cause => (.error (.algebra cause), judge)
      | .ok gap =>
        if gap.isZero then (.ok .redundant, judge)
        else (.ok .usable, (judge.observe lhs).observe rhs) := by
  unfold verdict
  rw [if_neg h]
  cases difference lhs rhs with
  | error cause => rfl
  | ok gap =>
      dsimp only
      split <;> rfl

/-- A judge that would learn nothing from the coefficients of a numerator. -/
def Knows (judge : Judge K) (a : Fraction K) : Prop :=
  ∀ m ∈ a.num.terms, judge.smallest.Knows m.coeff

theorem observe_of_knows {judge : Judge K} {a : Fraction K} (h : judge.Knows a) :
    judge.observe a = judge := by
  have hfold (terms : List (Monomial K)) (hterms : ∀ m ∈ terms, judge.smallest.Knows m.coeff) :
      terms.foldl (fun acc m => acc.observe m.coeff) judge.smallest = judge.smallest := by
    induction terms with
    | nil => rfl
    | cons m rest ih =>
        rw [List.foldl_cons, SmallestSize.observe_of_knows (hterms m List.mem_cons_self)]
        exact ih (fun n hn => hterms n (List.mem_cons_of_mem _ hn))
  unfold observe
  rw [hfold a.num.terms h]

section Order

variable [IsStrictOrder K (· < ·)]

private theorem knows_foldl (terms : List (Monomial K)) (smallest : SmallestSize K) :
    (∀ coeff, smallest.Knows coeff →
      (terms.foldl (fun acc m => acc.observe m.coeff) smallest).Knows coeff) ∧
    ∀ m ∈ terms, (terms.foldl (fun acc m => acc.observe m.coeff) smallest).Knows m.coeff := by
  induction terms generalizing smallest with
  | nil => exact ⟨fun _ h => h, nofun⟩
  | cons m rest ih =>
      obtain ⟨hkept, hnew⟩ := ih (smallest.observe m.coeff)
      refine ⟨fun coeff h => hkept coeff (SmallestSize.knows_observe h m.coeff), ?_⟩
      intro n hn
      rcases List.mem_cons.1 hn with rfl | hrest
      · exact hkept _ (SmallestSize.knows_observe_self smallest n.coeff)
      · exact hnew n hrest

theorem extends_observe (judge : Judge K) (a : Fraction K) : judge.Extends (judge.observe a) :=
  ⟨.refl _, .refl _, rfl, (knows_foldl a.num.terms judge.smallest).1⟩

theorem knows_observe (judge : Judge K) (a : Fraction K) : (judge.observe a).Knows a :=
  (knows_foldl a.num.terms judge.smallest).2

/-- Judging never forgets. -/
theorem extends_verdict (lhs rhs : Fraction K) : Moves Extends (verdict lhs rhs) := by
  intro judge
  by_cases hquantities : (lhs.unknowns.isEmpty && rhs.unknowns.isEmpty) = true
  · rcases verdict_quantities hquantities judge with
      ⟨_, _, hfirst, hsecond, htolerance, hsmallest⟩ | ⟨first, second, hagree, hagree', hrun⟩
    · exact ⟨hfirst, hsecond, htolerance, fun coeff h => hsmallest ▸ h⟩
    · rw [hrun]
      refine ⟨?_, ?_, rfl, fun _ h => h⟩
      · have hgrows := extends_agreeUnder judge judge.first lhs rhs
        rw [hagree] at hgrows
        exact hgrows
      · have hgrows := extends_agreeUnder { judge with first := first } judge.second lhs rhs
        rw [hagree'] at hgrows
        exact hgrows
  · rw [verdict_unknowns hquantities]
    cases difference lhs rhs with
    | error cause => exact Extends.refl judge
    | ok gap =>
        dsimp only
        split
        · exact Extends.refl judge
        · exact (extends_observe judge lhs).trans (extends_observe _ rhs)

/-- A relation that was not denied is judged alike by every judge that has learnt as much, unless it
is denied now, and nothing is learnt from it. -/
theorem verdict_again {lhs rhs : Fraction K} {judge after later : Judge K} {found : Verdict}
    (hrun : outcome (verdict lhs rhs) judge = (.ok found, after))
    (hfound : found ≠ .contradiction) (hlater : after.Extends later)
    (hnow : (outcome (verdict lhs rhs) later).1 ≠ .ok .contradiction) :
    outcome (verdict lhs rhs) later = (.ok found, later) := by
  by_cases hquantities : (lhs.unknowns.isEmpty && rhs.unknowns.isEmpty) = true
  · rcases verdict_quantities hquantities judge with
      ⟨hredundant, husable, _⟩ | ⟨first, second, hagree, hagree', hthen⟩
    · rw [hrun] at hredundant husable
      cases found with
      | redundant => exact absurd rfl hredundant
      | usable => exact absurd rfl husable
      | contradiction => exact absurd rfl hfound
    · rw [hthen] at hrun
      cases hrun
      obtain ⟨agreed, hfirst⟩ := agreeUnder_again later hagree hlater.first
      obtain ⟨agreed', hsecond⟩ := agreeUnder_again later hagree' hlater.second
      have hrunFirst := outcome_agreeUnderFirst lhs rhs later
      have hrunSecond := outcome_agreeUnderSecond lhs rhs later
      rw [hfirst] at hrunFirst
      rw [hsecond] at hrunSecond
      unfold verdict at hnow ⊢
      rw [if_pos hquantities, outcome_bind_ok _ hrunFirst] at hnow ⊢
      cases agreed with
      | false => exact absurd rfl hnow
      | true =>
          simp only [if_true] at hnow ⊢
          rw [outcome_bind_ok _ hrunSecond] at hnow ⊢
          cases agreed' with
          | false => exact absurd rfl hnow
          | true => rfl
  · rw [verdict_unknowns hquantities] at hrun ⊢
    cases hdifference : difference lhs rhs with
    | error cause =>
        rw [hdifference] at hrun
        cases hrun
    | ok gap =>
        rw [hdifference] at hrun
        dsimp only at hrun ⊢
        split at hrun
        · rename_i hzero
          cases hrun
          rw [if_pos hzero]
        · rename_i hzero
          cases hrun
          rw [if_neg hzero]
          have hlhs : later.Knows lhs := fun m hm =>
            hlater.smallest _ ((extends_observe _ rhs).smallest _ (knows_observe judge lhs m hm))
          have hrhs : later.Knows rhs := fun m hm =>
            hlater.smallest _ (knows_observe _ rhs m hm)
          rw [observe_of_knows hlhs, observe_of_knows hrhs]

end Order

end Judge

end Ramify
