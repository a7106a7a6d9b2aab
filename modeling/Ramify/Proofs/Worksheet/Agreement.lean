import Ramify.Proofs.Solver.Sound
import Ramify.Proofs.Verdict
import Ramify.Proofs.Worksheet.Look

/-!
Numbers for the variables of a worksheet that satisfy all its equations. In a branch that agrees
with the numbers every equation can be stated and none is refuted, the relations that are found hold
for the numbers, and the branch still agrees with them after it has adopted a candidate that
describes them. All this is over exact numbers and without tolerance.
-/

namespace Ramify

variable {K : Type} [ExactScalar K]

/-- The point at which each symbol has the number of its name. -/
def pointOf (s : String → K) (symbol : Symbol) : K := s symbol.name

/-- Whether a symbol is the unknown of a declared name. -/
def Declared (names : List String) (symbol : Symbol) : Prop :=
  symbol.isUnit = false ∧ symbol.name ∈ names

/-- A fraction stands for a number: only declared unknowns occur in it, and it has the number for
its value. -/
structure Fraction.StandsFor (names : List String) (s : String → K) (a : Fraction K) (v : K) :
    Prop where
  «over» : a.Over (Declared names)
  value : a.HasValue (pointOf s) v

/-- The number that a formula has, if it is calculated from numbers and declared names alone and is
defined. -/
def Formula.valueAt (names : List String) (s : String → K) : Formula K → Option K
  | number c => some c
  | value name => if name ∈ names then some (s name) else none
  | add a b => do
    let left ← a.valueAt names s
    let right ← b.valueAt names s
    pure (left + right)
  | sub a b => do
    let left ← a.valueAt names s
    let right ← b.valueAt names s
    pure (left - right)
  | mul a b => do
    let left ← a.valueAt names s
    let right ← b.valueAt names s
    pure (left * right)
  | div a b => do
    let left ← a.valueAt names s
    let right ← b.valueAt names s
    if right = 0 then none else pure (left / right)
  | neg a => do
    let v ← a.valueAt names s
    pure (-v)
  | pow a exponent => do
    let v ← a.valueAt names s
    if v = 0 ∧ exponent < 0 then none else pure (v ^ exponent)
  | _ => none

/-- Numbers satisfy an equation: it has two sides, and both have the same number. -/
def Equation.SatisfiedBy (names : List String) (s : String → K) (equation : Equation K) : Prop :=
  ∃ lhs rhs v, equation.sides = [lhs, rhs] ∧ lhs.valueAt names s = some v ∧
    rhs.valueAt names s = some v

/-- A branch agrees with numbers: every variable is bound to a value that stands for its number. -/
def Branch.Agrees (names : List String) (s : String → K) (branch : Branch K) : Prop :=
  ∀ name value, branch.bindings.find? name = some value → value.StandsFor names s (s name)

/-- Numbers solve a worksheet from some branch on: they satisfy every equation, and they agree with
a branch. -/
structure Worksheet.IsSolution {σ : Type} (sheet : Worksheet K σ) (s : String → K) : Prop where
  equations : ∀ equation ∈ sheet.equations, equation.SatisfiedBy sheet.branches.names s
  branch : ∃ branch ∈ sheet.branches.list, branch.Agrees sheet.branches.names s

section Decide

instance (names : List String) : DecidablePred (Declared names) := fun symbol =>
  inferInstanceAs (Decidable (symbol.isUnit = false ∧ symbol.name ∈ names))

instance (names : List String) (s : String → K) (a : Fraction K) (v : K) :
    Decidable (a.StandsFor names s v) :=
  decidable_of_iff (a.Over (Declared names) ∧ a.HasValue (pointOf s) v)
    ⟨fun ⟨hover, hvalue⟩ => ⟨hover, hvalue⟩, fun h => ⟨h.over, h.value⟩⟩

instance (names : List String) (s : String → K) (equation : Equation K) :
    Decidable (equation.SatisfiedBy names s) :=
  match hsides : equation.sides with
  | [lhs, rhs] =>
    decidable_of_iff
      ((lhs.valueAt names s).isSome ∧ lhs.valueAt names s = rhs.valueAt names s) <| by
        constructor
        · rintro ⟨hsome, hsame⟩
          obtain ⟨v, hv⟩ := Option.isSome_iff_exists.1 hsome
          exact ⟨lhs, rhs, v, hsides, hv, hsame ▸ hv⟩
        · rintro ⟨_, _, v, htwo, hleft, hright⟩
          cases hsides.symm.trans htwo
          exact ⟨Option.isSome_iff_exists.2 ⟨v, hleft⟩, hleft.trans hright.symm⟩
  | [] => isFalse (fun ⟨_, _, _, htwo, _⟩ => nomatch hsides.symm.trans htwo)
  | [_] => isFalse (fun ⟨_, _, _, htwo, _⟩ => nomatch hsides.symm.trans htwo)
  | _ :: _ :: _ :: _ => isFalse (fun ⟨_, _, _, htwo, _⟩ => nomatch hsides.symm.trans htwo)

instance (names : List String) (s : String → K) (branch : Branch K) :
    Decidable (branch.Agrees names s) :=
  decidable_of_iff (∀ entry ∈ branch.bindings.entries, entry.2.StandsFor names s (s entry.1))
    ⟨fun h name value hfound => h (name, value) ((SortedMap.mem_entries_iff _ _).2 hfound),
      fun h entry hentry => h entry.1 entry.2 ((SortedMap.mem_entries_iff _ _).1 hentry)⟩

instance {σ : Type} (sheet : Worksheet K σ) (s : String → K) : Decidable (sheet.IsSolution s) :=
  decidable_of_iff
    ((∀ equation ∈ sheet.equations, equation.SatisfiedBy sheet.branches.names s) ∧
      ∃ branch ∈ sheet.branches.list, branch.Agrees sheet.branches.names s)
    ⟨fun ⟨hequations, hbranch⟩ => ⟨hequations, hbranch⟩, fun h => ⟨h.equations, h.branch⟩⟩

end Decide

variable {names : List String} {s : String → K}

namespace Fraction.StandsFor

variable {a b : Fraction K} {v w : K}

theorem add (ha : a.StandsFor names s v) (hb : b.StandsFor names s w) :
    ∃ c, a.add b = .ok c ∧ c.StandsFor names s (v + w) := by
  obtain ⟨c, hc, hvalue⟩ := hasValue_add ha.value hb.value
  exact ⟨c, hc, (within_add ha.over hb.over hc).over, hvalue⟩

theorem sub (ha : a.StandsFor names s v) (hb : b.StandsFor names s w) :
    ∃ c, a.sub b = .ok c ∧ c.StandsFor names s (v - w) := by
  obtain ⟨c, hc, hvalue⟩ := hasValue_sub ha.value hb.value
  exact ⟨c, hc, (within_sub ha.over hb.over hc).over, hvalue⟩

theorem mul (ha : a.StandsFor names s v) (hb : b.StandsFor names s w) :
    ∃ c, a.mul b = .ok c ∧ c.StandsFor names s (v * w) := by
  obtain ⟨c, hc, hvalue⟩ := hasValue_mul ha.value hb.value
  exact ⟨c, hc, (within_mul ha.over hb.over hc).over, hvalue⟩

theorem div (ha : a.StandsFor names s v) (hb : b.StandsFor names s w) (hw : w ≠ 0) :
    ∃ c, a.div b = .ok c ∧ c.StandsFor names s (v / w) := by
  obtain ⟨c, hc, hvalue⟩ := hasValue_div ha.value hb.value hw
  exact ⟨c, hc, (within_div ha.over hb.over hc).over, hvalue⟩

theorem neg (ha : a.StandsFor names s v) : ∃ c, a.neg = .ok c ∧ c.StandsFor names s (-v) := by
  obtain ⟨c, hc, hvalue⟩ := hasValue_neg ha.value
  exact ⟨c, hc, (within_neg ha.over hc).over, hvalue⟩

theorem pow (ha : a.StandsFor names s v) (exponent : Int) (h : exponent < 0 → v ≠ 0) :
    ∃ c, a.pow exponent = .ok c ∧ c.StandsFor names s (v ^ exponent) := by
  obtain ⟨c, hc, hvalue⟩ := hasValue_pow ha.value exponent h
  exact ⟨c, hc, (within_pow ha.over hc).over, hvalue⟩

theorem canonical (ha : a.StandsFor names s v) :
    ∃ c, a.canonical = .ok c ∧ c.Within (Declared names) ∧ c.HasValue (pointOf s) v := by
  obtain ⟨c, hc, hvalue⟩ := hasValue_canonical ha.value
  exact ⟨c, hc, within_canonical ha.over hc, hvalue⟩

end Fraction.StandsFor

/-- The values of two formulas are put together to one that stands for a number, if fractions that
stand for the numbers of the formulas are. -/
private theorem Formula.operands_standFor {read : String → Except (Failure K) (Fraction K)}
    {a b : Formula K} {op : Fraction K → Fraction K → Except AlgebraError (Fraction K)} {x y v : K}
    (ha : ∃ left, a.eval read = .ok left ∧ left.StandsFor names s x)
    (hb : ∃ right, b.eval read = .ok right ∧ right.StandsFor names s y)
    (hop : ∀ {left right : Fraction K}, left.StandsFor names s x → right.StandsFor names s y →
      ∃ c, op left right = .ok c ∧ c.StandsFor names s v) :
    ∃ c, (do
        let left ← a.eval read
        let right ← b.eval read
        Failure.liftAlgebra (op left right)) = (.ok c : Except (Failure K) (Fraction K)) ∧
      c.StandsFor names s v := by
  obtain ⟨left, hleft, hleftStands⟩ := ha
  obtain ⟨right, hright, hrightStands⟩ := hb
  obtain ⟨c, hc, hstands⟩ := hop hleftStands hrightStands
  refine ⟨c, ?_, hstands⟩
  rw [hleft, except_ok_bind, hright, except_ok_bind, hc]
  rfl

/-- A formula with a number is calculated to a fraction that stands for the number, where the values
that it reads stand for the numbers of their names. -/
theorem Formula.eval_standsFor {read : String → Except (Failure K) (Fraction K)}
    (hread : ∀ name ∈ names, ∃ a, read name = .ok a ∧ a.StandsFor names s (s name))
    {formula : Formula K} {v : K} (h : formula.valueAt names s = some v) :
    ∃ a, formula.eval read = .ok a ∧ a.StandsFor names s v := by
  induction formula generalizing v with
  | number c =>
      cases h
      exact ⟨.const c, rfl, (Fraction.within_const _ c).over, Fraction.hasValue_const _ c⟩
  | symbol symbol => cases h
  | value name =>
      unfold valueAt at h
      split at h
      · rename_i hname
        cases h
        exact hread name hname
      · cases h
  | add a b iha ihb =>
      obtain ⟨x, hx, h⟩ := Option.bind_eq_some_iff.1 h
      obtain ⟨y, hy, h⟩ := Option.bind_eq_some_iff.1 h
      cases h
      exact operands_standFor (iha hx) (ihb hy) fun hleft hright => hleft.add hright
  | sub a b iha ihb =>
      obtain ⟨x, hx, h⟩ := Option.bind_eq_some_iff.1 h
      obtain ⟨y, hy, h⟩ := Option.bind_eq_some_iff.1 h
      cases h
      exact operands_standFor (iha hx) (ihb hy) fun hleft hright => hleft.sub hright
  | mul a b iha ihb =>
      obtain ⟨x, hx, h⟩ := Option.bind_eq_some_iff.1 h
      obtain ⟨y, hy, h⟩ := Option.bind_eq_some_iff.1 h
      cases h
      exact operands_standFor (iha hx) (ihb hy) fun hleft hright => hleft.mul hright
  | div a b iha ihb =>
      obtain ⟨x, hx, h⟩ := Option.bind_eq_some_iff.1 h
      obtain ⟨y, hy, h⟩ := Option.bind_eq_some_iff.1 h
      split at h
      · cases h
      · rename_i hne
        cases h
        exact operands_standFor (iha hx) (ihb hy) fun hleft hright => hleft.div hright hne
  | neg a iha =>
      obtain ⟨x, hx, h⟩ := Option.bind_eq_some_iff.1 h
      cases h
      obtain ⟨inner, hinner, hinnerStands⟩ := iha hx
      obtain ⟨c, hc, hstands⟩ := hinnerStands.neg
      refine ⟨c, ?_, hstands⟩
      rw [eval, hinner, except_ok_bind, hc]
      rfl
  | pow a exponent iha =>
      obtain ⟨x, hx, h⟩ := Option.bind_eq_some_iff.1 h
      split at h
      · cases h
      · rename_i hdefined
        cases h
        obtain ⟨inner, hinner, hinnerStands⟩ := iha hx
        obtain ⟨c, hc, hstands⟩ :=
          hinnerStands.pow exponent (fun hneg hzero => hdefined ⟨hzero, hneg⟩)
        refine ⟨c, ?_, hstands⟩
        rw [eval, hinner, except_ok_bind, hc]
        rfl
  | numeric a => cases h
  | scaled c a => cases h
  | rounded a => cases h
  | magnitude quantity target => cases h

section Verdicts

variable {lhs rhs : Fraction K} {v : K}

/-- Without unknowns and unit tags nothing occurs in a fraction. -/
theorem Fraction.within_of_no_unknowns {a : Fraction K} (h : a.Within (Declared names))
    (hnone : a.unknowns.isEmpty = true) : a.Within (fun _ => False) := by
  have hover : a.Over (fun _ => False) := by
    rw [over_iff]
    intro symbol hsymbol
    have hunit := (over_iff.1 h.over symbol hsymbol).1
    have hmem : symbol ∈ a.unknowns := List.mem_filter.2 ⟨hsymbol, by rw [hunit]; rfl⟩
    rw [List.isEmpty_iff.1 hnone] at hmem
    cases hmem
  exact { h with num_over := hover.1, den_over := hover.2 }

/-- A number has itself for its value under every table of unit factors. -/
theorem FactorTable.outcome_eval_number {a : Fraction K} (h : a.Within (fun _ => False))
    {z : Symbol → K} (hv : a.HasValue z v) (table : FactorTable K) :
    outcome (FactorTable.eval a) table = (.ok (some v), table) := by
  have hnone : a.symbols = [] := by
    rw [List.eq_nil_iff_forall_not_mem]
    exact Fraction.over_iff.1 h.over
  unfold FactorTable.eval pointOf
  rw [hnone, List.foldlM_nil]
  rw [pure_bind, Fraction.eval_of_no_symbols h hv]
  rfl

/-- A relation that holds for numbers is not refuted. -/
theorem Judge.verdict_of_holds {judge : Judge K} (htolerance : judge.tolerance = 0)
    (hlhs : lhs.Within (Declared names)) (hrhs : rhs.Within (Declared names))
    (hleft : lhs.HasValue (pointOf s) v) (hright : rhs.HasValue (pointOf s) v) :
    ∃ found after, outcome (verdict lhs rhs) judge = (.ok found, after) ∧
      found ≠ .contradiction := by
  by_cases hquantities : (lhs.unknowns.isEmpty && rhs.unknowns.isEmpty) = true
  · obtain ⟨hlhsNone, hrhsNone⟩ := Bool.and_eq_true_iff.1 hquantities
    have hvalues (table : FactorTable K) :
        outcome (values lhs rhs) table = (.ok (some v, some v), table) := by
      unfold values
      rw [outcome_bind_ok _ (FactorTable.outcome_eval_number
          (Fraction.within_of_no_unknowns hlhs hlhsNone) hleft table),
        outcome_bind_ok _ (FactorTable.outcome_eval_number
          (Fraction.within_of_no_unknowns hrhs hrhsNone) hright table)]
      rfl
    have hagree (other : Judge K) (hother : other.tolerance = 0) (table : FactorTable K) :
        other.agreeUnder table lhs rhs = (.ok true, table) := by
      rw [agreeUnder_of_values other (hvalues table),
        agree_of_same_value hother.ge (by rw [hother, zero_mul]) hleft.eq_zero hright.eq_zero]
    have hverdict := verdict_of_agreeUnder hquantities (hagree judge htolerance judge.first)
      (hagree judge htolerance judge.second)
    exact ⟨.redundant, _, Prod.ext hverdict rfl, nofun⟩
  · rw [verdict_unknowns hquantities]
    have hgap : ∃ gap, difference lhs rhs = .ok gap := by
      unfold difference
      split
      · obtain ⟨d, hd, hvalue⟩ := Fraction.hasValue_sub hright hleft
        obtain ⟨gap, hgap, _⟩ := Fraction.hasValue_canonical hvalue
        exact ⟨gap, by rw [hd, except_ok_bind, hgap]⟩
      · obtain ⟨d, hd, hvalue⟩ := Fraction.hasValue_sub hleft hright
        obtain ⟨gap, hgap, _⟩ := Fraction.hasValue_canonical hvalue
        exact ⟨gap, by rw [hd, except_ok_bind, hgap]⟩
    obtain ⟨gap, hgap⟩ := hgap
    rw [hgap]
    dsimp only
    split
    · exact ⟨.redundant, judge, rfl, nofun⟩
    · exact ⟨.usable, _, rfl, nofun⟩

end Verdicts

namespace Worksheet

section Sift

variable {branch : Branch K}

/-- In a branch that agrees with numbers a satisfied equation states a relation that holds for
them. -/
theorem statedIn_of_satisfied (hbranch : branch.Agrees names s)
    (hnames : ∀ name ∈ names, ∃ value, branch.bindings.find? name = some value)
    {equation : Equation K} (h : equation.SatisfiedBy names s) :
    ∃ relation v, statedIn branch.bindings equation = .ok relation ∧
      relation.lhs.Within (Declared names) ∧ relation.rhs.Within (Declared names) ∧
      relation.lhs.HasValue (pointOf s) v ∧ relation.rhs.HasValue (pointOf s) v := by
  have hread (name : String) (hname : name ∈ names) :
      ∃ a, reading branch.bindings name = .ok a ∧ a.StandsFor names s (s name) := by
    obtain ⟨value, hvalue⟩ := hnames name hname
    refine ⟨value, ?_, hbranch name value hvalue⟩
    unfold reading
    rw [hvalue]
  obtain ⟨lhs, rhs, v, hsides, hlhs, hrhs⟩ := h
  obtain ⟨left, hleft, hleftStands⟩ := Formula.eval_standsFor hread hlhs
  obtain ⟨right, hright, hrightStands⟩ := Formula.eval_standsFor hread hrhs
  obtain ⟨left', hleft', hleftWithin, hleftValue⟩ := hleftStands.canonical
  obtain ⟨right', hright', hrightWithin, hrightValue⟩ := hrightStands.canonical
  refine ⟨⟨left', right', equation.name⟩, v, ?_, hleftWithin, hrightWithin, hleftValue,
    hrightValue⟩
  unfold statedIn
  rw [hsides, List.mapM_cons, hleft, except_ok_bind, List.mapM_cons, hright, except_ok_bind,
    List.mapM_nil]
  change (do
    let lhs ← Failure.liftAlgebra left.canonical
    let rhs ← Failure.liftAlgebra right.canonical
    pure ⟨lhs, rhs, equation.name⟩ : Except (Failure K) (Relation K)) = _
  rw [hleft', hright']
  rfl

/-- Satisfied equations are sifted to relations that hold for the numbers. -/
theorem sift_of_satisfied (hbranch : branch.Agrees names s)
    (hnames : ∀ name ∈ names, ∃ value, branch.bindings.find? name = some value)
    (equations : List (Equation K)) (h : ∀ equation ∈ equations, equation.SatisfiedBy names s)
    (found : List (Relation K))
    (hfound : ∀ r ∈ found, r.HoldsAt (pointOf s) (Declared names)) (judge : Judge K)
    (htolerance : judge.tolerance = 0) :
    ∃ relations after,
      outcome (sift branch.bindings equations found) judge = (.ok (.usable relations), after) ∧
      ∀ r ∈ relations, r.HoldsAt (pointOf s) (Declared names) := by
  induction equations generalizing found judge with
  | nil => exact ⟨found, judge, rfl, hfound⟩
  | cons equation rest ih =>
      obtain ⟨relation, v, hstated, hlhs, hrhs, hleft, hright⟩ :=
        statedIn_of_satisfied hbranch hnames (h equation List.mem_cons_self)
      obtain ⟨verdict, middle, hverdict, hne⟩ :=
        Judge.verdict_of_holds htolerance hlhs hrhs hleft hright
      have hmiddle : middle.tolerance = 0 := by
        have hextends := Judge.extends_verdict relation.lhs relation.rhs judge
        rw [hverdict] at hextends
        rw [hextends.tolerance, htolerance]
      have hrest (other) (hother : other ∈ rest) := h other (List.mem_cons_of_mem equation hother)
      unfold sift
      rw [hstated, outcome_ofExcept_bind_ok, outcome_bind_ok _ hverdict]
      cases verdict with
      | redundant => exact ih hrest found hfound middle hmiddle
      | contradiction => exact absurd rfl hne
      | usable =>
          apply ih hrest _ _ middle hmiddle
          intro r hr
          split at hr
          · exact hfound r hr
          · rcases List.mem_append.1 hr with hold | hnew
            · exact hfound r hold
            · rw [List.mem_singleton.1 hnew]
              exact ⟨hlhs.over, hrhs.over, v, hleft, hright⟩

end Sift

/-- A candidate without unknowns that describes the numbers is adopted value by value, and every new
value stands for the number of its name. -/
theorem adopted_standsFor {candidate : Solution K} (hdescribes : Describes (pointOf s) candidate)
    (hnumeric : isNumeric candidate = true) {name : String} {old : Fraction K}
    (hold : old.StandsFor names s (s name)) :
    ∃ value, adopted candidate name old = .ok value ∧ value.StandsFor names s (s name) := by
  have hcandidate (symbol : Symbol) (value : Fraction K)
      (hfound : candidate.find? symbol = some value) : value.Over (Declared names) := by
    have hmem := (SortedMap.mem_entries_iff candidate (symbol, value)).2 hfound
    have hquantity := List.all_eq_true.1 (Bool.and_eq_true_iff.1 hnumeric).2 _ hmem
    rw [Fraction.over_iff]
    intro other hother
    have hunit := List.all_eq_true.1 hquantity other hother
    rw [Fraction.over_iff.1 (hdescribes symbol value hfound).2 other hother] at hunit
    cases hunit
  unfold adopted
  split
  · rename_i value hfound
    exact ⟨value, rfl, hcandidate _ value hfound, (hdescribes _ value hfound).1⟩
  · obtain ⟨b, hb, hvalue⟩ := Fraction.hasValue_subst
      (fun symbol value hfound => (hdescribes symbol value hfound).1) hold.value
    have hover : b.Over (Declared names) := by
      apply (Fraction.within_subst hcandidate ?_ hb).over
      exact ⟨hold.over.1.imp (fun e he symbol hne _ => he symbol hne),
        hold.over.2.imp (fun e he symbol hne _ => he symbol hne)⟩
    obtain ⟨c, hc, hwithin, hcValue⟩ := (Fraction.StandsFor.mk hover hvalue).canonical
    refine ⟨c, ?_, hwithin.over, hcValue⟩
    unfold substituted
    rw [hb, except_ok_bind, hc]

end Worksheet

end Ramify
