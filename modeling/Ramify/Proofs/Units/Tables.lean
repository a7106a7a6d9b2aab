import Ramify.Proofs.Algebra.Evaluation
import Ramify.Proofs.Judge

/-!
What a table of factors holds, and what it answers. A table arises from a seed and is then asked for
factors of unit tags and for values of quantities. Whatever is asked, and whether or not it fails,
the factors of all base dimensions are there and positive. An answer that has been given is read off
the table: a unit tag stands for its size times the factors of its dimension.
-/

namespace Ramify.FactorTable

section Answers

variable {K : Type} [Scalar K] {a : Fraction K} {table after : FactorTable K}
  {point : SortedMap Symbol K}

/-- Whether the numbers of a point are those that a table answers for its symbols, without drawing.
-/
def Answers (table : FactorTable K) (point : SortedMap Symbol K) : Prop :=
  ∀ symbol x, point.find? symbol = some x → outcome (factor symbol) table = (.ok x, table)

theorem Answers.extends {later : FactorTable K} (h : table.Answers point)
    (hlater : table.Extends later) : later.Answers point :=
  fun symbol x hx => (asks_factor symbol).learns.repeats table x table later (h symbol x hx) hlater

theorem Answers.insert (h : table.Answers point) {symbol : Symbol} {x : K}
    (hx : outcome (factor symbol) table = (.ok x, after)) :
    after.Answers (point.insert symbol x) := by
  have hlearns := (asks_factor (K := K) symbol).learns
  have hgrows := hlearns.grows table
  rw [hx] at hgrows
  intro other y hy
  rw [SortedMap.find?_insert] at hy
  split at hy
  · rename_i hsame
    cases hy
    rw [← hsame]
    exact hlearns.repeats table x after after hx (.refl after)
  · exact h.extends hgrows other y hy

/-- A point with the factors of some more of the symbols of a quantity. -/
def pointFrom (a : Fraction K) (start : SortedMap Symbol K) (symbols : List Symbol) :
    Action K (SortedMap Symbol K) :=
  symbols.foldlM (fun (acc : SortedMap Symbol K) (symbol : Symbol) => do
    if !symbol.isUnit then throw (.unknownUnderFactors a symbol)
    pure (acc.insert symbol (← factor symbol))) start

theorem pointOf_eq (a : Fraction K) : pointOf a = pointFrom a ∅ a.symbols := rfl

theorem pointFrom_cons {start : SortedMap Symbol K} {first : Symbol} {rest : List Symbol}
    (hunit : first.isUnit = true) :
    pointFrom a start (first :: rest) =
      factor first >>= fun value => pointFrom a (start.insert first value) rest := by
  unfold pointFrom
  rw [List.foldlM_cons]
  simp only [hunit, Bool.not_true, Bool.false_eq_true, if_false, bind_assoc, pure_bind]

/-- A point is found by taking the factor of the first symbol, and then those of the others. -/
theorem pointFrom_cons_ok {start : SortedMap Symbol K} {first : Symbol} {rest : List Symbol}
    (h : outcome (pointFrom a start (first :: rest)) table = (.ok point, after)) :
    first.isUnit = true ∧ ∃ value middle, outcome (factor first) table = (.ok value, middle) ∧
      outcome (pointFrom a (start.insert first value) rest) middle = (.ok point, after) := by
  cases hunit : first.isUnit with
  | false =>
      unfold pointFrom at h
      rw [List.foldlM_cons] at h
      simp only [hunit, Bool.not_false, if_true] at h
      cases h
  | true =>
      rw [pointFrom_cons hunit] at h
      rcases outcome_bind_cases (factor first : Action K K)
        (fun value => pointFrom a (start.insert first value) rest) table with
        ⟨failure, middle, _, hall⟩ | ⟨value, middle, hvalue, hall⟩
      · rw [hall] at h
        cases h
      · rw [hall] at h
        exact ⟨rfl, value, middle, hvalue, h⟩

/-- The point of a quantity has a number for each symbol, and all of them are in the table. -/
theorem answers_pointOf (h : outcome (pointOf a) table = (.ok point, after)) :
    after.Answers point ∧ ∀ symbol ∈ a.symbols, Covered point symbol := by
  have hfold (symbols : List Symbol) (start : SortedMap Symbol K) (table : FactorTable K)
      (hstart : table.Answers start)
      (hrun : outcome (pointFrom a start symbols) table = (.ok point, after)) :
      after.Answers point ∧
        ∀ symbol, Covered start symbol ∨ symbol ∈ symbols → Covered point symbol := by
    induction symbols generalizing start table with
    | nil =>
        cases hrun
        exact ⟨hstart, fun symbol h => h.resolve_right List.not_mem_nil⟩
    | cons first rest ih =>
        obtain ⟨_, value, middle, hvalue, hrest⟩ := pointFrom_cons_ok hrun
        obtain ⟨hanswers, hcovered⟩ := ih _ middle (hstart.insert hvalue) hrest
        exact ⟨hanswers, fun symbol hsymbol =>
          hcovered symbol (covered_or_mem_insert hsymbol value)⟩
  rw [pointOf_eq] at h
  obtain ⟨hanswers, hcovered⟩ := hfold a.symbols ∅ table nofun h
  exact ⟨hanswers, fun symbol hsymbol => hcovered symbol (Or.inr hsymbol)⟩

/-- A point of factors has one for each symbol. -/
theorem covered_pointOf (h : outcome (pointOf a) table = (.ok point, after)) :
    ∀ symbol ∈ a.symbols, Covered point symbol :=
  (answers_pointOf h).2

/-- A quantity is evaluated at the point of its factors. -/
theorem outcome_eval (h : outcome (pointOf a) table = (.ok point, after)) :
    outcome (eval a) table =
      match a.eval point with
      | .ok value => (.ok value, after)
      | .error cause => (.error (.algebra cause), after) := by
  unfold eval
  rw [outcome_bind_ok _ h]
  cases a.eval point <;> rfl

theorem exists_point_of_eval {value : Option K} (h : outcome (eval a) table = (.ok value, after)) :
    ∃ point, outcome (pointOf a) table = (.ok point, after) ∧ a.eval point = .ok value := by
  unfold eval at h
  obtain ⟨point, middle, hpoint, hvalue⟩ := outcome_bind_eq_ok.1 h
  cases heval : a.eval point with
  | error cause =>
      rw [heval] at hvalue
      cases hvalue
  | ok found =>
      rw [heval] at hvalue
      cases hvalue
      exact ⟨point, hpoint, heval⟩

end Answers

section Calls

variable {K : Type} [Scalar K]

/-- What becomes of a table when it is asked for factors and values, with or without success. -/
inductive Leads (start : FactorTable K) : FactorTable K → Prop
  | refl : Leads start start
  | factor {table : FactorTable K} (symbol : Symbol) :
      Leads start table → Leads start (outcome (FactorTable.factor symbol) table).2
  | eval {table : FactorTable K} (a : Fraction K) :
      Leads start table → Leads start (outcome (FactorTable.eval a) table).2

/-- The tables that are made from a seed and then asked. -/
def Arises (table : FactorTable K) : Prop :=
  ∃ (seed : UInt32) (spread gap : K) (created : FactorTable K),
    create seed spread gap = .ok created ∧ created.Leads table

theorem Arises.eval {table : FactorTable K} (h : table.Arises) (a : Fraction K) :
    (outcome (FactorTable.eval a) table).2.Arises := by
  obtain ⟨seed, spread, gap, created, hcreate, hleads⟩ := h
  exact ⟨seed, spread, gap, created, hcreate, hleads.eval a⟩

theorem Arises.leads {table later : FactorTable K} (h : table.Arises) (hlater : table.Leads later) :
    later.Arises := by
  induction hlater with
  | refl => exact h
  | factor symbol _ ih =>
      obtain ⟨seed, spread, gap, created, hcreate, hleads⟩ := ih
      exact ⟨seed, spread, gap, created, hcreate, hleads.factor symbol⟩
  | eval a _ ih => exact ih.eval a

/-- What asking for a factor preserves, holds later if it holds now. -/
theorem Leads.preserves {I : FactorTable K → Prop}
    (hbase : ∀ base, Preserves I (baseStandIn base : Action K K)) {start table : FactorTable K}
    (h : start.Leads table) (hstart : I start) : I table := by
  induction h with
  | refl => exact hstart
  | factor symbol _ ih => exact (asks_factor symbol).preserves hbase _ ih
  | eval a _ ih => exact (asks_eval a).preserves hbase _ ih

theorem Leads.extends {start table : FactorTable K} (h : start.Leads table) :
    start.Extends table := by
  apply h.preserves (I := start.Extends) ?_ (.refl start)
  exact fun base middle hmiddle => hmiddle.trans ((learns_baseStandIn base).grows middle)

end Calls

section Contents

variable {K : Type} {table later : FactorTable K} {base : String}

def Has (table : FactorTable K) (base : String) : Prop := (table.factors.find? base).isSome = true

/-- The factor of a base dimension, or one if there is none. -/
def factorOf [One K] (table : FactorTable K) (base : String) : K :=
  (table.factors.find? base).getD 1

theorem Has.find? [One K] (h : table.Has base) :
    table.factors.find? base = some (table.factorOf base) := by
  obtain ⟨value, hvalue⟩ := Option.isSome_iff_exists.1 h
  unfold factorOf
  rw [hvalue, Option.getD_some]

theorem has_of_find? {x : K} (h : table.factors.find? base = some x) : table.Has base := by
  unfold Has
  rw [h, Option.isSome_some]

theorem factorOf_of_find? [One K] {x : K} (h : table.factors.find? base = some x) :
    table.factorOf base = x := by
  unfold factorOf
  rw [h, Option.getD_some]

theorem Has.extends (h : table.Has base) (hlater : table.Extends later) : later.Has base := by
  obtain ⟨value, hvalue⟩ := Option.isSome_iff_exists.1 h
  exact has_of_find? (hlater base value hvalue)

theorem Has.factorOf_eq [One K] (h : table.Has base) (hlater : table.Extends later) :
    later.factorOf base = table.factorOf base :=
  factorOf_of_find? (hlater base _ h.find?)

def Complete (table : FactorTable K) : Prop := ∀ base ∈ Units.baseSymbols, table.Has base

theorem Complete.extends (h : table.Complete) (hlater : table.Extends later) : later.Complete :=
  fun base hbase => (h base hbase).extends hlater

end Contents

section Filling

variable {K : Type} [Scalar K] {table after : FactorTable K}

def fill (bases : List String) : Action K Unit :=
  bases.forM (fun base => do let _ ← FactorTable.drawFor base)

/-- A table that is filled is given the first factor, and then the others. -/
theorem fill_cons_ok {first : String} {rest : List String}
    (hrun : outcome (fill (first :: rest)) table = (.ok (), after)) :
    ∃ value middle, outcome (FactorTable.drawFor first) table = (.ok value, middle) ∧
      outcome (fill rest) middle = (.ok (), after) := by
  unfold fill at hrun
  rw [List.forM, bind_assoc] at hrun
  exact outcome_bind_eq_ok.1 hrun

/-- Drawing factors for some base dimensions adds them. -/
theorem has_of_fill {bases : List String} (hrun : outcome (fill bases) table = (.ok (), after))
    (base : String) (h : table.Has base ∨ base ∈ bases) : after.Has base := by
  induction bases generalizing table with
  | nil =>
      cases hrun
      exact h.resolve_right List.not_mem_nil
  | cons first rest ih =>
      obtain ⟨value, middle, hfirst, hrest⟩ := fill_cons_ok hrun
      rcases outcome_drawFor first table with ⟨_, _, hall⟩ | ⟨_, _, _, hall⟩
      · rw [hfirst] at hall
        cases hall
      · rw [hfirst] at hall
        cases hall
        apply ih hrest
        unfold Has
        rw [SortedMap.find?_insert]
        by_cases hsame : first = base
        · rw [if_pos hsame]
          exact Or.inl rfl
        · rw [if_neg hsame]
          exact h.imp_right fun hmem => (List.mem_cons.1 hmem).resolve_left (Ne.symm hsame)

/-- The table of a seed before any factor is drawn. -/
def bare (seed : UInt32) (spread gap : K) : FactorTable K := ⟨Twister.ofSeed seed, spread, gap, ∅⟩

/-- A table is created from its seed by filling, if the spread is between zero and one. -/
theorem create_eq_ok_iff {seed : UInt32} {spread gap : K} :
    create seed spread gap = .ok table ↔ ¬spread ≤ 0 ∧ ¬1 ≤ spread ∧
      outcome (fill Units.baseSymbols) (bare seed spread gap) = (.ok (), table) := by
  unfold create
  split
  · rename_i hspread
    simp only [Bool.or_eq_true, decide_eq_true_eq] at hspread
    refine ⟨nofun, fun ⟨hpos, hlt, _⟩ => ?_⟩
    exact absurd hspread (not_or.2 ⟨hpos, hlt⟩)
  · rename_i hspread
    simp only [Bool.or_eq_true, decide_eq_true_eq, not_or] at hspread
    change (match outcome (fill Units.baseSymbols) (bare seed spread gap) with
      | (.ok _, table) => pure table
      | (.error failure, _) => throw failure) = Except.ok table ↔ _
    rcases outcome (fill Units.baseSymbols) (bare seed spread gap) with ⟨failure | ⟨⟩, filled⟩
    · exact ⟨nofun, nofun⟩
    · constructor
      · rintro ⟨⟩
        exact ⟨hspread.1, hspread.2, rfl⟩
      · rintro ⟨_, _, ⟨⟩⟩
        rfl

/-- A table that arises has the factors of all base dimensions. -/
theorem Arises.complete (h : table.Arises) : table.Complete := by
  obtain ⟨seed, spread, gap, created, hcreate, hleads⟩ := h
  intro base hbase
  exact (has_of_fill (create_eq_ok_iff.1 hcreate).2.2 base (Or.inr hbase)).extends hleads.extends

end Filling

section Bounds

variable {K : Type} [ExactScalar K]

/-- Factors lie within a distance below one of one, and so above zero. -/
structure Bounded (table : FactorTable K) : Prop where
  spread_pos : 0 < table.spread
  spread_lt_one : table.spread < 1
  least : ∀ base value, table.factors.find? base = some value → 1 - table.spread ≤ value

theorem Bounded.factorOf_pos {table : FactorTable K} (h : table.Bounded) (base : String) :
    0 < table.factorOf base := by
  unfold factorOf
  cases hfind : table.factors.find? base with
  | none => exact one_pos
  | some value => exact (sub_pos.2 h.spread_lt_one).trans_le (h.least base value hfind)

variable (hfraction : ∀ low high, 0 ≤ (Scalar.fraction low high : K))
include hfraction

/-- Drawn numbers come from the interval of the table. -/
theorem least_of_drawWithin {attempts : Nat} {table after : FactorTable K} {x : K}
    (h : outcome (drawWithin attempts) table = (.ok x, after)) (hspread : 0 < table.spread) :
    1 - table.spread ≤ x := by
  induction attempts generalizing table with
  | zero => cases h
  | succ attempts ih =>
      rw [drawWithin, outcome_get_bind] at h
      rcases hdrawn :
        (Twister.uniform (1 - table.spread) (1 + table.spread)).run table.generator with
        ⟨candidate, generator⟩
      have hcandidate : 1 - table.spread ≤ candidate := by
        obtain rfl := congrArg Prod.fst hdrawn
        have hwidth : 0 ≤ 1 + table.spread - (1 - table.spread) := by linarith
        exact le_add_of_nonneg_left (mul_nonneg (hfraction _ _) hwidth)
      rw [hdrawn] at h
      change outcome (if table.clashes candidate then drawWithin attempts else pure candidate)
        { table with generator := generator } = _ at h
      split at h
      · have hrest := ih h hspread
        exact hrest
      · cases h
        exact hcandidate

theorem Bounded.drawFor {table : FactorTable K} (h : table.Bounded) (base : String) :
    (outcome (FactorTable.drawFor base) table).2.Bounded := by
  rcases outcome_drawFor base table with ⟨_, _, hall⟩ | ⟨value, _, hdraw, hall⟩
  · rw [hall]
    exact ⟨h.spread_pos, h.spread_lt_one, h.least⟩
  · have hvalue := least_of_drawWithin hfraction hdraw h.spread_pos
    rw [hall]
    refine ⟨h.spread_pos, h.spread_lt_one, fun other found hfound => ?_⟩
    rw [SortedMap.find?_insert] at hfound
    split at hfound
    · cases hfound
      exact hvalue
    · exact h.least other found hfound

theorem preserves_bounded (base : String) :
    Preserves Bounded (baseStandIn base : Action K K) := by
  intro table h
  unfold baseStandIn
  rw [outcome_get_bind]
  cases table.factors.find? base with
  | some value => exact h
  | none => exact h.drawFor hfraction base

/-- Filling a table keeps its factors within their bounds. -/
theorem bounded_fill {bases : List String} {table after : FactorTable K} (h : table.Bounded)
    (hrun : outcome (fill bases) table = (.ok (), after)) : after.Bounded := by
  induction bases generalizing table with
  | nil =>
      cases hrun
      exact h
  | cons first rest ih =>
      obtain ⟨value, middle, hfirst, hrest⟩ := fill_cons_ok hrun
      have hmiddle := h.drawFor hfraction first
      rw [hfirst] at hmiddle
      exact ih hmiddle hrest

theorem bounded_create {seed : UInt32} {spread gap : K} {table : FactorTable K}
    (h : create seed spread gap = .ok table) : table.Bounded := by
  obtain ⟨hpos, hlt, hrun⟩ := create_eq_ok_iff.1 h
  have hbare : (bare seed spread gap).Bounded := ⟨not_le.1 hpos, not_le.1 hlt, nofun⟩
  exact bounded_fill hfraction hbare hrun

/-- The factors of a table that arises are positive, and those of all base dimensions are there. -/
theorem Arises.bounded {table : FactorTable K} (h : table.Arises) :
    table.Bounded ∧ table.Complete := by
  refine ⟨?_, h.complete⟩
  obtain ⟨seed, spread, gap, created, hcreate, hleads⟩ := h
  exact hleads.preserves (preserves_bounded hfraction) (bounded_create hfraction hcreate)

end Bounds

end Ramify.FactorTable
