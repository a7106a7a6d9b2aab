import Ramify.Proofs.Units.Dimensions
import Ramify.Proofs.Units.Tables
import Ramify.Proofs.Scalar.Binary64
import Ramify.Proofs.Random.Twister

/-!
The factors of a table in the order in which they were drawn. Whatever a table is asked, and whether
or not it fails, this list only grows at its end: a factor stays under the name it was drawn for,
and a candidate that is closer than the gap to an earlier factor is never entered. Random numbers
are used up only for a tag that has no factor yet; any other tag is answered from the table.

The checks of a table let a spread or a gap pass that is not a number, and then nothing keeps the
factors apart. With parameters that are numbers every factor has a distance to every other one.
-/

namespace Ramify.FactorTable

section Draws

variable {K : Type} [Scalar K] {start table middle after later : FactorTable K}
  {drawn more : List (String × K)} {base : String} {value spread gap : K}

/-- From a table to another one, factors were drawn in this order, each for a name without a factor.
A draw that fails uses up random numbers and enters nothing. -/
inductive Draws (start : FactorTable K) : List (String × K) → FactorTable K → Prop
  | nothing : Draws start [] start
  | failed {drawn : List (String × K)} {table after : FactorTable K} {failure : Failure K} :
      Draws start drawn table → outcome draw table = (.error failure, after) →
      Draws start drawn after
  | entered {drawn : List (String × K)} {table after : FactorTable K} {value : K} (base : String) :
      Draws start drawn table → table.factors.find? base = none →
      outcome draw table = (.ok value, after) →
      Draws start (drawn ++ [(base, value)])
        { after with factors := after.factors.insert base value }

theorem Draws.trans (hfirst : start.Draws drawn middle) (hrest : middle.Draws more after) :
    start.Draws (drawn ++ more) after := by
  induction hrest with
  | nothing => rwa [List.append_nil]
  | failed _ hdraw ih => exact .failed ih hdraw
  | entered base _ hnew hdraw ih =>
      rw [← List.append_assoc]
      exact .entered base ih hnew hdraw

/-- What a table with a certain spread and gap holds is what was drawn from around one: each factor
under a name of its own, and at least the gap away from every earlier one. -/
structure Holds (table : FactorTable K) (spread gap : K) (drawn : List (String × K)) : Prop where
  spread_eq : table.spread = spread
  gap_eq : table.gap = gap
  /-- The spread has passed the check of its range. -/
  checked : ¬spread ≤ 0 ∧ ¬1 ≤ spread
  find?_iff : ∀ base value, table.factors.find? base = some value ↔ (base, value) ∈ drawn
  names : (drawn.map Prod.fst).Nodup
  around : ∀ entry ∈ drawn, ∃ generator, entry.2 = Twister.around spread generator
  apart : Scalar.isNaN spread = false → Scalar.isNaN gap = false →
    drawn.Pairwise (fun earlier later => gap ≤ Scalar.abs (later.2 - earlier.2))

/-- A draw changes the generator only, whether or not it fails. -/
theorem exists_generator_of_draw {result : Except (Failure K) K}
    (h : outcome draw table = (result, after)) :
    ∃ generator, after = { table with generator := generator } := by
  obtain ⟨generator, hgenerator⟩ := exists_generator_drawWithin 10000 table
  change (outcome draw table).2 = _ at hgenerator
  rw [h] at hgenerator
  exact ⟨generator, hgenerator⟩

/-- The result of a draw comes from around one, and clashes with no factor of the table. -/
theorem around_of_drawWithin {attempts : Nat}
    (h : outcome (drawWithin attempts) table = (.ok value, after)) :
    (∃ generator, value = Twister.around table.spread generator) ∧
      table.clashes value = false := by
  induction attempts generalizing table with
  | zero => cases h
  | succ attempts ih =>
      rw [drawWithin, outcome_get_bind] at h
      have haround : ((Twister.uniform (1 - table.spread) (1 + table.spread)).run
          table.generator).1 = Twister.around table.spread table.generator := rfl
      generalize (Twister.uniform (1 - table.spread) (1 + table.spread)).run table.generator = next
        at h haround
      obtain ⟨candidate, generator⟩ := next
      change outcome (if table.clashes candidate then drawWithin attempts else pure candidate)
        { table with generator := generator } = _ at h
      split at h
      · have hrest := ih h
        exact hrest
      · rename_i hfar
        cases h
        exact ⟨⟨table.generator, haround⟩, Bool.eq_false_iff.2 hfar⟩

/-- A factor that has been drawn is not closer than the gap to any factor of the table. -/
theorem far_of_draw (h : outcome draw table = (.ok value, after)) :
    ∀ entry ∈ table.factors.entries, ¬Scalar.abs (value - entry.2) < table.gap := by
  intro entry hentry
  have hclashes := List.any_eq_false.1 (around_of_drawWithin h).2 entry hentry
  simpa using hclashes

theorem Holds.of_generator (h : table.Holds spread gap drawn) (generator : Twister) :
    Holds { table with generator := generator } spread gap drawn :=
  ⟨h.spread_eq, h.gap_eq, h.checked, h.find?_iff, h.names, h.around, h.apart⟩

variable [Scalar.Comparable K] [Scalar.Drawable K]

/-- A factor that is drawn is at least the gap away from those that are held. -/
theorem Holds.gap_le (h : table.Holds spread gap drawn)
    (hdraw : outcome draw table = (.ok value, after)) (hspread : Scalar.isNaN spread = false)
    (hgap : Scalar.isNaN gap = false) :
    ∀ entry ∈ drawn, gap ≤ Scalar.abs (value - entry.2) := by
  intro entry hentry
  obtain ⟨later, hlater⟩ := (around_of_drawWithin hdraw).1
  obtain ⟨earlier, hearlier⟩ := h.around entry hentry
  rw [h.spread_eq] at hlater
  have hdistance : Scalar.isNaN (Scalar.abs (value - entry.2)) = false := by
    rw [hlater, hearlier]
    exact Scalar.Drawable.isNaN_distance hspread h.checked.1 h.checked.2 later earlier
  have hfar : ¬Scalar.abs (value - entry.2) < table.gap :=
    far_of_draw hdraw entry
      ((SortedMap.mem_entries_iff _ entry).2 ((h.find?_iff entry.1 entry.2).2 hentry))
  rw [h.gap_eq] at hfar
  exact Scalar.Comparable.le_of_not_lt hgap hdistance hfar

/-- A factor that is drawn and entered is the last one of those that are held. -/
theorem Holds.enter (h : table.Holds spread gap drawn) (hnew : table.factors.find? base = none)
    (hdraw : outcome draw table = (.ok value, after)) :
    Holds { after with factors := after.factors.insert base value } spread gap
      (drawn ++ [(base, value)]) := by
  have hgap_le := h.gap_le hdraw
  obtain ⟨⟨drawing, hdrawing⟩, _⟩ := around_of_drawWithin hdraw
  rw [h.spread_eq] at hdrawing
  obtain ⟨generator, rfl⟩ := exists_generator_of_draw hdraw
  have hunnamed : ∀ entry ∈ drawn, entry.1 ≠ base := by
    rintro ⟨_, found⟩ hentry rfl
    rw [(h.find?_iff _ found).2 hentry] at hnew
    cases hnew
  refine ⟨h.spread_eq, h.gap_eq, h.checked, fun other found => ?_, ?_, ?_, fun hspread hgap => ?_⟩
  -- the new name finds the new factor, and any other name what it found before
  · rw [SortedMap.find?_insert, List.mem_append, List.mem_singleton, Prod.mk.injEq, ← h.find?_iff]
    by_cases hsame : base = other
    · subst hsame
      simp [hnew, eq_comm]
    · simp [hsame, Ne.symm hsame]
  · rw [List.map_append, List.map_singleton, List.nodup_append]
    refine ⟨h.names, List.nodup_singleton _, ?_⟩
    simpa using hunnamed
  · exact List.forall_mem_append.2 ⟨h.around, List.forall_mem_singleton.2 ⟨drawing, hdrawing⟩⟩
  · rw [List.pairwise_append]
    refine ⟨h.apart hspread hgap, List.pairwise_singleton _ _,
      fun earlier hearlier later hlater => ?_⟩
    obtain rfl := List.mem_singleton.1 hlater
    exact hgap_le hspread hgap earlier hearlier

/-- After some draws a table holds what it held before, and behind that what was drawn. -/
theorem Draws.holds (h : start.Draws more table) (hstart : start.Holds spread gap drawn) :
    table.Holds spread gap (drawn ++ more) := by
  induction h with
  | nothing => rwa [List.append_nil]
  | failed _ hdraw ih =>
      obtain ⟨generator, rfl⟩ := exists_generator_of_draw hdraw
      exact ih.of_generator generator
  | entered base _ hnew hdraw ih =>
      rw [← List.append_assoc]
      exact ih.enter hnew hdraw

end Draws

section Asking

variable {K : Type} [Scalar K] {start table after : FactorTable K} {drawn : List (String × K)}
  {base : String} {seed : UInt32} {spread gap : K}

/-- For a name without a factor one is drawn, or none if the draw fails. -/
theorem draws_drawFor (hnew : table.factors.find? base = none) :
    (∃ failure after, outcome (drawFor base) table = (.error failure, after) ∧
      table.Draws [] after) ∨
    ∃ value after, outcome (drawFor base) table = (.ok value, after) ∧
      table.Draws [(base, value)] after ∧ after.factors = table.factors.insert base value := by
  unfold drawFor
  rcases outcome_bind_cases (draw : Action K K) (fun value => do
      modify fun table => { table with factors := table.factors.insert base value }
      pure value) table with
    ⟨failure, middle, hdraw, hall⟩ | ⟨value, middle, hdraw, hall⟩
  · exact Or.inl ⟨failure, middle, hall, .failed .nothing hdraw⟩
  · obtain ⟨generator, rfl⟩ := exists_generator_of_draw hdraw
    exact Or.inr ⟨value, _, hall, .entered base .nothing hnew hdraw, rfl⟩

/-- What asking for a factor does to a table is due to draws. -/
theorem draws_baseStandIn (base : String) (table : FactorTable K) :
    ∃ drawn, table.Draws drawn (outcome (baseStandIn base) table).2 := by
  unfold baseStandIn
  rw [outcome_get_bind]
  cases hfind : table.factors.find? base with
  | some value => exact ⟨[], .nothing⟩
  | none =>
      rcases draws_drawFor hfind with ⟨_, after, hrun, hdraws⟩ | ⟨_, after, hrun, hdraws, _⟩
      · exact ⟨_, by rw [hrun]; exact hdraws⟩
      · exact ⟨_, by rw [hrun]; exact hdraws⟩

/-- Whatever a table is asked, and whether or not it fails, what becomes of it is due to draws. -/
theorem Leads.draws (h : start.Leads table) : ∃ drawn, start.Draws drawn table := by
  refine h.preserves (I := fun table => ∃ drawn, start.Draws drawn table) ?_ ⟨[], .nothing⟩
  rintro base middle ⟨drawn, hdrawn⟩
  obtain ⟨more, hmore⟩ := draws_baseStandIn base middle
  exact ⟨drawn ++ more, hdrawn.trans hmore⟩

/-- A table is filled by drawing a factor for each name in turn. -/
theorem draws_fill {bases : List String} (hnodup : bases.Nodup)
    (hnew : ∀ base ∈ bases, table.factors.find? base = none)
    (hrun : outcome (fill bases) table = (.ok (), after)) :
    ∃ drawn, drawn.map Prod.fst = bases ∧ table.Draws drawn after := by
  induction bases generalizing table with
  | nil =>
      cases hrun
      exact ⟨[], rfl, .nothing⟩
  | cons first rest ih =>
      obtain ⟨hfirst, hrest⟩ := List.nodup_cons.1 hnodup
      obtain ⟨hnone, hothers⟩ := List.forall_mem_cons.1 hnew
      obtain ⟨value, middle, hvalue, hfill⟩ := fill_cons_ok hrun
      rcases draws_drawFor hnone with ⟨_, _, hall, _⟩ | ⟨_, _, hall, hdraws, hfactors⟩
      · rw [hvalue] at hall
        cases hall
      · rw [hvalue] at hall
        cases hall
        have hmiddle : ∀ base ∈ rest, middle.factors.find? base = none := by
          intro base hbase
          rw [hfactors, SortedMap.find?_insert_of_ne]
          · exact hothers base hbase
          · rintro rfl
            exact hfirst hbase
        obtain ⟨drawn, hnames, hdrawn⟩ := ih hrest hmiddle hfill
        exact ⟨(first, value) :: drawn, congrArg (first :: ·) hnames, hdraws.trans hdrawn⟩

theorem holds_bare (seed : UInt32) (gap : K) (hchecked : ¬spread ≤ 0 ∧ ¬1 ≤ spread) :
    (bare seed spread gap).Holds spread gap [] :=
  ⟨rfl, rfl, hchecked, fun _ _ => by simp [bare], List.nodup_nil, List.forall_mem_nil _,
    fun _ _ => List.Pairwise.nil⟩

/-- A table is created by drawing a factor for each base dimension. -/
theorem draws_create (h : create seed spread gap = .ok table) :
    ∃ drawn, drawn.map Prod.fst = Units.baseSymbols ∧ (bare seed spread gap).Draws drawn table :=
  draws_fill (by decide) (fun _ _ => rfl) (create_eq_ok_iff.1 h).2.2

end Asking

section Answering

variable {K : Type} [Scalar K] {table after : FactorTable K} {symbol : Symbol} {x : K}

/-- Whether a tag has a number for good: a table, asked for it at any later time, answers with this
number, and draws nothing. -/
def Settles (table : FactorTable K) (symbol : Symbol) (x : K) : Prop :=
  ∀ later, table.Leads later → outcome (factor symbol) later = (.ok x, later)

theorem settles_of_factor (h : outcome (factor symbol) table = (.ok x, after)) :
    after.Settles symbol x :=
  fun later hlater => (asks_factor symbol).learns.repeats table x after later h hlater.extends

theorem exists_product_of_has {powers : List (String × Int)}
    (h : ∀ power ∈ powers, table.Has power.1) (acc : K) :
    ∃ x, outcome (product acc powers) table = (.ok x, table) := by
  induction powers generalizing acc with
  | nil => exact ⟨acc, rfl⟩
  | cons first rest ih =>
      obtain ⟨hfirst, hrest⟩ := List.forall_mem_cons.1 h
      rw [product_cons, outcome_bind_ok _ (outcome_baseStandIn hfirst.find?)]
      exact ih hrest _

/-- A registered unit, and any other tag with a factor, is answered from the table. -/
theorem exists_settles (hcomplete : table.Complete) (hunit : symbol.isUnit = true)
    (hself : Units.find? (K := K) symbol.name = none → table.Has symbol.name) :
    ∃ x, table.Settles symbol x := by
  suffices hfactor : ∃ x, outcome (factor symbol) table = (.ok x, table) by
    obtain ⟨x, hx⟩ := hfactor
    exact ⟨x, settles_of_factor hx⟩
  cases hfind : Units.find? (K := K) symbol.name with
  | none =>
      rw [factor_of_unregistered hunit hfind]
      exact ⟨_, outcome_baseStandIn (hself hfind).find?⟩
  | some found =>
      rw [factor_of_registered hunit hfind]
      apply exists_product_of_has
      intro power hpower
      obtain ⟨hget, hne⟩ := (Powers.mem_entries_iff _ power).1 hpower
      exact hcomplete power.1 (Units.over_of_find? hfind power.1 (by rwa [← hget] at hne))

end Answering

section Seeds

variable {K : Type} [Scalar K]

/-- Whether a table of a seed can be filled, and passes a test then. The seed is given by the words
of its recurrence, which are quickly found. -/
def fillsTo (seed : UInt32) (spread gap : K) (test : FactorTable K → Bool) : Bool :=
  match outcome (fill Units.baseSymbols)
    ⟨⟨Twister.seedWords seed, 624⟩, spread, gap, ∅⟩ with
  | (.ok _, created) => test created
  | (.error _, _) => false

theorem exists_created {seed : UInt32} {spread gap : K} {test : FactorTable K → Bool}
    (hpositive : ¬spread ≤ 0) (hbelow : ¬1 ≤ spread) (h : fillsTo seed spread gap test = true) :
    ∃ created, create seed spread gap = .ok created ∧ test created = true := by
  unfold fillsTo at h
  rw [← Twister.ofSeed_eq] at h
  rcases hrun : outcome (fill Units.baseSymbols) (bare seed spread gap) with
    ⟨failure | ⟨⟩, created⟩
  · change outcome _ (FactorTable.mk (Twister.ofSeed seed) spread gap ∅) = _ at hrun
    rw [hrun] at h
    cases h
  · refine ⟨created, create_eq_ok_iff.2 ⟨hpositive, hbelow, hrun⟩, ?_⟩
    change outcome _ (FactorTable.mk (Twister.ofSeed seed) spread gap ∅) = _ at hrun
    rw [hrun] at h
    exact h

end Seeds

section Statement

variable {K : Type} [Scalar K] [Scalar.Comparable K] [Scalar.Drawable K]
  {created table : FactorTable K} {seed : UInt32} {spread gap : K}

/-- The factors of a table, whatever it has been asked since it was created, and whether or not that
failed. They are those that were drawn, first one for each base dimension; each has kept its name
and its value, and, if the spread and the gap are numbers, each is at least the gap away from every
earlier one; this goes on whatever the table is asked next. A tag that was answered once is answered
with the same number ever after, and so is a registered unit and a tag that has a factor, without
any random number being used up. -/
theorem factors_stay_apart_and_settled (hcreate : create seed spread gap = .ok created)
    (hleads : created.Leads table) :
    ∃ first asked, first.map Prod.fst = Units.baseSymbols ∧
      (bare seed spread gap).Draws (first ++ asked) table ∧
      table.Holds spread gap (first ++ asked) ∧
      (∀ later, table.Leads later → table.Extends later ∧
        ∃ more, table.Draws more later ∧ later.Holds spread gap (first ++ asked ++ more)) ∧
      (∀ symbol x after, outcome (factor symbol) table = (.ok x, after) →
        after.Settles symbol x) ∧
      (∀ symbol, symbol.isUnit = true →
        (Units.find? (K := K) symbol.name = none → table.Has symbol.name) →
          ∃ x, table.Settles symbol x) := by
  obtain ⟨first, hnames, hfirst⟩ := draws_create hcreate
  obtain ⟨asked, hasked⟩ := hleads.draws
  have hdrawn := hfirst.trans hasked
  have hchecked := (create_eq_ok_iff.1 hcreate).imp_right And.left
  have hholds : table.Holds spread gap (first ++ asked) :=
    hdrawn.holds (holds_bare seed gap hchecked)
  have harises : table.Arises := ⟨seed, spread, gap, created, hcreate, hleads⟩
  refine ⟨first, asked, hnames, hdrawn, hholds, fun later hlater => ?_, ?_, ?_⟩
  · obtain ⟨more, hmore⟩ := hlater.draws
    exact ⟨hlater.extends, more, hmore, hmore.holds hholds⟩
  · exact fun _ _ _ => settles_of_factor
  · exact fun _ => exists_settles harises.complete

/-- The factor for apples differs from those of all base dimensions, and stays what it is. -/
theorem apples_have_a_factor_of_their_own :
    ∃ (created table : FactorTable Binary64) (x : Binary64),
      create 1234 0.2 1e-10 = .ok created ∧
      outcome (factor (.unit "apple")) created = (.ok x, table) ∧
      (∀ base ∈ Units.baseSymbols, ∃ y, table.factors.find? base = some y ∧
        1e-10 ≤ Scalar.abs (x - y)) ∧
      (∀ later, table.Leads later → outcome (factor (.unit "apple")) later = (.ok x, later)) := by
  obtain ⟨created, hcreate, hok⟩ : ∃ created : FactorTable Binary64,
      create 1234 0.2 1e-10 = .ok created ∧
        (outcome (factor (.unit "apple")) created).1.isOk = true :=
    exists_created (by decide +kernel) (by decide +kernel) (by decide +kernel)
  rcases hfactor : outcome (factor (.unit "apple")) created with ⟨failure | x, table⟩
  · rw [hfactor] at hok
    cases hok
  have hleads : created.Leads (outcome (factor (.unit "apple")) created).2 :=
    .factor (.unit "apple") .refl
  rw [hfactor] at hleads
  obtain ⟨_, _, _, _, _, _, hsettles, _⟩ := factors_stay_apart_and_settled hcreate .refl
  obtain ⟨first, asked, hnames, _, hholds, _⟩ := factors_stay_apart_and_settled hcreate hleads
  have happle : ("apple", x) ∈ first ++ asked := by
    have hasks : (factor (.unit "apple") : Action Binary64 Binary64) = baseStandIn "apple" :=
      factor_of_unregistered rfl rfl
    rw [hasks] at hfactor
    exact (hholds.find?_iff "apple" x).1 (find?_of_baseStandIn hfactor)
  have hasked : ("apple", x) ∈ asked := by
    refine (List.mem_append.1 happle).resolve_left (fun hfirst => ?_)
    have hbase : "apple" ∈ Units.baseSymbols := hnames ▸ List.mem_map_of_mem hfirst
    exact absurd hbase (by decide)
  have hapart := List.pairwise_append.1
    (hholds.apart (by decide +kernel) (by decide +kernel))
  refine ⟨created, table, x, hcreate, hfactor, fun base hbase => ?_, hsettles _ x table hfactor⟩
  rw [← hnames] at hbase
  obtain ⟨⟨_, y⟩, hentry, rfl⟩ := List.mem_map.1 hbase
  have hdistance := hapart.2.2 _ hentry _ hasked
  exact ⟨y, (hholds.find?_iff _ y).2 (List.mem_append_left asked hentry), hdistance⟩

/-- Whether no two of the factors of a table are at least the gap apart. -/
def mingles {K : Type} [Scalar K] (table : FactorTable K) : Bool :=
  table.factors.entries.all (fun earlier => table.factors.entries.all (fun later =>
    !decide (table.gap ≤ Scalar.abs (later.2 - earlier.2))))

/-- A spread that is not a number passes the check of its range, and a gap that is not a number
clashes with nothing. Either way a factor is drawn for each base dimension, and no two of them are
apart. -/
theorem parameters_without_value_keep_nothing_apart :
    (∃ created : FactorTable Binary64, create 1 Scalar.nan 1e-10 = .ok created ∧
      (created.factors.entries.length == 9 && created.mingles) = true) ∧
    ∃ created : FactorTable Binary64, create 1 0.2 Scalar.nan = .ok created ∧
      (created.factors.entries.length == 9 && created.mingles) = true :=
  ⟨exists_created (by decide +kernel) (by decide +kernel) (by decide +kernel),
    exists_created (by decide +kernel) (by decide +kernel) (by decide +kernel)⟩

end Statement

end Ramify.FactorTable
