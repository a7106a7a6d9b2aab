import Ramify.Proofs.Judge
import Ramify.Proofs.Solver.Verbosity
import Ramify.Proofs.Worksheet.Lockstep
import Ramify.Proofs.Worksheet.Rational
import Ramify.Proofs.Worksheet.Reachable
import Ramify.Worksheet.Report

/-!
What a worksheet keeps to itself. The seed of a worksheet decides the factors that stand for units,
and its verbosity what it tells. Neither decides anything else: two worksheets that differ in them
only give the same replies and have the same branches, whatever is asked of them, as long as no unit
tag occurs in a relation that is judged.
-/

namespace Ramify

variable {K σ : Type} [Scalar K]

/-- No unit tag occurs in a relation. -/
def Relation.isUnitFree (relation : Relation K) : Bool :=
  !relation.lhs.mentionsUnit && !relation.rhs.mentionsUnit

omit [Scalar K] in
theorem Fraction.symbols_of_unitFree {a : Fraction K} (hunits : a.mentionsUnit = false)
    (hunknowns : a.unknowns.isEmpty = true) : a.symbols = [] := by
  unfold mentionsUnit at hunits
  unfold unknowns at hunknowns
  rw [List.isEmpty_iff, List.filter_eq_nil_iff] at hunknowns
  rw [List.any_eq_false] at hunits
  rw [List.eq_nil_iff_forall_not_mem]
  intro symbol hsymbol
  have hunit := hunits symbol hsymbol
  have hunknown := hunknowns symbol hsymbol
  simp_all

namespace Judge

/-- Two judges measure alike; the factors in their tables may differ. -/
structure MeasuresAlike (judge other : Judge K) : Prop where
  tolerance : other.tolerance = judge.tolerance
  smallest : other.smallest = judge.smallest

variable {lhs rhs : Fraction K}

/-- Without symbols, no factor is asked for. -/
theorem lockstep_eval {R : FactorTable K → FactorTable K → Prop} {a : Fraction K}
    (h : a.symbols = []) : Lockstep R Never (FactorTable.eval a) (FactorTable.eval a) := by
  unfold FactorTable.eval FactorTable.pointOf
  rw [h]
  apply Lockstep.bind (.pure _)
  intro point
  split
  · exact .pure _
  · exact .throw _

/-- Whether two quantities agree is decided by their values. -/
theorem agreeUnder_fst (judge : Judge K) (table : FactorTable K) :
    (judge.agreeUnder table lhs rhs).1 =
      match (outcome (values lhs rhs) table).1 with
      | .ok (a, b) => .ok (judge.agree lhs rhs a b)
      | .error failure => if failure.isInvalidArgument then .ok false else .error failure := by
  unfold agreeUnder outcome
  generalize (values lhs rhs).run.run table = run
  obtain ⟨failure | ⟨a, b⟩, after⟩ := run
  · rfl
  · rfl

theorem agreeUnder_alike (hlhs : lhs.symbols = []) (hrhs : rhs.symbols = []) {judge other : Judge K}
    (h : MeasuresAlike judge other) (table otherTable : FactorTable K) :
    (other.agreeUnder otherTable lhs rhs).1 = (judge.agreeUnder table lhs rhs).1 := by
  have hvalues : Lockstep (fun _ _ => True) Never (values lhs rhs) (values lhs rhs) :=
    .bind (lockstep_eval hlhs) (fun _ => .bind (lockstep_eval hrhs) (fun _ => .pure _))
  have hagree : other.agree lhs rhs = judge.agree lhs rhs := by
    funext a b
    unfold agree
    rw [h.tolerance, h.smallest]
  rw [agreeUnder_fst, agreeUnder_fst, (hvalues table otherTable trivial).never.1, hagree]

/-- Judges that measure alike judge relations alike in which no unit tag occurs. -/
theorem lockstep_verdict (hlhs : lhs.mentionsUnit = false) (hrhs : rhs.mentionsUnit = false) :
    Lockstep MeasuresAlike Never (verdict lhs rhs) (verdict lhs rhs) := by
  by_cases hquantities : (lhs.unknowns.isEmpty && rhs.unknowns.isEmpty) = true
  · have hquantities' := hquantities
    rw [Bool.and_eq_true] at hquantities'
    have hnone := Fraction.symbols_of_unitFree hlhs hquantities'.1
    have hnone' := Fraction.symbols_of_unitFree hrhs hquantities'.2
    have hfirst : Lockstep MeasuresAlike Never (agreeUnderFirst lhs rhs)
        (agreeUnderFirst lhs rhs) := by
      intro judge other h
      rw [outcome_agreeUnderFirst, outcome_agreeUnderFirst]
      exact Or.inr ⟨agreeUnder_alike hnone hnone' h _ _, h.tolerance, h.smallest⟩
    have hsecond : Lockstep MeasuresAlike Never (agreeUnderSecond lhs rhs)
        (agreeUnderSecond lhs rhs) := by
      intro judge other h
      rw [outcome_agreeUnderSecond, outcome_agreeUnderSecond]
      exact Or.inr ⟨agreeUnder_alike hnone hnone' h _ _, h.tolerance, h.smallest⟩
    unfold verdict
    rw [if_pos hquantities]
    apply Lockstep.bind hfirst
    intro agreed
    cases agreed with
    | false => exact .pure _
    | true =>
        apply Lockstep.bind hsecond
        intro agreed'
        cases agreed' with
        | false => exact .pure _
        | true => exact .pure _
  · intro judge other h
    rw [verdict_unknowns hquantities, verdict_unknowns hquantities]
    cases difference lhs rhs with
    | error cause => exact Or.inr ⟨rfl, h⟩
    | ok gap =>
        dsimp only
        split
        · exact Or.inr ⟨rfl, h⟩
        · refine Or.inr ⟨rfl, h.tolerance, ?_⟩
          unfold observe
          rw [h.smallest]

end Judge

namespace Worksheet

/-- Two worksheets that differ in what does not show: the factors of the judge, what the engine and
the worksheet tell, and the options that decide about these. -/
structure Alike (s t : Worksheet K σ) : Prop where
  face : t.face = s.face
  engine : s.engine.Alike t.engine
  engineState : t.engineState = s.engineState
  judge : s.judge.MeasuresAlike t.judge

omit [Scalar K] in
theorem mirrors_alike : Mirrors (Alike (K := K) (σ := σ)) where
  face _ _ h := h.face
  withFace _ _ h _ := ⟨rfl, h.engine, h.engineState, h.judge⟩
  tell _ _ _ h := Or.inr ⟨rfl, h.face, h.engine, h.engineState, h.judge⟩
  narrate line s t h := by
    obtain ⟨log, hlog⟩ := outcome_narrate line s
    obtain ⟨log', hlog'⟩ := outcome_narrate line t
    rw [hlog, hlog']
    exact Or.inr ⟨rfl, h.face, h.engine, h.engineState, h.judge⟩
  ask relations unknowns s t h := by
    rw [outcome_ask, outcome_ask, h.engineState]
    obtain ⟨hanswer, hstate⟩ := h.engine relations unknowns s.engineState
    refine Or.inr ⟨hanswer, h.face, h.engine, ?_, h.judge⟩
    unfold asked
    dsimp only
    rw [h.engineState, hstate]

/-- The judges of such worksheets agree where no unit tag occurs. -/
theorem judgesAlike_alike :
    JudgesAlike (Alike (K := K) (σ := σ)) (fun relation => relation.isUnitFree = true) := by
  intro relation hfree s t h
  unfold Relation.isUnitFree at hfree
  rw [Bool.and_eq_true, Bool.not_eq_true', Bool.not_eq_true'] at hfree
  obtain ⟨hsame, hjudge⟩ := (Judge.lockstep_verdict hfree.1 hfree.2 _ _ h.judge).never
  rw [outcome_onJudge, outcome_onJudge]
  exact Or.inr ⟨hsame, h.face, h.engine, h.engineState, hjudge⟩

/-- A new judge has its tolerance from the options, and has seen nothing. -/
theorem measures_makeJudge {options : WorksheetOptions K} {judge : Judge K}
    (h : makeJudge options = .ok judge) :
    judge.tolerance = options.tolerance ∧ judge.smallest = .none := by
  unfold makeJudge Judge.create at h
  obtain ⟨first, _, h⟩ := except_bind_eq_ok.1 h
  obtain ⟨second, _, h⟩ := except_bind_eq_ok.1 h
  cases h
  exact ⟨rfl, rfl⟩

/-- Worksheets that are created with another seed, another verbosity and an engine that answers
alike are alike. -/
theorem alike_create {names : List String} {descriptions : SortedMap String String}
    {options : WorksheetOptions K} {seed : UInt32} {verbose : Bool} {engine other : Engine K σ}
    {state : σ} {s t : Worksheet K σ} (hengine : engine.Alike other)
    (hs : create names descriptions options engine state = .ok s)
    (ht : create names descriptions { options with seed := seed, verbose := verbose } other state =
      .ok t) : Alike s t := by
  obtain ⟨judge, hjudge, rfl⟩ := create_eq hs
  obtain ⟨judge', hjudge', rfl⟩ := create_eq ht
  obtain ⟨htolerance, hsmallest⟩ := measures_makeJudge hjudge
  obtain ⟨htolerance', hsmallest'⟩ := measures_makeJudge hjudge'
  exact ⟨rfl, hengine, rfl, htolerance'.trans htolerance.symm, hsmallest'.trans hsmallest.symm⟩

end Worksheet

/-- What can be asked of a worksheet without changing it. -/
inductive Query
  /-- The value of a variable in the current branch. -/
  | value (name : String)
  /-- Whether no unknown occurs in this value. -/
  | isResolved (name : String)
  /-- The variables of the current branch that have no unknowns in their values. -/
  | resolvedBindings
  /-- The values of a variable in all branches. -/
  | values (name : String)
  /-- The numbers that a variable stands for in all branches. -/
  | numbers (name : String)
  /-- The description of a variable. -/
  | description (name : String)
  /-- All branches as text. -/
  | branches

/-- What a caller can ask of a worksheet. -/
inductive Request (K : Type)
  /-- Obeys a command. -/
  | command (command : Command K)
  /-- Registers a procedure. -/
  | procedure (name : String) (body : Option (Program K))
  /-- Answers a query. -/
  | query (query : Query)

inductive Reply (K : Type)
  | done
  | value (value : Fraction K)
  | flag (holds : Bool)
  | bindings (bindings : Bindings K)
  | values (values : List (Fraction K))
  | numbers (numbers : List K)
  | text (text : String)

namespace Worksheet

def answer (sheet : Worksheet K σ) : Query → Except (Failure K) (Reply K)
  | .value name => do pure (.value (← sheet.value name))
  | .isResolved name => do pure (.flag (← sheet.isResolved name))
  | .resolvedBindings => do pure (.bindings (← sheet.resolvedBindings))
  | .values name => do pure (.values (← sheet.values name))
  | .numbers name => do pure (.numbers (← sheet.numbers name))
  | .description name => do pure (.text (← sheet.description name))
  | .branches => pure (.text sheet.branchesText)

def respond : Request K → Action K σ (Reply K)
  | .command command => do
    obey command
    pure .done
  | .procedure name body => do
    registerProcedure name body
    pure .done
  | .query query => do MonadExcept.ofExcept ((← get).answer query)

/-- The replies to a list of requests, and what they leave of the worksheet. After a failure the
caller goes on with the next request. -/
def serve : List (Request K) → Worksheet K σ → List (Except (Failure K) (Reply K)) × Worksheet K σ
  | [], sheet => ([], sheet)
  | request :: rest, sheet =>
    let (reply, after) := outcome (respond request) sheet
    let (replies, last) := serve rest after
    (reply :: replies, last)

def judgedOn (sheet : Worksheet K σ) : Request K → List (Relation K)
  | .command (.solve steps) => sheet.judgedInSolve steps
  | _ => []

def judgedInService : List (Request K) → Worksheet K σ → List (Relation K)
  | [], _ => []
  | request :: rest, sheet =>
    sheet.judgedOn request ++ judgedInService rest (outcome (respond request) sheet).2

theorem answer_alike {s t : Worksheet K σ} (h : Alike s t) (query : Query) :
    t.answer query = s.answer query := by
  have hbranches : t.branches = s.branches := congrArg Face.branches h.face
  have hdescriptions : t.descriptions = s.descriptions := congrArg Face.descriptions h.face
  cases query with
  | value name => simp only [answer, value, hbranches]
  | isResolved name => simp only [answer, isResolved, value, hbranches]
  | resolvedBindings => simp only [answer, resolvedBindings, hbranches]
  | values name => simp only [answer, values, hbranches]
  | numbers name => simp only [answer, numbers, values, hbranches]
  | description name => simp only [answer, description, hbranches, hdescriptions]
  | branches =>
      unfold answer branchesText variableLine
      rw [hbranches, hdescriptions]

/-- A command other than solving does the same in both worksheets. -/
theorem alongside_obey {command : Command K} (hnot : ∀ steps, command ≠ .solve steps) :
    Alongside (Alike (K := K) (σ := σ)) (obey command) (obey command) := by
  cases command with
  | set name value =>
      exact .bind (alongside_evaluate mirrors_alike value)
        (fun found => alongside_assign mirrors_alike name found)
  | clear name => exact alongside_clear mirrors_alike name
  | declare names => exact alongside_declare mirrors_alike names
  | register name sides => exact alongside_registerEquation mirrors_alike name sides
  | delete => exact alongside_dropCurrent mirrors_alike
  | switch index => exact alongside_switch mirrors_alike index
  | rotate => exact alongside_rotate mirrors_alike
  | solve steps => exact absurd rfl (hnot steps)

theorem inStep_respond {s t : Worksheet K σ} (h : Alike s t) (request : Request K)
    (hjudged : ∀ relation ∈ s.judgedOn request, relation.isUnitFree = true) :
    InStep Alike Never (outcome (respond request) s) (outcome (respond request) t) := by
  cases request with
  | command command =>
      have hobey : InStep Alike Never (outcome (obey command) s) (outcome (obey command) t) := by
        by_cases hsolve : ∃ steps, command = .solve steps
        · obtain ⟨steps, rfl⟩ := hsolve
          exact inStep_solve mirrors_alike judgesAlike_alike steps h hjudged
        · push Not at hsolve
          exact alongside_obey hsolve s t h
      exact hobey.bind (fun _ _ _ _ h' => Or.inr ⟨rfl, h'⟩)
  | procedure name body =>
      exact Lockstep.bind (alongside_registerProcedure mirrors_alike name body)
        (fun _ => .pure Reply.done) s t h
  | query query =>
      unfold respond
      rw [outcome_get_bind, outcome_get_bind, answer_alike h query]
      exact Lockstep.ofExcept (s.answer query) s t h

/-- Worksheets that are alike give the same replies and stay alike. -/
theorem serve_alike {s t : Worksheet K σ} (h : Alike s t) (requests : List (Request K))
    (hjudged : ∀ relation ∈ judgedInService requests s, relation.isUnitFree = true) :
    (serve requests t).1 = (serve requests s).1 ∧
      Alike (serve requests s).2 (serve requests t).2 := by
  induction requests generalizing s t with
  | nil => exact ⟨rfl, h⟩
  | cons request rest ih =>
      obtain ⟨hnow, hlater⟩ := List.forall_mem_append.1 hjudged
      obtain ⟨hreply, hafter⟩ := (inStep_respond h request hnow).never
      obtain ⟨hreplies, hlast⟩ := ih hafter hlater
      exact ⟨congrArg₂ List.cons hreply hreplies, hlast⟩

/-- Neither the seed of a worksheet nor its verbosity has an influence on replies, failures and
branches, as long as no unit tag occurs in a relation that is judged. The engine may differ in its
verbosity, too. -/
theorem seed_and_verbosity_do_not_show :
    (∀ (numerics : Numerics K) (settings : SolverSettings K) (first second : Bool),
      (Engine.polynomial numerics { settings with verbose := first }).Alike
        (Engine.polynomial numerics { settings with verbose := second })) ∧
    ∀ (names : List String) (descriptions : SortedMap String String) (options : WorksheetOptions K)
      (seed : UInt32) (verbose : Bool) (engine other : Engine K σ) (state : σ)
      (s t : Worksheet K σ) (requests : List (Request K)),
      engine.Alike other →
      create names descriptions options engine state = .ok s →
      create names descriptions { options with seed := seed, verbose := verbose } other state =
        .ok t →
      (∀ relation ∈ judgedInService requests s, relation.isUnitFree = true) →
      (serve requests t).1 = (serve requests s).1 ∧
        (serve requests t).2.face = (serve requests s).2.face := by
  refine ⟨fun numerics settings first second => Solver.alike_polynomial numerics _ second, ?_⟩
  intro names descriptions options seed verbose engine other state s t requests hengine hs ht
    hjudged
  obtain ⟨hreplies, hlast⟩ := serve_alike (alike_create hengine hs ht) requests hjudged
  exact ⟨hreplies, hlast.face⟩

/-- A worksheet with the usual engine, for a seed and a verbosity. -/
noncomputable def newSheet (seed : UInt32) (verbose : Bool) : Worksheet Rat Twister :=
  fresh ["x", "y"] ∅ { Rational.options seed with verbose := verbose }
    (Engine.polynomial Methods.standard { Rational.settings with verbose := verbose })
    (Twister.ofSeed 42)
    ⟨(Rational.exists_judge seed verbose).choose,
      (Rational.exists_judge seed verbose).choose_spec.choose, 0, .none⟩

theorem create_newSheet (seed : UInt32) (verbose : Bool) :
    create ["x", "y"] ∅ { Rational.options seed with verbose := verbose }
      (Engine.polynomial Methods.standard { Rational.settings with verbose := verbose })
      (Twister.ofSeed 42) = .ok (newSheet seed verbose) := by
  unfold create
  rw [(Rational.exists_judge seed verbose).choose_spec.choose_spec]
  rfl

/-- Two equations, a procedure, a second run and a request that fails. -/
def sumAndValue : List (Request Rat) :=
  [.command (.register "sum" (some [.add (.value "x") (.value "y"), .number 3])),
    .command (.register "value" (some [.value "x", .number 1])),
    .procedure "positive" (some (.choose (.less (.value "y") 0) .delete .skip)),
    .command (.solve 4), .command (.solve 4), .query (.numbers "y"), .command .delete]

theorem sum_and_value_do_not_show_the_seed :
    (serve sumAndValue (newSheet 1 false)).1.map Except.isOk =
      [true, true, true, true, true, true, false] ∧
    (serve sumAndValue (newSheet 2 true)).1 = (serve sumAndValue (newSheet 1 false)).1 ∧
    (serve sumAndValue (newSheet 2 true)).2.face =
      (serve sumAndValue (newSheet 1 false)).2.face := by
  refine ⟨by decide +kernel, ?_⟩
  obtain ⟨hengines, hhidden⟩ := seed_and_verbosity_do_not_show (K := Rat) (σ := Twister)
  exact hhidden ["x", "y"] ∅ { Rational.options 1 with verbose := false } 2 true _ _
    (Twister.ofSeed 42) _ _ sumAndValue (hengines Methods.standard Rational.settings false true)
    (create_newSheet 1 false) (create_newSheet 2 true) (by decide +kernel)

end Worksheet

end Ramify
