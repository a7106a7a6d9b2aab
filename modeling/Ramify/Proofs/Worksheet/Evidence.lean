import Ramify.Proofs.Worksheet.Changes
import Ramify.Proofs.Worksheet.Turns

/-!
What a run reports when every branch is contradictory. A branch is marked when one of the equations
that are gathered for it cannot hold, and the mark is made of what was gathered up to there. Marks
come from gathering alone, a branch is worked on once in a run, and a run begins without marks; so
the report has one entry for each branch that the run has marked, and nothing else.
-/

namespace Ramify

namespace Worksheet

open Branches (Lacks Has)

variable {K σ : Type} [Scalar K]

/-- Equations are stated under some bindings and judged one after the other, with these findings. -/
inductive Judged (bindings : Bindings K) :
    List (Equation K) → Judge K → List (Relation K × Verdict) → Judge K → Prop
  | nil (judge : Judge K) : Judged bindings [] judge [] judge
  | cons {equation : Equation K} {rest : List (Equation K)} {judge next last : Judge K}
    {relation : Relation K} {verdict : Verdict} {findings : List (Relation K × Verdict)}
    (hstated : statedIn bindings equation = .ok relation)
    (hverdict : outcome (Judge.verdict relation.lhs relation.rhs) judge = (.ok verdict, next))
    (hrest : Judged bindings rest next findings last) :
    Judged bindings (equation :: rest) judge ((relation, verdict) :: findings) last

def usableAmong {K : Type} (findings : List (Relation K × Verdict)) : List (Relation K) :=
  (findings.filter (fun finding => finding.2 = .usable)).map Prod.fst

/-- Relations are the evidence that the equations contradict some bindings: the first equations are
judged, the last one of them cannot hold and no other one is a contradiction; the evidence are the
usable relations, in this order and no two of them alike, and the contradiction behind them. -/
inductive Evidence (bindings : Bindings K) (equations : List (Equation K)) (judge : Judge K) :
    List (Relation K) → Prop
  | intro {earlier later : List (Equation K)} {equation : Equation K}
    {findings : List (Relation K × Verdict)} {usable : List (Relation K)} {last : Relation K}
    {learnt : Judge K} (hequations : equations = earlier ++ equation :: later)
    (hjudged : Judged bindings (earlier ++ [equation]) judge
      (findings ++ [(last, .contradiction)]) learnt)
    (hnone : ∀ finding ∈ findings, finding.2 ≠ .contradiction)
    (horder : usable.Sublist (usableAmong findings))
    (hdifferent : usable.Pairwise (fun former latter => (latter == former) = false))
    (hall : ∀ relation ∈ usableAmong findings,
      relation ∈ usable ∨ usable.contains relation = true) :
    Evidence bindings equations judge (usable ++ [last])

/-- While a branch is solved it is marked with relations: what is gathered for it with a worksheet
is a contradiction. -/
def MarkedIn (id : Nat) (visit moment : Worksheet K σ) (relations : List (Relation K)) : Prop :=
  FullRoundAt id visit moment ∧ ∃ after,
    outcome (gather id moment.equations []) moment = (.ok none, after) ∧
    after.marked.find? id = some relations

/-- In a run a branch is marked with relations when its turn has come. -/
def MarkedAt (steps : Nat) (sheet : Worksheet K σ) (id : Nat) (moment : Worksheet K σ)
    (relations : List (Relation K)) : Prop :=
  ∃ visit, VisitAt steps [] sheet.opened id visit ∧ MarkedIn id visit moment relations

section Collecting

variable {found relations : List (Relation K)}

/-- The relations behind those already found, each that is like an earlier one left out. -/
def collect (found : List (Relation K)) : List (Relation K) → List (Relation K)
  | [] => found
  | relation :: rest =>
    collect (if found.contains relation then found else found ++ [relation]) rest

/-- What is collected follows what was found, in order. -/
theorem exists_collect (found relations : List (Relation K)) :
    ∃ added, collect found relations = found ++ added ∧ added.Sublist relations := by
  induction relations generalizing found with
  | nil => exact ⟨[], (List.append_nil found).symm, .slnil⟩
  | cons relation rest ih =>
      obtain ⟨added, hadded, hsublist⟩ :=
        ih (if found.contains relation then found else found ++ [relation])
      rw [collect, hadded]
      split
      · exact ⟨added, rfl, hsublist.cons relation⟩
      · exact ⟨relation :: added, List.append_assoc _ _ _, hsublist.cons_cons relation⟩

theorem pairwise_collect
    (h : found.Pairwise (fun former latter => (latter == former) = false)) :
    (collect found relations).Pairwise (fun former latter => (latter == former) = false) := by
  induction relations generalizing found with
  | nil => exact h
  | cons relation rest ih =>
      rw [collect]
      split
      · exact ih h
      · rename_i hnew
        refine ih (List.pairwise_append.2 ⟨h, List.pairwise_singleton _ _, ?_⟩)
        intro former hformer latter hlatter
        rw [List.mem_singleton.1 hlatter]
        rw [List.contains_eq_any_beq, List.any_eq_true] at hnew
        exact Bool.eq_false_iff.2 fun hsame => hnew ⟨former, hformer, hsame⟩

/-- Every relation is collected, or one like it. -/
theorem mem_or_contains_collect {relation : Relation K} (h : relation ∈ relations) :
    relation ∈ collect found relations ∨ (collect found relations).contains relation = true := by
  induction relations generalizing found with
  | nil => cases h
  | cons first rest ih =>
      rcases List.mem_cons.1 h with rfl | hrest
      · obtain ⟨added, hadded, _⟩ :=
          exists_collect (if found.contains relation then found else found ++ [relation]) rest
        rw [collect, hadded]
        split
        · rename_i hseen
          rw [List.contains_eq_any_beq, List.any_eq_true] at hseen
          obtain ⟨former, hformer, hsame⟩ := hseen
          right
          rw [List.contains_eq_any_beq, List.any_eq_true]
          exact ⟨former, List.mem_append_left _ hformer, hsame⟩
        · left
          exact List.mem_append_left _ (List.mem_append_right _ List.mem_cons_self)
      · exact ih hrest

/-- Equations of which one cannot hold are judged up to that one. -/
theorem judged_of_contradictory {bindings : Bindings K} {equations : List (Equation K)}
    {judge after : Judge K}
    (hrun : outcome (sift bindings equations found) judge =
      (.ok (.contradictory relations), after)) :
    ∃ earlier equation later findings last,
      equations = earlier ++ equation :: later ∧
      Judged bindings (earlier ++ [equation]) judge (findings ++ [(last, .contradiction)]) after ∧
      (∀ finding ∈ findings, finding.2 ≠ .contradiction) ∧
      relations = collect found (usableAmong findings) ++ [last] := by
  induction equations generalizing found judge with
  | nil => cases hrun
  | cons equation rest ih =>
      obtain ⟨relation, verdict, middle, hstated, hverdict, hsifted⟩ := sift_cons_ok hrun
      by_cases hverdict' : verdict = .contradiction
      · subst hverdict'
        obtain ⟨hfindings, rfl⟩ := hsifted
        cases hfindings
        exact ⟨[], equation, rest, [], relation, rfl, .cons hstated hverdict (.nil _), nofun, rfl⟩
      · -- the others are judged after this one, which is collected if it is usable
        have hrest : ∃ kept, outcome (sift bindings rest kept) middle =
            (.ok (.contradictory relations), after) ∧ ∀ findings,
            collect kept (usableAmong findings) =
              collect found (usableAmong ((relation, verdict) :: findings)) := by
          cases verdict with
          | redundant => exact ⟨_, hsifted, fun _ => rfl⟩
          | contradiction => exact absurd rfl hverdict'
          | usable => exact ⟨_, hsifted, fun _ => rfl⟩
        obtain ⟨kept, hlater, hkept⟩ := hrest
        obtain ⟨earlier, other, later, findings, last, hequations, hjudged, hnone,
          hrelations⟩ := ih hlater
        exact ⟨equation :: earlier, other, later, (relation, verdict) :: findings, last,
          congrArg (equation :: ·) hequations, .cons hstated hverdict hjudged,
          List.forall_mem_cons.2 ⟨hverdict', hnone⟩, hkept findings ▸ hrelations⟩

/-- What a branch is marked with is evidence. -/
theorem evidence_of_gather {id : Nat} {moment after : Worksheet K σ} {branch : Branch K}
    (hformed : moment.branches.WellFormed)
    (hbranch : moment.branches.list[moment.branches.current]? = some branch)
    (hgather : outcome (gather id moment.equations []) moment = (.ok none, after))
    (hmark : after.marked.find? id = some relations) :
    Evidence branch.bindings moment.equations moment.judge relations := by
  obtain ⟨log, hall⟩ := outcome_gather id moment.equations [] moment hformed hbranch
  rw [hgather] at hall
  rcases hsift : outcome (sift branch.bindings moment.equations []) moment.judge with
    ⟨failure | usable | collected, judge⟩
  · rw [hsift] at hall
    cases hall
  · rw [hsift] at hall
    cases hall
  · rw [hsift] at hall
    cases hall
    obtain rfl : collected = relations :=
      Option.some.inj ((SortedMap.find?_insert_self _ _ _).symm.trans hmark)
    obtain ⟨earlier, equation, later, findings, last, hequations, hjudged, hnone, rfl⟩ :=
      judged_of_contradictory hsift
    obtain ⟨added, hadded, hsublist⟩ := exists_collect [] (usableAmong findings)
    refine .intro hequations hjudged hnone ?_ (pairwise_collect List.Pairwise.nil)
      fun relation => mem_or_contains_collect
    rw [hadded]
    exact hsublist

end Collecting

section Marks

variable {id : Nat} {sheet : Worksheet K σ}

/-- Gathering that finds no contradiction, and trying what was gathered, marks nothing. -/
theorem marked_of_sweep {moment gathered after : Worksheet K σ} {relations : List (Relation K)}
    {resolved : Bool} (hformed : moment.branches.WellFormed)
    (hgather : outcome (gather id moment.equations []) moment = (.ok (some relations), gathered))
    (hsweep : outcome ((gathered.trials relations).anyM (resolveBy id)) gathered =
      (.ok resolved, after)) :
    after.marked = moment.marked := by
  obtain ⟨branch, hbranch⟩ := hformed.exists_current
  obtain ⟨log, hall⟩ := outcome_gather id moment.equations [] moment hformed hbranch
  rw [hgather] at hall
  have hgathered : gathered.marked = moment.marked ∧ gathered.branches = moment.branches := by
    rcases hsift : outcome (sift branch.bindings moment.equations []) moment.judge with
      ⟨failure | usable | collected, judge⟩
    · rw [hsift] at hall
      cases hall
    · rw [hsift] at hall
      cases hall
      exact ⟨rfl, rfl⟩
    · rw [hsift] at hall
      cases hall
  obtain ⟨_, _, _, _, hafter, _⟩ := outcome_sweep id (gathered.trials relations) gathered
    (hgathered.2 ▸ hformed)
  rw [hsweep] at hafter
  change after = _ at hafter
  rw [hafter]
  exact hgathered.1

theorem marked_performAll {performed : Worksheet K σ} {result : Except (Failure K) Bool}
    (hperform : outcome (performAll id) sheet = (result, performed)) :
    performed.marked = sheet.marked ∧
      (sheet.branches.WellFormed → performed.branches.WellFormed) := by
  have hhandles := handles_performAll False id sheet False.elim
  rw [hperform] at hhandles
  exact ⟨hhandles.marked, hhandles.formed⟩

/-- A branch is marked in the first round, or in what follows it. -/
theorem markedIn_iff {moment : Worksheet K σ} {relations : List (Relation K)} :
    MarkedIn id sheet moment relations ↔
      ∃ performed, outcome (performAll id) sheet = (.ok true, performed) ∧
        ((moment = performed ∧ ∃ after,
            outcome (gather id performed.equations []) performed = (.ok none, after) ∧
            after.marked.find? id = some relations) ∨
          ∃ found gathered after,
            outcome (gather id performed.equations []) performed = (.ok (some found), gathered) ∧
            outcome ((gathered.trials found).anyM (resolveBy id)) gathered = (.ok true, after) ∧
            MarkedIn id after moment relations) := by
  constructor
  · rintro ⟨hround, hmarked⟩
    cases hround with
    | first hperform => exact ⟨_, hperform, Or.inl ⟨rfl, hmarked⟩⟩
    | again hperform hgather hsweep hrest =>
        exact ⟨_, hperform, Or.inr ⟨_, _, _, hgather, hsweep, hrest, hmarked⟩⟩
  · rintro ⟨performed, hperform, ⟨rfl, hmarked⟩ | ⟨found, gathered, after, hgather, hsweep, hrest⟩⟩
    · exact ⟨.first hperform, hmarked⟩
    · exact ⟨.again hperform hgather hsweep hrest.1, hrest.2⟩

/-- Solving a branch that is not marked yet marks it with what is gathered at a contradiction, and
marks no other branch. -/
theorem marks_of_settle {steps : Nat} {after : Worksheet K σ} (hformed : sheet.branches.WellFormed)
    (hnew : sheet.marked.find? id = none)
    (hrun : outcome (settle id steps) sheet = (.ok (), after)) :
    (∀ other, other ≠ id → after.marked.find? other = sheet.marked.find? other) ∧
      ∀ relations, after.marked.find? id = some relations ↔
        ∃ moment, MarkedIn id sheet moment relations := by
  induction steps generalizing sheet with
  | zero =>
      rw [settle] at hrun
      cases hrun
  | succ steps ih =>
      have hunmarked {last : Worksheet K σ} (hsame : last.marked = sheet.marked)
          (hnever : ∀ moment relations, ¬ MarkedIn id sheet moment relations) :
          (∀ other, other ≠ id → last.marked.find? other = sheet.marked.find? other) ∧
            ∀ relations, last.marked.find? id = some relations ↔
              ∃ moment, MarkedIn id sheet moment relations := by
        rw [hsame, hnew]
        refine ⟨fun _ _ => rfl, fun relations => ⟨fun hmark => (by cases hmark), ?_⟩⟩
        rintro ⟨moment, hmarked⟩
        exact absurd hmarked (hnever moment relations)
      have hround := fullRound_settle id steps sheet
      rw [hrun] at hround
      generalize hpair : ((.ok (), after) : Except (Failure K) Unit × _) = run at hround
      cases hround with
      | @halted result last hperform hresult =>
          rcases result with failure | stays
          · cases hpair
          cases hpair
          refine hunmarked (marked_performAll hperform).1 fun moment relations hmarked => ?_
          obtain ⟨performed, hperform', -⟩ := markedIn_iff.1 hmarked
          rw [hperform] at hperform'
          exact absurd (congrArg Prod.fst hperform') hresult
      | @stopped performed last result hperform hgather hresult =>
          rcases result with failure | _ | found
          · cases hpair
          · cases hpair
            obtain ⟨hsame, hperformed⟩ := marked_performAll hperform
            have hworks := works_gathered (hperformed hformed) hgather
            refine ⟨fun other hother => (hworks.marks other hother).trans (by rw [hsame]),
              fun relations => ⟨fun hmark => ⟨performed, markedIn_iff.2 ?_⟩, ?_⟩⟩
            · exact ⟨_, hperform, Or.inl ⟨rfl, _, hgather, hmark⟩⟩
            · rintro ⟨moment, hmarked⟩
              have hfirst : moment = performed ∧ after.marked.find? id = some relations := by
                simpa [hperform, hgather] using markedIn_iff.1 hmarked
              exact hfirst.2
          · exact absurd rfl (hresult found)
      | broken => cases hpair
      | @again performed gathered middle found hperform hgather hsweep =>
          obtain ⟨hsame, hperformed⟩ := marked_performAll hperform
          have hmiddle := (marked_of_sweep (hperformed hformed) hgather hsweep).trans hsame
          have hworks := works_gathered (hperformed hformed) hgather
          have hafter := (works_swept hworks.formed hsweep).formed
          obtain ⟨hothers, hmine⟩ := ih hafter (hmiddle ▸ hnew) hpair.symm
          refine ⟨hmiddle ▸ hothers, fun relations => (hmine relations).trans ?_⟩
          refine exists_congr fun moment => ⟨fun hmarked => markedIn_iff.2 ?_, fun hmarked => ?_⟩
          · exact ⟨_, hperform, Or.inr ⟨_, _, _, hgather, hsweep, hmarked⟩⟩
          · simpa [hperform, hgather, hsweep] using markedIn_iff.1 hmarked
      | @settled performed gathered middle last found result hperform hgather hsweep hlast =>
          rcases result with failure | stays
          · cases hpair
          cases hpair
          obtain ⟨hsame, hperformed⟩ := marked_performAll hperform
          have hmiddle := (marked_of_sweep (hperformed hformed) hgather hsweep).trans hsame
          have hend := (marked_performAll hlast).1.trans hmiddle
          refine hunmarked hend fun moment relations hmarked => ?_
          rw [markedIn_iff] at hmarked
          simp [hperform, hgather, hsweep] at hmarked

/-- The visits that follow one that ends well. -/
theorem visitAt_iff {limit index other : Nat} {visited : List Nat}
    {turned middle moment : Worksheet K σ}
    (hnext : nextUnvisited sheet.branches visited = some (index, id))
    (hturn : outcome (turn index id) sheet = (.ok (), turned))
    (hsettle : outcome (settle id limit) turned = (.ok (), middle)) :
    VisitAt limit visited sheet other moment ↔
      (other = id ∧ moment = turned) ∨ VisitAt limit (id :: visited) middle other moment := by
  constructor
  · intro h
    cases h with
    | here hnext' hturn' =>
        rw [hnext] at hnext'
        cases hnext'
        rw [hturn] at hturn'
        cases hturn'
        exact Or.inl ⟨rfl, rfl⟩
    | later hnext' hturn' hsettle' hrest =>
        rw [hnext] at hnext'
        cases hnext'
        rw [hturn] at hturn'
        cases hturn'
        rw [hsettle] at hsettle'
        cases hsettle'
        exact Or.inr hrest
  · rintro (⟨rfl, rfl⟩ | hrest)
    · exact .here hnext hturn
    · exact .later hnext hturn hsettle hrest

/-- If only branches that have been visited are marked, the marks after a visit to the others are
those before it and those that it makes. -/
theorem marks_of_visitAll {limit steps : Nat} {visited found : List Nat} {after : Worksheet K σ}
    (hformed : sheet.branches.WellFormed)
    (hvisited : ∀ id, id ∉ visited → sheet.marked.find? id = none)
    (hrun : outcome (visitAll limit steps visited) sheet = (.ok found, after)) (id : Nat)
    (relations : List (Relation K)) :
    after.marked.find? id = some relations ↔ sheet.marked.find? id = some relations ∨
      ∃ visit moment, VisitAt limit visited sheet id visit ∧
        MarkedIn id visit moment relations := by
  induction steps generalizing sheet visited with
  | zero =>
      rw [visitAll] at hrun
      cases hrun
  | succ steps ih =>
      cases hnext : nextUnvisited sheet.branches visited with
      | none =>
          rw [outcome_visitAll_done limit steps hnext] at hrun
          cases hrun
          refine ⟨Or.inl, ?_⟩
          rintro (hmark | ⟨visit, moment, hvisit, -⟩)
          · exact hmark
          · obtain ⟨_, hsome⟩ := hvisit.exists_next
            cases hnext.symm.trans hsome
      | some pair =>
          obtain ⟨index, now⟩ := pair
          obtain ⟨branch, log, hbranch, rfl, hnew, hturn⟩ := exists_turn hnext
          rw [outcome_visitAll_next limit steps hnext hturn] at hrun
          obtain ⟨_, middle, hsettle, hrun⟩ := outcome_bind_eq_ok.1 hrun
          have hturned := formed_turnedTo hformed hbranch log
          obtain ⟨hothers, hmine⟩ := marks_of_settle hturned (hvisited branch.id hnew) hsettle
          have hmiddle := (alters_settle branch.id limit).of_outcome hsettle
          rw [ih (hmiddle.formed hturned) ?_ hrun]
          · simp only [visitAt_iff hnext hturn hsettle]
            by_cases hsame : id = branch.id
            · subst hsame
              simp only [hmine, hvisited branch.id hnew, true_and, or_and_right, exists_or,
                exists_and_left, exists_eq_left, reduceCtorEq, false_or]
            · simp only [hothers id hsame, hsame, false_and, false_or]
              rfl
          · intro other hother
            obtain ⟨hne, hother⟩ := not_or.1 (mt List.mem_cons.2 hother)
            exact (hothers other hne).trans (hvisited other hother)

end Marks

section Places

variable {id : Nat} {sheet moment : Worksheet K σ}

theorem VisitAt.proceeds {limit : Nat} {visited : List Nat}
    (h : VisitAt limit visited sheet id moment) : Proceeds sheet moment := by
  induction h with
  | here _ hturn => exact (alters_turn _ _).of_outcome hturn
  | later _ hturn hsettle _ ih =>
      exact ((alters_turn _ _).of_outcome hturn).trans
        (((alters_settle _ _).of_outcome hsettle).trans ih)

theorem FullRoundAt.proceeds (h : FullRoundAt id sheet moment) : Proceeds sheet moment := by
  induction h with
  | first hperform => exact (alters_performAll id).of_outcome hperform
  | again hperform hgather hsweep _ ih =>
      have hswept := (Alters.anyM (R := Proceeds) (alters_resolveBy id) _).of_outcome hsweep
      exact ((alters_performAll id).of_outcome hperform).trans
        (((alters_gather id _ []).of_outcome hgather).trans (hswept.trans ih))

/-- When a branch has its turn, it is current. -/
theorem VisitAt.atBranch {limit : Nat} {visited : List Nat}
    (h : VisitAt limit visited sheet id moment) : AtBranch id moment := by
  induction h with
  | here hnext hturn =>
      obtain ⟨branch, log, hbranch, hid, rfl⟩ := turnedTo_of_turn hnext hturn
      exact ⟨branch, hbranch, hid⟩
  | later _ _ _ _ ih => exact ih

/-- Procedures that have left a branch have left it current, unless they turn to other branches. -/
theorem AtBranch.of_performAll {performed : Worksheet K σ} (hat : AtBranch id sheet)
    (hstill : ∀ procedure ∈ sheet.procedures, procedure.body.isStationary = true)
    (hformed : sheet.branches.WellFormed)
    (hperform : outcome (performAll id) sheet = (.ok true, performed)) : AtBranch id performed := by
  have hhandles := handles_performAll True id sheet fun _ => hstill
  rw [hperform] at hhandles
  refine (hhandles.place trivial hformed id hat).resolve_right fun hgone => ?_
  obtain ⟨branch, hbranch, hid⟩ := hat
  obtain ⟨other, hother, hsame⟩ :=
    has_of_performAll hperform ⟨branch, List.mem_of_getElem? hbranch, hid⟩
  exact hgone other hother hsame

/-- Whenever relations are gathered for a branch, it is current, unless procedures turn to other
branches. -/
theorem FullRoundAt.atBranch (h : FullRoundAt id sheet moment)
    (hstill : ∀ procedure ∈ sheet.procedures, procedure.body.isStationary = true)
    (hformed : sheet.branches.WellFormed) (hat : AtBranch id sheet) : AtBranch id moment := by
  induction h with
  | first hperform => exact hat.of_performAll hstill hformed hperform
  | again hperform hgather hsweep hrest ih =>
      have hfirst := (alters_performAll id).of_outcome hperform
      have hgathered := works_gathered (hfirst.formed hformed) hgather
      have hworks := hgathered.trans (works_swept hgathered.formed hsweep)
      refine ih ?_ hworks.formed ((hat.of_performAll hstill hformed hperform).of_works hworks)
      rw [hworks.procedures, hfirst.procedures]
      exact hstill

end Places

section Report

/-- A run that finds every branch marked in the end reports that the worksheet is unsolvable, with
one list of relations for each branch that this run has marked, by increasing identity, whatever was
marked before. Each list is evidence against the bindings of the branch that is current when it is
gathered, which is the marked one unless procedures turn to other branches. -/
theorem report_is_the_evidence_of_the_run (steps : Nat) (sheet : Worksheet K σ)
    (hformed : sheet.branches.WellFormed) {visited : List Nat} {middle : Worksheet K σ}
    (hpass : outcome (visitAll steps steps []) sheet.opened = (.ok visited, middle))
    (hall : ∀ branch ∈ middle.branches.list, branch.id ∈ middle.marked.keys) :
    ∃ (failure : Failure K) (marks : List (Nat × List (Relation K))),
      (outcome (solve steps) sheet).1 = .error failure ∧
      failure.kind = .unsolvable ∧
      failure.contradictions = marks.map Prod.snd ∧
      (marks.map Prod.fst).Pairwise (· < ·) ∧
      (∀ id relations, (id, relations) ∈ marks ↔
        ∃ moment, MarkedAt steps sheet id moment relations) ∧
      ∀ id moment relations, MarkedAt steps sheet id moment relations →
        ∃ branch, moment.branches.list[moment.branches.current]? = some branch ∧
          ((∀ procedure ∈ sheet.procedures, procedure.body.isStationary = true) →
            branch.id = id) ∧
          Evidence branch.bindings sheet.equations moment.judge relations := by
  have hmiddle := (alters_visitAll steps steps []).of_outcome hpass
  have hend : (outcome (solve steps) sheet).1 =
      .error (.allContradictory (middle.marked.entries.map Prod.snd)) := by
    obtain ⟨start, hstart⟩ := hformed.exists_current
    rw [outcome_solve steps hstart, outcome_bind_ok _ hpass, close, outcome_bind_error _
      (outcome_discardMarked_error start.id (hmiddle.formed hformed) hall)]
  refine ⟨_, middle.marked.entries, hend, rfl, rfl, ?_, fun id relations => ?_, ?_⟩
  · rw [List.pairwise_map]
    exact middle.marked.increasing.imp fun hlt => Nat.compare_eq_lt.1 hlt
  · have hopened (id : Nat) : sheet.opened.marked.find? id = none := SortedMap.find?_empty id
    have hstart : sheet.opened.branches.WellFormed := hformed
    rw [SortedMap.mem_entries_iff, marks_of_visitAll hstart (fun id _ => hopened id) hpass]
    simp only [hopened, reduceCtorEq, false_or, MarkedAt]
    exact exists_comm
  · rintro id moment relations ⟨visit, hvisit, hround, after, hgather, hmark⟩
    have hturn := hvisit.proceeds
    have hvisited : visit.branches.WellFormed := hturn.formed hformed
    have hmoment := hround.proceeds
    have hhere := hmoment.formed hvisited
    obtain ⟨branch, hbranch⟩ := hhere.exists_current
    refine ⟨branch, hbranch, fun hstill => ?_, ?_⟩
    · have hstill' : ∀ procedure ∈ visit.procedures, procedure.body.isStationary = true := by
        rw [hturn.procedures]
        exact hstill
      obtain ⟨found, hfound, hid⟩ := hround.atBranch hstill' hvisited hvisit.atBranch
      rw [hbranch] at hfound
      cases hfound
      exact hid
    · have hequations : moment.equations = sheet.equations :=
        hmoment.equations.trans hturn.equations
      exact hequations ▸ evidence_of_gather hhere hbranch hgather hmark

def reported {K : Type} (result : Except (Failure K) Unit) : List (List (Relation K)) :=
  match result with
  | .error failure => failure.contradictions
  | .ok _ => []

def isThree : Equation Rat := ⟨"three", [.value "x", .number 3]⟩

/-- Two branches, one for each square root of four, with a procedure that binds the other variable
where the root is negative, and with a mark that has been left behind. -/
def markedBefore : Worksheet Rat Twister :=
  { negativeRoot (.set "y" (.number 7)) with
    equations := [Rational.sumEquation "sum" "x" "y" 1, Rational.sumEquation "again" "x" "y" 1,
      isThree]
    marked := SortedMap.single 1 [] }

theorem mark_left_behind_is_not_reported :
    (reported (outcome (solve 3) markedBefore).1).map (·.map Relation.source) =
      [["sum"], ["sum", "three"]] ∧
    ∀ id moment relations, MarkedAt 3 markedBefore id moment relations →
      relations ∈ reported (outcome (solve 3) markedBefore).1 ∧
      ∃ branch, moment.branches.list[moment.branches.current]? = some branch ∧ branch.id = id ∧
        Evidence branch.bindings markedBefore.equations moment.judge relations := by
  refine ⟨by decide +kernel, fun id moment relations hmark => ?_⟩
  have hvisited : (outcome (visitAll 3 3 []) markedBefore.opened).1.toOption = some [1, 0] := by
    decide +kernel
  have hall : ∀ branch ∈ (outcome (visitAll 3 3 []) markedBefore.opened).2.branches.list,
      branch.id ∈ (outcome (visitAll 3 3 []) markedBefore.opened).2.marked.keys := by
    decide +kernel
  rcases hrun : outcome (visitAll 3 3 []) markedBefore.opened with ⟨failure | visited, middle⟩
  · rw [hrun] at hvisited
    cases hvisited
  rw [hrun] at hall
  obtain ⟨failure, marks, hend, -, hreport, -, hmarks, hevidence⟩ :=
    report_is_the_evidence_of_the_run 3 markedBefore wellFormed_squareRoots hrun hall
  refine ⟨?_, ?_⟩
  · rw [hend, reported, hreport]
    exact List.mem_map.2 ⟨(id, relations), (hmarks id relations).2 ⟨moment, hmark⟩, rfl⟩
  · obtain ⟨branch, hbranch, hid, hbranchEvidence⟩ := hevidence id moment relations hmark
    exact ⟨branch, hbranch, hid (by decide +kernel), hbranchEvidence⟩

/-- The same two branches, with a procedure that turns to the next branch. -/
def turning : Worksheet Rat Twister :=
  { Rational.sheet Methods.standard ["x", "y"] [isThree] with
    branches := squareRoots
    procedures := [⟨"turn", .rotate⟩] }

/-- If a procedure turns to another branch, each branch is marked with what the equation states in
the other one. -/
theorem turning_reports_the_other_branch :
    turning.branches.WellFormed ∧
    turning.branches.list.map (fun branch =>
        (branch.id, (statedIn branch.bindings isThree).toOption.map Relation.lhs)) =
      [(0, some (.const (-2))), (1, some (.const 2))] ∧
    rootsOf (outcome (visitAll 3 3 []) turning.opened).2.branches = rootsOf turning.branches ∧
    (outcome (visitAll 3 3 []) turning.opened).2.marked.entries.map
        (fun mark => (mark.1, mark.2.map Relation.lhs)) =
      [(0, [.const 2]), (1, [.const (-2)])] ∧
    (reported (outcome (solve 3) turning).1).map (·.map Relation.lhs) =
      [[.const 2], [.const (-2)]] := by
  refine ⟨wellFormed_squareRoots, ?_, ?_, ?_, ?_⟩ <;> decide +kernel

end Report

end Worksheet

end Ramify
