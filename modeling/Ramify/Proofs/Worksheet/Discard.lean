import Ramify.Proofs.Branches.Operations
import Ramify.Proofs.Worksheet.Pass
import Ramify.Proofs.Worksheet.Rational

/-!
How contradictory branches go at the end of a run. They are removed one by one, and each removal
looks for its branch anew, since the earlier ones have moved the positions and the cursor. A branch
without a mark stays through all of them, so that none of them meets the last branch.
-/

namespace Ramify.Worksheet

variable {K σ : Type} [Scalar K]

section Removals

variable {sheet : Worksheet K σ}

/-- Wherever the removal of branches has come to, the next one can be removed too, as long as a
branch stays. -/
theorem remove_during_discardEach (hformed : sheet.branches.WellFormed) {ids : List Nat}
    (hstays : ∃ branch ∈ sheet.branches.list, branch.id ∉ ids) {earlier later : List Nat} {id : Nat}
    (hids : ids = earlier ++ id :: later) :
    ∃ middle, outcome (discardEach earlier) sheet = (.ok (), middle) ∧
      ∀ index, middle.branches.indexOf? id = some index →
        (outcome (Branches.remove index) middle.branches).1 = .ok () := by
  obtain ⟨keeper, hkeeper, hkept⟩ := hstays
  have hearlier : keeper.id ∉ earlier := by
    intro hmem
    exact hkept (hids ▸ List.mem_append_left _ hmem)
  have hother : keeper.id ≠ id := by
    rintro rfl
    exact hkept (hids ▸ List.mem_append_right _ List.mem_cons_self)
  obtain ⟨branches, log, hrun, hlist, hformed', _⟩ :=
    outcome_discardEach earlier sheet hformed ⟨keeper, hkeeper, hearlier⟩
  refine ⟨_, hrun, fun index hindex => ?_⟩
  obtain ⟨branch, hbranch, rfl⟩ := Branches.indexOf?_some hindex
  have hthere : keeper ∈ branches.list := by
    rw [hlist]
    exact List.mem_filter.2 ⟨hkeeper, by simpa using hearlier⟩
  have hseveral : branches.count ≠ 1 :=
    count_ne_one (List.mem_of_getElem? hbranch) hthere
      (fun hsame => hother (congrArg Branch.id hsame))
  rw [Branches.outcome_remove hbranch hseveral]

end Removals

/-- At the end of a run exactly the marked branches go, unless all are marked, which is reported and
changes none. Marks of branches that are gone already do not matter. Each removal on the way
succeeds, and the branch in which the run began is current again if it is still there. -/
theorem discardMarked_removes_exactly_the_marked (startId : Nat) (sheet : Worksheet K σ)
    (hformed : sheet.branches.WellFormed) :
    let run := outcome (discardMarked startId) sheet
    (EndsUnsolvable run.1 ↔ sheet.marked.isEmpty = false ∧
      ∀ branch ∈ sheet.branches.list, branch.id ∈ sheet.marked.keys) ∧
    (EndsUnsolvable run.1 → run.2.branches = sheet.branches) ∧
    (¬EndsUnsolvable run.1 →
      run.1 = .ok () ∧
      run.2.branches.list =
        sheet.branches.list.filter (fun branch => !sheet.marked.keys.contains branch.id) ∧
      0 < run.2.branches.count ∧
      (∀ earlier id later, sheet.marked.keys = earlier ++ id :: later →
        ∃ middle, outcome (discardEach earlier) sheet = (.ok (), middle) ∧
          ∀ index, middle.branches.indexOf? id = some index →
            (outcome (Branches.remove index) middle.branches).1 = .ok ()) ∧
      ∀ branch ∈ run.2.branches.list, branch.id = startId →
        run.2.branches.list[run.2.branches.current]? = some branch) := by
  intro run
  by_cases hall : ∀ branch ∈ sheet.branches.list, branch.id ∈ sheet.marked.keys
  · have hrun : run = _ := outcome_discardMarked_error startId hformed hall
    have hends : EndsUnsolvable run.1 := by
      rw [hrun]
      exact ⟨_, rfl, rfl⟩
    have hmarked : sheet.marked.isEmpty = false := by
      obtain ⟨branch, hbranch⟩ := hformed.exists_current
      have hkey := hall branch (List.mem_of_getElem? hbranch)
      rw [Bool.eq_false_iff]
      intro hempty
      rw [SortedMap.mem_keys_iff, (SortedMap.isEmpty_iff _).1 hempty] at hkey
      cases hkey
    refine ⟨⟨fun _ => ⟨hmarked, hall⟩, fun _ => hends⟩, fun _ => ?_, absurd hends⟩
    rw [hrun]
  · have hstays : ∃ branch ∈ sheet.branches.list, branch.id ∉ sheet.marked.keys := by
      push Not at hall
      exact hall
    obtain ⟨branches, log, hdiscard, hlist, hformed', _, _, hreturn⟩ :=
      outcome_discardMarked_ok startId hformed hstays
    have hrun : run = _ := hdiscard
    have hends : ¬EndsUnsolvable run.1 := by
      rw [hrun]
      rintro ⟨failure, hfailure, _⟩
      cases hfailure
    refine ⟨⟨fun h => absurd h hends, fun h => absurd h.2 hall⟩, fun h => absurd h hends,
      fun _ => ?_⟩
    rw [hrun]
    refine ⟨rfl, hlist, Nat.zero_lt_of_lt hformed'.current_lt, ?_, ?_⟩
    · intro earlier id later hkeys
      exact remove_during_discardEach hformed hstays hkeys
    · intro branch hbranch hid
      obtain ⟨i, hi⟩ := List.mem_iff_getElem?.1 hbranch
      have hindex := hformed'.indexOf?_eq hi
      rw [hid] at hindex
      rw [hreturn i hindex, hi]

section Instance

/-- Three branches, the last of which is current; a fourth one, with the identity one, is gone. -/
def threeBranches : Branches Rat :=
  Branches.after [.declare ["x"], .copy none, .copy none, .copy none, .remove 1,
    .set "x" (.const 5) (some 1), .select 2] .initial

theorem wellFormed_threeBranches : threeBranches.WellFormed :=
  (Branches.consistent_after _ Branches.consistent_initial).1.toWellFormed

/-- The first, the last and the branch that is gone are marked. -/
def markedSheet : Worksheet Rat Twister :=
  { Rational.sheet Methods.standard ["x"] [] with
    branches := threeBranches
    marked := ((SortedMap.single 0 []).insert 1 []).insert 3 [] }

theorem middle_branch_of_three_stays :
    threeBranches.list.map Branch.id = [0, 2, 3] ∧ threeBranches.current = 2 ∧
    markedSheet.marked.keys = [0, 1, 3] ∧
    (outcome (discardMarked 2) markedSheet).1 = .ok () ∧
    (outcome (discardMarked 2) markedSheet).2.branches.list =
      threeBranches.list.filter (fun branch => !([0, 1, 3].contains branch.id)) ∧
    (outcome (discardMarked 2) markedSheet).2.branches.identityAt
      (outcome (discardMarked 2) markedSheet).2.branches.current = .ok 2 := by
  have hkeys : markedSheet.marked.keys = [0, 1, 3] := by decide +kernel
  obtain ⟨hends, _, hgoes⟩ :=
    discardMarked_removes_exactly_the_marked 2 markedSheet wellFormed_threeBranches
  obtain ⟨hok, hlist, _, _, hreturn⟩ := hgoes (by
    rw [hends]
    decide +kernel)
  refine ⟨by decide +kernel, by decide +kernel, hkeys, hok, ?_, ?_⟩
  · rw [hlist, hkeys]
    rfl
  · have hmember : (⟨2, threeBranches.list[1].bindings⟩ : Branch Rat) ∈
        (outcome (discardMarked 2) markedSheet).2.branches.list := by
      rw [hlist, hkeys]
      exact List.mem_cons_self
    exact Branches.identityAt_eq (hreturn _ hmember rfl)

end Instance

end Ramify.Worksheet
