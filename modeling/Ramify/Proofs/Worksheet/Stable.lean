import Ramify.Proofs.Solver.RealRoots
import Ramify.Proofs.Worksheet.Rational
import Ramify.Proofs.Worksheet.Reachable

/-!
Resolved values are stable. A branch pins a variable to a quantity if the variable has this value
and its own symbol occurs in no binding of the branch. An engine is then not asked for the variable,
unless an equation writes its symbol out, so that to put a candidate into the branch leaves the
variable as it is, and pinned. Hence a run, however it ends, keeps what is pinned from branch to
branch. A variable that has a value while its symbol still occurs elsewhere has no such protection.
-/

namespace Ramify

variable {K σ : Type} [ExactScalar K]

/-- A branch pins a variable to a quantity in lowest terms. -/
structure Branch.Pins (branch : Branch K) (name : String) (value : Fraction K) : Prop where
  bound : branch.bindings.find? name = some value
  quantity : value.isQuantity = true
  reduced : value.Reduced
  unmentioned : ¬ branch.Mentions name

namespace Worksheet

section Values

variable {candidate : Solution K} {name : String} {old value : Fraction K}

/-- A value in which no unknown of a candidate occurs is not changed by it. -/
theorem takes_disjoint (hreduced : old.Reduced)
    (hdisjoint : old.Over (fun symbol => candidate.find? symbol = none))
    (hkey : candidate.find? ⟨name, false⟩ = none)
    (h : Relation.ReflTransGen (Takes candidate name) old value) : value = old := by
  induction h with
  | refl => rfl
  | tail _ hlast ih =>
      subst ih
      unfold Takes adopted at hlast
      rw [hkey] at hlast
      dsimp only at hlast
      unfold substituted at hlast
      rw [hreduced.subst_of_disjoint hdisjoint, except_ok_bind, hreduced.canonical] at hlast
      cases hlast
      rfl

end Values

section Attempts

variable {name : String} {value : Fraction K} {candidate : Solution K}
  {subset : List (Relation K)} {branch other : Branch K} {sheet here : Worksheet K σ}

/-- What occurs in a branch on the way to adopt a numeric candidate occurred in it before. -/
theorem Adopting.mentions (h : Adopting candidate branch.bindings other.bindings)
    (hnumeric : isNumeric candidate = true) (hmentions : other.Mentions name) :
    branch.Mentions name := by
  obtain ⟨bound, found, hfound, hsymbol⟩ := hmentions
  obtain ⟨start, hstart, htakes⟩ := h bound found hfound
  rcases Relation.reflTransGen_iff_eq_or_transGen.1 htakes with rfl | htakes
  · exact ⟨bound, found, hstart, hsymbol⟩
  · rcases Fraction.over_iff.1 (over_takes_all hnumeric htakes) _ hsymbol with htag | ⟨_, hold⟩
    · cases htag
    · exact ⟨bound, start, hstart, hold⟩

/-- A branch on the way to adopt a numeric candidate for other unknowns still pins a variable. -/
theorem Adopting.pins (h : Adopting candidate branch.bindings other.bindings)
    (hnumeric : isNumeric candidate = true)
    (hunits : ∀ symbol ∈ candidate.keys, symbol.isUnit = false)
    (hkey : candidate.find? ⟨name, false⟩ = none)
    (hbound : ∃ found, other.bindings.find? name = some found) (hpins : branch.Pins name value) :
    other.Pins name value where
  bound := by
    obtain ⟨found, hfound⟩ := hbound
    obtain ⟨start, hstart, htakes⟩ := h name found hfound
    rw [hpins.bound] at hstart
    cases hstart
    have hdisjoint : value.Over (fun symbol => candidate.find? symbol = none) := by
      refine Fraction.over_iff.2 fun symbol hsymbol => ?_
      rw [← Option.not_isSome_iff_eq_none, ← SortedMap.mem_keys_iff]
      intro hmem
      have hunit := List.all_eq_true.1 hpins.quantity symbol hsymbol
      rw [hunits symbol hmem] at hunit
      cases hunit
    rw [hfound, takes_disjoint hpins.reduced hdisjoint hkey htakes]
  quantity := hpins.quantity
  reduced := hpins.reduced
  unmentioned := fun hmentions => hpins.unmentioned (h.mentions hnumeric hmentions)

/-- However an attempt ends that is about relations without the symbol of a pinned variable, the
branch and the copies made of it pin the variable. -/
theorem resolveBy_pins (hformed : sheet.branches.WellFormed) (hengine : sheet.engine.KeysWithin)
    (hbranch : branch ∈ sheet.branches.list)
    (hsubset : ∀ r ∈ subset, r.Over (MayOccur [name] branch))
    (hother : other ∈ (outcome (resolveBy branch.id subset) sheet).2.branches.list)
    (hfamily : other.id = branch.id ∨ sheet.branches.nextId ≤ other.id)
    (hpins : branch.Pins name value) : other.Pins name value := by
  rcases resolveBy_adopting hformed hbranch hother hfamily with
    rfl | ⟨candidates, hreply, candidate, hcandidate, hadopting⟩
  · exact hpins
  obtain ⟨hmem, hnumeric⟩ := List.mem_filter.1 hcandidate
  have hkeys (symbol : Symbol) (hsymbol : symbol ∈ candidate.keys) :
      symbol.isUnit = false ∧ MayOccur [name] branch symbol :=
    of_mem_unknownsOf hsubset (hengine _ _ _ candidates hreply candidate hmem symbol hsymbol)
  have hkey : candidate.find? ⟨name, false⟩ = none := by
    rw [← Option.not_isSome_iff_eq_none, ← SortedMap.mem_keys_iff]
    intro hsymbol
    rcases (hkeys _ hsymbol).2 with htag | hundeclared | hopen
    · cases htag
    · exact hundeclared (List.mem_singleton_self name)
    · exact hpins.unmentioned (Branch.mem_openNames.1 hopen).2
  have hworks := works_resolveBy branch.id subset sheet hformed
  have hname : name ∈ sheet.branches.names := by
    rw [← hformed.bound branch hbranch, SortedMap.contains_iff, SortedMap.mem_keys_iff, hpins.bound]
    rfl
  exact hadopting.pins hnumeric (fun symbol hsymbol => (hkeys symbol hsymbol).1) hkey
    (hworks.formed.exists_value hother (hworks.passes.names ▸ hname)) hpins

/-- However an attempt of a run ends, the branch and the copies made of it pin what the branch
pinned, except for variables whose symbols are written out in equations. -/
theorem AttemptAt.pins {steps : Nat} (hattempt : AttemptAt steps sheet branch.id subset here)
    (hengine : sheet.engine.KeysWithin) (hprocedures : sheet.procedures = [])
    (hformed : sheet.branches.WellFormed)
    (hreads : ∀ equation ∈ sheet.equations, equation.ReadsOnly [name])
    (hbranch : here.branches.list[here.branches.current]? = some branch)
    (hother : other ∈ (outcome (resolveBy branch.id subset) here).2.branches.list)
    (hfamily : other.id = branch.id ∨ here.branches.nextId ≤ other.id)
    (hpins : branch.Pins name value) : other.Pins name value := by
  obtain ⟨hpasses, _⟩ := hattempt.passes hprocedures hformed
  exact resolveBy_pins hpasses.formed (hpasses.engine ▸ hengine) (List.mem_of_getElem? hbranch)
    (hattempt.over hprocedures hformed hreads hbranch) hother hfamily hpins

end Attempts

/-- Resolved values are stable, in every worksheet without procedures that can come about, with the
polynomial engine and with any other engine whose candidates give values in lowest terms to what it
was asked for. Take a variable whose symbol is not written out in an equation, and a branch in which
the variable has a quantity as its value and its symbol occurs in no binding. However a run ends,
each branch that is left descends from one that was there before and has exactly the values that
such variables had in it. And however an attempt of the run ends, the branch that it is about and
each copy made of it have exactly the values that such variables had in the branch. -/
theorem solve_keeps_quantities :
    (∀ (numerics : Numerics K) (settings : SolverSettings K),
      (Engine.polynomial numerics settings).Confined) ∧
    ∀ (engine : Engine K σ) (sheet : Worksheet K σ), engine.Confined → Reachable engine sheet →
      ∀ steps,
        (∀ other ∈ (outcome (solve steps) sheet).2.branches.list,
          ∃ branch ∈ sheet.branches.list, Descends steps sheet branch.id other.id ∧
            ∀ name value, (∀ equation ∈ sheet.equations, equation.ReadsOnly [name]) →
              branch.bindings.find? name = some value → value.isQuantity = true →
              ¬ branch.Mentions name → other.bindings.find? name = some value) ∧
        ∀ id subset here, AttemptAt steps sheet id subset here →
          ∀ branch ∈ here.branches.list, branch.id = id →
          ∀ other ∈ (outcome (resolveBy id subset) here).2.branches.list,
            (other.id = id ∨ here.branches.nextId ≤ other.id) →
            ∀ name value, (∀ equation ∈ sheet.equations, equation.ReadsOnly [name]) →
              branch.bindings.find? name = some value → value.isQuantity = true →
              ¬ branch.Mentions name → other.bindings.find? name = some value := by
  refine ⟨Engine.confined_polynomial, fun engine sheet hengine hreachable steps => ?_⟩
  have h := hreachable.orderly hengine
  have hkeys : sheet.engine.KeysWithin := h.engine ▸ hengine.keysWithin
  constructor
  · intro other hother
    obtain ⟨branch, hbranch, hdescends, hkeeps⟩ := solve_relates
      (R := fun a b => ∀ name value,
        (∀ equation ∈ sheet.equations, equation.ReadsOnly [name]) →
        a.Pins name value → b.Pins name value)
      (fun _ _ _ _ ha => ha)
      (fun _ _ _ hab hbc name value hreads ha => hbc name value hreads (hab name value hreads ha))
      h.procedures h.tidy.formed
      (fun _ _ _ hattempt hfound _ hmade hfamily _ _ hreads hpins =>
        hattempt.pins hkeys h.procedures h.tidy.formed hreads hfound hmade hfamily hpins)
      other hother
    refine ⟨branch, hbranch, hdescends, fun name value hreads hbound hquantity hfree => ?_⟩
    exact (hkeeps name value hreads
      ⟨hbound, hquantity, h.tidy.reduced branch hbranch name value hbound, hfree⟩).bound
  · intro id subset here hattempt branch hbranch hid other hother hfamily name value hreads hbound
      hquantity hfree
    subst hid
    obtain ⟨hpasses, found, hfound, hsame⟩ := hattempt.passes h.procedures h.tidy.formed
    obtain rfl := hpasses.formed.branch_unique hbranch (List.mem_of_getElem? hfound) hsame.symm
    have hreduced := hattempt.reduced hengine h hfound
    exact (hattempt.pins hkeys h.procedures h.tidy.formed hreads hfound hother hfamily
      ⟨hbound, hquantity, hreduced name value hbound, hfree⟩).bound

section Instances

/-- A worksheet over the rational numbers with two variables, after some commands. -/
noncomputable def told (commands : List (Command Rat)) : Worksheet Rat Twister :=
  commands.foldl (fun sheet command => (outcome (obey command) sheet).2)
    (Rational.sheet RealRoots.exactNumerics ["x", "y"] [])

theorem reachable_told (commands : List (Command Rat)) :
    Reachable (Engine.polynomial RealRoots.exactNumerics Rational.settings) (told commands) := by
  refine Reachable.obeyedAll (Reachable.new ["x", "y"] ?_ ?_ ?_) commands
  · rfl
  · rfl
  · rfl

noncomputable def valueAndSquare : Worksheet Rat Twister :=
  told [.set "x" (.number 5),
    .register "square" (some [.mul (.value "y") (.value "y"), .number 4])]

theorem value_beside_square_is_kept :
    (outcome (solve 5) valueAndSquare).2.branches.count = 2 ∧
    ∀ other ∈ (outcome (solve 5) valueAndSquare).2.branches.list,
      other.bindings.find? "x" = some (.const 5) := by
  refine ⟨by decide +kernel, fun other hother => ?_⟩
  have hstart : ∀ branch ∈ valueAndSquare.branches.list,
      branch.bindings.find? "x" = some (.const 5) ∧ ¬ branch.Mentions "x" := by decide +kernel
  obtain ⟨hpolynomial, hall⟩ := solve_keeps_quantities (K := Rat) (σ := Twister)
  obtain ⟨hruns, _⟩ := hall _ valueAndSquare
    (hpolynomial RealRoots.exactNumerics Rational.settings) (reachable_told _) 5
  obtain ⟨branch, hbranch, _, hkeeps⟩ := hruns other hother
  obtain ⟨hvalue, hfree⟩ := hstart branch hbranch
  exact hkeeps "x" (.const 5) (by decide +kernel) hvalue (by decide +kernel) hfree

/-- A variable with a value, and another one that is bound to the symbol of the first and should
have another value. -/
noncomputable def aliased : Worksheet Rat Twister :=
  told [.set "x" (.number 5), .set "y" (.symbol ⟨"x", false⟩),
    .register "value" (some [.value "y", .number 7])]

/-- Where its symbol occurs elsewhere, a variable loses its value in a run that ends well. -/
theorem aliased_value_is_overwritten :
    Reachable (Engine.polynomial RealRoots.exactNumerics Rational.settings) aliased ∧
    (∀ equation ∈ aliased.equations, equation.ReadsOnly ["x", "y"]) ∧
    aliased.branches.list.map (fun branch => (branch.id, branch.bindings.find? "x")) =
      [(0, some (.const 5))] ∧
    (outcome (solve 5) aliased).1.isOk = true ∧
    (outcome (solve 5) aliased).2.branches.list.map
      (fun branch => (branch.id, branch.bindings.find? "x")) = [(0, some (.const 7))] := by
  refine ⟨reachable_told _, ?_, ?_, ?_, ?_⟩ <;> decide +kernel

end Instances

end Worksheet

end Ramify
