import Ramify.Proofs.Scalar.Rational
import Ramify.Proofs.Solver.Sound

/-!
When the solver denies a solution. Numbers for the unknowns satisfy a relation if both sides have
the same value in base units. As long as no unit tag occurs, relations that the solver denies a
solution are satisfied by no numbers. With unit tags this fails: the elimination takes tags for
independent symbols, so that a kilometre and a thousand metres are different to it.
-/

namespace Ramify

variable {K : Type} [ExactScalar K]

/-- The point at which each unit tag has its size in base units. -/
def Units.inBase (z : Symbol → K) (symbol : Symbol) : K :=
  if symbol.isUnit then (Units.measure symbol.name).scale else z symbol

namespace Relation

/-- Numbers for the unknowns satisfy a relation: no other unknown occurs in it, and in base units
both sides are defined and equal. -/
def SatisfiedBy (unknowns : List Symbol) (z : Symbol → K) (r : Relation K) : Prop :=
  (∀ symbol ∈ r.unknowns, symbol ∈ unknowns) ∧
    ∃ v, r.lhs.HasValue (Units.inBase z) v ∧ r.rhs.HasValue (Units.inBase z) v

omit [ExactScalar K] in
def mentionsUnit (r : Relation K) : Bool := r.lhs.mentionsUnit || r.rhs.mentionsUnit

theorem SatisfiedBy.holdsAt {unknowns : List Symbol} {z : Symbol → K} {r : Relation K}
    (h : r.SatisfiedBy unknowns z) (hunits : r.mentionsUnit = false) :
    r.HoldsAt (Units.inBase z) (· ∈ unknowns) := by
  obtain ⟨hunknowns, hequal⟩ := h
  obtain ⟨hleft, hright⟩ := Bool.or_eq_false_iff.1 hunits
  have hmem (a : Fraction K) (ha : a.mentionsUnit = false)
      (hsub : ∀ symbol ∈ a.unknowns, symbol ∈ r.unknowns) : a.Over (· ∈ unknowns) := by
    rw [Fraction.over_iff]
    intro symbol hsymbol
    have hunit := List.any_eq_false.1 ha symbol hsymbol
    apply hunknowns symbol (hsub symbol (List.mem_filter.2 ⟨hsymbol, ?_⟩))
    simpa using hunit
  refine ⟨hmem r.lhs hleft ?_, hmem r.rhs hright ?_, hequal⟩
  · intro symbol hsymbol
    exact (mem_ascending _ _).2 (List.mem_append_left _ hsymbol)
  · intro symbol hsymbol
    exact (mem_ascending _ _).2 (List.mem_append_right _ hsymbol)

end Relation

namespace Solver

/-- Relations without unit tags that are denied a solution have none, provided that the numbers are
exact, all real roots are found and nothing is searched by chance. -/
theorem no_numbers_satisfy_denied_relations {numerics : Numerics K}
    (hnumerics : RealRoots.FindsRealRoots numerics) {settings : SolverSettings K}
    (hsettings : settings.Exact) {relations : List (Relation K)} {unknowns : List Symbol}
    (hunknowns : ∀ symbol ∈ unknowns, symbol.isUnit = false)
    (hunits : ∀ r ∈ relations, r.mentionsUnit = false)
    (hsearch : reachesSearch numerics settings relations unknowns = false) (state : SolverState)
    (hdenied : (outcome (solve numerics settings relations unknowns) state).1 = .ok .noSolution) :
    ¬∃ z : Symbol → K, ∀ r ∈ relations, r.SatisfiedBy unknowns z := by
  rintro ⟨z, hz⟩
  have hholds (r : Relation K) (hr : r ∈ relations) : r.HoldsAt (Units.inBase z) (· ∈ unknowns) :=
    (hz r hr).holdsAt (hunits r hr)
  exact covers_solve hnumerics hsettings hunknowns hsearch hholds state .noSolution _
    (Prod.ext hdenied rfl)

section Instances

def isDenial (answer : Except (Failure Rat) (Answer Rat)) : Bool :=
  match answer with
  | .ok .noSolution => true
  | _ => false

theorem eq_noSolution {answer : Except (Failure Rat) (Answer Rat)} (h : isDenial answer = true) :
    answer = .ok .noSolution := by
  unfold isDenial at h
  split at h
  · rfl
  · cases h

def unknown : Symbol := ⟨"x", false⟩

/-- The relations that a number is three, and its square four. -/
def squareAndNumber : List (Relation Rat) :=
  [⟨.ofSymbol unknown, .const 3, ""⟩, ⟨.ofMonomial (.single 1 unknown 2), .const 4, ""⟩]

theorem square_and_number_are_denied :
    isDenial (outcome (solve RealRoots.exactNumerics Rational.settings squareAndNumber [unknown])
      (start 42)).1 = true ∧
    ¬∃ z : Symbol → Rat, ∀ r ∈ squareAndNumber, r.SatisfiedBy [unknown] z := by
  have hdenied : isDenial (outcome (solve RealRoots.exactNumerics Rational.settings squareAndNumber
      [unknown]) (start 42)).1 = true := by decide +kernel
  refine ⟨hdenied, ?_⟩
  have hsettings : Rational.settings.Exact := ⟨rfl, rfl, rfl, rfl⟩
  exact no_numbers_satisfy_denied_relations RealRoots.exactNumerics_finds hsettings (by decide)
    (by decide +kernel) (by decide +kernel) (start 42) (eq_noSolution hdenied)

/-- The relations that a length is a kilometre, and that it is a thousand metres. -/
def kilometreTwice : List (Relation Rat) :=
  [⟨.ofSymbol unknown, .ofSymbol (.unit "km"), ""⟩,
    ⟨.ofSymbol unknown, .ofMonomial (.single 1000 (.unit "m") 1), ""⟩]

/-- A kilometre is a thousand metres, and the verification of candidates agrees, but the relations
are denied a solution. -/
theorem a_kilometre_is_denied_to_be_a_thousand_metres :
    (outcome (solve RealRoots.exactNumerics Rational.settings kilometreTwice [unknown])
      (start 42)).1 = .ok .noSolution ∧
    (∃ z : Symbol → Rat, ∀ r ∈ kilometreTwice, r.SatisfiedBy [unknown] z) ∧
    (confirms Rational.settings.residualTolerance kilometreTwice
      (.single unknown (.ofSymbol (.unit "km")))).toOption = some true := by
  refine ⟨eq_noSolution (by decide +kernel), ⟨fun _ => 1000, ?_⟩, by decide +kernel⟩
  have hunknown : (Fraction.ofSymbol unknown).HasValue
      (Units.inBase (fun _ => (1000 : Rat))) 1000 :=
    Fraction.hasValue_ofSymbol _ unknown
  intro r hr
  refine ⟨?_, 1000, ?_⟩
  · revert r
    decide +kernel
  · rcases List.mem_cons.1 hr with rfl | hr
    · refine ⟨hunknown, ?_⟩
      have hkm := Fraction.hasValue_ofSymbol (Units.inBase (fun _ => (1000 : Rat))) (.unit "km")
      have hscale : Units.inBase (fun _ => (1000 : Rat)) (.unit "km") = 1000 := by decide +kernel
      rw [hscale] at hkm
      exact hkm
    · rw [List.mem_singleton.1 hr]
      refine ⟨hunknown, ?_⟩
      have hnatural : (Powers.single (.unit "m") 1 : Exponents).Natural := by
        intro symbol
        rw [Powers.get_single]
        split <;> decide
      have hmetres := Fraction.hasValue_ofMonomial (m := .single 1000 (.unit "m") 1)
        (hnatural.definedAt (Units.inBase (fun _ => (1000 : Rat))))
      have hscale : (Monomial.single 1000 (.unit "m") 1).value
          (Units.inBase (fun _ => (1000 : Rat))) = 1000 := by decide +kernel
      rw [hscale] at hmetres
      exact hmetres

end Instances

end Solver

end Ramify
