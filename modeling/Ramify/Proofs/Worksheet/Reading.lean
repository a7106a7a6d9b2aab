import Mathlib.Data.Finset.Filter
import Ramify.Proofs.Algebra.Coefficients
import Ramify.Proofs.Algebra.Symbols
import Ramify.Proofs.Worksheet.Gather

/-!
What the relations of a branch mention. An equation that only reads the variables states a relation
in which no declared unknown occurs that does not occur in the bindings of the branch. So an engine
is only asked for unknowns that are open in the branch: those that its bindings still mention.
-/

namespace Ramify

/-- The symbols that a formula mentions on its own account, whatever it reads. -/
def Formula.literals {K : Type} : Formula K → List Symbol
  | number _ | value _ => []
  | symbol s => [s]
  | add a b | sub a b | mul a b | div a b | magnitude a b => a.literals ++ b.literals
  | neg a | pow a _ | numeric a | scaled _ a | rounded a => a.literals

/-- An equation that mentions no declared unknown on its own account: it gets at the variables by
reading them. -/
def Equation.ReadsOnly {K : Type} (names : List String) (equation : Equation K) : Prop :=
  ∀ side ∈ equation.sides, ∀ s ∈ side.literals, s.isUnit = true ∨ s.name ∉ names

instance {K : Type} (names : List String) (equation : Equation K) :
    Decidable (equation.ReadsOnly names) :=
  inferInstanceAs (Decidable (∀ side ∈ equation.sides, ∀ s ∈ side.literals,
    s.isUnit = true ∨ s.name ∉ names))

/-- The symbol of a variable occurs in a binding of a branch. -/
def Branch.Mentions {K : Type} (branch : Branch K) (name : String) : Prop :=
  ∃ other value, branch.bindings.find? other = some value ∧
    (⟨name, false⟩ : Symbol) ∈ value.symbols

theorem Branch.mentions_iff {K : Type} {branch : Branch K} {name : String} :
    branch.Mentions name ↔
      ∃ entry ∈ branch.bindings.entries, (⟨name, false⟩ : Symbol) ∈ entry.2.symbols := by
  constructor
  · rintro ⟨other, value, hfind, hoccurs⟩
    exact ⟨(other, value), (SortedMap.mem_entries_iff _ _).2 hfind, hoccurs⟩
  · rintro ⟨⟨other, value⟩, hentry, hoccurs⟩
    have hfind := (SortedMap.mem_entries_iff branch.bindings (other, value)).1 hentry
    exact ⟨other, value, hfind, hoccurs⟩

instance {K : Type} (branch : Branch K) (name : String) : Decidable (branch.Mentions name) :=
  decidable_of_iff _ Branch.mentions_iff.symm

/-- The declared variables whose symbols occur in the bindings of a branch. -/
def Branch.openNames {K : Type} (names : List String) (branch : Branch K) : Finset String :=
  names.toFinset.filter (fun name =>
    ∃ entry ∈ branch.bindings.entries, (⟨name, false⟩ : Symbol) ∈ entry.2.symbols)

theorem Branch.mem_openNames {K : Type} {names : List String} {branch : Branch K} {name : String} :
    name ∈ branch.openNames names ↔ name ∈ names ∧ branch.Mentions name := by
  rw [openNames, Finset.mem_filter, List.mem_toFinset, mentions_iff]

def Relation.Over {K : Type} (P : Symbol → Prop) (r : Relation K) : Prop :=
  r.lhs.Over P ∧ r.rhs.Over P

section Formulas

variable {K : Type} [Scalar K]
  {read : String → Except (Failure K) (Fraction K)}

omit [Scalar K] in
theorem Failure.liftAlgebra_ok {α : Type} {result : Except AlgebraError α} {x : α}
    (h : (Failure.liftAlgebra result : Except (Failure K) α) = .ok x) : result = .ok x := by
  cases result with
  | error cause => cases h
  | ok y =>
      cases h
      rfl

/-- The operands of an operation are evaluated one after the other. -/
private theorem Formula.eval_operands {a b : Formula K} {value : Fraction K}
    {op : Fraction K → Fraction K → Except AlgebraError (Fraction K)}
    (h : (do
      let left ← a.eval read
      let right ← b.eval read
      Failure.liftAlgebra (op left right)) = .ok value) :
    ∃ left right, a.eval read = .ok left ∧ b.eval read = .ok right ∧ op left right = .ok value := by
  obtain ⟨left, hleft, h⟩ := except_bind_eq_ok.1 h
  obtain ⟨right, hright, h⟩ := except_bind_eq_ok.1 h
  exact ⟨left, right, hleft, hright, Failure.liftAlgebra_ok h⟩

/-- A property of fractions that numbers have and that arithmetic keeps. -/
structure Fraction.Closed (Q : Fraction K → Prop) : Prop where
  const : ∀ x, Q (.const x)
  add : ∀ {a b c}, Q a → Q b → a.add b = .ok c → Q c
  sub : ∀ {a b c}, Q a → Q b → a.sub b = .ok c → Q c
  mul : ∀ {a b c}, Q a → Q b → a.mul b = .ok c → Q c
  div : ∀ {a b c}, Q a → Q b → a.div b = .ok c → Q c
  neg : ∀ {a c}, Q a → a.neg = .ok c → Q c
  pow : ∀ {a c} {n : Int}, Q a → a.pow n = .ok c → Q c

theorem Fraction.closed_over (P : Symbol → Prop) : Closed (K := K) (Fraction.Over P) where
  const := over_const P
  add := Over.add
  sub := Over.sub
  mul := Over.mul
  div := Over.div
  neg := Over.neg
  pow := fun ha => ha.pow

/-- The value of a formula has every such property that the values it reads and its literals
have. -/
theorem Formula.eval_of_closed {Q : Fraction K → Prop} (hclosed : Fraction.Closed Q)
    (hread : ∀ name value, read name = .ok value → Q value) (formula : Formula K)
    (hliterals : ∀ s ∈ formula.literals, Q (.ofSymbol s)) {value : Fraction K}
    (h : formula.eval read = .ok value) : Q value := by
  induction formula generalizing value with
  | number c =>
      cases h
      exact hclosed.const c
  | symbol s =>
      cases h
      exact hliterals s (List.mem_singleton_self s)
  | value name => exact hread name value h
  | add a b iha ihb =>
      obtain ⟨left, right, hleft, hright, hlast⟩ := eval_operands h
      exact hclosed.add (iha (fun s hs => hliterals s (List.mem_append_left _ hs)) hleft)
        (ihb (fun s hs => hliterals s (List.mem_append_right _ hs)) hright) hlast
  | sub a b iha ihb =>
      obtain ⟨left, right, hleft, hright, hlast⟩ := eval_operands h
      exact hclosed.sub (iha (fun s hs => hliterals s (List.mem_append_left _ hs)) hleft)
        (ihb (fun s hs => hliterals s (List.mem_append_right _ hs)) hright) hlast
  | mul a b iha ihb =>
      obtain ⟨left, right, hleft, hright, hlast⟩ := eval_operands h
      exact hclosed.mul (iha (fun s hs => hliterals s (List.mem_append_left _ hs)) hleft)
        (ihb (fun s hs => hliterals s (List.mem_append_right _ hs)) hright) hlast
  | div a b iha ihb =>
      obtain ⟨left, right, hleft, hright, hlast⟩ := eval_operands h
      exact hclosed.div (iha (fun s hs => hliterals s (List.mem_append_left _ hs)) hleft)
        (ihb (fun s hs => hliterals s (List.mem_append_right _ hs)) hright) hlast
  | neg a ih =>
      obtain ⟨x, hx, hlast⟩ := except_bind_eq_ok.1 h
      exact hclosed.neg (ih hliterals hx) (Failure.liftAlgebra_ok hlast)
  | pow a exponent ih =>
      obtain ⟨x, hx, hlast⟩ := except_bind_eq_ok.1 h
      exact hclosed.pow (ih hliterals hx) (Failure.liftAlgebra_ok hlast)
  | numeric a ih =>
      obtain ⟨x, _, hnumber⟩ := except_bind_eq_ok.1 h
      obtain ⟨c, _, hlast⟩ := except_bind_eq_ok.1 hnumber
      cases hlast
      exact hclosed.const c
  | scaled c a ih =>
      obtain ⟨x, _, hnumber⟩ := except_bind_eq_ok.1 h
      obtain ⟨d, _, hlast⟩ := except_bind_eq_ok.1 hnumber
      cases hlast
      exact hclosed.const (c * d)
  | rounded a ih =>
      obtain ⟨x, _, hnumber⟩ := except_bind_eq_ok.1 h
      obtain ⟨c, _, hlast⟩ := except_bind_eq_ok.1 hnumber
      cases hlast
      exact hclosed.const (Scalar.round c)
  | magnitude quantity target ihq iht =>
      obtain ⟨x, _, hunit⟩ := except_bind_eq_ok.1 h
      obtain ⟨y, _, hmeasured⟩ := except_bind_eq_ok.1 hunit
      obtain ⟨c, _, hlast⟩ := except_bind_eq_ok.1 hmeasured
      cases hlast
      exact hclosed.const c

end Formulas

namespace Worksheet

variable {K σ : Type} [Scalar K] {names : List String} {branch : Branch K}

/-- The symbols that can occur in a relation of a branch: those of its bindings, unit tags, and
symbols that are not declared. -/
def MayOccur (names : List String) (branch : Branch K) (symbol : Symbol) : Prop :=
  symbol.isUnit = true ∨ symbol.name ∉ names ∨ symbol.name ∈ branch.openNames names

omit [Scalar K] in
theorem MayOccur.single {symbol : Symbol} (h : MayOccur names branch symbol) {name : String}
    (hname : name ∈ names) : MayOccur [name] branch symbol := by
  by_cases hsame : symbol.name = name
  · rcases h with htag | hundeclared | hopen
    · exact Or.inl htag
    · exact absurd (hsame ▸ hname) hundeclared
    · exact Or.inr (Or.inr (Branch.mem_openNames.2
        ⟨List.mem_singleton.2 hsame, (Branch.mem_openNames.1 hopen).2⟩))
  · exact Or.inr (Or.inl fun hmem => hsame (List.mem_singleton.1 hmem))

omit [Scalar K] in
theorem over_reading {name : String} {value : Fraction K}
    (h : reading branch.bindings name = .ok value) : value.Over (MayOccur names branch) := by
  unfold reading at h
  split at h
  · rename_i found hfound
    cases h
    refine Fraction.over_iff.2 fun symbol hsymbol => ?_
    obtain ⟨label, isUnit⟩ := symbol
    cases isUnit with
    | true => exact Or.inl rfl
    | false =>
        by_cases hname : label ∈ names
        · exact Or.inr (Or.inr (Branch.mem_openNames.2 ⟨hname, name, value, hfound, hsymbol⟩))
        · exact Or.inr (Or.inl hname)
  · cases h

theorem over_statedIn {equation : Equation K} (hreads : equation.ReadsOnly names)
    {relation : Relation K} (h : statedIn branch.bindings equation = .ok relation) :
    relation.Over (MayOccur names branch) := by
  unfold statedIn at h
  obtain ⟨sides, hsides, h⟩ := except_bind_eq_ok.1 h
  have hside : ∀ value ∈ sides, value.Over (MayOccur names branch) := by
    intro value hvalue
    obtain ⟨side, hside, heval⟩ := except_mapM_mem hsides value hvalue
    refine side.eval_of_closed (Fraction.closed_over _) (fun _ _ hread => over_reading hread) ?_
      heval
    intro s hs
    exact Fraction.over_ofSymbol ((hreads side hside s hs).imp id Or.inl)
  match sides, h with
  | [lhs, rhs], h =>
      obtain ⟨left, hleft, h⟩ := except_bind_eq_ok.1 h
      obtain ⟨right, hright, h⟩ := except_bind_eq_ok.1 h
      cases h
      exact ⟨(hside lhs (by simp)).canonical (Failure.liftAlgebra_ok hleft),
        (hside rhs (by simp)).canonical (Failure.liftAlgebra_ok hright)⟩

/-- The relations that are gathered in a branch mention no declared unknown but the open ones. -/
theorem over_sift {equations : List (Equation K)}
    (hreads : ∀ equation ∈ equations, equation.ReadsOnly names) {found : List (Relation K)}
    (hfound : ∀ r ∈ found, r.Over (MayOccur names branch)) {relations : List (Relation K)}
    {judge after : Judge K}
    (hrun : outcome (sift branch.bindings equations found) judge =
      (.ok (.usable relations), after)) :
    ∀ r ∈ relations, r.Over (MayOccur names branch) := by
  induction equations generalizing found judge with
  | nil =>
      cases hrun
      exact hfound
  | cons equation rest ih =>
      have hrest := fun other hother => hreads other (List.mem_cons_of_mem equation hother)
      obtain ⟨relation, verdict, middle, hstated, _, hsifted⟩ := sift_cons_ok hrun
      cases verdict with
      | redundant => exact ih hrest hfound hsifted
      | contradiction => cases hsifted.1
      | usable =>
          refine ih hrest ?_ hsifted
          intro r hr
          split at hr
          · exact hfound r hr
          · rcases List.mem_append.1 hr with hr | hr
            · exact hfound r hr
            · rw [List.mem_singleton.1 hr]
              exact over_statedIn (hreads equation List.mem_cons_self) hstated

omit [Scalar K] in
/-- What an engine is asked for are unknowns that occur in the relations. -/
theorem of_mem_unknownsOf {branches : Branches K} {subset : List (Relation K)} {P : Symbol → Prop}
    (hsubset : ∀ r ∈ subset, r.Over P) {symbol : Symbol}
    (h : symbol ∈ unknownsOf branches subset) : symbol.isUnit = false ∧ P symbol := by
  obtain ⟨hmem, _⟩ := List.mem_filter.1 h
  rw [mem_ascending, List.mem_flatMap] at hmem
  obtain ⟨r, hr, hunknown⟩ := hmem
  obtain ⟨hlhs, hrhs⟩ := hsubset r hr
  rw [Relation.unknowns, mem_ascending, List.mem_append] at hunknown
  have hside (a : Fraction K) (ha : a.Over P) (hin : symbol ∈ a.unknowns) :
      symbol.isUnit = false ∧ P symbol := by
    obtain ⟨hsymbol, hnot⟩ := List.mem_filter.1 hin
    exact ⟨by simpa using hnot, Fraction.over_iff.1 ha symbol hsymbol⟩
  exact hunknown.elim (hside r.lhs hlhs) (hside r.rhs hrhs)

omit [Scalar K] in
/-- An engine is asked for open unknowns only. -/
theorem open_of_mem_unknownsOf {branches : Branches K} (hformed : branches.WellFormed)
    {subset : List (Relation K)}
    (hsubset : ∀ r ∈ subset, r.Over (MayOccur branches.names branch)) {symbol : Symbol}
    (h : symbol ∈ unknownsOf branches subset) :
    symbol.isUnit = false ∧ symbol.name ∈ branch.openNames branches.names := by
  have hdeclared := (List.mem_filter.1 h).2
  rw [hformed.declares_iff] at hdeclared
  obtain ⟨hunit, hmay⟩ := of_mem_unknownsOf hsubset h
  refine ⟨hunit, (hmay.resolve_left ?_).resolve_left (not_not_intro hdeclared)⟩
  rw [hunit]
  exact Bool.false_ne_true

end Worksheet

end Ramify
