import Ramify.Solver.Answer
import Ramify.Solver.Settings

/-!
Linear systems by Gauss-Jordan elimination. Coefficients are fractions, so that unit tags and
symbols other than the unknowns are carried along. A column is eliminated with its largest numeric
entry, or with its first symbolic one if no entry is a number. A system with fewer independent
relations than unknowns gives values that mention the remaining unknowns.
-/

namespace Ramify.Linear

variable {K : Type}

/-- A row: one coefficient for each unknown, and the right-hand side. -/
structure Row (K : Type) where
  coeffs : List (Fraction K)
  rhs : Fraction K

inductive Outcome (K : Type)
  /-- The values of the unknowns that have a pivot. -/
  | solved (solution : Solution K)
  /-- A quantity other than zero would have to be zero. -/
  | inconsistent (residue : Fraction K)
  /-- The rows determine nothing. -/
  | undetermined

/-- The rows during an elimination: those with a pivot column, in the order in which they got it,
and those without. -/
structure Tableau (K : Type) where
  pivots : List (Nat × Row K)
  pending : List (Row K)

variable [Scalar K]

/-- Whether each term is of degree at most one in the unknowns together. -/
def applies (unknowns : List Symbol) (polys : List (Polynomial K)) : Bool :=
  polys.all (fun p => p.terms.all (fun m =>
    let degrees := (m.exponents.entries.filter (fun entry => unknowns.contains entry.1)).map
      Prod.snd
    degrees.all (fun d => decide (0 ≤ d)) && decide (degrees.foldl (· + ·) 0 ≤ 1)))

def Row.at (row : Row K) (column : Nat) : Fraction K := row.coeffs.getD column .zero

/-- The row with another coefficient in a column. -/
def Row.put (row : Row K) (column : Nat) (value : Fraction K) : Row K :=
  { row with coeffs := row.coeffs.set column value }

/-- Adds a term of a polynomial to the row it belongs to: to the coefficient of its unknown, or
negatively to the right-hand side. -/
def addTerm (unknowns : List Symbol) (row : Row K) (m : Monomial K) :
    Except AlgebraError (Row K) :=
  match unknowns.findIdx? (fun symbol => m.degree symbol == 1) with
  | some column => do
    let symbol := unknowns.getD column default
    let rest : Monomial K := ⟨m.coeff, m.exponents.erase symbol⟩
    pure (row.put column (← (row.at column).add (.ofMonomial rest)))
  | none => do pure { row with rhs := ← row.rhs.sub (.ofMonomial m) }

/-- The row that says that a polynomial vanishes. -/
def rowOf (unknowns : List Symbol) (p : Polynomial K) : Except AlgebraError (Row K) :=
  p.terms.foldlM (addTerm unknowns) ⟨unknowns.map (fun _ => .zero), .zero⟩

/-- The size of a fraction that is a number. -/
def size? (a : Fraction K) : Option K := a.toConstant.toOption.map Scalar.abs

/-- The largest size among the fractions that are numbers, and at least `start`. -/
def largestSize (start : K) (fractions : List (Fraction K)) : K :=
  (fractions.filterMap size?).foldl Scalar.max start

/-- The search for a pivot: the best row so far, and the size of its entry if that is a number. -/
structure Search (K : Type) where
  pivot : Option Nat
  best : K

def Search.look (search : Search K) (index : Nat) (entry : Fraction K) : Search K :=
  if entry.isZero then search
  else
    match size? entry with
    | some size => if search.best < size then ⟨some index, size⟩ else search
    | none => if search.pivot.isSome then search else { search with pivot := some index }

/-- Replaces negligible numbers of a column by zero. -/
def clearNegligible (bound : K) (column : Nat) (row : Row K) : Row K :=
  match size? (row.at column) with
  | some size => if size ≤ bound then row.put column .zero else row
  | none => row

/-- Which of the rows is to be the pivot row of a column. -/
def choosePivot (column : Nat) (rows : List (Row K)) : Option Nat :=
  (rows.zipIdx.foldl (fun (search : Search K) entry => search.look entry.2 (entry.1.at column))
    ⟨none, 0⟩).pivot

def Row.divideBy (row : Row K) (column : Nat) : Except AlgebraError (Row K) := do
  let pivot := row.at column
  let coeffs ← row.coeffs.mapM (fun a => do (← a.div pivot).canonical)
  let rhs ← (← row.rhs.div pivot).canonical
  pure ⟨coeffs, rhs⟩

def subMultiple (factor a b : Fraction K) : Except AlgebraError (Fraction K) := do
  (← a.sub (← factor.mul b)).canonical

/-- Clears a column of a row with the pivot row of that column. -/
def Row.clear (column : Nat) (pivot row : Row K) : Except AlgebraError (Row K) :=
  let factor := row.at column
  if factor.isZero then pure row
  else do
    let coeffs ← (row.coeffs.zip pivot.coeffs).mapM (fun pair => subMultiple factor pair.1 pair.2)
    let rhs ← subMultiple factor row.rhs pivot.rhs
    pure ((Row.mk coeffs rhs).put column .zero)

/-- Takes a row out of a list; the first row takes its place. -/
def takeRow (index : Nat) : List (Row K) → Option (Row K × List (Row K))
  | [] => none
  | first :: rest =>
    match index with
    | 0 => some (first, rest)
    | i + 1 => (rest[i]?).map (fun row => (row, rest.set i first))

def step (bound : K) (tableau : Tableau K) (column : Nat) : Except AlgebraError (Tableau K) := do
  let pending := tableau.pending.map (clearNegligible bound column)
  match (choosePivot column pending).bind (fun index => takeRow index pending) with
  | none => pure { tableau with pending := pending }
  | some (row, rest) =>
    let pivot ← row.divideBy column
    let pivots ← tableau.pivots.mapM (fun entry => do
      pure (entry.1, ← Row.clear column pivot entry.2))
    let rest ← rest.mapM (Row.clear column pivot)
    pure ⟨pivots ++ [(column, pivot)], rest⟩

/-- What the rows without a pivot say about the system. -/
def residual (bound : K) : List (Row K) → Option (Outcome K)
  | [] => none
  | row :: rest =>
    let negligible := match size? row.rhs with
      | some size => decide (size ≤ bound)
      | none => false
    if row.rhs.isZero || negligible then residual bound rest
    else if row.rhs.isQuantity then some (.inconsistent row.rhs)
    else some .undetermined

/-- The value of an unknown from its pivot row. -/
def valueOf (unknowns : List Symbol) (column : Nat) (row : Row K) :
    Except AlgebraError (Fraction K) := do
  let value ← (unknowns.zip row.coeffs).zipIdx.foldlM (fun (acc : Fraction K) entry =>
    if entry.2 == column || entry.1.2.isZero then pure acc
    else do acc.sub (← entry.1.2.mul (.ofSymbol entry.1.1))) row.rhs
  value.canonical

/-- Solves polynomials that are linear in the unknowns. -/
def solve (tolerance : K) (unknowns : List Symbol) (polys : List (Polynomial K)) :
    Except AlgebraError (Outcome K) := do
  let rows ← polys.mapM (rowOf unknowns)
  let coeffBound := tolerance * largestSize 0 (rows.flatMap Row.coeffs)
  let rhsBound := tolerance * largestSize 1 (rows.map Row.rhs)
  let tableau ← (List.range unknowns.length).foldlM (step coeffBound) ⟨[], rows⟩
  match residual rhsBound tableau.pending with
  | some outcome => pure outcome
  | none =>
    if tableau.pivots.isEmpty then pure .undetermined
    else
      let solution ← tableau.pivots.foldlM (fun (acc : Solution K) entry => do
        pure (acc.insert (unknowns.getD entry.1 default) (← valueOf unknowns entry.1 entry.2))) ∅
      pure (.solved solution)

end Ramify.Linear
