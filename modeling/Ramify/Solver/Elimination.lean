import Ramify.Failure
import Ramify.Random.Twister
import Ramify.Solver.Answer
import Ramify.Solver.Newton
import Ramify.Solver.PurePower
import Ramify.Solver.RealRoots

/-!
Recursive elimination of unknowns from a system of polynomials that are to vanish. A polynomial in
one unknown is split on its roots; an unknown that occurs linearly is expressed by the others, with
the case that its coefficient vanishes treated on its own; what is left is searched numerically.
-/

namespace Ramify

/-- What a solver keeps between two questions. -/
structure SolverState where
  generator : Twister
  log : Array String

/-- An action of a solver: it may draw random numbers, tell what it does, and fail. -/
abbrev SolverAction (K α : Type) := ExceptT (Failure K) (StateM SolverState) α

inductive Elimination (K : Type)
  /-- The common zeros are described by the solutions. -/
  | solved (solutions : List (Solution K))
  /-- There are no common zeros. -/
  | inconsistent
  /-- Nothing was found out. -/
  | unknown

namespace Elimination

variable {K : Type} [Scalar K]

def tell (line : String) : SolverAction K Unit :=
  modify fun state => { state with log := state.log.push line }

/-- The outcome with some solutions: there are none if the list is empty. -/
def ofSolutions : List (Solution K) → Elimination K
  | [] => inconsistent
  | solutions => solved solutions

def unknownsAmong (unknowns : List Symbol) (p : Polynomial K) : List Symbol :=
  p.symbols.filter unknowns.contains

/-- The sum of the sizes of the terms of a polynomial at the numbers of a substitution. -/
def scaleAt (p : Polynomial K) (solution : Solution K) : K :=
  p.terms.foldl (fun acc m =>
    acc + m.exponents.entries.foldl (fun (term : K) (entry : Symbol × Int) =>
      match (solution.find? entry.1).bind (fun value => value.toConstant.toOption) with
      | some value => term * Scalar.power (Scalar.abs value) entry.2
      | none => term) (Scalar.abs m.coeff)) 0

/-- The numerator of a polynomial after a substitution. A number that is small relative to the terms
it comes from is taken for zero. -/
def reduce (tolerance : K) (solution : Solution K) (p : Polynomial K) :
    Except AlgebraError (Polynomial K) := do
  let value ← (Fraction.ofPolynomial p).subst solution
  let scale := scaleAt p solution / Scalar.abs value.den.constantCoeff
  if !value.num.isZero && value.isSymbolFree &&
      decide (Scalar.abs value.num.constantCoeff ≤ tolerance * scale) then pure 0
  else pure value.num

/-- A system at the start of a round. -/
inductive Standing (K : Type)
  /-- A quantity other than zero would have to be zero. -/
  | inconsistent
  /-- No unknowns are left; conditions on other symbols may be. -/
  | settled (conditional : Bool)
  /-- The polynomials in which unknowns occur. -/
  | active (polys : List (Polynomial K))

/-- Sorts the polynomials of a system by what is known about them. -/
def standing (unknowns : List Symbol) (polys : List (Polynomial K)) : Standing K :=
  let nonzero := polys.filter (fun p => !p.isZero)
  let free := nonzero.filter (fun p => (unknownsAmong unknowns p).isEmpty)
  if free.any Polynomial.isQuantity then .inconsistent
  else
    match nonzero.filter (fun p => !(unknownsAmong unknowns p).isEmpty) with
    | [] => .settled (!free.isEmpty)
    | active => .active active

/-- The move of a round. The polynomial that is used up is given by its position. -/
inductive Move (K : Type)
  /-- One polynomial restricts a symbol to these values. -/
  | split (index : Nat) (symbol : Symbol) (values : List (Fraction K))
  /-- One polynomial is `slope * symbol + offset`. -/
  | express (index : Nat) (symbol : Symbol) (slope offset : Polynomial K)
  /-- No unknown can be eliminated. -/
  | search

/-- The first polynomial that is a pure power of its only unknown. -/
def purePowerMove (unknowns : List Symbol) (active : List (Polynomial K)) :
    Except AlgebraError (Option (Move K)) :=
  active.zipIdx.findSomeM? (fun (p, index) =>
    match unknownsAmong unknowns p with
    | [symbol] => do
      pure ((← PurePower.roots p symbol).map (fun values => .split index symbol values))
    | _ => pure none)

/-- The first polynomial in a single unknown with numbers for coefficients: its position, the
unknown, the polynomial and the coefficients. -/
def univariate (unknowns : List Symbol) (active : List (Polynomial K)) :
    Except AlgebraError (Option (Nat × Symbol × Polynomial K × List K)) :=
  active.zipIdx.findSomeM? (fun (p, index) =>
    match p.symbols with
    | [symbol] =>
      if unknowns.contains symbol then do
        let coeffs ← p.splitBy symbol
        pure (some (index, symbol, p, coeffs.map Polynomial.constantCoeff))
      else pure none
    | _ => pure none)

/-- The first unknown that occurs linearly, with a number for its coefficient if that is asked
for. -/
def linearMove (numericOnly : Bool) (unknowns : List Symbol) (active : List (Polynomial K)) :
    Except AlgebraError (Option (Move K)) :=
  active.zipIdx.findSomeM? (fun (p, index) =>
    (unknownsAmong unknowns p).findSomeM? (fun symbol => do
      if p.degree symbol ≠ 1 then pure none
      else
        match ← p.splitBy symbol with
        | [offset, slope] =>
          if numericOnly && !slope.isSymbolFree then pure none
          else pure (some (.express index symbol slope offset))
        | _ => pure none))

def lift {α : Type} : Except AlgebraError α → SolverAction K α
  | .ok x => pure x
  | .error cause => throw (.algebra cause)

def chooseMove (numerics : Numerics K) (settings : SolverSettings K) (unknowns : List Symbol)
    (active : List (Polynomial K)) : SolverAction K (Move K) := do
  if let some move ← lift (purePowerMove unknowns active) then return move
  if let some (index, symbol, p, coeffs) ← lift (univariate unknowns active) then
    let roots := RealRoots.find numerics settings coeffs
    if settings.verbose then
      tell ("  [PolynomialOracle] " ++ toString roots.length ++ " real root(s) for " ++
        symbol.name ++ " from " ++ p.text 6)
    return .split index symbol (roots.map Fraction.const)
  if let some move ← lift (linearMove true unknowns active) then return move
  if let some move ← lift (linearMove false unknowns active) then return move
  return .search

def others (index : Nat) (polys : List (Polynomial K)) : List (Polynomial K) := polys.eraseIdx index

/-- Whether two points are as good as equal, coordinate by coordinate. -/
def samePoint (tolerance : K) (unknowns : List Symbol) (known point : SortedMap Symbol K) : Bool :=
  unknowns.all (fun symbol =>
    let a := (known.find? symbol).getD 0
    let b := (point.find? symbol).getD 0
    !decide (tolerance * Scalar.max 1 (Scalar.abs a) < Scalar.abs (a - b)))

def drawPoint (unknowns : List Symbol) : StateM Twister (SortedMap Symbol K) :=
  unknowns.foldlM (fun (point : SortedMap Symbol K) (symbol : Symbol) => do
    let low : K := Scalar.ofInt (-10)
    pure (point.insert symbol (← Twister.uniform low (Scalar.ofInt 10)))) ∅

/-- Searches solutions from a number of random points. -/
def searchPoints (numerics : Numerics K) (settings : SolverSettings K)
    (problem : Newton.Problem K) :
    Nat → List (SortedMap Symbol K) → SolverAction K (List (SortedMap Symbol K))
  | 0, found => pure found
  | starts + 1, found => do
    let state ← get
    let (start, generator) := (drawPoint problem.unknowns).run state.generator
    let result := Newton.refine numerics problem ⟨50, 1e-9, settings.verbose⟩ start
    set { state with generator := generator, log := state.log ++ result.log.toArray }
    let isNew := !found.any (fun known =>
      samePoint settings.mergeTolerance problem.unknowns known result.point)
    searchPoints numerics settings problem starts
      (if result.converged && isNew then found ++ [result.point] else found)

/-- Whether a point comes before another one, by the first coordinate in which they differ. -/
def precedes : List (Symbol × K) → List (Symbol × K) → Bool
  | [], [] => false
  | [], _ :: _ => true
  | _ :: _, [] => false
  | a :: as, b :: bs =>
    match compare a.1 b.1 with
    | .lt => true
    | .gt => false
    | .eq =>
      if a.2 < b.2 then true else if b.2 < a.2 then false else precedes as bs

/-- Puts a point before the first one that it precedes. -/
def insertPoint (point : SortedMap Symbol K) :
    List (SortedMap Symbol K) → List (SortedMap Symbol K)
  | [] => [point]
  | other :: rest =>
    if precedes point.entries other.entries then point :: other :: rest
    else other :: insertPoint point rest

/-- A treatment of the unknowns and polynomials that are left. -/
abbrev Continuation (K : Type) :=
  List Symbol → List (Polynomial K) → SolverAction K (Elimination K)

/-- Numeric search for the common zeros of polynomials in the unknowns alone, of which there are at
least as many as unknowns. -/
def search (numerics : Numerics K) (settings : SolverSettings K) : Continuation K :=
    fun unknowns active => do
  let present := ascending (active.flatMap Polynomial.symbols)
  if present.any (fun symbol => symbol.isUnit || !unknowns.contains symbol) then return .unknown
  if active.length < present.length then return .unknown
  let found ← searchPoints numerics settings ⟨present, active⟩ settings.newtonStarts.toNat []
  if settings.verbose then
    tell ("  [PolynomialOracle] Newton fallback found " ++ toString found.length ++
      " solution(s) from " ++ toString settings.newtonStarts ++ " starts.")
  if found.isEmpty then return .unknown
  let sorted := found.foldl (fun acc point => insertPoint point acc) []
  return .solved (sorted.map (fun point => point.mapValues Fraction.const))

/-- Puts each value for a symbol, and collects the solutions of what is left. A value at which some
polynomial has a pole is passed over. -/
def splitOn (tolerance : K) (next : Continuation K) (unknowns : List Symbol) (symbol : Symbol)
    (rest : List (Polynomial K)) :
    List (Fraction K) → List (Solution K) → SolverAction K (Elimination K)
  | [], found => pure (ofSolutions found)
  | value :: values, found =>
    match rest.mapM (reduce tolerance (.single symbol value)) with
    | .error cause =>
      if cause.kind.isInvalidArgument then
        splitOn tolerance next unknowns symbol rest values found
      else throw (.algebra cause)
    | .ok reduced => do
      match ← next (unknowns.filter (· ≠ symbol)) reduced with
      | .unknown => pure .unknown
      | .inconsistent => splitOn tolerance next unknowns symbol rest values found
      | .solved solutions =>
        splitOn tolerance next unknowns symbol rest values
          (found ++ solutions.map (fun solution => solution.insert symbol value))

/-- Completes solutions by the value of an expressed symbol. A solution at which the value has a
pole is dropped. -/
def complete (symbol : Symbol) (value : Fraction K) :
    List (Solution K) → Except AlgebraError (List (Solution K))
  | [] => pure []
  | solution :: rest =>
    match (do (← value.subst solution).canonical : Except AlgebraError (Fraction K)) with
    | .ok completed => do
      pure (solution.insert symbol completed :: (← complete symbol value rest))
    | .error cause =>
      if cause.kind.isInvalidArgument then complete symbol value rest else throw cause

/-- Puts the value of an expressed symbol into the other polynomials, and completes the solutions of
what is left. -/
def substitute (tolerance : K) (next : Continuation K) (unknowns : List Symbol)
    (symbol : Symbol) (value : Fraction K) (rest : List (Polynomial K)) :
    SolverAction K (Elimination K) := do
  let reduced ← lift (rest.mapM (reduce tolerance (.single symbol value)))
  match ← next (unknowns.filter (· ≠ symbol)) reduced with
  | .solved solutions => pure (ofSolutions (← lift (complete symbol value solutions)))
  | outcome => pure outcome

/-- The outcome of two cases of which one must hold. -/
def either : Elimination K → Elimination K → Elimination K
  | .unknown, _ | _, .unknown => .unknown
  | .inconsistent, outcome | outcome, .inconsistent => outcome
  | .solved left, .solved right => .solved (left ++ right)

/-- Expresses a symbol from `slope * symbol + offset`. If the slope can vanish, the case that slope
and offset are both zero is solved as well. -/
def expressOn (tolerance : K) (next : Continuation K) (unknowns : List Symbol)
    (symbol : Symbol) (slope offset : Polynomial K) (rest : List (Polynomial K)) :
    SolverAction K (Elimination K) := do
  let value ← lift ((Fraction.ofPolynomial (-offset)).div (.ofPolynomial slope))
  let regular ← substitute tolerance next unknowns symbol value rest
  if slope.isSymbolFree || Polynomial.isQuantity slope then return regular
  let vanishing ← next unknowns (rest ++ [slope, offset])
  return either regular vanishing

/-- Eliminates unknowns in at most `rounds` nested rounds. Where no unknown can be eliminated,
`fallback` takes over. -/
def eliminate (fallback : Continuation K) (numerics : Numerics K) (settings : SolverSettings K) :
    Nat → Continuation K
  | rounds, unknowns, polys =>
    match standing unknowns polys with
    | .inconsistent => pure .inconsistent
    | .settled true => pure .unknown
    | .settled false => pure (.solved [∅])
    | .active active =>
      match rounds with
      | 0 => pure .unknown
      | rounds + 1 => do
        let next := eliminate fallback numerics settings rounds
        let tolerance := settings.residualTolerance
        match ← chooseMove numerics settings unknowns active with
        | .split index symbol values =>
          splitOn tolerance next unknowns symbol (others index active) values []
        | .express index symbol slope offset =>
          expressOn tolerance next unknowns symbol slope offset (others index active)
        | .search => fallback unknowns active

end Elimination

end Ramify
