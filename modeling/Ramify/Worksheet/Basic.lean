import Ramify.Branches
import Ramify.Engine
import Ramify.Program
import Ramify.Verdict

/-!
Worksheets: systems of equations that are solved in branches. A worksheet holds the declared
variables with their branches, the equations and procedures, the engine that is asked for solutions,
and what a solving run has found out.
-/

namespace Ramify

structure WorksheetOptions (K : Type) where
  /-- Constants agree if their difference is at most this, relative to their size. -/
  tolerance : K
  /-- How far the random unit factors lie from one. -/
  spread : K
  /-- The seed of the random unit factors. -/
  seed : UInt32
  /-- The largest number of relations that are solved together; zero means any number. -/
  maxSubset : Nat
  /-- Whether relations without a solution end the run at once. -/
  raiseOnUnsolvable : Bool
  verbose : Bool

def WorksheetOptions.standard {K : Type} [Scalar K] (seed : UInt32) : WorksheetOptions K where
  tolerance := 1e-10
  spread := 0.2
  seed := seed
  maxSubset := 0
  raiseOnUnsolvable := false
  verbose := false

/-- An equation: its name, and the formulas of its sides, of which there should be two. -/
structure Equation (K : Type) where
  name : String
  sides : List (Formula K)

structure Procedure (K : Type) where
  name : String
  body : Program K

/-- A worksheet with an engine whose state is of type `σ`. -/
structure Worksheet (K σ : Type) where
  options : WorksheetOptions K
  engine : Engine K σ
  engineState : σ
  judge : Judge K
  branches : Branches K
  descriptions : SortedMap String String
  equations : List (Equation K)
  procedures : List (Procedure K)
  /-- The contradictions found in this run, by the identity of their branch. -/
  marked : SortedMap Nat (List (Relation K))
  /-- Whether some relations turned out to have no solution in this run. -/
  unsolvable : Bool
  inProcedure : Bool
  /-- Whether the last run came to an end. -/
  solved : Bool
  log : Array String

namespace Worksheet

variable {K σ : Type}

/-- An action on a worksheet; what it did before a failure stays done. -/
abbrev Action (K σ α : Type) := ExceptT (Failure K) (StateM (Worksheet K σ)) α

def tell (line : String) : Action K σ Unit :=
  modify fun sheet => { sheet with log := sheet.log.push line }

/-- Writes a line to the log if the worksheet tells what it does. -/
def narrate (line : String) : Action K σ Unit := do
  if (← get).options.verbose then tell ("  [EquationSystem] " ++ line)

def onBranches {α : Type} (action : Branches.Action K α) : Action K σ α := do
  let sheet ← get
  let (result, branches) := action.run.run sheet.branches
  set { sheet with branches := branches }
  MonadExcept.ofExcept result

def onJudge {α : Type} (action : Judge.Action K α) : Action K σ α := do
  let sheet ← get
  let (result, judge) := action.run.run sheet.judge
  set { sheet with judge := judge }
  MonadExcept.ofExcept result

def ask (relations : List (Relation K)) (unknowns : List Symbol) : Action K σ (Answer K) := do
  let sheet ← get
  let (result, state, lines) := sheet.engine.ask relations unknowns sheet.engineState
  set { sheet with engineState := state, log := sheet.log ++ lines.toArray }
  MonadExcept.ofExcept result

def value (sheet : Worksheet K σ) (name : String) : Except (Failure K) (Fraction K) :=
  sheet.branches.get name none

/-- Whether a name starts with a letter or an underscore and goes on with letters, digits and
underscores; only unaccented Latin letters count. -/
def isValidName (name : String) : Bool :=
  match name.toList with
  | [] => false
  | first :: rest =>
    (first.isAlpha || first == '_') && rest.all (fun c => c.isAlphanum || c == '_')

/-- Fails unless the names are identifiers, different from each other and from the declared ones. -/
def checkNames (branches : Branches K) (seen : List String) :
    List String → Except (Failure K) Unit
  | [] => pure ()
  | name :: rest => do
    if !isValidName name then throw (.badName name)
    if seen.contains name || branches.declares name then throw (.repeatedName name)
    checkNames branches (name :: seen) rest

variable [Scalar K]

/-- The judge of a worksheet; the seeds of its tables are drawn from its seed. -/
def makeJudge (options : WorksheetOptions K) : Except (Failure K) (Judge K) :=
  let (first, generator) := (Twister.ofSeed options.seed).next
  let (second, _) := generator.next
  Judge.create first second options.spread options.tolerance

def create (names : List String) (descriptions : SortedMap String String)
    (options : WorksheetOptions K) (engine : Engine K σ) (engineState : σ) :
    Except (Failure K) (Worksheet K σ) := do
  let judge ← makeJudge options
  if names.isEmpty then throw .noVariables
  checkNames (Branches.initial : Branches K) [] names
  let (result, branches) := (Branches.declare names).run.run Branches.initial
  result
  descriptions.entries.forM (fun entry =>
    if branches.declares entry.1 then pure () else throw (.strayDescription entry.1))
  pure {
    options := options
    engine := engine
    engineState := engineState
    judge := judge
    branches := branches
    descriptions := descriptions
    equations := []
    procedures := []
    marked := ∅
    unsolvable := false
    inProcedure := false
    solved := false
    log := #[] }

/-- Fails unless a method may be registered under a name. -/
def checkMethod (kind : MethodKind) (name : String) : Action K σ Unit := do
  if name.isEmpty then throw (.unnamedMethod kind)
  let sheet ← get
  if sheet.equations.any (fun e => e.name == name) ||
      sheet.procedures.any (fun p => p.name == name) then
    throw (.repeatedMethod name)

def registerEquation (name : String) (sides : Option (List (Formula K))) : Action K σ Unit := do
  checkMethod .equation name
  match sides with
  | none => throw (.emptyMethod .equation name)
  | some sides => modify fun sheet =>
      { sheet with equations := sheet.equations ++ [⟨name, sides⟩] }

def registerProcedure (name : String) (body : Option (Program K)) : Action K σ Unit := do
  checkMethod .procedure name
  match body with
  | none => throw (.emptyMethod .procedure name)
  | some body => modify fun sheet =>
      { sheet with procedures := sheet.procedures ++ [⟨name, body⟩] }

def evaluate (formula : Formula K) : Action K σ (Fraction K) := do
  let sheet ← get
  MonadExcept.ofExcept (formula.eval sheet.value)

/-- Binds a variable: in the current branch while a procedure is running, and in every branch
otherwise. -/
def assign (name : String) (value : Fraction K) : Action K σ Unit := do
  let sheet ← get
  if sheet.inProcedure then onBranches (Branches.set name value none)
  else
    if sheet.solved then
      tell ("Warning: setting '" ++ name ++
        "' after solve(); the value is not checked against the solution.")
    onBranches (Branches.setEverywhere name value)

/-- Declares variables, which is possible until the worksheet branches. -/
def declare (names : List String) : Action K σ Unit := do
  let sheet ← get
  if sheet.branches.locked then throw .declaredAfterBranching
  MonadExcept.ofExcept (checkNames sheet.branches [] names)
  onBranches (Branches.declare names)

/-- Makes a variable unknown again, in every branch. -/
def clear (name : String) : Action K σ Unit := do
  onBranches (Branches.setEverywhere name (.ofSymbol ⟨name, false⟩))
  modify fun sheet => { sheet with solved := false }

/-- Deletes the current branch, which must not be the only one. -/
def dropCurrent : Action K σ Unit := do
  let branches := (← get).branches
  if branches.count = 1 then throw .deleteLastBranch
  let id ← MonadExcept.ofExcept (branches.identityAt branches.current)
  narrate ("Deleting branch id " ++ toString id)
  onBranches (Branches.remove branches.current)

def switch (index : Nat) : Action K σ Unit := onBranches (Branches.select index)

def rotate : Action K σ Unit :=
  modify fun sheet => { sheet with branches := sheet.branches.rotate }

def isResolved (sheet : Worksheet K σ) (name : String) : Except (Failure K) Bool := do
  pure (← sheet.value name).unknowns.isEmpty

end Worksheet

end Ramify
