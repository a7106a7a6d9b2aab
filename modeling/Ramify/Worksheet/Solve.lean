import Ramify.Subsets
import Ramify.Worksheet.Run

/-!
Solving a worksheet. A run visits every branch once, those included that split off on the way. In a
branch, subsets of the relations are given to the engine, smallest first, until one of them resolves
variables; the branch then takes the first resolved candidate, a copy of it is made for each other
one, and the branch starts over. Branches in which an equation cannot hold are removed at the end.
-/

namespace Ramify.Worksheet

variable {K σ : Type} [Scalar K]

/-- The relation that an equation states in the current branch. -/
def relationOf (equation : Equation K) : Action K σ (Relation K) := do
  let sides ← equation.sides.mapM evaluate
  match sides with
  | [lhs, rhs] =>
    let lhs ← MonadExcept.ofExcept (Failure.liftAlgebra lhs.canonical)
    let rhs ← MonadExcept.ofExcept (Failure.liftAlgebra rhs.canonical)
    pure ⟨lhs, rhs, equation.name⟩
  | _ => throw (.wrongSides equation.name sides.length)

def mark (id : Nat) (relations : List (Relation K)) : Action K σ Unit :=
  modify fun sheet => { sheet with marked := sheet.marked.insert id relations }

/-- The usable relations that equations state in the current branch, each once, after those already
collected. If one cannot hold, the branch with the given identity is marked and there is no
result. -/
def gather (id : Nat) :
    List (Equation K) → List (Relation K) → Action K σ (Option (List (Relation K)))
  | [], found => pure (some found)
  | equation :: rest, found => do
    let relation ← relationOf equation
    match ← onJudge (Judge.verdict relation.lhs relation.rhs) with
    | .redundant => gather id rest found
    | .contradiction =>
      narrate ("Contradiction in branch id " ++ toString id ++ ": " ++ relation.text 6)
      mark id (found ++ [relation])
      pure none
    | .usable => gather id rest (if found.contains relation then found else found ++ [relation])

def substituted (value : Fraction K) (solution : Solution K) :
    Except AlgebraError (Fraction K) := do
  (← value.subst solution).canonical

/-- Puts a solution into a branch: a solved variable gets its value, and in the value of any other
variable the solution is substituted. -/
def adoptEach (solution : Solution K) (index : Nat) : List String → Action K σ Unit
  | [] => pure ()
  | name :: rest => do
    match solution.find? ⟨name, false⟩ with
    | some value =>
      onBranches (Branches.set name value (some index))
      narrate ("  " ++ name ++ " = " ++ value.text 6)
    | none =>
      let old ← MonadExcept.ofExcept ((← get).branches.get name (some index))
      let value ← MonadExcept.ofExcept (Failure.liftAlgebra (substituted old solution))
      onBranches (Branches.set name value (some index))
    adoptEach solution index rest

def adopt (solution : Solution K) (index : Nat) : Action K σ Unit := do
  adoptEach solution index (← get).branches.names

/-- Copies a branch for each of a list of solutions. -/
def copyFor (id index : Nat) : List (Solution K) → Action K σ Unit
  | [] => pure ()
  | solution :: rest => do
    let copy ← onBranches (Branches.copy (some index))
    adopt solution copy
    let copyId ← MonadExcept.ofExcept ((← get).branches.identityAt copy)
    narrate ("Forked branch id " ++ toString copyId ++ " from id " ++ toString id)
    copyFor id index rest

/-- Whether a candidate gives values, and no unknown occurs in them. -/
def isNumeric (candidate : Solution K) : Bool :=
  !candidate.isEmpty && candidate.entries.all (fun entry => entry.2.isQuantity)

/-- The declared unknowns of some relations. -/
def unknownsOf (branches : Branches K) (relations : List (Relation K)) : List Symbol :=
  (ascending (relations.flatMap Relation.unknowns)).filter (fun s => branches.declares s.name)

/-- Tries to resolve variables of a branch by some of its relations, and says whether it did. -/
def resolveBy (id : Nat) (subset : List (Relation K)) : Action K σ Bool := do
  let unknowns := unknownsOf (← get).branches subset
  if unknowns.isEmpty then return false
  match ← ask subset unknowns with
  | .indeterminate => return false
  | .noSolution =>
    if (← get).options.raiseOnUnsolvable then throw (.inconsistentSubset subset)
    narrate ("Inconsistent subset of " ++ toString subset.length ++ " relation(s).")
    modify fun sheet => { sheet with unsolvable := true }
    return false
  | .solved candidates =>
    match candidates.filter isNumeric, (← get).branches.indexOf? id with
    | first :: rest, some index =>
      copyFor id index rest
      adopt first index
      return true
    | _, _ => return false

def largestSubset (options : WorksheetOptions K) (count : Nat) : Nat :=
  if options.maxSubset = 0 then count else Nat.min count options.maxSubset

/-- Solves a branch, starting over each time that variables were resolved, at most `steps` times. -/
def settle (id : Nat) : (steps : Nat) → Action K σ Unit
  | 0 => throw .stepsExhausted
  | steps + 1 => do
    if !(← performAll id) then return
    match ← gather id (← get).equations [] with
    | none => return
    | some relations =>
      let largest := largestSubset (← get).options relations.length
      if ← anySubsetUpTo (resolveBy id) largest relations then settle id steps
      else let _ ← performAll id

/-- The first branch, from the current one on and around, whose identity is not among those
visited. -/
def nextUnvisited (branches : Branches K) (visited : List Nat) : Option (Nat × Nat) :=
  (List.range branches.count).findSome? (fun offset =>
    let index := (branches.current + offset) % branches.count
    (branches.list[index]?).bind (fun branch =>
      if visited.contains branch.id then none else some (index, branch.id)))

/-- Visits every branch that has not been visited, at most `steps` of them, and says which ones have
been visited, the last one first. -/
def visitAll (limit : Nat) : (steps : Nat) → List Nat → Action K σ (List Nat)
  | 0, _ => throw .stepsExhausted
  | steps + 1, visited => do
    match nextUnvisited (← get).branches visited with
    | none => pure visited
    | some (index, id) =>
      onBranches (Branches.select index)
      narrate ("Solving branch " ++ toString index ++ " (id " ++ toString id ++ ")")
      settle id limit
      visitAll limit steps (id :: visited)

def hex (n : Nat) : String := String.ofList (Nat.toDigits 16 n)

/-- Removes the branches with the given identities, as far as they exist. -/
def discardEach : List Nat → Action K σ Unit
  | [] => pure ()
  | id :: rest => do
    let branches := (← get).branches
    match branches.indexOf? id with
    | none => discardEach rest
    | some index =>
      let fingerprint ← MonadExcept.ofExcept (branches.fingerprint index)
      narrate ("Removing contradictory branch id " ++ toString id ++ " (fingerprint " ++
        hex fingerprint.toNat ++ ")")
      onBranches (Branches.remove index)
      discardEach rest

def unmark : Action K σ Unit := modify fun sheet => { sheet with marked := ∅ }

/-- Removes the marked branches, unless none would be left, and returns to the branch in which the
run began. -/
def discardMarked (startId : Nat) : Action K σ Unit := do
  let sheet ← get
  let marked := sheet.marked
  if !marked.isEmpty then
    let live := marked.keys.filter (fun id => (sheet.branches.indexOf? id).isSome)
    if live.length = sheet.branches.count then
      unmark
      throw (.allContradictory (marked.entries.map Prod.snd))
    discardEach marked.keys
    unmark
  match (← get).branches.indexOf? startId with
  | some index => onBranches (Branches.select index)
  | none => pure ()

/-- Solves the worksheet in a run that visits at most `steps` branches, each of them starting over
at most `steps` times. -/
def solve (steps : Nat) : Action K σ Unit := do
  if (← get).solved then
    tell "Warning: solve() called on a system that is already solved. Solving again."
  let branches := (← get).branches
  let before := branches.snapshot
  let startId ← MonadExcept.ofExcept (branches.identityAt branches.current)
  modify fun sheet => { sheet with unsolvable := false, marked := ∅ }
  let _ ← visitAll steps steps []
  discardMarked startId
  let sheet ← get
  if sheet.unsolvable && sheet.branches.snapshot == before then throw .nothingSolved
  modify fun sheet => { sheet with solved := true }
  narrate ("Solve finished with " ++ toString sheet.branches.count ++ " branch(es).")

end Ramify.Worksheet
