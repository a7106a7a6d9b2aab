import Ramify.Failure

/-!
Branches: alternative hypotheses about the values of the declared variables. Each branch binds every
declared variable; a variable without a value is bound to its own symbol. Branches are kept in
order, one of them is current, and each has an identity that is never given to another branch.
-/

namespace Ramify

/-- The values of the variables in one branch, by name. -/
abbrev Bindings (K : Type) := SortedMap String (Fraction K)

/-- One hypothesis about the values of all variables. -/
structure Branch (K : Type) where
  id : Nat
  bindings : Bindings K

structure Branches (K : Type) where
  list : List (Branch K)
  /-- The variables in the order of their declaration. -/
  names : List String
  current : Nat
  nextId : Nat
  /-- Whether a branch has ever been copied; then no variable can be declared any more. -/
  locked : Bool

namespace Branches

variable {K : Type}

/-- An action on the branches; what it did before a failure stays done. -/
abbrev Action (K α : Type) := ExceptT (Failure K) (StateM (Branches K)) α

def initial : Branches K := ⟨[⟨0, ∅⟩], [], 0, 1, false⟩

def count (branches : Branches K) : Nat := branches.list.length

def declares (branches : Branches K) (name : String) : Bool :=
  match branches.list with
  | [] => false
  | branch :: _ => branch.bindings.contains name

/-- The position of the branch with an identity. -/
def indexOf? (branches : Branches K) (id : Nat) : Option Nat :=
  branches.list.findIdx? (fun branch => branch.id == id)

/-- The bindings of each branch. -/
def snapshot (branches : Branches K) : List (Bindings K) := branches.list.map Branch.bindings

/-- The position that is meant: a given one if it exists, or the current one. -/
def resolve (branches : Branches K) (index : Option Nat) : Except (Failure K) (Nat × Branch K) :=
  let position := index.getD branches.current
  match branches.list[position]? with
  | some branch => pure (position, branch)
  | none => throw (.noSuchBranch position branches.count)

def requireName (branches : Branches K) (name : String) : Except (Failure K) Unit :=
  if branches.declares name then pure () else throw (.undeclared name)

def identityAt (branches : Branches K) (index : Nat) : Except (Failure K) Nat := do
  pure (← branches.resolve (some index)).2.id

def bindings (branches : Branches K) (index : Option Nat) : Except (Failure K) (Bindings K) := do
  pure (← branches.resolve index).2.bindings

def get (branches : Branches K) (name : String) (index : Option Nat) :
    Except (Failure K) (Fraction K) := do
  branches.requireName name
  let (_, branch) ← branches.resolve index
  match branch.bindings.find? name with
  | some value => pure value
  | none => throw (.undeclared name)

def write (branches : Branches K) (position : Nat) (name : String) (value : Fraction K) :
    Branches K :=
  { branches with list := branches.list.modify position (fun branch =>
      { branch with bindings := branch.bindings.insert name value }) }

/-- Binds a variable in one branch. -/
def set (name : String) (value : Fraction K) (index : Option Nat) : Action K Unit := do
  let branches ← MonadState.get
  MonadExcept.ofExcept (branches.requireName name)
  let (position, _) ← MonadExcept.ofExcept (branches.resolve index)
  MonadState.set (branches.write position name value)

/-- The branches with a variable bound alike in all of them. -/
def writeEverywhere (branches : Branches K) (name : String) (value : Fraction K) : Branches K :=
  { branches with list := branches.list.map (fun branch =>
      { branch with bindings := branch.bindings.insert name value }) }

def setEverywhere (name : String) (value : Fraction K) : Action K Unit := do
  let branches ← MonadState.get
  MonadExcept.ofExcept (branches.requireName name)
  MonadState.set (branches.writeEverywhere name value)

/-- Appends a copy of a branch, and says where it is. -/
def copy (source : Option Nat) : Action K Nat := do
  let branches ← MonadState.get
  let (_, branch) ← MonadExcept.ofExcept (branches.resolve source)
  MonadState.set { branches with
    list := branches.list ++ [⟨branches.nextId, branch.bindings⟩]
    nextId := branches.nextId + 1
    locked := true }
  pure branches.count

/-- The branches without the one at a position. The current branch stays current if it can. -/
def without (branches : Branches K) (position : Nat) : Branches K :=
  let list := branches.list.eraseIdx position
  let shifted := if position < branches.current then branches.current - 1 else branches.current
  { branches with list := list, current := Nat.min shifted (list.length - 1) }

/-- Removes a branch, which must not be the only one. -/
def remove (index : Nat) : Action K Unit := do
  let branches ← MonadState.get
  let (position, _) ← MonadExcept.ofExcept (branches.resolve (some index))
  if branches.count = 1 then throw .removeLastBranch
  MonadState.set (branches.without position)

/-- Makes the next branch current, and the first one after the last. -/
def rotate (branches : Branches K) : Branches K :=
  { branches with current := (branches.current + 1) % branches.count }

def select (index : Nat) : Action K Unit := do
  let branches ← MonadState.get
  let (position, _) ← MonadExcept.ofExcept (branches.resolve (some index))
  MonadState.set { branches with current := position }

variable [Scalar K]

/-- The branches with one more variable, bound to its symbol everywhere. -/
def withVariable (branches : Branches K) (name : String) : Branches K :=
  { branches.writeEverywhere name (.ofSymbol ⟨name, false⟩) with names := branches.names ++ [name] }

def declareEach : List String → Action K Unit
  | [] => pure ()
  | name :: rest => do
    let branches ← MonadState.get
    if branches.declares name then throw (.redeclared name)
    MonadState.set (branches.withVariable name)
    declareEach rest

/-- Declares variables, which is possible until a branch is copied. -/
def declare (names : List String) : Action K Unit := do
  if (← MonadState.get).locked then throw .declaredAfterFork
  declareEach names

def isSameEverywhere (branches : Branches K) (name : String) : Except (Failure K) Bool := do
  branches.requireName name
  let values := branches.list.map (fun branch => branch.bindings.find? name)
  match values with
  | [] => pure true
  | first :: _ => pure (values.all (fun value => value == first))

/-- A branch written out in full precision. -/
def describe (branch : Branch K) : String :=
  String.join (branch.bindings.entries.map (fun entry =>
    entry.1 ++ "=" ++ entry.2.text 17 ++ ";"))

/-- A number that is the same for branches that are written alike. -/
def fingerprint (branches : Branches K) (index : Nat) : Except (Failure K) UInt64 := do
  let (_, branch) ← branches.resolve (some index)
  pure ((describe branch).toUTF8.toList.foldl
    (fun acc byte => (acc ^^^ byte.toUInt64) * 1099511628211) 14695981039346656037)

end Branches

end Ramify
