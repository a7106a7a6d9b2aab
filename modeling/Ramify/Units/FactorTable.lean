import Ramify.Random.Twister
import Ramify.Units.Quantity

/-!
Random stand-ins for units. Each base dimension gets a factor drawn from an interval around one, no
two closer than a given gap; a derived unit stands for its size times the factors of its dimension.
Quantities of different dimension then almost surely take different values, so that an equality
between quantities can be tested on numbers.
-/

namespace Ramify

/-- The factors drawn so far, and what is needed to draw more. -/
structure FactorTable (K : Type) where
  generator : Twister
  /-- Factors lie within this distance of one. -/
  spread : K
  /-- Two factors are at least this far apart. -/
  gap : K
  factors : SortedMap String K

namespace FactorTable

variable {K : Type} [Scalar K]

/-- An action that may draw factors and may fail; factors drawn before a failure stay drawn. -/
abbrev Action (K α : Type) := ExceptT (Failure K) (StateM (FactorTable K)) α

/-- Whether a candidate is closer than the gap to a factor of the table. -/
def clashes (table : FactorTable K) (candidate : K) : Bool :=
  table.factors.entries.any (fun entry => decide (Scalar.abs (candidate - entry.2) < table.gap))

/-- Draws candidates until one clashes with no factor, at most `attempts` of them. -/
def drawWithin : Nat → Action K K
  | 0 => throw .crowdedFactors
  | attempts + 1 => do
    let table ← get
    let (candidate, generator) :=
      (Twister.uniform (1 - table.spread) (1 + table.spread)).run table.generator
    set { table with generator := generator }
    if table.clashes candidate then drawWithin attempts else pure candidate

def draw : Action K K := drawWithin 10000

/-- Draws a factor for a base dimension and enters it. -/
def drawFor (base : String) : Action K K := do
  let value ← draw
  modify fun table => { table with factors := table.factors.insert base value }
  pure value

/-- The table of a seed, with a factor for each base dimension. -/
def create (seed : UInt32) (spread gap : K) : Except (Failure K) (FactorTable K) :=
  if spread ≤ 0 || 1 ≤ spread then throw .badSpread
  else
    let bare : FactorTable K := ⟨Twister.ofSeed seed, spread, gap, ∅⟩
    let fill : Action K Unit := Units.baseSymbols.forM (fun base => do let _ ← drawFor base)
    match fill.run.run bare with
    | (.ok _, table) => pure table
    | (.error failure, _) => throw failure

/-- The factor of a base dimension, drawn when it is first asked for. -/
def baseStandIn (base : String) : Action K K := do
  match (← get).factors.find? base with
  | some value => pure value
  | none => drawFor base

/-- The number that stands for a unit tag. -/
def factor (symbol : Symbol) : Action K K := do
  if !symbol.isUnit then throw (.notUnit symbol)
  match Units.find? (K := K) symbol.name with
  | none => baseStandIn symbol.name
  | some measure =>
    measure.dimension.entries.foldlM (fun (acc : K) (entry : String × Int) => do
      pure (acc * Scalar.power (← baseStandIn entry.1) entry.2)) measure.scale

/-- The factors of the unit tags of a quantity. -/
def pointOf (a : Fraction K) : Action K (SortedMap Symbol K) :=
  a.symbols.foldlM (fun (acc : SortedMap Symbol K) (symbol : Symbol) => do
    if !symbol.isUnit then throw (.unknownUnderFactors a symbol)
    pure (acc.insert symbol (← factor symbol))) ∅

/-- The value of a quantity with each unit tag replaced by its factor, if it has one. -/
def eval (a : Fraction K) : Action K (Option K) := do
  let point ← pointOf a
  match a.eval point with
  | .ok value => pure value
  | .error cause => throw (.algebra cause)

end FactorTable

end Ramify
