import Ramify.Powers
import Ramify.Scalar
import Ramify.Algebra.Error

/-!
Monomials: a coefficient times a product of powers of symbols. Exponents may be negative.
-/

namespace Ramify

/-- The exponents of a product of powers of symbols. -/
abbrev Exponents := Powers Symbol

structure Monomial (K : Type) where
  coeff : K
  exponents : Exponents

namespace Monomial

variable {K : Type} [Scalar K]

def const (coeff : K) : Monomial K := ⟨coeff, ∅⟩

def single (coeff : K) (symbol : Symbol) (exponent : Int) : Monomial K :=
  ⟨coeff, Powers.single symbol exponent⟩

def ofSymbol (symbol : Symbol) : Monomial K := single 1 symbol 1

/-- A coefficient times a list of powers, in which a symbol may occur more than once. -/
def ofList (coeff : K) (powers : List (Symbol × Int)) : Monomial K :=
  ⟨coeff, Powers.ofList powers⟩

def degree (m : Monomial K) (symbol : Symbol) : Int := m.exponents.get symbol

def mentionsUnit (m : Monomial K) : Bool := m.exponents.entries.any (fun entry => entry.1.isUnit)

def symbols (m : Monomial K) : List Symbol := m.exponents.map.keys

def mul (a b : Monomial K) : Monomial K := ⟨a.coeff * b.coeff, a.exponents.mul b.exponents⟩

instance : Mul (Monomial K) := ⟨mul⟩

def neg (m : Monomial K) : Monomial K := ⟨-m.coeff, m.exponents⟩

instance : Neg (Monomial K) := ⟨neg⟩

def mulSymbol (m : Monomial K) (symbol : Symbol) : Monomial K :=
  ⟨m.coeff, m.exponents.raise symbol 1⟩

/-- Monomials are equal if their coefficients and their exponents are. -/
instance : BEq (Monomial K) := ⟨fun a b => a.coeff == b.coeff && a.exponents == b.exponents⟩

/-- Multiplies `acc` by a power of `base`. A negative power divides, and needs a base that is not
zero. -/
def mulPower (acc base : K) (exponent : Int) : Except AlgebraError K :=
  if exponent < 0 then
    if base == 0 then throw .zeroBase else pure (acc / Scalar.power base (-exponent))
  else pure (acc * Scalar.power base exponent)

/-- The value at a point that gives a number to each symbol. -/
def eval (m : Monomial K) (point : SortedMap Symbol K) : Except AlgebraError K :=
  m.exponents.entries.foldlM (fun acc entry =>
    match point.find? entry.1 with
    | none => throw (.missingValue entry.1)
    | some base => mulPower acc base entry.2) m.coeff

def powerText (entry : Symbol × Int) : String :=
  if entry.2 = 1 then "*" ++ entry.1.name else "*" ++ entry.1.name ++ "^" ++ toString entry.2

/-- The text of a monomial, numbers with at most `count` significant digits. -/
def text (count : Nat) (m : Monomial K) : String :=
  if m.coeff == 0 then "0"
  else Scalar.text count m.coeff ++ String.join (m.exponents.entries.map powerText)

end Monomial

end Ramify
