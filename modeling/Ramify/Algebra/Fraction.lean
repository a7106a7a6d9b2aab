import Ramify.Algebra.Polynomial

/-!
Quotients of polynomials in normal form. Numerator and denominator are collected, powers of symbols
common to all their terms are cancelled (which also clears negative exponents), and the last term of
the denominator has coefficient one. Common factors that are not monomials are kept.
-/

namespace Ramify

structure Fraction (K : Type) where
  num : Polynomial K
  den : Polynomial K

namespace Fraction

variable {K : Type} [Scalar K]

/-- The smallest exponent of a symbol in a list of terms. -/
def leastDegree (symbol : Symbol) : List (Monomial K) → Int
  | [] => 0
  | m :: rest => rest.foldl (fun acc n => min acc (n.degree symbol)) (m.degree symbol)

/-- The product of powers that all terms of a list share: each symbol with its smallest exponent. -/
def content (terms : List (Monomial K)) : Exponents :=
  (ascending (terms.flatMap Monomial.symbols)).foldl
    (fun acc symbol => acc.set symbol (leastDegree symbol terms)) ∅

def divContent (p : Polynomial K) (shared : Exponents) : Polynomial K :=
  if shared.isOne then p
  else Polynomial.ofTerms (p.terms.map (fun m => ⟨m.coeff, m.exponents.div shared⟩))

/-- The coefficient of the last term; one if there is no term. -/
def lead (p : Polynomial K) : K := (p.terms.getLast?.map Monomial.coeff).getD 1

def zero : Fraction K := ⟨0, 1⟩

instance : Inhabited (Fraction K) := ⟨zero⟩

/-- The normal form of a quotient whose polynomials are collected and whose denominator is not
zero. -/
def lowestTerms (num den : Polynomial K) : Fraction K :=
  if num.isZero then zero
  else
    let shared := content (num.terms ++ den.terms)
    let num := divContent num shared
    let den := divContent den shared
    let leading := lead den
    if leading == 1 then ⟨num, den⟩
    else ⟨num.mapCoeffs (· / leading), den.mapCoeffs (· / leading)⟩

/-- The quotient of two polynomials. It exists unless only the denominator is zero. -/
def make (num den : Polynomial K) : Except AlgebraError (Fraction K) :=
  let num := num.collected
  let den := den.collected
  if den.isZero && !num.isZero then throw .zeroDenominator else pure (lowestTerms num den)

def const (c : K) : Fraction K := ⟨Polynomial.const c, 1⟩

def ofSymbol (symbol : Symbol) : Fraction K := ⟨Polynomial.ofSymbol symbol, 1⟩

/-- A polynomial as a fraction; negative exponents move to the denominator. -/
def ofPolynomial (p : Polynomial K) : Fraction K := lowestTerms p.collected 1

def ofMonomial (m : Monomial K) : Fraction K := ofPolynomial (Polynomial.ofMonomial m)

/-- Fractions are equal if their numerators and their denominators are. -/
instance : BEq (Fraction K) := ⟨fun a b => a.num == b.num && a.den == b.den⟩

/-- Brings a fraction into normal form. -/
def canonical (a : Fraction K) : Except AlgebraError (Fraction K) := make a.num a.den

def isZero (a : Fraction K) : Bool := a.num.isZero

/-- Whether no symbol occurs, unit tags included. -/
def isSymbolFree (a : Fraction K) : Bool := a.num.isSymbolFree && a.den.isSymbolFree

/-- The number that a fraction without symbols stands for. -/
def toConstant (a : Fraction K) : Except AlgebraError K :=
  if a.isSymbolFree then pure (a.num.constantCoeff / a.den.constantCoeff) else throw .notConstant

def symbols (a : Fraction K) : List Symbol := ascending (a.num.symbols ++ a.den.symbols)

/-- The unknowns that occur, in order; unit tags are none. -/
def unknowns (a : Fraction K) : List Symbol := a.symbols.filter (fun s => !s.isUnit)

def mentionsUnit (a : Fraction K) : Bool := a.symbols.any Symbol.isUnit

/-- Whether no unknown occurs; unit tags are allowed. -/
def isQuantity (a : Fraction K) : Bool := a.symbols.all Symbol.isUnit

/-- The value at a point. There is none if the numerator and the denominator both vanish, or one of
them or their quotient is not a number. -/
def eval (a : Fraction K) (point : SortedMap Symbol K) : Except AlgebraError (Option K) := do
  let num ← a.num.eval point
  let den ← a.den.eval point
  if Scalar.isNaN num || Scalar.isNaN den then pure none
  else if Scalar.abs den < Scalar.resolution then
    if Scalar.abs num < Scalar.resolution then pure none else throw .vanishingDenominator
  else if Scalar.isNaN (num / den) then pure none
  else pure (some (num / den))

def add (a b : Fraction K) : Except AlgebraError (Fraction K) :=
  make (a.num * b.den + b.num * a.den) (a.den * b.den)

def sub (a b : Fraction K) : Except AlgebraError (Fraction K) :=
  make (a.num * b.den - b.num * a.den) (a.den * b.den)

def mul (a b : Fraction K) : Except AlgebraError (Fraction K) :=
  make (a.num * b.num) (a.den * b.den)

def div (a b : Fraction K) : Except AlgebraError (Fraction K) :=
  if b.num.isZero then throw (.zeroDivisor .fraction)
  else make (a.num * b.den) (a.den * b.num)

def neg (a : Fraction K) : Except AlgebraError (Fraction K) := make (-a.num) a.den

/-- A power with a natural exponent, by repeated multiplication. -/
def powNat (a : Fraction K) : Nat → Except AlgebraError (Fraction K)
  | 0 => pure (const 1)
  | n + 1 => do (← powNat a n).mul a

def pow (a : Fraction K) (exponent : Int) : Except AlgebraError (Fraction K) :=
  if exponent < 0 then do (const 1).div (← a.powNat exponent.natAbs)
  else a.powNat exponent.natAbs

/-- Multiplies by a power of a fraction; a negative power divides. -/
def mulPower (a base : Fraction K) (exponent : Int) : Except AlgebraError (Fraction K) := do
  let power ← base.powNat exponent.natAbs
  if exponent < 0 then a.div power else a.mul power

/-- Takes a power of a term to the part that stays, or its replacement to the product of the
replaced powers. -/
def substPower (replacements : SortedMap Symbol (Fraction K)) (acc : Monomial K × Fraction K)
    (entry : Symbol × Int) : Except AlgebraError (Monomial K × Fraction K) :=
  match replacements.find? entry.1 with
  | none => pure (⟨acc.1.coeff, acc.1.exponents.set entry.1 entry.2⟩, acc.2)
  | some replacement => do pure (acc.1, ← acc.2.mulPower replacement entry.2)

/-- Splits a term, under replacements for some of its symbols, into the part that stays and the
product of the replaced powers. -/
def substTerm (m : Monomial K) (replacements : SortedMap Symbol (Fraction K)) :
    Except AlgebraError (Monomial K × Fraction K) :=
  m.exponents.entries.foldlM (substPower replacements) (Monomial.const m.coeff, const 1)

/-- Adds a term in which symbols are replaced by fractions. -/
def addSubst (replacements : SortedMap Symbol (Fraction K)) (a : Fraction K) (m : Monomial K) :
    Except AlgebraError (Fraction K) := do
  let (kept, replaced) ← substTerm m replacements
  a.add (← replaced.mul (ofMonomial kept))

def substPolynomial (p : Polynomial K) (replacements : SortedMap Symbol (Fraction K)) :
    Except AlgebraError (Fraction K) :=
  p.terms.foldlM (addSubst replacements) (const 0)

/-- Replaces symbols by fractions, all at once. -/
def subst (a : Fraction K) (replacements : SortedMap Symbol (Fraction K)) :
    Except AlgebraError (Fraction K) := do
  let num ← substPolynomial a.num replacements
  let den ← substPolynomial a.den replacements
  num.div den

def substValues (a : Fraction K) (values : SortedMap Symbol K) :
    Except AlgebraError (Fraction K) := do
  let num ← a.num.substValues values
  let den ← a.den.substValues values
  make num den

/-- Whether a polynomial is written as the number one. -/
def isOne (p : Polynomial K) : Bool :=
  match p.terms with
  | [m] => m.exponents.isOne && m.coeff == 1
  | _ => false

/-- The text of a fraction, numbers with at most `count` significant digits. A denominator of one is
left out. -/
def text (count : Nat) (a : Fraction K) : String :=
  let num := "(" ++ a.num.text count ++ ")"
  if isOne a.den then num else num ++ "/(" ++ a.den.text count ++ ")"

end Fraction

end Ramify
