import Ramify.Algebra.Monomial

/-!
Polynomials in symbols, with integer exponents that may be negative. The terms of a polynomial are
listed by strictly increasing exponents. Sums and products are collected: terms with equal exponents
are added up, and a sum that is zero, or only the rounding error of its summands, is dropped.
-/

namespace Ramify

/-- A polynomial: its terms by strictly increasing exponents. -/
structure Polynomial (K : Type) where
  terms : List (Monomial K)
  increasing : terms.Pairwise (fun a b => compare a.exponents b.exponents = .lt)

namespace Polynomial

variable {K : Type}

/-- Two polynomials with the same terms are equal. -/
@[ext] theorem ext {left right : Polynomial K} (h : left.terms = right.terms) : left = right := by
  cases left; cases right; cases h; rfl

def zero : Polynomial K := ⟨[], List.Pairwise.nil⟩

instance : Zero (Polynomial K) := ⟨zero⟩

instance : Inhabited (Polynomial K) := ⟨zero⟩

/-- Changes each coefficient and keeps the exponents. -/
def mapCoeffs (f : K → K) (p : Polynomial K) : Polynomial K :=
  ⟨p.terms.map (fun m => ⟨f m.coeff, m.exponents⟩), by
    rw [List.pairwise_map]; exact p.increasing⟩

variable [Scalar K]

/-- Adds a term to the sums of coefficients and of their sizes. A zero term is passed over. -/
def tallyTerm (acc : SortedMap Exponents (K × K)) (m : Monomial K) : SortedMap Exponents (K × K) :=
  if m.coeff == 0 then acc
  else
    let (sum, size) := (acc.find? m.exponents).getD (0, 0)
    acc.insert m.exponents (sum + m.coeff, size + Scalar.abs m.coeff)

/-- For each product of powers, the sum of its coefficients and the sum of their sizes. Terms are
added in the order of the list. -/
def tally (terms : List (Monomial K)) : SortedMap Exponents (K × K) := terms.foldl tallyTerm ∅

/-- The term that a sum of coefficients leaves, if it leaves one. -/
def survivor (entry : Exponents × (K × K)) : Option (Monomial K) :=
  if entry.2.1 == 0 || Scalar.isNoise entry.2.1 entry.2.2 then none
  else some ⟨entry.2.1, entry.1⟩

/-- A term that is left over has the exponents of its sum. -/
theorem exponents_of_survivor {entry : Exponents × (K × K)} {m : Monomial K}
    (h : survivor entry = some m) : m.exponents = entry.1 := by
  unfold survivor at h
  split at h
  · cases h
  · cases h; rfl

/-- The sum of a list of terms. -/
def ofTerms (terms : List (Monomial K)) : Polynomial K :=
  ⟨(tally terms).entries.filterMap survivor,
    (tally terms).increasing.filterMap survivor fun a b below m hm n hn => by
      rw [exponents_of_survivor hm, exponents_of_survivor hn]
      exact below⟩

def collected (p : Polynomial K) : Polynomial K := ofTerms p.terms

/-- One monomial; nothing if its coefficient is zero. -/
def ofMonomial (m : Monomial K) : Polynomial K :=
  if m.coeff == 0 then zero else ⟨[m], List.pairwise_singleton _ _⟩

def const (c : K) : Polynomial K := ofMonomial (Monomial.const c)

def ofSymbol (symbol : Symbol) : Polynomial K :=
  ⟨[Monomial.ofSymbol symbol], List.pairwise_singleton _ _⟩

def one : Polynomial K := ⟨[Monomial.const 1], List.pairwise_singleton _ _⟩

instance : One (Polynomial K) := ⟨one⟩

/-- Polynomials are equal if their terms are, one by one. -/
instance : BEq (Polynomial K) := ⟨fun p q => p.terms == q.terms⟩

def isZero (p : Polynomial K) : Bool := p.terms.isEmpty

def isSymbolFree (p : Polynomial K) : Bool := p.terms.all (fun m => m.exponents.isOne)

/-- The coefficient of the term without symbols. -/
def constantCoeff (p : Polynomial K) : K :=
  ((p.terms.find? (fun m => m.exponents.isOne)).map Monomial.coeff).getD 0

def symbols (p : Polynomial K) : List Symbol := ascending (p.terms.flatMap Monomial.symbols)

/-- Whether no unknown occurs; unit tags are allowed. -/
def isQuantity (p : Polynomial K) : Bool := p.symbols.all Symbol.isUnit

/-- The highest power of a symbol; negative powers do not count. -/
def degree (p : Polynomial K) (symbol : Symbol) : Nat :=
  p.terms.foldl (fun acc m => Nat.max acc (m.degree symbol).toNat) 0

def add (p q : Polynomial K) : Polynomial K := ofTerms (p.terms ++ q.terms)

instance : Add (Polynomial K) := ⟨add⟩

def sub (p q : Polynomial K) : Polynomial K := ofTerms (p.terms ++ q.terms.map Monomial.neg)

instance : Sub (Polynomial K) := ⟨sub⟩

def neg (p : Polynomial K) : Polynomial K := p.mapCoeffs (- ·)

instance : Neg (Polynomial K) := ⟨neg⟩

def mul (p q : Polynomial K) : Polynomial K :=
  ofTerms (p.terms.flatMap (fun m => q.terms.map (fun n => m * n)))

instance : Mul (Polynomial K) := ⟨mul⟩

def addTerm (p : Polynomial K) (m : Monomial K) : Polynomial K := ofTerms (p.terms ++ [m])

def subTerm (p : Polynomial K) (m : Monomial K) : Polynomial K := ofTerms (p.terms ++ [-m])

def mulTerm (p : Polynomial K) (m : Monomial K) : Polynomial K :=
  if m.coeff == 0 then zero else ofTerms (p.terms.map (· * m))

/-- Multiplies each coefficient by a number; the terms are not collected again. -/
def scale (p : Polynomial K) (c : K) : Polynomial K :=
  if c == 0 then zero else p.mapCoeffs (· * c)

/-- The polynomials that multiply `symbol^0`, `symbol^1`, and so on up to the degree. -/
def splitBy (p : Polynomial K) (symbol : Symbol) :
    Except AlgebraError (List (Polynomial K)) :=
  if p.terms.any (fun m => decide (m.degree symbol < 0)) then throw (.negativePower symbol)
  else pure ((List.range (p.degree symbol + 1)).map (fun (k : Nat) =>
    ofTerms ((p.terms.filter (fun m => m.degree symbol == (k : Int))).map
      (fun m => ⟨m.coeff, m.exponents.erase symbol⟩))))

def derivative (p : Polynomial K) (symbol : Symbol) : Polynomial K :=
  ofTerms ((p.terms.filter (fun m => m.degree symbol != 0)).map (fun m =>
    ⟨m.coeff * Scalar.ofInt (m.degree symbol), m.exponents.raise symbol (-1)⟩))

/-- The value at a point that gives a number to each symbol. -/
def eval (p : Polynomial K) (point : SortedMap Symbol K) : Except AlgebraError K :=
  p.terms.foldlM (fun acc m => do pure (acc + (← m.eval point))) 0

/-- Replaces some symbols of a term by numbers. -/
def substTerm (m : Monomial K) (values : SortedMap Symbol K) :
    Except AlgebraError (Monomial K) :=
  m.exponents.entries.foldlM (fun (acc : Monomial K) (entry : Symbol × Int) =>
    match values.find? entry.1 with
    | none => pure ⟨acc.coeff, acc.exponents.set entry.1 entry.2⟩
    | some value =>
      if entry.2 < 0 && value == 0 then throw .zeroReplacement
      else pure ⟨acc.coeff * Scalar.power value entry.2, acc.exponents⟩) (Monomial.const m.coeff)

def substValues (p : Polynomial K) (values : SortedMap Symbol K) :
    Except AlgebraError (Polynomial K) := do
  pure (ofTerms (← p.terms.mapM (fun m => substTerm m values)))

/-- The text of a polynomial, numbers with at most `count` significant digits. -/
def text (count : Nat) (p : Polynomial K) : String :=
  if p.terms.isEmpty then "0" else " + ".intercalate (p.terms.map (Monomial.text count))

end Polynomial

end Ramify
