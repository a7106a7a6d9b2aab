import Ramify.Scalar
import Ramify.Scalar.Decimal

/-!
Binary floating point of 64 bits as a number type of the library. `Float` has one value that is not
a number; here there are two, and they differ in their sign, which shows in the text. An operation
hands on the first of its operands that is not a number, an operation on numbers that has no result
gives the negative one, and a change of sign turns each into the other.
-/

namespace Ramify

/-- A floating-point number of 64 bits. -/
structure Binary64 where
  value : Float
  /-- The sign of a value that is not a number; never set for a number. -/
  nanSign : Bool

namespace Binary64

/-- A value that was given, not calculated. -/
def ofFloat (value : Float) : Binary64 := ⟨value, false⟩

instance : Inhabited Binary64 := ⟨ofFloat 0⟩

/-- The result of an operation on numbers. -/
def ofResult (value : Float) : Binary64 := ⟨value, value.isNaN⟩

def isNaN (x : Binary64) : Bool := x.value.isNaN

def map (operation : Float → Float) (x : Binary64) : Binary64 :=
  if x.isNaN then x else ofResult (operation x.value)

def combine (operation : Float → Float → Float) (x y : Binary64) : Binary64 :=
  if x.isNaN then x else if y.isNaN then y else ofResult (operation x.value y.value)

def neg (x : Binary64) : Binary64 := ⟨-x.value, x.isNaN && !x.nanSign⟩

def abs (x : Binary64) : Binary64 := ⟨x.value.abs, false⟩

/-- Whether the sign is set, as it is for the negative zero. -/
def isSigned (x : Binary64) : Bool :=
  if x.isNaN then x.nanSign else decide (Nat.pow 2 63 ≤ x.value.toBits.toNat)

/-- The absolute value of the first number with the sign of the second. -/
def copySign (x y : Binary64) : Binary64 := if y.isSigned then x.abs.neg else x.abs

/-- An integer power. The zeroth power of anything is one. Of the two values that are not numbers,
the odd powers are positive, and the even ones keep the sign. -/
def power (x : Binary64) (n : Int) : Binary64 :=
  if x.isNaN && n != 0 then ⟨x.value, x.nanSign && n % 2 == 0⟩
  else ofResult (x.value.pow (Float.ofInt n))

/-- The size of a finite number as a significand and a power of two. -/
def decompose (x : Float) : Nat × Int :=
  let bits := x.toBits.toNat
  let fractional : Nat := bits % Nat.pow 2 52
  let biased : Nat := (bits / Nat.pow 2 52) % Nat.pow 2 11
  if biased = 0 then (fractional, -1074) else (fractional + Nat.pow 2 52, (biased : Int) - 1075)

def sizeText (count : Nat) (x : Float) : String :=
  let (significand, exponent) := decompose x
  if significand = 0 then "0"
  else if 0 ≤ exponent then Decimal.general count (significand * Nat.pow 2 exponent.toNat) 1
  else Decimal.general count significand (Nat.pow 2 (-exponent).toNat)

/-- The text of a value without its sign, with at most `count` significant digits. -/
def unsignedText (count : Nat) (x : Float) : String :=
  if x.isNaN then "nan" else if x.isFinite then sizeText count x else "inf"

/-- The text of a value with at most `count` significant digits. -/
def text (count : Nat) (x : Binary64) : String :=
  (if x.isSigned then "-" else "") ++ unsignedText count x.value

/-- The text of a value in which only numbers other than zero have a sign. -/
def plainText (count : Nat) (x : Binary64) : String :=
  if x.isNaN || x.value == 0 then unsignedText count x.value else text count x

def belowOne : Float := 1.0 - 1.1102230246251565e-16

/-- The quotient by `2^64` of the 64-bit number with the given low and high word. -/
def fraction (low high : UInt32) : Float :=
  let quotient := (low.toFloat + high.toFloat * 4294967296.0) / 18446744073709551616.0
  if 1.0 ≤ quotient then belowOne else quotient

instance : Scalar Binary64 where
  zero := ofFloat 0
  one := ofFloat 1
  add := combine (· + ·)
  sub := combine (· - ·)
  mul := combine (· * ·)
  div := combine (· / ·)
  neg := neg
  beq x y := x.value == y.value
  lt x y := x.value < y.value
  le x y := x.value ≤ y.value
  ofScientific mantissa negative exponent :=
    ofFloat (OfScientific.ofScientific mantissa negative exponent)
  decideLT x y := inferInstanceAs (Decidable (x.value < y.value))
  decideLE x y := inferInstanceAs (Decidable (x.value ≤ y.value))
  abs := abs
  ofInt n := ofFloat (Float.ofInt n)
  power := power
  root x n := x.map (fun value => value.pow (1.0 / n.toFloat))
  sqrt := map Float.sqrt
  copySign := copySign
  round := map Float.round
  isNaN := isNaN
  isFinite x := x.value.isFinite
  nan := ofFloat (0.0 / 0.0)
  noise := ofFloat (64.0 * 2.220446049250313e-16)
  resolution := ofFloat 2.220446049250313e-16
  fraction low high := ofFloat (fraction low high)
  text := text

end Binary64

end Ramify
