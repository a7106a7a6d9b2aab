/-!
Decimal text with a bounded number of significant digits. A positive rational number is rounded to
the nearest decimal with that many digits, a tie going to the even one, and written without trailing
zeros: positionally while its exponent lies between -4 and the number of digits, and with a
two-digit signed exponent otherwise. All calculation is on natural numbers, hence exact.
-/

namespace Ramify.Decimal

/-- The integer nearest to a quotient; of two equally near ones the even one. -/
def roundDiv (num den : Nat) : Nat :=
  let quotient := num / den
  let twice := 2 * (num % den)
  if twice < den then quotient
  else if den < twice then quotient + 1
  else if quotient % 2 = 0 then quotient else quotient + 1

def digitCount (n : Nat) : Nat := (Nat.toDigits 10 n).length

/-- The quotient `num / den` multiplied by a power of ten, as a new quotient. -/
def shift (places : Int) (num den : Nat) : Nat × Nat :=
  if 0 ≤ places then (num * Nat.pow 10 places.toNat, den)
  else (num, den * Nat.pow 10 (-places).toNat)

/-- The exponent `e` with `10^e ≤ num / den < 10^(e+1)`, for positive `num` and `den`. -/
def magnitude (num den : Nat) : Int :=
  let guess : Int := digitCount num - digitCount den
  let scaled := shift (-guess) num den
  if scaled.2 ≤ scaled.1 then guess else guess - 1

/-- The digits, as one number of exactly `count` digits, and the exponent of the first digit, of the
decimal nearest to `num / den`. -/
def digits (count num den : Nat) : Nat × Int :=
  let exponent := magnitude num den
  let scaled := shift (count - 1 - exponent) num den
  let rounded := roundDiv scaled.1 scaled.2
  if rounded = Nat.pow 10 count then (Nat.pow 10 (count - 1), exponent + 1) else (rounded, exponent)

def dropTrailingZeros (cs : List Char) : List Char := (cs.reverse.dropWhile (· == '0')).reverse

/-- A whole part, and a fractional part after a point unless that part is empty. -/
def withPoint (whole fractional : List Char) : String :=
  let fractional := dropTrailingZeros fractional
  if fractional.isEmpty then String.ofList whole
  else String.ofList (whole ++ '.' :: fractional)

/-- A decimal exponent: the letter, a sign and at least two digits. -/
def exponentText (exponent : Int) : String :=
  let size := toString exponent.natAbs
  (if exponent < 0 then "e-" else "e+") ++ (if size.length < 2 then "0" ++ size else size)

/-- The text of a positive quotient with at most `count` significant digits. -/
def general (count num den : Nat) : String :=
  let (significand, exponent) := digits count num den
  let cs := Nat.toDigits 10 significand
  if exponent < -4 ∨ (count : Int) ≤ exponent then
    withPoint (cs.take 1) (cs.drop 1) ++ exponentText exponent
  else if 0 ≤ exponent then
    let whole := exponent.toNat + 1
    withPoint (cs.take whole) (cs.drop whole)
  else
    withPoint ['0'] (List.replicate (exponent.natAbs - 1) '0' ++ cs)

end Ramify.Decimal
