/-!
Decimal numbers, and the binary numbers of 53 significant bits nearest to them.
-/

namespace Ambient

/-- The number `digits * 10 ^ exponent`, or its negation. -/
structure Decimal where
  negative : Bool
  digits : Nat
  exponent : Int
  deriving DecidableEq, Repr

/-- The number `mantissa * 2 ^ exponent`, with at most 53 bits in the mantissa. -/
structure Binary where
  mantissa : Nat
  exponent : Int
  deriving DecidableEq, Repr

/-- A quotient rounded to the nearest whole number, a half to the even neighbour. -/
def roundQuotient (num den : Nat) : Nat :=
  let low := num / den
  let twice := 2 * (num % den)
  if twice < den ∨ (twice = den ∧ low % 2 = 0) then low else low + 1

/-- Numerator and denominator of `num / den * base ^ exponent`. -/
def scale (base : Nat) (num den : Nat) (exponent : Int) : Nat × Nat :=
  if 0 ≤ exponent then (num * base.pow exponent.toNat, den)
  else (num, den * base.pow (-exponent).toNat)

namespace Binary

/-- The least exponent of a binary number. -/
def leastExponent : Int := -1074

/-- The least mantissa of 53 bits. -/
def leastMantissa : Nat := Nat.pow 2 52

/-- The binary number nearest to `num / den`, a tie going to the even mantissa. -/
def nearest (num den : Nat) : Binary :=
  let guess : Int := num.log2 - den.log2 - 52
  let (n, d) := scale 2 num den (-guess)
  let fitted := if n / d < leastMantissa then guess - 1 else guess
  let exponent := if fitted < leastExponent then leastExponent else fitted
  let (n, d) := scale 2 num den (-exponent)
  let mantissa := roundQuotient n d
  if mantissa = 2 * leastMantissa then ⟨leastMantissa, exponent + 1⟩ else ⟨mantissa, exponent⟩

/-- The number as a quotient. -/
def quotient (b : Binary) : Nat × Nat := scale 2 b.mantissa 1 b.exponent

end Binary

/-- The size of a decimal as a quotient. -/
def Decimal.quotient (d : Decimal) : Nat × Nat := scale 10 d.digits 1 d.exponent

def Decimal.isZero (d : Decimal) : Bool := d.digits == 0

end Ambient
