import Ambient.Decimal
import Ambient.Text.Basic

/-!
The text of a number: the fewest digits that read back as the same binary number, and of those the
nearest; written with a point from 0.0001 up to 10 to the 16th, and with an exponent beyond.
-/

namespace Ambient.Decimal

def digitsOf (n : Nat) : Text := Nat.toDigits 10 n

/-- The exponent of the first decimal digit of `num / den`. -/
def leadExponent (num den : Nat) : Int :=
  if den ≤ num then (digitsOf (num / den)).length - 1
  else
    let count := (digitsOf (den / num)).length
    if den ≤ num * Nat.pow 10 (count - 1) then -((count : Int) - 1) else -(count : Int)

/-- Of the two numbers of `count` digits around `num / den`, the nearer one that reads back as
`b`. -/
def ofDigits? (b : Binary) (num den count : Nat) : Option (Nat × Int) :=
  let exponent := leadExponent num den - (count - 1)
  let (n, d) := scale 10 num den (-exponent)
  let low := n / d
  let candidates := if 2 * (n % d) ≤ d then [low, low + 1] else [low + 1, low]
  let readsBack (digits : Nat) : Bool :=
    let (n, d) := scale 10 digits 1 exponent
    digits != 0 && Binary.nearest n d == b
  (candidates.find? readsBack).map fun digits => (digits, exponent)

/-- The digits and the exponent of the shortest decimal that reads back as the binary number nearest
to a decimal other than zero. Seventeen digits always do. -/
def shortest (d : Decimal) : Nat × Int :=
  let (n, m) := d.quotient
  let b := Binary.nearest n m
  let (num, den) := b.quotient
  ((List.range 17).findSome? fun k => ofDigits? b num den (k + 1)).getD (d.digits, d.exponent)

/-- A number without its sign, from its digits (the last one not a zero) and the place of its point
behind them. -/
def place (digits : Text) (point : Int) : Text :=
  if point ≤ -4 ∨ 16 < point then
    let exponent := point - 1
    let size := digitsOf exponent.natAbs
    let tail := if digits.length = 1 then [] else '.' :: digits.drop 1
    digits.take 1 ++ tail ++ ['e', if exponent < 0 then '-' else '+'] ++
      List.replicate (2 - size.length) '0' ++ size
  else if point ≤ 0 then '0' :: '.' :: List.replicate (-point).toNat '0' ++ digits
  else if digits.length ≤ point then
    digits ++ List.replicate (point.toNat - digits.length) '0' ++ ['.', '0']
  else digits.take point.toNat ++ '.' :: digits.drop point.toNat

def toText (d : Decimal) : Text :=
  let size :=
    if d.isZero then "0.0".toList
    else
      let (digits, exponent) := d.shortest
      let written := digitsOf digits
      let kept := trimRightBy (· == '0') written
      place kept (written.length + exponent)
  if d.negative then '-' :: size else size

end Ambient.Decimal
