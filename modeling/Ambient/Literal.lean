import Ambient.Text.Basic
import Ambient.Text.Word

/-!
Literal values and the types they have. A value is judged by its text alone: a quote at its head
makes it a string, and a number has to fit the number grammar from end to end.
-/

namespace Ambient

inductive ValueKind
  | string
  | boolean
  | number
  | unknown
  deriving DecidableEq, Repr

/-- The type that a value of a kind is given. -/
def ValueKind.typeName : ValueKind → Text
  | string => "string".toList
  | boolean => "boolean".toList
  | number => "number".toList
  | unknown => "any".toList

namespace Number

/-- Skips one sign. -/
def unsigned : Text → Text
  | [] => []
  | c :: r => if c = '+' ∨ c = '-' then r else c :: r

/-- A decimal digit or a digit separator. -/
def isDigitOrGap (c : Char) : Bool := isDecimal c || c == '_'

/-- A zero, a letter of `marks`, then at least one digit of the radix or digit separator. -/
def inRadix (marks digits : Text) : Text → Bool
  | '0' :: mark :: r =>
    marks.contains mark && r != [] && r.all fun c => digits.contains c || c == '_'
  | _ => false

/-- The end of a decimal number: nothing, or an exponent with at least one digit. -/
def isExponent : Text → Bool
  | [] => true
  | c :: r => (c == 'e' || c == 'E') && unsigned r != [] && (unsigned r).all isDecimal

/-- A digit and more digits around at most one point, or a point and digits. -/
def inDecimal : Text → Bool
  | [] => false
  | c :: r =>
    if c = '.' then
      match r with
      | [] => false
      | d :: r => isDecimal d && isExponent (r.dropWhile isDigitOrGap)
    else
      isDecimal c &&
        match r.dropWhile isDigitOrGap with
        | [] => true
        | d :: r => if d = '.' then isExponent (r.dropWhile isDigitOrGap) else isExponent (d :: r)

def isNumber (t : Text) : Bool :=
  let body := unsigned t
  inRadix "xX".toList "0123456789abcdefABCDEF".toList body ||
    inRadix "oO".toList "01234567".toList body ||
    inRadix "bB".toList "01".toList body ||
    inDecimal body ||
    body == "Infinity".toList

end Number

/-- The kind of a value, from its text with any comma or semicolon at its end. -/
def ValueKind.classify (value : Text) : ValueKind :=
  let literal := trim (trimRightBy ([',', ';'].contains ·) (trim value))
  if startsWithAny [['\''], ['"'], ['`']] literal then string
  else if literal = "true".toList ∨ literal = "false".toList then boolean
  else if Number.isNumber literal then number
  else unknown

end Ambient
