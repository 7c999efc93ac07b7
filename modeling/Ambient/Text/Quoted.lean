import Ambient.Text.Basic
import Ambient.Text.Printable

/-!
Text as it is quoted in messages: between apostrophes, or between quotation marks where it holds an
apostrophe and no quotation mark, with escapes for what cannot be shown.
-/

namespace Ambient.Quoted

def quoteMark (t : Text) : Char :=
  if t.contains '\'' && !t.contains '"' then '"' else '\''

/-- A number in lower-case hexadecimal, with at least `width` digits. -/
def hex (width n : Nat) : Text :=
  let digits := Nat.toDigits 16 n
  List.replicate (width - digits.length) '0' ++ digits

def escapeChar (mark c : Char) : Text :=
  if c = mark ∨ c = '\\' then ['\\', c]
  else if c = '\t' then ['\\', 't']
  else if c = '\n' then ['\\', 'n']
  else if c = '\r' then ['\\', 'r']
  else if isPrintable c then [c]
  else if c.toNat < 0x100 then '\\' :: 'x' :: hex 2 c.toNat
  else if c.toNat < 0x10000 then '\\' :: 'u' :: hex 4 c.toNat
  else '\\' :: 'U' :: hex 8 c.toNat

def quote (t : Text) : Text :=
  let mark := quoteMark t
  mark :: t.flatMap (escapeChar mark) ++ [mark]

end Ambient.Quoted
