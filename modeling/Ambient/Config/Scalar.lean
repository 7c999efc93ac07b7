import Ambient.Config.Value

/-!
Scalars of a configuration: what a plain word stands for, and how quoted text is read. A plain word
is nothing, a truth value or a number where it is spelled like one, and text otherwise.
-/

namespace Ambient.Config

def nullWords : List Text := ["", "~", "null", "Null", "NULL"].map String.toList

def trueWords : List Text :=
  ["yes", "Yes", "YES", "true", "True", "TRUE", "on", "On", "ON"].map String.toList

def falseWords : List Text :=
  ["no", "No", "NO", "false", "False", "FALSE", "off", "Off", "OFF"].map String.toList

/-- The value of a digit in bases up to sixteen. -/
def digitValue (c : Char) : Nat :=
  if c.isDigit then c.toNat - '0'.toNat
  else if c.isLower then c.toNat - 'a'.toNat + 10
  else c.toNat - 'A'.toNat + 10

def inBase (base : Nat) (t : Text) : Nat := t.foldl (fun n c => n * base + digitValue c) 0

def isHexDigit (c : Char) : Bool := c.isDigit || ('a' ≤ c && c ≤ 'f') || ('A' ≤ c && c ≤ 'F')

def isBinaryDigit (c : Char) : Bool := c == '0' || c == '1'

def isOctalDigit (c : Char) : Bool := '0' ≤ c && c ≤ '7'

/-- The sign of a number, and the text after it. -/
def signOf : Text → Bool × Text
  | '-' :: r => (true, r)
  | '+' :: r => (false, r)
  | r => (false, r)

/-- Digits in a base, with underscores anywhere among them; at least one character. -/
def digits? (base : Nat) (isDigit : Char → Bool) (t : Text) : Option Nat :=
  if t != [] && t.all fun c => isDigit c || c == '_' then
    some (inBase base (t.filter (· != '_')))
  else none

/-- A part of a number in base sixty: one digit, or two of which the first is below six. -/
def sixtieth? : Text → Option Nat
  | [c] => if c.isDigit then some (digitValue c) else none
  | [c, d] => if '0' ≤ c ∧ c ≤ '5' ∧ d.isDigit then some (inBase 10 [c, d]) else none
  | _ => none

/-- A whole number without its sign. A leading zero makes it octal, and colons part the digits of a
number in base sixty. -/
def natural? (t : Text) : Option Nat :=
  match t with
  | '0' :: 'b' :: r => digits? 2 isBinaryDigit r
  | '0' :: 'x' :: r => digits? 16 isHexDigit r
  | ['0'] => some 0
  | '0' :: r => digits? 8 isOctalDigit r
  | _ =>
    match pieces ':' t with
    | [] => none
    | first :: rest =>
      if first.head?.any Char.isDigit then do
        let lead ← digits? 10 Char.isDigit first
        let parts ← rest.mapM sixtieth?
        return parts.foldl (fun n part => n * 60 + part) lead
      else none

def integer? (t : Text) : Option Int :=
  let (negative, size) := signOf t
  (natural? size).map fun n => if negative then -(n : Int) else n

/-- An exponent, whose sign has to be written; none stands for zero. -/
def exponent? : Text → Option Int
  | [] => some 0
  | e :: s :: r =>
    if (e = 'e' ∨ e = 'E') ∧ (s = '+' ∨ s = '-') ∧ r ≠ [] ∧ r.all Char.isDigit then
      some (if s = '-' then -(inBase 10 r : Int) else inBase 10 r)
    else none
  | _ => none

/-- A number with a point: a digit has to come first, or right after the point. -/
def decimal? (t : Text) : Option Decimal :=
  let (negative, size) := signOf t
  let isDigit (c : Char) : Bool := c.isDigit || c == '_'
  let whole := size.takeWhile isDigit
  match size.dropWhile isDigit with
  | '.' :: r =>
    let part := r.takeWhile isDigit
    let fits :=
      if whole = [] then t.head? = some '.' ∧ part.head?.any Char.isDigit
      else whole.head?.any Char.isDigit
    if fits then
      let ones := whole.filter (· != '_')
      let tenths := part.filter (· != '_')
      (exponent? (r.dropWhile isDigit)).map fun e =>
        ⟨negative, inBase 10 (ones ++ tenths), e - tenths.length⟩
    else none
  | _ => none

/-- What a plain word stands for. -/
def ofPlain (t : Text) : ConfigValue :=
  if t ∈ nullWords then .null
  else if t ∈ trueWords then .bool true
  else if t ∈ falseWords then .bool false
  else match integer? t with
    | some n => .int n
    | none =>
      match decimal? t with
      | some d => .decimal d
      | none => .text t

/-- The rest of a text in apostrophes, where two of them stand for one; it ends on its line. -/
def apostropheTail? : Text → Option (Text × Text)
  | [] => none
  | '\'' :: '\'' :: r => (apostropheTail? r).map fun (t, rest) => ('\'' :: t, rest)
  | '\'' :: r => some ([], r)
  | c :: r => if c = '\n' then none else (apostropheTail? r).map fun (t, rest) => (c :: t, rest)

/-- The character that an escape of one letter stands for. -/
def escapeOf? (c : Char) : Option Char :=
  [('0', '\x00'), ('a', '\x07'), ('b', '\x08'), ('t', '\t'), ('\t', '\t'), ('n', '\n'),
    ('v', '\x0b'), ('f', '\x0c'), ('r', '\r'), ('e', '\x1b'), (' ', ' '), ('"', '"'), ('\\', '\\'),
    ('/', '/'), ('N', '\x85'), ('_', '\xa0'), ('L', '\u2028'), ('P', '\u2029')].lookup c

/-- How many hexadecimal digits an escape by code point has. -/
def codeWidth? (c : Char) : Option Nat := [('x', 2), ('u', 4), ('U', 8)].lookup c

/-- The rest of a text in quotation marks, from one escape to the next; it ends on its line. -/
def quoteTail? (fuel : Nat) (t : Text) : Option (Text × Text) :=
  match fuel, t with
  | 0, _ => none
  | _, [] => none
  | fuel + 1, c :: r =>
    if c = '"' then some ([], r)
    else if c = '\n' then none
    else if c = '\\' then
      match r with
      | [] => none
      | e :: r =>
        match codeWidth? e with
        | some width =>
          let code := r.take width
          if code.length = width ∧ code.all isHexDigit then
            (quoteTail? fuel (r.drop width)).map fun (t, rest) =>
              (Char.ofNat (inBase 16 code) :: t, rest)
          else none
        | none =>
          (escapeOf? e).bind fun d => (quoteTail? fuel r).map fun (t, rest) => (d :: t, rest)
    else (quoteTail? fuel r).map fun (t, rest) => (c :: t, rest)

/-- A quoted text at the head of a text, and what follows it. -/
def quoted? : Text → Option (Text × Text)
  | '\'' :: r => apostropheTail? r
  | '"' :: r => quoteTail? (r.length + 1) r
  | _ => none

def startsQuoted (t : Text) : Bool := startsWithAny [['\''], ['"']] t

end Ambient.Config
