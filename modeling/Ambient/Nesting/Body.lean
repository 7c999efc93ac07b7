import Ambient.Nesting

/-!
Where a function's body starts: at the first brace outside all brackets, after the parameter list,
that does not stand where a type is expected.
-/

namespace Ambient.Nesting

/-- Tokens after which a brace opens an object type. -/
def typePositions : List Text :=
  [":", "|", "&", "<", ",", "=>", "=", "?", "keyof", "typeof", "extends", "is"].map String.toList

/-- What is known of a function header so far. -/
structure Header where
  depth : Int
  paramsClosed : Bool
  previous : Text

namespace Header

def start : Header := ⟨0, false, []⟩

/-- The header read up to and with a token. -/
def advance (h : Header) (t : Token) : Header :=
  let depth := t.depthAfter true h.depth
  ⟨depth, h.paramsClosed || (t.is .bracket ')' && depth == 0), t.text⟩

def bodyOpensAt (h : Header) (t : Token) : Bool :=
  t.is .bracket '{' && h.depth == 0 && h.paramsClosed && !typePositions.contains h.previous

end Header

def bodyFrom (h : Header) : List Token → Option Nat
  | [] => none
  | t :: ts =>
    if t.kind.isGap then bodyFrom h ts
    else if h.bodyOpensAt t then some t.start
    else bodyFrom (h.advance t) ts

/-- The offset of the brace that opens the body of a function, if it has one. -/
def bodyBrace? (t : Text) : Option Nat := bodyFrom .start (tokens t)

end Ambient.Nesting
