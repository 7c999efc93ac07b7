import Ambient.Declaration
import Ambient.Nesting

/-!
A statement that is being gathered line by line, until its brackets balance.
-/

namespace Ambient

/-- What a statement becomes. -/
inductive Target
  | importing
  | reexport
  | declaration (kind : DeclarationKind)
  deriving DecidableEq, Repr

namespace Target

/-- The kind of declaration a statement counts as while it is gathered. -/
def kind : Target → DeclarationKind
  | declaration k => k
  | _ => .verbatim

def label : Target → String
  | importing => "import"
  | reexport => "reexport"
  | declaration _ => "declaration"

/-- The name under which the opening of a statement is noted. -/
def openingLabel : Target → String
  | declaration k => k.label
  | t => t.label

/-- The balance that has to come back to zero: of braces for constants, imports and re-exports, of
all brackets for other declarations. -/
def balance : Target → Text → Int
  | declaration .constant, t => braceBalance t
  | declaration _, t => bracketBalance t
  | _, t => braceBalance t

end Target

/-- A statement being gathered: its lines without blanks at their ends, the balance of their text,
and whether it is a balanced type alias that waits for the next line. -/
structure Statement where
  target : Target
  start : Nat
  lines : List Text
  balance : Int
  settled : Bool
  deriving DecidableEq, Repr

namespace Statement

def text (s : Statement) : Text := trim (joinLines s.lines)

/-- Signs at the end of a balanced type alias after which it still goes on. -/
def trailingSigns : List Text := ["=", "|", "&", "?", ":", ",", "=>"].map String.toList

/-- Signs at the start of a line that continue a balanced type alias. -/
def leadingSigns : List Text := [['|'], ['&'], ['?'], [':']]

/-- The statement with one more line. -/
def push (s : Statement) (line : Text) : Statement :=
  let gathered : Statement := { s with lines := s.lines ++ [trimRight line], settled := false }
  { gathered with balance := s.target.balance gathered.text }

end Statement

end Ambient
