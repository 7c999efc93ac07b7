import Ambient.Token.Lexer

/-!
Nesting of brackets. Only bracket tokens count, so a bracket inside a literal or a comment changes
no balance and hides no separator. Inside types the angle signs nest as well.
-/

namespace Ambient

namespace Token

def isOpener (t : Token) : Bool := t.kind == .bracket && openers.any fun c => t.text == [c]

def isCloser (t : Token) : Bool := t.kind == .bracket && closers.any fun c => t.text == [c]

def is (t : Token) (kind : TokenKind) (c : Char) : Bool := t.kind == kind && t.text == [c]

/-- What a token adds to the balance of all brackets. -/
def shift (t : Token) : Int := if t.isOpener then 1 else if t.isCloser then -1 else 0

/-- What a token adds to the balance of braces. -/
def braceShift (t : Token) : Int :=
  if t.is .bracket '{' then 1 else if t.is .bracket '}' then -1 else 0

/-- The depth after a token. With `angles` the angle signs nest too, and a closing one that closes
nothing is a comparison. -/
def depthAfter (angles : Bool) (depth : Int) (t : Token) : Int :=
  if angles && t.is .operator '<' then depth + 1
  else if angles && t.is .operator '>' && decide (0 < depth) then depth - 1
  else depth + t.shift

/-- The structural token `target` at depth zero. -/
def isTop (target : Text) (depth : Int) (t : Token) : Bool :=
  !t.kind.isInert && depth == 0 && t.text == target

end Token

/-- What a run of tokens adds to a balance. -/
def balanceOf (shift : Token → Int) : List Token → Int
  | [] => 0
  | t :: ts => shift t + balanceOf shift ts

theorem balanceOf_append (shift : Token → Int) (ts us : List Token) :
    balanceOf shift (ts ++ us) = balanceOf shift ts + balanceOf shift us := by
  induction ts with
  | nil => simp [balanceOf]
  | cons t ts ih => simp only [List.cons_append, balanceOf, ih]; omega

def braceBalance (t : Text) : Int := balanceOf Token.braceShift (tokens t)

def bracketBalance (t : Text) : Int := balanceOf Token.shift (tokens t)

namespace Nesting

def findFrom (angles : Bool) (target : Text) (start : Nat) (depth : Int) : List Token → Option Nat
  | [] => none
  | t :: ts =>
    if t.isTop target depth && start ≤ t.start then some t.start
    else findFrom angles target start (t.depthAfter angles depth) ts

/-- The offset of the first structural token `target` at depth zero, at `start` or after it. -/
def find? (angles : Bool) (target : Text) (start : Nat) (t : Text) : Option Nat :=
  findFrom angles target start 0 (tokens t)

/-- The parts between separators; `part` is what the current one holds so far. A separator leaves
the depth as it is, even when it is a bracket. -/
def partsFrom (angles : Bool) (separator : Text) (depth : Int) (part : Text) :
    List Token → List Text
  | [] => [part]
  | t :: ts =>
    if t.isTop separator depth then part :: partsFrom angles separator depth [] ts
    else partsFrom angles separator (t.depthAfter angles depth) (part ++ t.text) ts

/-- Cuts a text at the separators of depth zero; the parts are trimmed and empty ones dropped. -/
def split (angles : Bool) (separator : Text) (t : Text) : List Text :=
  ((partsFrom angles separator 0 [] (tokens t)).map trim).filter (· != [])

end Nesting

end Ambient
