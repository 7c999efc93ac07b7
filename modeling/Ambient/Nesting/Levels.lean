import Ambient.Nesting

/-!
Nesting levels of lines. The lines are read as one text, so a literal or a comment that spans lines
hides its brackets on all of them.
-/

namespace Ambient.Nesting

/-- Levels of the lines from offset `start` on, whose tokens are given. A line that starts with a
closing bracket stands one level above the depth reached so far. -/
def levelsFrom (depth : Int) (start : Nat) (ts : List Token) : List Text → List (Nat × Text)
  | [] => []
  | l :: ls =>
    let next := start + l.length + 1
    let inLine (t : Token) : Bool := t.start < next
    let here := ts.takeWhile inLine
    let closing := here.any fun t => t.start == start && t.isCloser
    ((if closing then depth - 1 else depth).toNat, l) ::
      levelsFrom (depth + balanceOf Token.shift here) next (ts.dropWhile inLine) ls

/-- The trimmed lines that are not blank, each with its nesting level; the first one stands at
`level`, and no level is below zero. -/
def levels (level : Int) (ls : List Text) : List (Nat × Text) :=
  let body := (ls.map trim).filter (· != [])
  levelsFrom level 0 (tokens (joinLines body)) body

end Ambient.Nesting
