import Ambient.Text.Basic

/-!
The pending comment block. At most one is pending: opening a block drops the one before it, and a
declaration takes the block and leaves none.
-/

namespace Ambient

structure CommentBlock where
  lines : List Text
  deriving DecidableEq, Repr

namespace CommentBlock

def empty : CommentBlock := ⟨[]⟩

def isEmpty (b : CommentBlock) : Bool := b.lines.isEmpty

def push (b : CommentBlock) (line : Text) : CommentBlock := ⟨b.lines ++ [line]⟩

/-- The lines of the block without blanks at its end. -/
def text (b : CommentBlock) : Text := trimRight (b.lines.flatMap (· ++ ['\n']))

/-- The text that a declaration takes; a block of blanks is none. -/
def take? (b : CommentBlock) : Option Text := if b.text = [] then none else some b.text

end CommentBlock

end Ambient
