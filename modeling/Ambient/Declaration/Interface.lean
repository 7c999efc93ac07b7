import Ambient.Declaration
import Ambient.Declaration.Layout

/-!
Interfaces in ambient form: the words between `interface` and the opening brace are the name, and
the members are indented anew.
-/

namespace Ambient.Interface

/-- The opening line from the name on. -/
def header (first : Text) : Text :=
  ((afterDeclare? first).bind (afterSpaced? "interface".toList)).getD first

/-- The members written on the opening line after the brace, when the interface ends there. -/
def inlineMembers (remainder : Text) : List Text :=
  (Nesting.split true [';'] ((beforeLast? '}' remainder).getD remainder)).flatMap
    (Nesting.split true [','])

/-- The name and the member lines. -/
def parts (ls : List Text) : Text × List Text :=
  let head := header (trim (ls.headD []))
  match Nesting.find? true ['{'] 0 head with
  | none => (trim head, interior ls)
  | some brace =>
    let remainder := head.drop (brace + 1)
    (trim (head.take brace),
      if ls.length = 1 then inlineMembers remainder
      else (if trim remainder = [] then [] else [remainder]) ++ interior ls)

/-- The continuation of a comment stands one column further in. -/
def memberLine (indentUnit : Text) (level : Nat) (member : Text) : Text :=
  indentation indentUnit level ++ (if startsWith ['*'] member then ' ' :: member else member)

def ambient (indentUnit : Text) (t : Text) : Text :=
  let (name, members) := parts (lines (trim t))
  let body := (Nesting.levels 1 members).map fun (level, member) =>
    memberLine indentUnit level member
  "export declare interface ".toList ++ name ++ " \x7b\n".toList ++ joinLines body ++
    "\n\x7d".toList

end Ambient.Interface
