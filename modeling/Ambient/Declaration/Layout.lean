import Ambient.Nesting.Levels
import Ambient.Property

/-!
Laying out the members of a body: one to a line, indented by nesting level.
-/

namespace Ambient

/-- One unit of indentation for each level; no level is below zero. -/
def indentation (indentUnit : Text) (level : Int) : Text :=
  (List.replicate level.toNat indentUnit).flatten

/-- The lines after the opening one, without a final line that starts with a closing brace. -/
def interior (ls : List Text) : List Text :=
  let rest := ls.drop 1
  if rest.getLast?.any (fun l => startsWith ['}'] (trim l)) then rest.dropLast else rest

/-- Ends a member with a semicolon: one that stands for a final comma, or a new one where the member
neither has one nor opens a nested literal. -/
def terminate (value : Text) : Text :=
  if endsWith [','] value then trimRight value.dropLast ++ [';']
  else if endsWithAny [[';'], ['{'], ['['], ['(']] value then value
  else value ++ [';']

/-- A member as `key: value;`. -/
def renderMember (t : Text) : Text :=
  match splitColon? t with
  | none => terminate t
  | some (key, value) => trim key ++ ": ".toList ++ terminate (trim value)

/-- The members of an object literal, a line each. -/
def renderMembers (indentUnit : Text) (body : List Text) : Text :=
  joinLines ((Nesting.levels 1 body).map fun (level, t) =>
    indentation indentUnit level ++ renderMember t)

end Ambient
