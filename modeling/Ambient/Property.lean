import Ambient.Literal
import Ambient.Log
import Ambient.Nesting.Levels

/-!
The type of an object literal, inferred from its top-level properties. One kind shared by all of
them is the type of every key; mixed kinds, and no properties at all, give `any`.
-/

namespace Ambient

/-- A property of an object literal: its key and value as written, and the kind of the value. -/
structure Property where
  key : Text
  value : Text
  kind : ValueKind
  deriving DecidableEq, Repr

/-- A line that starts like a comment or the continuation of one. -/
def isCommentLine (t : Text) : Bool := startsWithAny ["//".toList, "/*".toList, ['*']] t

/-- The texts before and after the first colon at depth zero. -/
def splitColon? (t : Text) : Option (Text × Text) :=
  (Nesting.find? false [':'] 0 t).map fun colon => (t.take colon, t.drop (colon + 1))

namespace Property

/-- The property on one line; a member without a colon is of unknown kind, and a comment is no
property. -/
def ofLine? (line : Text) : Option Property :=
  let t := trim line
  if t = [] ∨ isCommentLine t then none
  else match splitColon? t with
    | none =>
      let member := trim (trimRightBy ([',', ';'].contains ·) t)
      some ⟨member, member, .unknown⟩
    | some (key, rest) =>
      let value := trim (trimRightBy (· == ',') (trim rest))
      some ⟨trim key, value, .classify value⟩

/-- The properties of the outermost level among the lines inside an object literal. -/
def ofLines (ls : List Text) : List Property :=
  (Nesting.levels 1 ls).filterMap fun (level, t) =>
    if level ≠ 1 ∨ t.head?.any (closers.contains ·) then none else ofLine? t

def note (p : Property) : Note :=
  .trace 3 s!"Inferred {String.ofList p.key} as {String.ofList p.kind.typeName}"

/-- The one kind of all properties, or unknown. -/
def commonKind (ps : List Property) : ValueKind :=
  match (ps.map kind).eraseDups with
  | [k] => k
  | _ => .unknown

end Property

/-- The type that maps every key to values of one kind. -/
def indexSignature (k : ValueKind) : Text :=
  "\x7b [key: string]: ".toList ++ k.typeName ++ " \x7d".toList

/-- The type of the object literal that holds the given lines. -/
def objectType (ls : List Text) : Noted Text :=
  let ps := Property.ofLines ls
  ⟨indexSignature (Property.commonKind ps), ps.map Property.note⟩

end Ambient
