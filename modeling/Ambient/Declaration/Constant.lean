import Ambient.Declaration
import Ambient.Declaration.Layout

/-!
Constants in ambient form. An annotation is kept as written. Without one, an object literal gets an
index signature, a function a general function type, and a one-line value the type of its literal;
an object literal keeps its members behind the type.
-/

namespace Ambient.Constant

/-- A constant's opening line: the name, the annotation (empty when there is none) and the text
after the equals sign. -/
structure Opening where
  name : Text
  annotation : Text
  initializer : Text
  deriving DecidableEq, Repr

/-- Reads an opening line from the name on. -/
def Opening.read? (header : Text) : Option Opening :=
  (name? header).map fun (name, rest) =>
    let assign := Nesting.find? true ['='] 0 rest
    let typed := trimLeft (rest.take (assign.getD rest.length))
    ⟨name,
      if startsWith [':'] typed then trim (trimRightBy (· == ';') (trim (typed.drop 1))) else [],
      match assign with
      | none => []
      | some at' => trim (rest.drop (at' + 1))⟩

/-- What follows a group that `opening` opens and the next `closing` closes. -/
def afterGroup? (opening closing : Char) (t : Text) : Option Text :=
  (after? [opening] t).bind fun r => after? [closing] (r.dropWhile (· != closing))

/-- The arrow of a function, after an optional return type. -/
def startsWithArrow (t : Text) : Bool :=
  startsWith "=>".toList t ||
    (after? [':'] t).any fun r =>
      r.head?.any (· != '=') && startsWith "=>".toList (r.dropWhile (· != '='))

/-- A function expression or an arrow function, without a leading `async`. -/
def startsFunction (t : Text) : Bool :=
  startsWithWord "function".toList t ||
    (afterGroup? '(' ')' (((afterGroup? '<' '>' t).map trimLeft).getD t)).any
      (fun r => startsWithArrow (trimLeft r)) ||
    (name? t).any fun (_, r) => startsWith "=>".toList (trimLeft r)

/-- The initializer is a function. -/
def isFunction (initializer : Text) : Bool :=
  startsFunction initializer || (afterSpaced? "async".toList initializer).any startsFunction

def functionType : Text := "(...args: any[]) => unknown".toList

/-- The members of an object literal: the lines inside it without comment lines, or, when it stands
on one line, its parts between commas. -/
def members (ls : List Text) (initializer : Text) : List Text :=
  if ls.length > 1 then (interior ls).filter fun l => !isCommentLine l
  else Nesting.split false [','] (((beforeLast? '}' initializer).getD initializer).drop 1)

/-- The type of a constant whose value is no object literal. -/
def valueType (o : Opening) (lineCount : Nat) : Text :=
  if o.annotation ≠ [] then o.annotation
  else if isFunction o.initializer then functionType
  else if lineCount > 1 then "any".toList
  else (ValueKind.classify o.initializer).typeName

/-- The words `export declare const name: type`. -/
def head (name type : Text) : Text :=
  "export declare const ".toList ++ name ++ ": ".toList ++ type

def ambient (indentUnit : Text) (t : Text) : Noted Text :=
  let ls := (lines (trim t)).map trim
  let first := ls.headD []
  let header := ((afterExport? first).bind (afterSpaced? "const".toList)).getD first
  match Opening.read? header with
  | none => do
    Noted.trace 2 s!"Const without a plain name passed through: {String.ofList first}"
    return trim t
  | some o =>
    if startsWith ['{'] o.initializer then do
      let body := members ls o.initializer
      let type ← if o.annotation = [] then objectType body else pure o.annotation
      return head o.name type ++ " \x7b\n".toList ++ renderMembers indentUnit body ++
        "\n\x7d;".toList
    else
      return head o.name (valueType o ls.length) ++ [';']

end Ambient.Constant
