import Ambient.Nesting
import Ambient.Text.Phrase

/-!
Import statements. A list of names that are all imported as types becomes one `import type`
statement; any other import is kept as written.
-/

namespace Ambient.Import

/-- The module in `from module`, at the head of a text. -/
def source? (t : Text) : Option Text :=
  (after? "from".toList (trimLeft t)).bind fun r =>
    let name := trimLeft r
    if name = [] then none else some name

/-- The text before the last closing brace that `from module` follows, and the module. -/
def namesAndSource? : Text → Option (Text × Text)
  | [] => none
  | c :: r =>
    match namesAndSource? r with
    | some (names, source) => some (c :: names, source)
    | none => if c = '}' then (source? r).map fun source => ([], source) else none

/-- The text between the braces of a list of imported names, and the module. -/
def named? (t : Text) : Option (Text × Text) :=
  (after? "import".toList t).bind fun r => (after? ['{'] (trimLeft r)).bind namesAndSource?

def typeOnly? (specifier : Text) : Option Text := afterSpaced? "type".toList specifier

/-- An `import type` statement with the names of `specifiers`, if there are some and all are
types. -/
def typeImport? (specifiers : List Text) (source : Text) : Option Text :=
  if specifiers = [] then none
  else (specifiers.mapM typeOnly?).map fun names =>
    "import type \x7b ".toList ++ ", ".toList.intercalate names ++ " \x7d from ".toList ++
      trim source

def normalize (t : Text) : Text :=
  let statement := trim t
  if (afterSpaced? "import".toList statement).any (startsWithType ·) then statement
  else ((named? statement).bind fun (names, source) =>
    typeImport? (Nesting.split false [','] names) source).getD statement
where
  /-- The statement already imports types. -/
  startsWithType (t : Text) : Bool := (after? "type".toList t).any wordEnd

end Ambient.Import
