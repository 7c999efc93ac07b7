import Ambient.Declaration

/-!
Source lines and what each opens. Comment marks win over every other opening, and the first opening
that fits decides.
-/

namespace Ambient

/-- A line of a source, counted from zero. -/
structure SourceLine where
  index : Nat
  text : Text
  deriving DecidableEq, Repr

namespace SourceLine

def number (l : SourceLine) : Nat := l.index + 1

/-- Numbers lines from `first` on. -/
def numbered (first : Nat) : List Text → List SourceLine
  | [] => []
  | t :: ts => ⟨first, t⟩ :: numbered (first + 1) ts

def ofText (t : Text) : List SourceLine := numbered 0 (lines t)

end SourceLine

inductive LineKind
  | comment
  | importing
  | defaultExport
  | reexport
  | constant
  /-- Any other export. -/
  | declaration
  | other
  deriving DecidableEq, Repr

namespace LineKind

def label : LineKind → String
  | comment => "comment"
  | importing => "import"
  | defaultExport => "default_export"
  | reexport => "reexport"
  | constant => "const_open"
  | declaration => "declaration"
  | other => "other"

def opensDoc (t : Text) : Bool := startsWithAny ["/**".toList, ['*']] t

/-- An import statement, and neither a dynamic import nor a property of `import`. -/
def opensImport (t : Text) : Bool :=
  (after? "import".toList t).any fun r => wordEnd r && !startsWithAny [['.'], ['(']] r

def opensReexport (t : Text) : Bool :=
  (after? "export".toList t).any fun r =>
    let r := trimLeft r
    startsWithAny [['*'], ['{']] r ||
      (after? "type".toList r).any fun r => startsWith ['{'] (trimLeft r)

def classify (t : Text) : LineKind :=
  if opensDoc t then comment
  else if opensImport t then importing
  else if DeclarationKind.opensDefault t then defaultExport
  else if opensReexport t then reexport
  else if DeclarationKind.opensConstant t then constant
  else if startsWithWord "export".toList t then declaration
  else other

end LineKind

end Ambient
