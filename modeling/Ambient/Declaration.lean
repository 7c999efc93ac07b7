import Ambient.Text.Phrase

/-!
Exported declarations: their kinds, how the kind shows in the opening words, and the record that a
declaration becomes.
-/

namespace Ambient

inductive DeclarationKind
  | constant
  | interface
  | typeAlias
  | function
  | default
  /-- Any other export, kept as it is written. -/
  | verbatim
  deriving DecidableEq, Repr

namespace DeclarationKind

def label : DeclarationKind → String
  | constant => "const"
  | interface => "interface"
  | typeAlias => "type"
  | function => "function"
  | default => "default"
  | verbatim => "passthrough"

def all : List DeclarationKind := [constant, interface, typeAlias, function, default, verbatim]

def ofLabel? (name : String) : Option DeclarationKind := all.find? fun k => k.label == name

end DeclarationKind

/-- What follows `export` and the blanks after it. -/
def afterExport? (t : Text) : Option Text := afterSpaced? "export".toList t

/-- What follows `export`, and a `declare` that may stand after it. -/
def afterDeclare? (t : Text) : Option Text := (afterExport? t).map (skipSpaced "declare".toList)

/-- The text starts with `word`, and the word ends there. -/
def startsWithWord (word t : Text) : Bool := (after? word t).any wordEnd

namespace DeclarationKind

def opensDefault (t : Text) : Bool := (afterExport? t).any (startsWithWord "default".toList)

def opensConstEnum (t : Text) : Bool :=
  ((afterDeclare? t).bind (afterSpaced? "const".toList)).any (startsWithWord "enum".toList)

def opensConstant (t : Text) : Bool := (afterExport? t).any (startsWithWord "const".toList)

def opensInterface (t : Text) : Bool := (afterDeclare? t).any (startsWithWord "interface".toList)

def opensAlias (t : Text) : Bool :=
  ((afterDeclare? t).bind (afterSpaced? "type".toList)).any fun r => r.head?.any isNameStart

def opensFunction (t : Text) : Bool :=
  (afterDeclare? t).any fun r =>
    startsWithWord "function".toList (skipSpaced "async".toList r)

/-- The kind that the opening words of a declaration show; the first that fits wins. -/
def detect (t : Text) : DeclarationKind :=
  let head := trimLeft t
  if opensDefault head then default
  else if opensConstEnum head then verbatim
  else if opensConstant head then constant
  else if opensInterface head then interface
  else if opensAlias head then typeAlias
  else if opensFunction head then function
  else verbatim

end DeclarationKind

/-- A declaration in ambient form, with the comment before it and the line it opened on. -/
structure Declaration where
  kind : DeclarationKind
  text : Text
  comment : Option Text
  line : Int
  deriving DecidableEq, Repr

end Ambient
