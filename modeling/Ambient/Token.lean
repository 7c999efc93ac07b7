import Ambient.Text.Basic

/-!
Tokens of the declaration language: a class, a text and the offset at which the text starts.
Literals, comments and blanks are inert; brackets and operators carry structure.
-/

namespace Ambient

inductive TokenKind
  | blockComment
  | lineComment
  | doubleQuoted
  | singleQuoted
  /-- Plain text of a template literal, its back quotes included. -/
  | template
  /-- A backslash of a template literal with the character it escapes. -/
  | escape
  /-- A substitution of a template literal, with its marks. -/
  | interpolation
  | regex
  | bracket
  | operator
  | keyword
  | name
  | number
  | blank
  /-- A character outside every other class. -/
  | other
  /-- A character that no rule of its mode accepts. -/
  | stray
  deriving DecidableEq, Repr

namespace TokenKind

/-- The dotted name under which a class is reported. -/
def label : TokenKind → String
  | blockComment => "Comment.Multiline"
  | lineComment => "Comment.Single"
  | doubleQuoted => "Literal.String.Double"
  | singleQuoted => "Literal.String.Single"
  | template => "Literal.String.Backtick"
  | escape => "Literal.String.Escape"
  | interpolation => "Literal.String.Interpol"
  | regex => "Literal.String.Regex"
  | bracket => "Punctuation"
  | operator => "Operator"
  | keyword => "Keyword"
  | name => "Name"
  | number => "Literal.Number"
  | blank => "Text.Whitespace"
  | other => "Text"
  | stray => "Error"

def isString : TokenKind → Bool
  | doubleQuoted | singleQuoted | template | escape | interpolation | regex => true
  | _ => false

def isComment : TokenKind → Bool
  | blockComment | lineComment => true
  | _ => false

/-- Comments and blanks: what may stand between any two tokens. -/
def isGap (k : TokenKind) : Bool := k.isComment || k == blank

/-- Kinds that never carry structure. -/
def isInert (k : TokenKind) : Bool := k.isString || k.isGap

end TokenKind

/-- A piece of text with its class. -/
structure Lexeme where
  kind : TokenKind
  text : Text
  deriving DecidableEq, Repr

/-- A lexeme placed in the text it was read from. -/
structure Token where
  start : Nat
  kind : TokenKind
  text : Text
  deriving DecidableEq, Repr

/-- The text that a run of lexemes spells. -/
def Lexeme.spell (ls : List Lexeme) : Text := ls.flatMap Lexeme.text

theorem Lexeme.spell_cons (l : Lexeme) (ls : List Lexeme) : spell (l :: ls) = l.text ++ spell ls :=
  List.flatMap_cons

theorem Lexeme.spell_append (ks ls : List Lexeme) : spell (ks ++ ls) = spell ks ++ spell ls :=
  List.flatMap_append

/-- Gives each lexeme its offset, the first one standing at `start`. -/
def Lexeme.place (start : Nat) : List Lexeme → List Token
  | [] => []
  | l :: ls => ⟨start, l.kind, l.text⟩ :: place (start + l.text.length) ls

def openers : List Char := ['{', '(', '[']

def closers : List Char := ['}', ')', ']']

end Ambient
