import Ambient.Declaration.Constant
import Ambient.Declaration.Function
import Ambient.Declaration.Interface

/-!
The ambient form of a declaration, by kind.
-/

namespace Ambient

/-- How declarations are written: the indentation, and which kind's form each kind takes. -/
structure Style where
  indentUnit : Text
  formOf : DeclarationKind → DeclarationKind

namespace Style

/-- Every kind takes its own form. -/
def plain (indentUnit : Text) : Style := ⟨indentUnit, id⟩

/-- The same style, except that kind `k` takes the form of kind `form`. -/
def assign (s : Style) (k form : DeclarationKind) : Style :=
  { s with formOf := fun other => if other = k then form else s.formOf other }

end Style

/-- A type alias keeps its right-hand side as written. -/
def ambientAlias (t : Text) : Text :=
  let body := trim t
  match (afterExport? body).bind (after? "type".toList) with
  | none => body
  | some r => if wordEnd r then "export declare type".toList ++ r else body

/-- A default export ends with exactly one semicolon. -/
def ambientDefault (t : Text) : Text := trimRight (trimRightBy (· == ';') (trim t)) ++ [';']

namespace DeclarationKind

/-- The form that a kind of declaration takes by itself. -/
def form (indentUnit : Text) : DeclarationKind → Text → Noted Text
  | constant, t => Constant.ambient indentUnit t
  | interface, t => pure (Interface.ambient indentUnit t)
  | typeAlias, t => pure (ambientAlias t)
  | function, t => pure (Function.ambient t)
  | default, t => pure (ambientDefault t)
  | verbatim, t => pure (trim t)

end DeclarationKind

/-- The record of a complete declaration of a known kind. -/
def Declaration.ofText (style : Style) (kind : DeclarationKind) (t : Text) (comment : Option Text)
    (line : Int) : Noted Declaration := do
  Noted.trace 3 s!"Rewriting {kind.label} declaration from line {line}"
  let text ← (style.formOf kind).form style.indentUnit t
  return ⟨kind, text, comment, line⟩

end Ambient
