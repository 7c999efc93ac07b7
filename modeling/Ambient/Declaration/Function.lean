import Ambient.Declaration
import Ambient.Nesting.Body

/-!
Functions in ambient form: the signature alone, without modifiers and without the star of a
generator.
-/

namespace Ambient.Function

/-- The text up to the body, without closing semicolons. -/
def signature (t : Text) : Text :=
  let upToBody := t.take ((Nesting.bodyBrace? t).getD t.length)
  trimRight (trimRightBy (· == ';') (trim upToBody))

def withoutModifiers (t : Text) : Text :=
  ((afterDeclare? t).map (skipSpaced "async".toList)).getD t

def withoutStar (t : Text) : Text :=
  let rest := (after? "function".toList t).bind fun r => after? ['*'] (trimLeft r)
  match rest with
  | none => t
  | some r => "function ".toList ++ trimLeft r

def ambient (t : Text) : Text :=
  "export declare ".toList ++ withoutStar (withoutModifiers (signature (trim t))) ++ [';']

end Ambient.Function
