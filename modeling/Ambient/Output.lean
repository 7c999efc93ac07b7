import Ambient.Log
import Ambient.Output.Cleanup
import Ambient.Scan

/-!
The text of a declaration file: imports, declarations with their comments, then re-exports and the
default export; a blank line divides the groups.
-/

namespace Ambient

namespace Surface

/-- A declaration's comment, when comments are kept and it is not empty, and its text. -/
def declarationLines (keepComments : Bool) (d : Declaration) : List Text :=
  match d.comment with
  | some comment => if keepComments ∧ comment ≠ [] then [comment, d.text] else [d.text]
  | none => [d.text]

/-- The groups of the output that are not empty, in order. -/
def groups (keepComments : Bool) (s : Surface) : List (List Text) :=
  [s.imports, s.declarations.flatMap (declarationLines keepComments),
    s.reexports ++ (s.default.map Declaration.text).toList].filter (· != [])

def joinGroups (gs : List (List Text)) : Text := "\n\n".toList.intercalate (gs.map joinLines)

/-- The text of the declaration file. -/
def render (keepComments : Bool) (s : Surface) : Noted Text := do
  let gs := s.groups keepComments
  Noted.trace 3 s!"Assembled {gs.length} output groups"
  return Cleanup.clean (joinGroups gs)

end Surface

/-- The declaration text of a source. -/
def declarationText (o : Scan.Options) (source : Text) : Noted Text := do
  (← Scan.scan o source).render o.keepComments

end Ambient
