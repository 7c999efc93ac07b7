import Ambient.FileTree
import Ambient.Glob.Wildcard

/-!
Selecting the paths below a folder by a pattern of slash-separated parts. Two stars as a whole part
stand for this folder and every folder below it; any other part selects among the entries of a
folder, by wildcards or by name. A pattern that ends with a slash selects folders only.
-/

namespace Ambient

namespace Glob

inductive Part
  | descend
  | wild (pieces : List Wildcard.Piece)
  | exact (name : Text)
  deriving DecidableEq, Repr

inductive Error
  | empty
  | anchored
  /-- Two stars glued to other text. -/
  | gluedStars
  /-- A pattern of single dots. -/
  | noParts
  /-- A pattern of single dots and slashes that ends with a slash. -/
  | noPartsBeforeSlash
  deriving DecidableEq, Repr

def Error.message : Error → String
  | empty => "Unacceptable pattern: ''"
  | anchored => "Non-relative patterns are unsupported"
  | gluedStars => "Invalid pattern: '**' can only be an entire path component"
  | noParts => "tuple index out of range"
  | noPartsBeforeSlash => "'_TerminatingSelector' object has no attribute 'select_from'"

/-- Two stars stand next to each other somewhere in the text. -/
def hasStarPair : Text → Bool
  | c :: d :: r => (c == '*' && d == '*') || hasStarPair (d :: r)
  | _ => false

def Part.ofText (t : Text) : Except Error Part :=
  if t = ['*', '*'] then .ok .descend
  else if hasStarPair t then .error .gluedStars
  else if t.any (['*', '?', '['].contains ·) then .ok (.wild (Wildcard.parse t))
  else .ok (.exact t)

/-- A pattern: its parts, and whether it selects folders only. -/
structure Pattern where
  parts : List Part
  foldersOnly : Bool
  deriving DecidableEq, Repr

/-- Reads a pattern, which need not have parts. -/
def Pattern.read (t : Text) : Except Error Pattern :=
  let p := Path.ofText t
  if p.anchor ≠ [] then .error .anchored
  else (p.parts.mapM Part.ofText).map fun parts => ⟨parts, endsWith ['/'] t⟩

def Pattern.ofText (t : Text) : Except Error Pattern :=
  if t = [] then .error .empty
  else match Pattern.read t with
    | .error e => .error e
    | .ok pattern =>
      if pattern.parts = [] then
        .error (if pattern.foldersOnly then .noPartsBeforeSlash else .noParts)
      else .ok pattern

/-- The paths that parts select from a folder. All but the last part have to lead to folders. -/
def select (tree : FileTree) (foldersOnly : Bool) : List Part → Path → List Path
  | [], p => [p]
  | .descend :: rest, p => (tree.foldersFrom p).flatMap (select tree foldersOnly rest)
  | .exact name :: rest, p =>
    let q := p.child name
    let fits := if foldersOnly || rest != [] then tree.isFolder q else (tree.find? q).isSome
    if fits then select tree foldersOnly rest q else []
  | .wild pieces :: rest, p =>
    let fits := (tree.children p).filter fun (name, e) =>
      ((!foldersOnly && rest == []) || e.isFolder) && Wildcard.accepts pieces name
    fits.flatMap fun (name, _) => select tree foldersOnly rest (p.child name)

/-- The paths that a pattern selects from a root; none when the root is no folder. -/
def Pattern.paths (tree : FileTree) (root : Path) (pattern : Pattern) : List Path :=
  if tree.isFolder root then select tree pattern.foldersOnly pattern.parts root else []

end Glob

/-- The paths below a root that match a pattern. -/
def glob (tree : FileTree) (root : Path) (pattern : Text) : Except Glob.Error (List Path) :=
  (Glob.Pattern.ofText pattern).map fun p => p.paths tree root

/-- The paths at any depth below a root that match a pattern. -/
def globBelow (tree : FileTree) (root : Path) (pattern : Text) : Except Glob.Error (List Path) :=
  (Glob.Pattern.read pattern).map fun p =>
    { p with parts := .descend :: p.parts : Glob.Pattern }.paths tree root

/-- Paths in order, each once. -/
def sortPaths (ps : List Path) : List Path := ps.eraseDups.mergeSort Path.le

end Ambient
