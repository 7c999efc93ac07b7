import Ambient.Text.Quoted

/-!
Paths: an anchor (nothing, one slash or two) and the parts between slashes. Empty parts and single
dots are dropped when a path is read; double dots stay, since what they mean is up to the file tree.
-/

namespace Ambient

structure Path where
  anchor : Text
  parts : List Text
  deriving DecidableEq, Repr

namespace Path

/-- Two leading slashes are an anchor of their own, three or more are one. -/
def ofText (t : Text) : Path where
  anchor :=
    match (t.takeWhile (· == '/')).length with
    | 0 => []
    | 2 => ['/', '/']
    | _ => ['/']
  parts := (pieces '/' t).filter fun p => p != [] && p != ['.']

def toText (p : Path) : Text :=
  if p.anchor = [] ∧ p.parts = [] then ['.'] else p.anchor ++ joinPieces '/' p.parts

/-- The last part; empty for a path without parts. -/
def name (p : Path) : Text := p.parts.getLast?.getD []

/-- The name up to its last dot, or all of it where that dot is the first or the last character. -/
def stemOf (name : Text) : Text :=
  match beforeLast? '.' name with
  | none => name
  | some front => if front = [] ∨ endsWith ['.'] name then name else front

def stem (p : Path) : Text := stemOf p.name

/-- The path that `q` denotes as seen from `p`. -/
def join (p q : Path) : Path := if q.anchor = [] then ⟨p.anchor, p.parts ++ q.parts⟩ else q

def child (p : Path) (part : Text) : Path := { p with parts := p.parts ++ [part] }

def parent (p : Path) : Path := { p with parts := p.parts.dropLast }

/-- Compares by the first difference; what is continued comes before what continues it. -/
def lexBefore {α : Type} [DecidableEq α] (before : α → α → Bool) : List α → List α → Bool
  | [], [] => false
  | [], _ :: _ => true
  | _ :: _, [] => false
  | a :: as, b :: bs => if a = b then lexBefore before as bs else before a b

/-- Texts by code point. -/
def textBefore (s t : Text) : Bool := lexBefore (fun c d => decide (c.toNat < d.toNat)) s t

/-- What paths are compared by: the parts in turn, the anchor first. -/
def key (p : Path) : List Text := if p.anchor = [] then p.parts else p.anchor :: p.parts

def le (p q : Path) : Bool := !lexBefore textBefore q.key p.key

/-- Why a path is refused. -/
inductive Error
  | emptyName (path : Path)
  | invalidName (name : Text)
  | notBelow (path base : Path)
  deriving DecidableEq, Repr

/-- What is said of an error, with the name of the type that the path is shown by. -/
def Error.describe (typeName : String) : Error → String
  | emptyName path =>
    s!"{typeName}({String.ofList (Quoted.quote path.toText)}) has an empty name"
  | invalidName name => s!"Invalid name {String.ofList (Quoted.quote name)}"
  | notBelow path base =>
    -- A base without anchor and parts is shown as nothing here, not as a dot.
    let shown := base.anchor ++ joinPieces '/' base.parts
    s!"{String.ofList (Quoted.quote path.toText)} is not in the subpath of {String.ofList (Quoted.quote shown)}" ++
      " OR one path is relative and the other is absolute."

/-- What is said of an error where no files are at hand. -/
def Error.message : Error → String := describe "PurePosixPath"

/-- What is left of a path behind the parts of `base`. -/
def below (base p : Path) : Path := ⟨[], p.parts.drop base.parts.length⟩

/-- A path as seen from `base`, which it has to go on from. -/
def relativeTo (p base : Path) : Except Error Path :=
  if p.anchor = base.anchor ∧ base.parts <+: p.parts then .ok (base.below p)
  else .error (.notBelow p base)

/-- The path with another name, which has to be a single part. -/
def withName (p : Path) (name : Text) : Except Error Path :=
  let read := ofText name
  if p.parts = [] then .error (.emptyName p)
  else if endsWith ['/'] name || read.anchor != [] || read.parts.length != 1 then
    .error (.invalidName name)
  else .ok { p with parts := p.parts.dropLast ++ [name] }

end Path

end Ambient
