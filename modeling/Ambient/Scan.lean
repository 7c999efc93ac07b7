import Ambient.Declaration.Form
import Ambient.Import
import Ambient.Scan.Comment
import Ambient.Scan.Line
import Ambient.Scan.Statement
import Ambient.Surface

/-!
The line scanner. It is idle, or it gathers a statement whose brackets are still open. An idle line
is routed by what it opens; while a statement is gathered, lines extend it until its balance is
zero, a default export interrupts it, or the source ends.
-/

namespace Ambient.Scan

structure Options where
  /-- Gather statements other than constants over several lines. -/
  multiline : Bool
  /-- Attach comment blocks to declarations. -/
  keepComments : Bool
  style : Style

structure State where
  statement : Option Statement
  comment : CommentBlock
  surface : Surface

namespace State

def start : State := ⟨none, .empty, .empty⟩

end State

/-- Adds a complete declaration, which takes the pending comment block. -/
def emit (o : Options) (s : State) (kind : DeclarationKind) (t : Text) (index : Nat) :
    Noted State := do
  let comment := if o.keepComments then s.comment.take? else none
  let record ← Declaration.ofText o.style kind t comment (index + 1)
  Noted.trace 2 s!"Emitted {kind.label} declaration from line {index + 1}"
  return { s with
    comment := .empty
    surface := { s.surface with declarations := s.surface.declarations ++ [record] } }

/-- Adds a complete statement. -/
def store (o : Options) (s : State) (target : Target) (t : Text) (index : Nat) : Noted State :=
  match target with
  | .importing => return { s with
      surface := { s.surface with imports := s.surface.imports ++ [Import.normalize t] } }
  | .reexport => return { s with
      surface := { s.surface with reexports := s.surface.reexports ++ [t] } }
  | .declaration kind => emit o s kind t index

/-- Ends the gathering of `st`. -/
def flush (o : Options) (s : State) (st : Statement) : Noted State :=
  store o { s with statement := none } st.target st.text st.start

/-- Adds a line to the statement `st`, which ends there if its brackets balance. A type alias is
kept open for the next line. -/
def extend (o : Options) (s : State) (st : Statement) (line : SourceLine) : Noted State :=
  let st := st.push line.text
  if st.balance ≠ 0 then return { s with statement := some st }
  else if st.target = .declaration .typeAlias ∧ o.multiline then
    return { s with
      statement := some { st with settled := !endsWithAny Statement.trailingSigns st.text } }
  else flush o s st

/-- Starts to gather a statement. -/
def openStatement (o : Options) (s : State) (target : Target) (line : SourceLine) :
    Noted State := do
  Noted.trace 3 s!"Opening {target.openingLabel} at line {line.number}"
  extend o s ⟨target, line.index, [], 0, false⟩ line

/-- Adds a line to the pending comment block; a line that opens a block drops the pending one. -/
def addComment (s : State) (t : Text) (line : SourceLine) : Noted State := do
  if startsWith "/*".toList t then
    if !s.comment.isEmpty then
      Noted.trace 3 s!"Discarding unattached comment block before line {line.number}"
    return { s with comment := CommentBlock.empty.push (trimRight line.text) }
  else
    return { s with comment := s.comment.push (trimRight line.text) }

/-- Records a default export in place of any earlier one. -/
def setDefault (o : Options) (s : State) (t : Text) (line : SourceLine) : Noted State := do
  if let some earlier := s.surface.default then
    Noted.trace 1
      s!"Default export at line {line.number} replaces the one from line {earlier.line}"
  let record ← Declaration.ofText o.style .default t none line.number
  return { s with surface := { s.surface with default := some record } }

/-- An import or a re-export: gathered while a brace is open, stored at once otherwise. -/
def takeStatement (o : Options) (s : State) (target : Target) (t : Text) (line : SourceLine) :
    Noted State :=
  if o.multiline ∧ 0 < braceBalance t then openStatement o s target line
  else store o s target t line.index

/-- Routes a line met while no statement is gathered. -/
def idle (o : Options) (s : State) (t : Text) (line : SourceLine) : Noted State :=
  match LineKind.classify t with
  | .comment => addComment s t line
  | .importing => takeStatement o s .importing t line
  | .defaultExport => setDefault o s t line
  | .reexport => takeStatement o s .reexport t line
  | .constant => openStatement o s (.declaration (.detect t)) line
  | .declaration =>
    if o.multiline then openStatement o s (.declaration (.detect t)) line
    else emit o s (.detect t) t line.index
  | .other => return s

/-- Routes a line met while `st` is gathered and still open. Comment lines inside a constant go to
the comment block. -/
def gather (o : Options) (s : State) (st : Statement) (t : Text) (line : SourceLine) :
    Noted State := do
  let kind := LineKind.classify t
  if kind = .defaultExport then
    setDefault o (← flush o s st) t line
  else if st.target.kind = .constant ∧ (kind = .comment ∨ startsWith "/*".toList t) then
    addComment s t line
  else
    extend o s st line

def step (o : Options) (s : State) (line : SourceLine) : Noted State := do
  let t := trim line.text
  Noted.trace 3 s!"Line {line.number} [{(LineKind.classify t).label}]: {String.ofList t}"
  match s.statement with
  | none => idle o s t line
  | some st =>
    if !st.settled then gather o s st t line
    else if startsWithAny Statement.leadingSigns t then extend o s st line
    else idle o (← flush o s st) t line

/-- Steps through the lines in order. -/
def run (o : Options) (s : State) : List SourceLine → Noted State
  | [] => return s
  | l :: ls => do run o (← step o s l) ls

/-- The states after each line. -/
def states (o : Options) (s : State) : List SourceLine → List State
  | [] => []
  | l :: ls =>
    let next := (step o s l).value
    next :: states o next ls

/-- The end of the source: an open statement is stored as it stands, and a pending comment block is
dropped. -/
def finish (o : Options) (s : State) : Noted State := do
  let s ← match s.statement with
    | none => pure s
    | some st => do
      Noted.trace 2 (s!"Statement opened at line {st.start + 1} unterminated at end of input " ++
        s!"(balance {st.balance})")
      flush o s st
  if s.comment.isEmpty then return s
  else
    Noted.trace 3 "Dropping trailing comment block with no declaration after it"
    return { s with comment := .empty }

/-- The exported surface of a source. -/
def scan (o : Options) (source : Text) : Noted Surface := do
  let ls := SourceLine.ofText source
  let s ← finish o (← run o .start ls)
  Noted.trace 2 (s!"Scanned {ls.length} lines: {s.surface.imports.length} imports, " ++
    s!"{s.surface.declarations.length} declarations, {s.surface.reexports.length} re-exports")
  return s.surface

end Ambient.Scan
