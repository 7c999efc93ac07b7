import Ambient.FileTree
import Ambient.Output
import Ambient.Text.Bytes

/-!
The declaration text of a source file. A file that cannot be read is reported and gives none.
-/

namespace Ambient

/-- Why a source cannot be read. -/
inductive ReadError
  | file (cause : FileCause)
  /-- The file is not UTF-8. -/
  | undecodable
  deriving DecidableEq, Repr

/-- How a source that cannot be read is reported to the caller. -/
def ReadError.summary : String := "Failed to extract and generate .d.ts file"

/-- The text of a source file. -/
def readSource (tree : FileTree) (p : Path) : Except ReadError Text :=
  match tree.read p with
  | .error e => .error (.file e.cause)
  | .ok bytes =>
    match decode? bytes with
    | none => .error .undecodable
    | some t => .ok t

/-- The declaration text of a source file. -/
def extract (o : Scan.Options) (tree : FileTree) (p : Path) : Noted (Except ReadError Text) :=
  match readSource tree p with
  | .error e => ⟨.error e, [.failure s!"Could not read {String.ofList p.toText}"]⟩
  | .ok t => do
    Noted.trace 2 s!"Read {t.length} characters from {String.ofList p.name}"
    return .ok (← declarationText o t)

end Ambient
