import Ambient.CommandLine
import Ambient.FileTree.Change
import Ambient.FileTree.Reach
import Ambient.Settings.Environment

/-!
The program. It reads the files that its arguments reach into a tree, runs the command line on that
tree, and brings the changes to the disk.
-/

namespace Ambient.Main

def diskPath (l : Location) : String := "/" ++ String.ofList (joinPieces '/' l)

/-- The entry at a location of the disk, with all that it holds. -/
partial def load (l : Location) : IO (List (Location × Entry)) := do
  let path := (← IO.currentDir) / diskPath l
  if ← path.isDir then
    let inside ← (← path.readDir).toList.mapM fun e => load (l ++ [e.fileName.toList])
    return (l, .folder) :: inside.flatten
  else if ← path.pathExists then
    return [(l, .file (← IO.FS.readBinFile path))]
  else return []

/-- The part of the disk that is reached from paths. -/
def snapshot (ps : List Path) : IO FileTree := do
  let here ← IO.currentDir
  let workFolder := (Path.ofText here.toString.toList).parts
  let passed ← (FileTree.stops workFolder ps).filterM fun l => (here / diskPath l).isDir
  let held ← (FileTree.ends workFolder ps).mapM load
  return ⟨passed.map (·, .folder) ++ held.flatten.filter (·.1 != []), workFolder⟩

/-- Brings the changes of a run to the disk. -/
def apply (before after : FileTree) : IO Unit := do
  for l in before.removed after do
    IO.FS.removeFile (diskPath l)
  for l in before.madeFolders after do
    IO.FS.createDirAll (diskPath l)
  for (l, bytes) in before.written after do
    IO.FS.writeBinFile (diskPath l) bytes

/-- The variables of the process that set fields, in capitals or in lower case. -/
def processVariables : IO Settings.Variables := do
  let names := Settings.Field.all.flatMap fun f =>
    [f.variableName, f.variableName.map Char.toUpper]
  names.filterMapM fun name => do
    return (← IO.getEnv (String.ofList name)).map fun value => (name, value.toList)

/-- The variables of the settings file of the working folder, if there is one. -/
def fileVariables : IO Settings.Variables := do
  let path := (← IO.currentDir) / ".env"
  if ← path.pathExists then
    return Settings.Variables.ofText ((decode? (← IO.FS.readBinFile path)).getD [])
  else return []

def showNote : Note → IO Unit
  | .trace _ message => IO.eprintln s!"DEBUG │ {message}"
  | .failure message => IO.eprintln s!"ERROR │ {message}"

/-- Runs the program and shows what it has to say. -/
def run (settings : Settings) (args : List Text) : IO UInt32 := do
  let reached := match CommandLine.parse settings.configFilename args with
    | .ok r => r.paths
    | .error _ => []
  let before ← snapshot reached
  let outcome := CommandLine.execute settings settings.configFilename args before
  apply before outcome.session.tree
  IO.print outcome.output
  (Note.shown outcome.verbosity outcome.session.notes).forM showNote
  outcome.session.errors.forM IO.eprintln
  match outcome.result with
  | .ok code => return code.toUInt32
  | .error fault =>
    IO.eprintln fault.message
    return 1

end Ambient.Main

open Ambient in
def main (args : List String) : IO UInt32 := do
  match Settings.ofEnvironment (← Main.processVariables) (← Main.fileVariables) with
  | .ok settings => Main.run settings (args.map String.toList)
  | .error faults =>
    for f in faults do
      IO.eprintln s!"{f.subject}: {f.code}"
    return 1
