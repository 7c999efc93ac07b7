import Ambient.Build.State
import Ambient.Extract

/-!
Builds: four stages that pass a state on. The first reads the project and prepares the output
folder, the second selects the sources, the third writes a declaration file for each of them, and
the last reports. A source that cannot be read is recorded and leaves the others alone.
-/

namespace Ambient.Build

/-- What a build acts on: the files, the notes made so far, and the lines for the error stream. -/
structure Session where
  tree : FileTree
  notes : List Note
  errors : List String

/-- A fault that a build does not handle. -/
inductive Fault
  | file (e : FileError)
  | glob (e : Glob.Error)
  /-- A source that was read has no path to be written to. -/
  | name (e : Path.Error)
  | notIterable (e : Project.NotIterable)
  /-- The project's configuration is not UTF-8. -/
  | undecodable
  /-- The patterns of the project are asked for before it is read. -/
  | noPatterns
  /-- The sources of the project are asked for before it is read. -/
  | noSources
  /-- The configuration file or the output folder was given no name. -/
  | unnamed

def Fault.message : Fault → String
  | file e => e.message
  | glob e => e.message
  | name e => e.describe "PosixPath"
  | notIterable e => e.message
  | undecodable => Project.LoadError.undecodable.message
  | noPatterns => "'NoneType' object has no attribute 'entrypoints_get'"
  | noSources => "'NoneType' object has no attribute 'sources_discover'"
  | unnamed => "unsupported operand type(s) for /: 'PosixPath' and 'list'"

/-- Why a build ends early. -/
inductive Halt
  | exit (code : Nat)
  | fault (f : Fault)

abbrev Run := ExceptT Halt (StateM Session)

namespace Run

def trace (level : Int) (message : String) : Run Unit :=
  modify fun s => { s with notes := s.notes ++ [.trace level message] }

def failure (message : String) : Run Unit :=
  modify fun s => { s with notes := s.notes ++ [.failure message] }

def complain (line : String) : Run Unit :=
  modify fun s => { s with errors := s.errors ++ [line] }

/-- Ends the build with a line for the error stream. -/
def refuse {α : Type} (line : String) : Run α := do
  complain line
  throw (.exit 1)

/-- Keeps the notes of a computation. -/
def noted {α : Type} (x : Noted α) : Run α := do
  modify fun s => { s with notes := s.notes ++ x.notes }
  return x.value

def lift {ε α : Type} (wrap : ε → Fault) : Except ε α → Run α
  | .ok a => pure a
  | .error e => throw (.fault (wrap e))

/-- Changes the files, where that succeeds. -/
def change (f : FileTree → Except FileError FileTree) : Run Unit := do
  let tree ← lift .file (f (← get).tree)
  modify fun s => { s with tree := tree }

end Run

open Run

/-- Reads the project at a path. -/
def loadProject (path : Path) : Run Project := do
  match Project.load (← get).tree (some path) with
  | .ok project => return project
  | .error .undecodable => throw (.fault .undecodable)
  | .error e => refuse s!"Error: {e.message}"

/-- Removes the files that earlier builds wrote to a folder. -/
def removeStale (settings : Settings) (folder : Path) : Run Unit := do
  let found ← lift .glob (globBelow (← get).tree folder ('*' :: settings.outputSuffix))
  let stale := sortPaths found
  for p in stale do
    change (·.unlink p)
  trace 2 s!"Removed {stale.length} previously generated files"

/-- A path inside a folder, by a name that has to be given. -/
def inside (folder : Path) : Option Text → Run Path
  | some name => return folder.join (.ofText name)
  | none => throw (.fault .unnamed)

/-- Reads the project, settles the options and prepares the output folder. -/
def check (settings : Settings) (s : State) : Run State := do
  trace 2 "Checking environment..."
  if !(← get).tree.isFolder s.inputFolder then
    refuse s!"Error: Input directory not found: {String.ofList s.inputFolder.toText}"
  else
    let path ← inside s.inputFolder s.configFile
    let project ← loadProject path
    trace 2 s!"Project config: {String.ofList path.toText} ({project.options.length} keys)"
    let target ← inside s.outputFolder s.outputSubfolder
    change (·.makeFolders target)
    trace 2 s!"Output directory: {String.ofList target.toText}"
    if s.clean || project.clean then
      removeStale settings target
    return { s with
      checked := true
      project := some project
      keepComments := project.keepComments settings && !s.noComments
      multiline := project.multiline settings && !s.singleLine
      targetFolder := target }

/-- The patterns that select the sources. -/
def patternsOf (settings : Settings) (s : State) : Run (List Text) :=
  match s.pattern, s.project with
  | some (c :: r), _ => return [c :: r]
  | _, some project => lift .notIterable (project.patterns settings)
  | _, none => throw (.fault .noPatterns)

/-- Selects the sources; there has to be one. -/
def select (settings : Settings) (s : State) : Run State := do
  let patterns ← patternsOf settings s
  let shown := String.ofList (", ".toList.intercalate patterns)
  trace 1 s!"Discovering sources matching {shown}"
  if s.project.isNone then
    throw (.fault .noSources)
  let sources ← lift .glob
    (discover (← get).tree settings.outputSuffix s.inputFolder patterns)
  if sources.isEmpty then
    refuse s!"Error: No source files match {shown} in {String.ofList s.inputFolder.toText}"
  trace 2 s!"Found {sources.length} source files"
  return { s with sources := sources }

/-- What is written for a declaration text: one line feed more, unless it is empty. -/
def fileText (declarations : Text) : Text :=
  if declarations = [] then [] else declarations ++ ['\n']

def scanOptions (settings : Settings) (s : State) : Scan.Options where
  multiline := s.multiline
  keepComments := s.keepComments
  style := .plain settings.indentUnit

/-- The file that is written for a source: the one of that name in the target folder. The source has
to be below the input folder. -/
def targetOf (settings : Settings) (s : State) (source : Path) : Except Path.Error Path := do
  let inner ← source.relativeTo s.inputFolder
  let named ← outputPath settings.outputSuffix inner
  return s.targetFolder.join (.ofText named.toText)

/-- Writes the declaration file of one source, and adds to the report. -/
def generateOne (settings : Settings) (s : State) (report : Report) (source : Path) :
    Run Report := do
  match ← noted (extract (scanOptions settings s) (← get).tree source) with
  | .error _ =>
    failure s!"{String.ofList source.toText}: {ReadError.summary}"
    return { report with failed := report.failed ++ [source] }
  | .ok declarations =>
    let target ← lift .name (targetOf settings s source)
    change (·.makeFolders target.parent)
    change (·.write target (encode (fileText declarations)))
    trace 2 s!"Wrote {String.ofList target.toText}"
    return { report with written := report.written ++ [target] }

def generateAll (settings : Settings) (s : State) (report : Report) : List Path → Run Report
  | [] => return report
  | source :: rest => do generateAll settings s (← generateOne settings s report source) rest

/-- Writes a declaration file for every source. -/
def generate (settings : Settings) (s : State) : Run State := do
  trace 1 "Generating declarations..."
  return { s with report := some (← generateAll settings s ⟨[], []⟩ s.sources) }

/-- Reports what was generated. -/
def report (s : State) : Run State := do
  match s.report with
  | none => refuse "Error: Generation failed"
  | some r =>
    if 1 ≤ s.verbosity then
      trace 1 s!"\n✓ Generated {r.written.length} declaration files"
      trace 1 s!"  Output: {String.ofList s.targetFolder.toText}"
    if r.status then return s
    else
      for p in r.failed do
        complain s!"Error: could not generate declarations for {String.ofList p.toText}"
      throw (.exit 1)

inductive Stage
  | check
  | select
  | generate
  | report
  deriving DecidableEq, Repr

def Stage.all : List Stage := [check, select, generate, report]

def Stage.run (settings : Settings) : Stage → State → Run State
  | check, s => Build.check settings s
  | select, s => Build.select settings s
  | generate, s => Build.generate settings s
  | report, s => Build.report s

/-- Runs stages in order, each on the state that the one before it left. -/
def runStages (settings : Settings) (s : State) : List Stage → Run State
  | [] => return s
  | stage :: rest => do runStages settings (← stage.run settings s) rest

end Ambient.Build
