import Ambient.Build

/-!
The command line: its options, how arguments are read, and the run they ask for. A long option may
be shortened as far as it stays unambiguous and may hold its value after an equals sign; short
options may be strung together, and then every letter has to be one; after two dashes nothing is an
option.
-/

namespace Ambient.CommandLine

inductive Flag
  | help
  | version
  | verbose
  | clean
  | noComments
  | singleLine
  /-- Accepted and ignored. -/
  | saveMeta
  deriving DecidableEq, Repr

inductive Setting
  | pattern
  | configFile
  | outputSubfolder
  deriving DecidableEq, Repr

/-- An option stands alone or takes a value. -/
inductive Action
  | flag (f : Flag)
  | setting (s : Setting)
  deriving DecidableEq, Repr

def longOptions : List (Text × Action) :=
  [("--help".toList, .flag .help), ("--pattern".toList, .setting .pattern),
    ("--configFile".toList, .setting .configFile),
    ("--outputSubdir".toList, .setting .outputSubfolder), ("--clean".toList, .flag .clean),
    ("--noComments".toList, .flag .noComments), ("--singleLine".toList, .flag .singleLine),
    ("--verbosity".toList, .flag .verbose), ("--version".toList, .flag .version),
    ("--saveinputmeta".toList, .flag .saveMeta), ("--saveoutputmeta".toList, .flag .saveMeta)]

def shortFlags : List (Char × Flag) := [('h', .help), ('v', .verbose), ('V', .version)]

/-- How one argument reads. -/
inductive Argument
  | plain (t : Text)
  /-- An option, with the value after its equals sign. -/
  | option (a : Action) (value : Option Text)
  /-- Short options strung together. -/
  | cluster (letters : Text)
  /-- Looks like an option and is none. -/
  | unknown
  /-- Two dashes. -/
  | divider
  deriving DecidableEq, Repr

/-- A negative number is no option. -/
def isNegativeNumber (t : Text) : Bool :=
  match t with
  | '-' :: r =>
    let part := (r.dropWhile isDecimal).drop 1
    r != [] && (r.all isDecimal ||
      ((r.dropWhile isDecimal).head? == some '.' && part != [] && part.all isDecimal))
  | _ => false

/-- The option that an abbreviation stands for; none where it stands for several. -/
def longOption? (value : Option Text) (name : Text) : Option Argument :=
  match longOptions.lookup name with
  | some a => some (.option a value)
  | none =>
    match longOptions.filter fun o => startsWith name o.1 with
    | [] => some .unknown
    | [o] => some (.option o.2 value)
    | _ => none

/-- The letters of short options that are strung together, after their dash. An equals sign behind
the first letter is passed over where more follows it. -/
def lettersOf : Text → Text
  | c :: '=' :: d :: r => c :: d :: r
  | r => r

/-- Reads one argument before any two dashes; none for an ambiguous option. -/
def classify? (t : Text) : Option Argument :=
  let name := t.takeWhile (· != '=')
  let value := if name.length < t.length then some (t.drop (name.length + 1)) else none
  let read :=
    if startsWith ['-', '-'] t then longOption? value name
    else match t with
      | '-' :: c :: r =>
        some (if (shortFlags.lookup c).isSome then .cluster (lettersOf (c :: r)) else .unknown)
      | _ => some (.plain t)
  if read = some .unknown ∧ (isNegativeNumber t ∨ t.contains ' ') then some (.plain t) else read

/-- Reads all arguments; after two dashes all are plain. -/
def classifyAll? : List Text → Option (List Argument)
  | [] => some []
  | t :: ts =>
    if t = ['-', '-'] then some (.divider :: ts.map .plain)
    else do
      let a ← classify? t
      return a :: (← classifyAll? ts)

/-- What the arguments ask for. -/
structure Request where
  verbosity : Int
  pattern : Option Text
  configFile : Option Text
  outputSubfolder : Option Text
  clean : Bool
  noComments : Bool
  singleLine : Bool
  folders : List Text
  /-- Something was left over. -/
  extras : Bool
  deriving DecidableEq, Repr

/-- The request of no arguments, with the configuration file that is read by default. -/
def Request.start (configFile : Text) : Request where
  verbosity := 1
  pattern := none
  configFile := some configFile
  outputSubfolder := some ['.']
  clean := false
  noComments := false
  singleLine := false
  folders := []
  extras := false

/-- Why no run follows. -/
inductive Stop
  | help
  | version
  | misuse
  deriving DecidableEq, Repr

namespace Request

def raise (r : Request) : Flag → Except Stop Request
  | .help => .error .help
  | .version => .error .version
  | .verbose => .ok { r with verbosity := r.verbosity + 1 }
  | .clean => .ok { r with clean := true }
  | .noComments => .ok { r with noComments := true }
  | .singleLine => .ok { r with singleLine := true }
  | .saveMeta => .ok r

/-- Sets what takes a value; a value of two dashes is none. -/
def set (r : Request) (value : Text) (s : Setting) : Request :=
  let given := if value = ['-', '-'] then none else some value
  match s with
  | .pattern => { r with pattern := given }
  | .configFile => { r with configFile := given }
  | .outputSubfolder => { r with outputSubfolder := given }

/-- Raises the flags of strung short options, all of them or none. -/
def raiseAll (r : Request) (letters : Text) : Except Stop Request :=
  match letters.mapM (shortFlags.lookup ·) with
  | none => .error .misuse
  | some flags => flags.foldlM raise r

/-- Takes the arguments in order. -/
def takeAll (r : Request) : List Argument → Except Stop Request
  | [] => .ok r
  | .plain t :: rest =>
    if r.folders.length < 2 then takeAll { r with folders := r.folders ++ [t] } rest
    else takeAll { r with extras := true } rest
  | .option (.flag f) none :: rest => do takeAll (← r.raise f) rest
  | .option (.flag _) (some _) :: _ => .error .misuse
  | .option (.setting s) (some value) :: rest => takeAll (r.set value s) rest
  | .option (.setting s) none :: .plain value :: rest => takeAll (r.set value s) rest
  | .option (.setting _) none :: _ => .error .misuse
  | .cluster letters :: rest => do takeAll (← r.raiseAll letters) rest
  | .unknown :: rest => takeAll { r with extras := true } rest
  | .divider :: rest => takeAll r rest

end Request

/-- Two dashes are taken together with a folder; they are left over behind the last option where no
folder follows that option. -/
def dividerIsExtra (args : List Argument) : Bool :=
  let tail := args.reverse.takeWhile fun
    | .plain _ | .divider => true
    | _ => false
  let values := match args.reverse.drop tail.length with
    | .option (.setting _) none :: _ => 1
    | _ => 0
  tail.contains .divider && tail.length ≤ 1 + values

/-- The request that arguments make; `configFile` is read where they name no other. -/
def parse (configFile : Text) (args : List Text) : Except Stop Request := do
  let some read := classifyAll? args | throw .misuse
  let r ← (Request.start configFile).takeAll read
  if r.extras || r.folders.length != 2 || dividerIsExtra read then throw .misuse
  return r

def versionText : String := "tsdeclare 1.0.0\n"

namespace Request

def inputFolder (r : Request) : Path := .ofText (r.folders.headD [])

def outputFolder (r : Request) : Path := .ofText (r.folders.getLastD [])

/-- The paths that a run for a request starts from. -/
def paths (r : Request) : List Path :=
  [r.inputFolder, r.inputFolder.join (.ofText (r.configFile.getD [])), r.outputFolder,
    r.outputFolder.join (.ofText (r.outputSubfolder.getD []))]

/-- The state in which a build for a request starts. -/
def state (r : Request) : Build.State :=
  { Build.State.start r.inputFolder r.outputFolder with
    verbosity := r.verbosity
    pattern := r.pattern
    configFile := r.configFile
    outputSubfolder := r.outputSubfolder
    clean := r.clean
    noComments := r.noComments
    singleLine := r.singleLine }

/-- Makes the output folder and checks that both folders are folders, then builds. -/
def run (settings : Settings) (r : Request) : Build.Run Unit := do
  let refuseFolder (p : Path) : Build.Run Unit :=
    Build.Run.refuse s!"Not a directory: {String.ofList p.toText}"
  match (← get).tree.find? r.outputFolder with
  | some (.file _) => refuseFolder r.outputFolder
  | some .folder => pure ()
  | none => Build.Run.change (·.makeFolders r.outputFolder)
  if !(← get).tree.isFolder r.inputFolder then
    refuseFolder r.inputFolder
  discard <| Build.runStages settings r.state Build.Stage.all

end Request

/-- How a run ended, and what it left behind. -/
structure Outcome where
  result : Except Build.Fault Nat
  output : String
  verbosity : Int
  session : Build.Session

/-- Runs the program on its arguments and a file tree; `configFile` is the configuration file that
is read by default. -/
def execute (settings : Settings) (configFile : Text) (args : List Text) (tree : FileTree) :
    Outcome :=
  let untouched : Build.Session := ⟨tree, [], []⟩
  match parse configFile args with
  | .error .misuse => ⟨.ok 2, "", 0, untouched⟩
  | .error .help => ⟨.ok 0, "", 0, untouched⟩
  | .error .version => ⟨.ok 0, versionText, 0, untouched⟩
  | .ok r =>
    let (result, session) := (r.run settings).run.run untouched
    ⟨match result with
      | .ok () => .ok 0
      | .error (.exit code) => .ok code
      | .error (.fault f) => .error f, "", r.verbosity, session⟩

end Ambient.CommandLine
