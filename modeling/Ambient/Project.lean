import Ambient.Config.Document
import Ambient.Glob
import Ambient.Settings
import Ambient.Text.Bytes

/-!
Projects: the options in a project's configuration file, and the sources they select. An option that
is absent or null falls back to the settings.
-/

namespace Ambient

structure Project where
  path : Option Path
  options : List (ConfigValue × ConfigValue)

namespace Project

inductive LoadError
  /-- The file is no well-formed document. -/
  | malformed (name : Text)
  | unreadable (name : Text) (cause : FileError)
  | notMapping (name : Text) (typeName : String)
  /-- The file is not UTF-8. -/
  | undecodable

def LoadError.message : LoadError → String
  | malformed name => s!"Failed to parse {String.ofList name}"
  | unreadable name cause => s!"Failed to load {String.ofList name}: {cause.message}"
  | notMapping name typeName => s!"{String.ofList name} must contain a mapping, got {typeName}"
  | undecodable => "The configuration is not valid UTF-8"

/-- The options in a document; an empty document has none. -/
def optionsOf (name : Text) : ConfigValue → Except LoadError (List (ConfigValue × ConfigValue))
  | .null => .ok []
  | .mapping entries => .ok entries
  | v => .error (.notMapping name v.typeName)

/-- Reads a configuration file; a missing one has no options. -/
def load (tree : FileTree) (path : Option Path) : Except LoadError Project := do
  match path with
  | none => return ⟨none, []⟩
  | some p =>
    if (tree.find? p).isNone then return ⟨some p, []⟩
    else
      let bytes ← match tree.read p with
        | .ok bytes => pure bytes
        | .error e => throw (.unreadable p.name e)
      let some t := decode? bytes | throw .undecodable
      let some document := Config.read? t | throw (.malformed p.name)
      return ⟨some p, ← optionsOf p.name document⟩

/-- An option that is set to something. -/
def option? (p : Project) (key : Text) : Option ConfigValue :=
  (p.options.find? fun e => e.1.sameKey (.text key)).bind fun e =>
    if e.2.isNull then none else some e.2

def flag (p : Project) (key : String) (fallback : Bool) : Bool :=
  ((p.option? key.toList).map ConfigValue.truth).getD fallback

def keepComments (p : Project) (s : Settings) : Bool := p.flag "keepComments" s.keepComments

def multiline (p : Project) (s : Settings) : Bool :=
  p.flag "multilineDeclarations" s.multilineDeclarations

def clean (p : Project) : Bool := p.flag "clean" false

/-- The option that selects the sources holds a value of a type that has no items. -/
structure NotIterable where
  typeName : String

def NotIterable.message (e : NotIterable) : String := s!"'{e.typeName}' object is not iterable"

/-- The patterns that select the sources: one text, the items of a list, or the keys of a
mapping. -/
def patterns (p : Project) (s : Settings) : Except NotIterable (List Text) :=
  match p.option? "entrypoints".toList with
  | none => .ok [s.sourcePattern]
  | some (.text t) => .ok [t]
  | some (.list items) => .ok (items.map ConfigValue.toText)
  | some (.mapping entries) => .ok (entries.map fun e => e.1.toText)
  | some v => .error ⟨v.typeName⟩

end Project

/-- A file that is not itself generated. -/
def isSource (tree : FileTree) (outputSuffix : Text) (p : Path) : Bool :=
  tree.isFile p && !endsWith outputSuffix p.name

/-- The sources below a root that match some pattern, in order and each once. -/
def discover (tree : FileTree) (outputSuffix : Text) (root : Path) (patterns : List Text) :
    Except Glob.Error (List Path) :=
  (patterns.mapM (glob tree root)).map fun found =>
    sortPaths (found.flatten.filter (isSource tree outputSuffix))

/-- The path of the file generated for a source: the name's last suffix becomes the output
suffix. -/
def outputPath (outputSuffix : Text) (source : Path) : Except Path.Error Path :=
  source.withName (source.stem ++ outputSuffix)

end Ambient
