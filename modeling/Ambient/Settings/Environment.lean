import Ambient.Settings

/-!
Settings from the environment. A variable names a field, with the program's name in front and in any
case; a variable of the process wins over one of a settings file. Variables that name no field are
ignored in the process and refused in a settings file.
-/

namespace Ambient.Settings

inductive Field
  | multilineDeclarations
  | keepComments
  | indentUnit
  | sourcePattern
  | outputSuffix
  | configFilename
  deriving DecidableEq, Repr

namespace Field

def all : List Field :=
  [multilineDeclarations, keepComments, indentUnit, sourcePattern, outputSuffix, configFilename]

def label : Field → String
  | multilineDeclarations => "multiline_declarations"
  | keepComments => "keep_comments"
  | indentUnit => "indent_unit"
  | sourcePattern => "source_pattern"
  | outputSuffix => "output_suffix"
  | configFilename => "config_filename"

/-- The variable that sets a field, in lower case. -/
def variableName (f : Field) : Text := "tsdeclare_".toList ++ f.label.toList

end Field

/-- What is wrong with a variable, with the name it is reported under. -/
inductive Fault
  | notBoolean (field : Field)
  | unknown (name : Text)
  deriving DecidableEq, Repr

def Fault.code : Fault → String
  | notBoolean _ => "bool_parsing"
  | unknown _ => "extra_forbidden"

def Fault.subject : Fault → String
  | notBoolean f => f.label
  | unknown name => String.ofList name

def lower (t : Text) : Text := t.map Char.toLower

def boolean? (t : Text) : Option Bool :=
  let word := String.ofList (lower t)
  if ["1", "on", "t", "true", "y", "yes"].contains word then some true
  else if ["0", "off", "f", "false", "n", "no"].contains word then some false
  else none

abbrev Variables := List (Text × Text)

/-- The variables of a settings file: a line each, the name up to the equals sign. Blank lines and
comments are skipped, and a pair of quotes around a value is dropped. -/
def Variables.ofText (t : Text) : Variables :=
  (lines t).filterMap fun l =>
    let line := trim l
    if line = [] ∨ startsWith ['#'] line ∨ !line.contains '=' then none
    else
      let value := trim ((line.dropWhile (· != '=')).drop 1)
      let bare := (value.drop 1).dropLast
      some (trim (line.takeWhile (· != '=')),
        if value.length ≥ 2 ∧ value.head? = value.getLast? ∧
            (value.head? = some '"' ∨ value.head? = some '\'') then bare
        else value)

/-- The last value of a variable, by its name in lower case. -/
def lookup? (vars : Variables) (name : Text) : Option Text :=
  (vars.reverse.find? fun v => lower v.1 == name).map Prod.snd

/-- The values that set fields, from the process first and from a file second. -/
def value? (process file : Variables) (f : Field) : Option Text :=
  (lookup? process f.variableName).or (lookup? file f.variableName)

/-- Sets a field. -/
def assign (s : Settings) (f : Field) (t : Text) : Except Fault Settings :=
  match f with
  | .multilineDeclarations =>
    match boolean? t with
    | some b => .ok { s with multilineDeclarations := b }
    | none => .error (.notBoolean f)
  | .keepComments =>
    match boolean? t with
    | some b => .ok { s with keepComments := b }
    | none => .error (.notBoolean f)
  | .indentUnit => .ok { s with indentUnit := t }
  | .sourcePattern => .ok { s with sourcePattern := t }
  | .outputSuffix => .ok { s with outputSuffix := t }
  | .configFilename => .ok { s with configFilename := t }

/-- Sets a field, or adds to the faults. -/
def take (process file : Variables) (found : Settings × List Fault) (f : Field) :
    Settings × List Fault :=
  match value? process file f with
  | none => found
  | some t =>
    match assign found.1 f t with
    | .ok s => (s, found.2)
    | .error fault => (found.1, found.2 ++ [fault])

/-- The variables of a file that name no field; one without a value is passed over. -/
def unknowns (file : Variables) : List Fault :=
  let known := Field.all.map Field.variableName
  let labels := Field.all.map fun f => f.label.toList
  (file.filterMap fun (name, value) =>
    let name := lower name
    if value = [] ∨ known.contains name ∨ labels.contains name then none
    else some (.unknown name)).eraseDups

/-- The settings that the variables of the process and of a settings file give, or all faults: those
of fields in their order, then unknown variables. -/
def ofEnvironment (process : Variables) (file : Variables) : Except (List Fault) Settings :=
  let (s, faults) := Field.all.foldl (take process file) (Settings.default, [])
  match faults ++ unknowns file with
  | [] => .ok s
  | faults => .error faults

end Ambient.Settings
