import Ambient.Text.Basic

/-!
Settings of a run, with their defaults.
-/

namespace Ambient

structure Settings where
  multilineDeclarations : Bool
  keepComments : Bool
  indentUnit : Text
  sourcePattern : Text
  outputSuffix : Text
  configFilename : Text
  deriving DecidableEq, Repr

def Settings.default : Settings where
  multilineDeclarations := true
  keepComments := true
  indentUnit := "  ".toList
  sourcePattern := "**/*.ts".toList
  outputSuffix := ".d.ts".toList
  configFilename := "tsdeclare.yaml".toList

end Ambient
