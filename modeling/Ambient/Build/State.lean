import Ambient.Project

/-!
What a build knows: the options it was started with, and what its stages have found so far.
-/

namespace Ambient.Build

/-- What the generating stage did: the files it wrote, and the sources it could not read. -/
structure Report where
  written : List Path
  failed : List Path
  deriving DecidableEq, Repr

/-- Every source was read. -/
def Report.status (r : Report) : Bool := r.failed.isEmpty

structure State where
  inputFolder : Path
  outputFolder : Path
  verbosity : Int
  /-- Selects the sources in place of the project's own patterns, unless it is empty. -/
  pattern : Option Text
  /-- Where the project is read, as seen from the input folder. -/
  configFile : Option Text
  /-- Where files are written, as seen from the output folder. -/
  outputSubfolder : Option Text
  clean : Bool
  noComments : Bool
  singleLine : Bool
  checked : Bool
  project : Option Project
  targetFolder : Path
  keepComments : Bool
  multiline : Bool
  sources : List Path
  report : Option Report

/-- The state before any stage, with default options. -/
def State.start (inputFolder outputFolder : Path) : State where
  inputFolder := inputFolder
  outputFolder := outputFolder
  verbosity := 1
  pattern := none
  configFile := some Settings.default.configFilename
  outputSubfolder := some ['.']
  clean := false
  noComments := false
  singleLine := false
  checked := false
  project := none
  targetFolder := ⟨['/'], []⟩
  keepComments := true
  multiline := true
  sources := []
  report := none

end Ambient.Build
