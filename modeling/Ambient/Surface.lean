import Ambient.Declaration

/-!
The exported surface of a source: imports, declarations and re-exports, each in source order, and
the default export.
-/

namespace Ambient

structure Surface where
  imports : List Text
  declarations : List Declaration
  reexports : List Text
  default : Option Declaration
  deriving DecidableEq, Repr

def Surface.empty : Surface := ⟨[], [], [], none⟩

end Ambient
