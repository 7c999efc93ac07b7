import Ambient.FileTree

/-!
The part of a tree that a run can reach from a few paths: the folders that the paths pass through,
and all that lies below their ends.
-/

namespace Ambient.FileTree

/-- The locations from `l` to the end of the parts that are followed from there. -/
def trail (l : Location) : List Text → List Location
  | [] => [l]
  | part :: rest => l :: trail (if part = ['.', '.'] then l.dropLast else l ++ [part]) rest

/-- The folders that hold a location, from the top down. -/
def above (l : Location) : List Location := (List.range l.length).map fun n => l.take n

/-- The locations that lie below no other of them, each once. -/
def outermost (ls : List Location) : List Location :=
  (ls.filter fun l => !ls.any fun m => m != l && m.isPrefixOf l).eraseDups

/-- Where paths end, as seen from a working folder. -/
def ends (workFolder : Location) (ps : List Path) : List Location :=
  outermost <| ps.filterMap fun p =>
    (trail (if p.anchor = [] then workFolder else []) p.parts).getLast?

/-- The locations that paths pass through before they end, with all that hold these. -/
def stops (workFolder : Location) (ps : List Path) : List Location :=
  let passed := workFolder :: ps.flatMap fun p =>
    trail (if p.anchor = [] then workFolder else []) p.parts
  let last := ends workFolder ps
  ((passed.flatMap above ++ passed).filter fun l =>
    l != [] && !last.any (·.isPrefixOf l)).eraseDups

end Ambient.FileTree
