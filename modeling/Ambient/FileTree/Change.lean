import Ambient.FileTree

/-!
What a run did to the files of a tree: the files it wrote, and those it removed.
-/

namespace Ambient.FileTree

/-- The bytes of the file at a location. -/
def bytesAt? (t : FileTree) (l : Location) : Option ByteArray := (t.entry? l).bind Entry.bytes?

/-- The files of a tree, with their bytes. -/
def files (t : FileTree) : List (Location × ByteArray) :=
  t.entries.filterMap fun (l, e) => e.bytes?.map fun bytes => (l, bytes)

def folders (t : FileTree) : List Location :=
  (t.entries.filter fun x => x.2.isFolder).map Prod.fst

/-- The files that are new or hold other bytes than before. -/
def written (before after : FileTree) : List (Location × ByteArray) :=
  after.files.filter fun (l, bytes) =>
    !(before.bytesAt? l).any fun earlier => earlier.data.toList == bytes.data.toList

/-- The folders that are new. -/
def madeFolders (before after : FileTree) : List Location :=
  after.folders.filter fun l => !(before.entry? l).any Entry.isFolder

/-- The files that are gone. -/
def removed (before after : FileTree) : List Location :=
  (before.files.map Prod.fst).filter fun l => (after.bytesAt? l).isNone

end Ambient.FileTree
