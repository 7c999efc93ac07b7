import Ambient.Path

/-!
A tree of folders and files with a working folder. A path is walked part by part, so a double dot
leads to the parent of a folder that has to exist.
-/

namespace Ambient

/-- The names from the top of the tree to an entry; no dots. -/
abbrev Location := List Text

inductive Entry
  | file (bytes : ByteArray)
  | folder

namespace Entry

def isFolder : Entry → Bool
  | file _ => false
  | folder => true

def bytes? : Entry → Option ByteArray
  | file bytes => some bytes
  | folder => none

end Entry

inductive FileCause
  | missing
  | exists
  | notFolder
  | isFolder
  deriving DecidableEq, Repr

structure FileError where
  cause : FileCause
  path : Path
  deriving DecidableEq, Repr

namespace FileError

def reason : FileCause → String
  | .missing => "[Errno 2] No such file or directory"
  | .exists => "[Errno 17] File exists"
  | .notFolder => "[Errno 20] Not a directory"
  | .isFolder => "[Errno 21] Is a directory"

def message (e : FileError) : String :=
  s!"{reason e.cause}: {String.ofList (Quoted.quote e.path.toText)}"

end FileError

structure FileTree where
  /-- Every folder and file below the top, at most once each. -/
  entries : List (Location × Entry)
  /-- Where paths without an anchor start. -/
  workFolder : Location

namespace FileTree

/-- The top is a folder. -/
def entry? (t : FileTree) (l : Location) : Option Entry :=
  if l = [] then some .folder else t.entries.lookup l

/-- Puts an entry at a location, in place of any other there. -/
def put (t : FileTree) (l : Location) (e : Entry) : FileTree :=
  { t with entries := t.entries.filter (fun x => x.1 != l) ++ [(l, e)] }

def remove (t : FileTree) (l : Location) : FileTree :=
  { t with entries := t.entries.filter fun x => x.1 != l }

/-- Follows parts from a location. -/
def walk (t : FileTree) (l : Location) : List Text → Except FileCause Location
  | [] => .ok l
  | part :: rest =>
    match t.entry? l with
    | none => .error .missing
    | some (.file _) => .error .notFolder
    | some .folder =>
      if part = ['.', '.'] then walk t l.dropLast rest
      else if (t.entry? (l ++ [part])).isSome then walk t (l ++ [part]) rest
      else .error .missing

def origin (t : FileTree) (p : Path) : Location := if p.anchor = [] then t.workFolder else []

/-- The location of the entry that a path leads to. -/
def locate (t : FileTree) (p : Path) : Except FileCause Location := t.walk (t.origin p) p.parts

/-- The entry that a path leads to. -/
def find? (t : FileTree) (p : Path) : Option Entry :=
  match t.locate p with
  | .ok l => t.entry? l
  | .error _ => none

def isFolder (t : FileTree) (p : Path) : Bool := (t.find? p).any Entry.isFolder

def isFile (t : FileTree) (p : Path) : Bool := (t.find? p).any fun e => !e.isFolder

/-- The folder that holds the last part of a path, and that part; none for a path that ends at a
folder by itself. -/
def locateLast (t : FileTree) (p : Path) : Except FileCause (Option (Location × Text)) := do
  match p.parts.getLast? with
  | none => return none
  | some name =>
    let l ← t.walk (t.origin p) p.parts.dropLast
    match t.entry? l with
    | some .folder => return if name = ['.', '.'] then none else some (l, name)
    | some (.file _) => throw .notFolder
    | none => throw .missing

/-- The bytes of a file. -/
def read (t : FileTree) (p : Path) : Except FileError ByteArray :=
  match t.locate p with
  | .error cause => .error ⟨cause, p⟩
  | .ok l =>
    match t.entry? l with
    | some (.file bytes) => .ok bytes
    | some .folder => .error ⟨.isFolder, p⟩
    | none => .error ⟨.missing, p⟩

/-- Writes a file, over one that is there. -/
def write (t : FileTree) (p : Path) (bytes : ByteArray) : Except FileError FileTree :=
  match t.locateLast p with
  | .error cause => .error ⟨cause, p⟩
  | .ok none => .error ⟨.isFolder, p⟩
  | .ok (some (l, name)) =>
    if (t.entry? (l ++ [name])).any Entry.isFolder then .error ⟨.isFolder, p⟩
    else .ok (t.put (l ++ [name]) (.file bytes))

def unlink (t : FileTree) (p : Path) : Except FileError FileTree :=
  match t.locateLast p with
  | .error cause => .error ⟨cause, p⟩
  | .ok none => .error ⟨.isFolder, p⟩
  | .ok (some (l, name)) =>
    match t.entry? (l ++ [name]) with
    | none => .error ⟨.missing, p⟩
    | some .folder => .error ⟨.isFolder, p⟩
    | some (.file _) => .ok (t.remove (l ++ [name]))

/-- Makes a folder in one that exists; a folder that is there already stays. -/
def makeFolder (t : FileTree) (p : Path) : Except FileError FileTree :=
  match t.locateLast p with
  | .error cause => .error ⟨cause, p⟩
  | .ok none => .ok t
  | .ok (some (l, name)) =>
    match t.entry? (l ++ [name]) with
    | some .folder => .ok t
    | some (.file _) => .error ⟨.exists, p⟩
    | none => .ok (t.put (l ++ [name]) .folder)

/-- Makes a folder and the folders it is missing, from its parts with the last one first. -/
def makeFoldersFrom (t : FileTree) (anchor : Text) : List Text → Except FileError FileTree
  | [] => .ok t
  | part :: above =>
    let p : Path := ⟨anchor, (part :: above).reverse⟩
    match t.makeFolder p with
    | .ok made => .ok made
    | .error e =>
      if e.cause = .missing then
        match makeFoldersFrom t anchor above with
        | .ok made => made.makeFolder p
        | .error e => .error e
      else .error e

/-- Makes a folder with all the folders above it. -/
def makeFolders (t : FileTree) (p : Path) : Except FileError FileTree :=
  t.makeFoldersFrom p.anchor p.parts.reverse

/-- The entries right inside a folder, with their names. -/
def children (t : FileTree) (p : Path) : List (Text × Entry) :=
  match t.locate p with
  | .error _ => []
  | .ok l => t.entries.filterMap fun (at', e) =>
    if at'.dropLast = l then at'.getLast?.map fun name => (name, e) else none

/-- A folder and all folders below it, as paths. -/
def foldersFrom (t : FileTree) (p : Path) : List Path :=
  match t.locate p with
  | .error _ => []
  | .ok l => p :: t.entries.filterMap fun (at', e) =>
    if e.isFolder && at' != l && l.isPrefixOf at' then
      some { p with parts := p.parts ++ at'.drop l.length }
    else none

end FileTree

end Ambient
