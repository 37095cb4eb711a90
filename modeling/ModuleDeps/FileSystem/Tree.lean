import ModuleDeps.FileSystem

/-!
# Directory trees

A file system of directories, files, devices and symbolic links, and a working directory in it
from which relative paths are followed. A path is followed name by name from directory to
directory, and links on the way are replaced by the paths that they hold, at most `maxLinks` of
them for one path. A name in front of `..`, of a dot or of a slash has to be a directory, also at
the end of the path. A path may have `maxPathLength` bytes and a name in it `maxNameLength`.

A device takes all that is written to it and keeps nothing, so it is a device ever after. A change
that cannot be made leaves the tree as it is.

Each place is known by the names that lead to it from the root. The clock moves on a little with
every change, so nothing is younger than the moment it is looked up.
-/

namespace ModuleDeps

/-- What is at a place of a tree. -/
inductive TreeEntry where
  /-- A directory. -/
  | directory (mtime : Moment)
  /-- A file. -/
  | file (content : List UInt8) (mtime : Moment)
  /-- A device. -/
  | device (mtime : Moment)
  /-- A symbolic link. -/
  | link (target : Path)
  deriving DecidableEq, Repr

/-- A directory tree. -/
structure FileTree where
  /-- What is at each place. -/
  entries : List (List Name × TreeEntry)
  /-- The place where relative paths start. -/
  workingDirectory : List Name
  /-- The clock. -/
  now : Moment
  deriving DecidableEq, Repr

namespace FileTree

/-- The number of links that may be followed for one path. -/
def maxLinks : Nat := 40

/-- The number of bytes that a path may have. -/
def maxPathLength : Nat := 4095

/-- The number of bytes that a name may have. -/
def maxNameLength : Nat := 255

/-- The step of the clock. -/
def tick : Span := ⟨0, 1000, by decide⟩

/-- What is at a place. -/
def entryAt? (t : FileTree) (place : List Name) : Option TreeEntry := t.entries.lookup place

/-! ### Following paths -/

/-- Where the pieces of a path start when they are met at `place`. -/
def start (p : Path) (place : List Name) : List Name := if p.isAbsolute then [] else place

/-- Follows the pieces of a path from a place. The last name need not be there. -/
def follow (t : FileTree) : (links : Nat) → (place : List Name) → List Name → Except IoFailure (List Name)
  | _, place, [] => .ok place
  | links, place, piece :: rest =>
    match t.entryAt? place with
    | some (.directory _) =>
      if Path.isFiller piece then t.follow links place rest
      else if piece = [Path.dot, Path.dot] then t.follow links place.dropLast rest
      else if piece.length > maxNameLength then .error .nameTooLong
      else
        match t.entryAt? (place ++ [piece]) with
        | some (.link target) =>
          match links with
          | 0 => .error .filesystemLoop
          | links + 1 =>
            if target.bytes = [] then .error .notFound
            else t.follow links (start target place) (target.bytes.splitOn Path.slash ++ rest)
        | _ => t.follow links (place ++ [piece]) rest
    | some _ => .error .notADirectory
    | none => .error .notFound
termination_by links _ pieces => (links, pieces.length)

/-- The place that a path leads to. The last name need not be there. -/
def placeOf (t : FileTree) (p : Path) : Except IoFailure (List Name) :=
  if p.bytes.contains 0 then .error .invalidInput
  else if p.bytes = [] then .error .notFound
  else if p.bytes.length > maxPathLength then .error .nameTooLong
  else t.follow maxLinks (start p t.workingDirectory) (p.bytes.splitOn Path.slash)

/-- What a path leads to. -/
def find (t : FileTree) (p : Path) : Except IoFailure TreeEntry := do
  match t.entryAt? (← t.placeOf p) with
  | some e => .ok e
  | none => .error .notFound

/-- What is known of a path; nothing, if it leads nowhere. -/
def stat (t : FileTree) (p : Path) : FileStat :=
  match t.find p with
  | .ok (.directory mtime) => ⟨true, true, 0, some mtime, t.now⟩
  | .ok (.file content mtime) => ⟨true, false, content.length, some mtime, t.now⟩
  | .ok (.device mtime) => ⟨true, false, 0, some mtime, t.now⟩
  | .ok (.link _) | .error _ => .missing t.now

/-- The content of a file of at most `limit` bytes. -/
def read (t : FileTree) (limit : Nat) (p : Path) : Except ReadFailure String :=
  match t.find p with
  | .error cause => .error (.io cause)
  | .ok (.file content _) =>
    if content.length > limit then .error (.tooBig content.length limit)
    else
      match Utf8.decode? content with
      | some s => .ok s
      | none => .error (.io .invalidData)
  | .ok _ => .error .notRegular

/-- The tree as a file system that reads files of at most `limit` bytes. -/
def fileSystem (t : FileTree) (limit : Nat) : FileSystem := ⟨t.stat, t.read limit⟩

/-! ### Changes -/

/-- The tree after its clock has moved. -/
def ticked (t : FileTree) : FileTree := { t with now := (t.now.add? tick).getD t.now }

/-- The tree with something at a place. -/
def put (t : FileTree) (place : List Name) (e : TreeEntry) : FileTree :=
  { t with entries := (place, e) :: t.entries.filter (·.1 ≠ place) }

/-- Follows the pieces of a path from a place, making the directories that are not there. -/
def makePieces? (t : FileTree) (place : List Name) : List Name → Option (FileTree × List Name)
  | [] => some (t, place)
  | piece :: rest => do
    let next ← (t.follow maxLinks place [piece]).toOption
    let t := if (t.entryAt? next).isSome then t else t.put next (.directory t.now)
    t.makePieces? next rest

/-- Makes the directories above a path, and gives the place of its last one and the last name. -/
def makeParents? (t : FileTree) (p : Path) : Option (FileTree × List Name × Name) := do
  let pieces := p.bytes.splitOn Path.slash
  let (t, place) ← t.makePieces? (start p t.workingDirectory) pieces.dropLast
  some (t, place, pieces.getLastD [])

/-- The tree after a change, if the change can be made. -/
def changed (t : FileTree) (change : Option FileTree) : FileTree := change.elim t ticked

/-- Makes a directory and those above it. -/
def makeDirectory (t : FileTree) (p : Path) : FileTree :=
  t.changed ((t.makePieces? (start p t.workingDirectory) (p.bytes.splitOn Path.slash)).map (·.1))

/-- What is at a place after content was written to it, where `old?` was; without a time a file was
modified at `now`. There is no answer for a directory and for a link, which cannot be written to. -/
def written? (old? : Option TreeEntry) (content : List UInt8) (mtime? : Option Moment) (now : Moment) :
    Option TreeEntry :=
  match old? with
  | none | some (.file ..) => some (.file content (mtime?.getD now))
  | some (.device mtime) => some (.device (mtime?.getD mtime))
  | some (.directory _) | some (.link _) => none

/-- Writes to a file or a device, following links. -/
def writeFile (t : FileTree) (p : Path) (content : List UInt8) (mtime? : Option Moment) : FileTree :=
  t.changed do
    let (t, place, name) ← t.makeParents? p
    let target ← (t.follow maxLinks place [name]).toOption
    some (t.put target (← written? (t.entryAt? target) content mtime? t.now))

/-- Makes a symbolic link where nothing is. -/
def makeLink (t : FileTree) (p target : Path) : FileTree :=
  t.changed do
    let (t, place, name) ← t.makeParents? p
    if (t.entryAt? (place ++ [name])).isSome then none else some (t.put (place ++ [name]) (.link target))

/-- Removes what is at a path, unless it is a directory; a link is not followed. -/
def remove (t : FileTree) (p : Path) : FileTree :=
  t.changed do
    let pieces := p.bytes.splitOn Path.slash
    let place ← (t.follow maxLinks (start p t.workingDirectory) pieces.dropLast).toOption
    let target := place ++ [pieces.getLastD []]
    match ← t.entryAt? target with
    | .directory _ => none
    | _ => some { t with entries := t.entries.filter (·.1 ≠ target) }

/-! ### A fresh tree -/

/-- A tree with an empty working directory two levels below the root, and the device `/dev/null`. -/
def fresh (now : Moment) : FileTree where
  entries :=
    let name (s : String) : Name := Utf8.encode s
    [([], .directory now), ([name "dev"], .directory now), ([name "dev", name "null"], .device now),
      ([name "tmp"], .directory now), ([name "tmp", name "work"], .directory now)]
  workingDirectory := [Utf8.encode "tmp", Utf8.encode "work"]
  now := now

end FileTree

end ModuleDeps
