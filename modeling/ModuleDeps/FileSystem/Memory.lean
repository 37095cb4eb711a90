import ModuleDeps.FileSystem
import ModuleDeps.Log

/-!
# Files in memory

A file system that holds its files in a table and has a clock that moves only when it is told to.
A path is made into a key by showing it as text, taking backslashes for slashes and putting it
into its tidy form; `..` is not followed. Each file counts how often it was read.
-/

namespace ModuleDeps

/-- What a table of files holds under a key. -/
inductive MemoryEntry where
  /-- A file. -/
  | file (content : String) (mtime : Moment)
  /-- A directory. -/
  | directory (mtime : Moment)
  deriving DecidableEq, Repr

/-- A table of files. -/
structure MemoryFiles where
  /-- The entries. -/
  entries : List (Path × MemoryEntry) := []
  /-- How often files were read; a file that is not listed was not read. -/
  reads : List (Path × Nat) := []
  /-- The clock. -/
  now : Moment := { secs := 1700000000, nanos := 0 }
  deriving DecidableEq, Repr

namespace MemoryFiles

/-- The key of a path. -/
def keyOf (p : Path) : Path :=
  (Path.ofString (p.display.map fun c => if c = '\\' then '/' else c)).tidy

/-- The age in seconds of what is added without a time. -/
def defaultAge : Nat := 60

/-- A list of pairs with one value put in. -/
def update {α : Type} (key : Path) (value : α) (pairs : List (Path × α)) : List (Path × α) :=
  (key, value) :: pairs.filter (·.1 ≠ key)

/-- What is under a path. -/
def entry? (m : MemoryFiles) (p : Path) : Option MemoryEntry := m.entries.lookup (keyOf p)

/-- The table with something under a path. -/
def add (m : MemoryFiles) (p : Path) (e : MemoryEntry) : MemoryFiles :=
  { m with entries := update (keyOf p) e m.entries }

/-- The table with a file under a path; without a time the file is `defaultAge` old. -/
def addFile (m : MemoryFiles) (p : Path) (content : String) (mtime? : Option Moment) : MemoryFiles :=
  m.add p (.file content (mtime?.getD (m.now.secondsBefore defaultAge)))

/-- The table with a directory under a path. -/
def addDirectory (m : MemoryFiles) (p : Path) : MemoryFiles :=
  m.add p (.directory (m.now.secondsBefore defaultAge))

/-- The table with nothing under a path. -/
def remove (m : MemoryFiles) (p : Path) : MemoryFiles :=
  { m with entries := m.entries.filter (·.1 ≠ keyOf p) }

/-- The table with no files and no counts. -/
def clear (m : MemoryFiles) : MemoryFiles := { m with entries := [], reads := [] }

/-- The table at a later time. The clock does not move past the last moment. -/
def advance (m : MemoryFiles) (d : Span) : MemoryFiles := { m with now := (m.now.add? d).getD m.now }

/-- How often the file under a path was read. -/
def readCount (m : MemoryFiles) (p : Path) : Nat := (m.reads.lookup (keyOf p)).getD 0

/-- What is known of a path. -/
def stat (m : MemoryFiles) (p : Path) : FileStat :=
  match m.entry? p with
  | none => .missing m.now
  | some (.file content mtime) => ⟨true, false, content.utf8ByteSize, some mtime, m.now⟩
  | some (.directory mtime) => ⟨true, true, 0, some mtime, m.now⟩

/-- The content of the file under a path. -/
def read (m : MemoryFiles) (p : Path) : Except ReadFailure String :=
  match m.entry? p with
  | none => .error (.io .notFound)
  | some (.directory _) => .error .notRegular
  | some (.file content _) => .ok content

/-- The table as a file system. -/
def fileSystem (m : MemoryFiles) : FileSystem := ⟨m.stat, m.read⟩

/-- The table after a read of a path, which is counted if there is a file. -/
def afterRead (m : MemoryFiles) (p : Path) : MemoryFiles :=
  match m.entry? p with
  | some (.file ..) => { m with reads := update (keyOf p) (m.readCount p + 1) m.reads }
  | _ => m

/-- The table after some actions. -/
def after (m : MemoryFiles) (actions : List Action) : MemoryFiles :=
  (Action.reads actions).foldl afterRead m

end MemoryFiles

end ModuleDeps
