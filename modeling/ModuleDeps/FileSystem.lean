import ModuleDeps.Path
import ModuleDeps.Time

/-!
# File systems

What is known of a file without reading it, and a file system as it is at one moment: what it
answers when a path is looked up and when a file is read.

A modification time may be coarse, so a file can change shortly after it was looked up and keep
its time. The file's state is trusted only if it was modified longer than a slack before it was
looked up.
-/

namespace ModuleDeps

/-- What is known of a path that was looked up. -/
structure FileStat where
  /-- There is a file or directory. -/
  isPresent : Bool
  /-- It is a directory. -/
  isDirectory : Bool
  /-- Its size in bytes. -/
  size : Nat
  /-- When it was modified, if that is known. -/
  mtime : Option Moment
  /-- When it was looked up. -/
  takenAt : Moment
  deriving DecidableEq, Repr

/-- A file modified at `mtime` may have changed since without a new time, seen at `now`: not more
than `slack` has gone by, or the time is not known. -/
def withinSlack (mtime : Option Moment) (slack : Span) (now : Moment) : Bool :=
  match mtime with
  | none => true
  | some t =>
    match t.add? slack with
    | none => true
    | some u => now ≤ u

namespace FileStat

/-- What is known of a path where nothing is. -/
def missing (takenAt : Moment) : FileStat := ⟨false, false, 0, none, takenAt⟩

/-- Something is there, and when it was modified is known. -/
def isValid (s : FileStat) : Bool := s.isPresent && s.mtime.isSome

/-- The same is known of the path, whenever it was looked up. -/
def sameSnapshot (s t : FileStat) : Bool :=
  s.isPresent == t.isPresent && s.isDirectory == t.isDirectory && s.size == t.size && s.mtime == t.mtime

/-- The file may have changed after it was looked up and still look the same. -/
def canBeStale (s : FileStat) (slack : Span) : Bool := withinSlack s.mtime slack s.takenAt

/-- The file that is there now may not be the one that was there at `old`. -/
def canBeNewerThan (now old : FileStat) (slack : Span) : Bool :=
  withinSlack old.mtime slack now.takenAt || !now.sameSnapshot old

end FileStat

/-- What an operating system says of a file that it does not give. -/
inductive IoFailure where
  /-- There is no such file. -/
  | notFound
  /-- A part of the path that has to be a directory is none. -/
  | notADirectory
  /-- Too many links lead on to other links. -/
  | filesystemLoop
  /-- No file can have this path. -/
  | invalidInput
  /-- The path or a name in it is too long. -/
  | nameTooLong
  /-- The content is not text. -/
  | invalidData
  deriving DecidableEq, Repr

/-- Why a file is not read. -/
inductive ReadFailure where
  /-- It cannot be had, or is not text. -/
  | io (cause : IoFailure)
  /-- It is a directory or a device. -/
  | notRegular
  /-- It holds more than `limit` bytes. -/
  | tooBig (size limit : Nat)
  deriving DecidableEq, Repr

/-- A file system at one moment. -/
structure FileSystem where
  /-- Looks a path up, following links. -/
  stat : Path → FileStat
  /-- The content of a file. -/
  read : Path → Except ReadFailure String

end ModuleDeps
