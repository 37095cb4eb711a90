import ModuleDeps.Time

/-!
# Configuration

The settings of a dependency cache and of the file system behind it.
-/

namespace ModuleDeps

/-- The settings of a cache. -/
structure Config where
  /-- The number of answers that are kept. -/
  maxEntries : Nat := 1024
  /-- A file modified within this many milliseconds of being looked up is not trusted. -/
  staleSlackMs : Nat := 1000
  /-- A file with more bytes than this is not read. -/
  maxFileSize : Nat := 1048576
  deriving DecidableEq, Repr, Inhabited

/-- The slack as a span of time. -/
def Config.staleSlack (c : Config) : Span := .ofMillis c.staleSlackMs

end ModuleDeps
