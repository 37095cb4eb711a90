import ModuleDeps.FileError

/-!
# Log entries

What a search for module maps and a cache report while they run, one constructor for each kind of
event, and the level, the message and the fields that an entry shows. A failed search reports its
error, as a warning; all else is for tracing and debugging.
-/

namespace ModuleDeps

/-- How much an entry matters. -/
inductive LogLevel where
  /-- Single steps. -/
  | trace
  /-- What was decided. -/
  | debug
  /-- What went wrong. -/
  | warn
  deriving DecidableEq, Repr

/-- A reported event. -/
inductive LogEntry where
  /-- A module map is read. -/
  | visiting (path : Path)
  /-- A module map was read before. -/
  | alreadyVisited (path : Path)
  /-- A module map cannot be had. -/
  | failed (error : FileError)
  /-- A cache is set up. -/
  | initialized (maxEntries staleSlackMs : Nat)
  /-- A cache is given up. -/
  | shutDown (entries hits misses evictions : Nat)
  /-- An answer comes from the cache. -/
  | hit (moduleMap : Path)
  /-- The cache has no answer. -/
  | miss (moduleMap : Path)
  /-- The cache has an answer, but the file at `path` may have changed. -/
  | changed (moduleMap path : Path)
  /-- The answer is not kept: the file at `path` was modified too recently. -/
  | notCached (moduleMap path : Path)
  /-- An answer is dropped for a newer one. -/
  | evicted (moduleMap : Path)
  deriving DecidableEq, Repr

/-- The value of a field of an entry. -/
inductive FieldValue where
  /-- A text. -/
  | text (s : String)
  /-- A number. -/
  | number (n : Nat)
  deriving DecidableEq, Repr

namespace LogEntry

/-- The level of an entry. -/
def level : LogEntry → LogLevel
  | visiting _ | alreadyVisited _ => .trace
  | failed _ => .warn
  | initialized .. | shutDown .. | hit _ | miss _ | changed .. | notCached .. | evicted _ => .debug

/-- What an entry says. -/
def message : LogEntry → String
  | visiting _ => "visiting module map"
  | alreadyVisited _ => "module map already visited"
  | failed (.notUtf8 _) => "module map path is not valid UTF-8"
  | failed (.missing _) | failed (.directory _) | failed (.unreadable ..) => "failed to read module map"
  | failed (.malformed _ (.lex _)) => "failed to run lexing"
  | failed (.malformed _ (.parse _)) => "failed to run parsing"
  | initialized .. => "module map cache initialized"
  | shutDown .. => "module map cache shut down"
  | hit _ => "module map cache hit"
  | miss _ => "module map cache miss"
  | changed .. => "module map cache miss: file changed"
  | notCached .. => "not caching: file modified too recently"
  | evicted _ => "module map cache eviction"

/-- The fields of an entry. -/
def fields : LogEntry → List (String × FieldValue)
  | visiting p | alreadyVisited p => [("path", .text p.display)]
  | failed (.notUtf8 p) | failed (.missing p) | failed (.directory p) => [("path", .text p.display)]
  | failed (.unreadable p failure) =>
    [("path", .text p.display), ("error", .text (FileError.unreadable p failure).message)]
  | failed (.malformed p (.lex e)) => [("path", .text p.display), ("error", .text e.message)]
  | failed (.malformed p (.parse e)) => [("path", .text p.display), ("error", .text e.message)]
  | initialized maxEntries staleSlackMs =>
    [("max_entries", .number maxEntries), ("stale_slack_ms", .number staleSlackMs)]
  | shutDown entries hits misses evictions =>
    [("entries", .number entries), ("hits", .number hits), ("misses", .number misses),
      ("evicted", .number evictions)]
  | hit m | miss m | evicted m => [("module_map", .text m.display)]
  | changed m p | notCached m p => [("module_map", .text m.display), ("path", .text p.display)]

end LogEntry

/-- What is done with a file system or reported, in the order of doing. -/
inductive Action where
  /-- A path is looked up. -/
  | stat (path : Path)
  /-- A file is read. -/
  | read (path : Path)
  /-- An event is reported. -/
  | log (entry : LogEntry)
  deriving DecidableEq, Repr

namespace Action

/-- The entries that are reported. -/
def entries (actions : List Action) : List LogEntry :=
  actions.filterMap fun | log e => some e | _ => none

/-- The files that are read. -/
def reads (actions : List Action) : List Path :=
  actions.filterMap fun | read p => some p | _ => none

end Action

end ModuleDeps
