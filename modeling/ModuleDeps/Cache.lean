import ModuleDeps.Cache.Table
import ModuleDeps.Config
import ModuleDeps.Discovery

/-!
# The dependency cache

The cache keeps, for a working directory and a module map, the files that the module map depends
on. A kept answer is given only after each of its files was looked up again and found as it was;
otherwise the files are discovered afresh, and the new answer is kept unless one of its files was
modified too recently to be trusted. When there are too many answers, the one that was first kept
under its key goes first; a new answer under the same key does not change the key's turn.

The answers are kept in a table whose queue of keys is the order of eviction.
-/

namespace ModuleDeps

/-- What an answer is kept under. -/
structure CacheKey where
  /-- The working directory in its tidy form. -/
  cwd : Path
  /-- The resolved path of the module map. -/
  moduleMap : Path
  deriving DecidableEq, Repr

/-- The key of the module map `root` seen from `cwd`. -/
def CacheKey.of (cwd root : Path) : CacheKey := ⟨cwd.tidy, .seenFrom cwd root⟩

/-- How often a cache did what, counted in 64 bits. -/
structure CacheStats where
  /-- Answers that came from the table. -/
  hits : UInt64 := 0
  /-- Answers that did not. -/
  misses : UInt64 := 0
  /-- Answers dropped for newer ones. -/
  evicted : UInt64 := 0
  deriving DecidableEq, Repr

/-- A cache. -/
structure Cache where
  /-- Its settings. -/
  config : Config
  /-- The kept answers. -/
  table : Table CacheKey (List ModuleMapFile) := {}
  /-- Its counters. -/
  stats : CacheStats := {}
  deriving DecidableEq, Repr

/-- What the table has under a key. -/
inductive Lookup where
  /-- An answer whose files are as they were. -/
  | hit (files : List ModuleMapFile)
  /-- Nothing. -/
  | notCached
  /-- An answer whose file at `path` may have changed. -/
  | changed (path : Path)
  deriving DecidableEq, Repr

/-- The paths of files as they were referred to. -/
def relPaths (files : List ModuleMapFile) : List String := files.map (·.relPath)

namespace Cache

/-- The event of setting a cache up. -/
def initialized (config : Config) : LogEntry := .initialized config.maxEntries config.staleSlackMs

/-- The kept answers with their keys. -/
def entries (c : Cache) : List (CacheKey × List ModuleMapFile) := c.table.entries

/-- The number of kept answers. -/
def size (c : Cache) : Nat := c.table.size

/-- The event of giving a cache up. -/
def shutDown (c : Cache) : LogEntry :=
  .shutDown c.size c.stats.hits.toNat c.stats.misses.toNat c.stats.evicted.toNat

/-! ### The table -/

/-- The file may not be what it was when it was found. -/
def mayDiffer (fs : FileSystem) (slack : Span) (file : ModuleMapFile) : Bool :=
  let now := fs.stat file.absPath
  !now.isValid || now.canBeNewerThan file.stat slack

/-- Looks files up in turn until one may differ. -/
def revalidate (fs : FileSystem) (slack : Span) : List ModuleMapFile → Option Path × List Action
  | [] => (none, [])
  | file :: files =>
    if mayDiffer fs slack file then
      (some file.absPath, [.stat file.absPath])
    else
      let (path?, actions) := revalidate fs slack files
      (path?, .stat file.absPath :: actions)

/-- Looks a key up in the table, and the files of its answer in the file system. -/
def lookup (c : Cache) (fs : FileSystem) (key : CacheKey) : Lookup × List Action :=
  match c.table.find? key with
  | none => (.notCached, [])
  | some files =>
    match revalidate fs c.config.staleSlack files with
    | (none, actions) => (.hit files, actions)
    | (some path, actions) => (.changed path, actions)

/-- Keeps an answer, and drops the oldest ones that are too many. -/
def insert (c : Cache) (key : CacheKey) (files : List ModuleMapFile) : Cache × List LogEntry :=
  let (table, evicted) := (c.table.insert key files).evict c.config.maxEntries
  ({ c with table, stats := { c.stats with evicted := c.stats.evicted + .ofNat evicted.length } },
    evicted.map fun key => .evicted key.moduleMap)

/-! ### Answers -/

/-- Discovers the files of a module map and keeps them if they can be trusted. -/
def refresh (c : Cache) (fs : FileSystem) (cwd : Path) (depth : Nat) (root : Path) :
    Option (Except Unresolvable (List ModuleMapFile) × Cache × List Action) := do
  let key := CacheKey.of cwd root
  match ← dependencies fs cwd depth root with
  | (.error e, actions) => some (.error ⟨key.moduleMap, e⟩, c, actions)
  | (.ok files, actions) =>
    match files.find? (·.stat.canBeStale c.config.staleSlack) with
    | some file =>
      some (.ok files, c, actions ++ [.log (.notCached key.moduleMap file.absPath)])
    | none =>
      let (c, evictions) := c.insert key files
      some (.ok files, c, actions ++ evictions.map .log)

/-- The paths that the module map `root` depends on, seen from `cwd`, and what was done to answer.
No answer is given if chains of references are longer than `depth`. -/
def resolve (c : Cache) (fs : FileSystem) (cwd : Path) (depth : Nat) (root : Path) :
    Option (Except Unresolvable (List String) × Cache × List Action) := do
  let key := CacheKey.of cwd root
  match c.lookup fs key with
  | (.hit files, actions) =>
    let c := { c with stats := { c.stats with hits := c.stats.hits + 1 } }
    some (.ok (relPaths files), c, actions ++ [.log (.hit key.moduleMap)])
  | (.notCached, actions) => missed c actions (.miss key.moduleMap)
  | (.changed path, actions) => missed c actions (.changed key.moduleMap path)
where
  /-- Counts a miss and answers without the table. -/
  missed (c : Cache) (actions : List Action) (event : LogEntry) :
      Option (Except Unresolvable (List String) × Cache × List Action) := do
    let c := { c with stats := { c.stats with misses := c.stats.misses + 1 } }
    let (result, c, more) ← refresh c fs cwd depth root
    some (result.map relPaths, c, actions ++ .log event :: more)

end Cache

/-! ### Sets of include files -/

/-- Puts a path into a list in ascending order, unless it is there. -/
def insertPath (s : String) : List String → List String
  | [] => [s]
  | t :: ts => if s < t then s :: t :: ts else if s = t then t :: ts else t :: insertPath s ts

/-- A set of paths with further paths put in. -/
def addPaths (set paths : List String) : List String := paths.foldl (fun set s => insertPath s set) set

/-- Answers like `Cache.resolve`, and adds the paths to a set, which a failure leaves as it is. -/
def Cache.resolveInto (c : Cache) (fs : FileSystem) (cwd : Path) (depth : Nat) (root : Path)
    (includeFiles : List String) :
    Option (Except Unresolvable Unit × List String × Cache × List Action) := do
  match ← c.resolve fs cwd depth root with
  | (.ok paths, c, actions) => some (.ok (), addPaths includeFiles paths, c, actions)
  | (.error e, c, actions) => some (.error e, includeFiles, c, actions)

end ModuleDeps
