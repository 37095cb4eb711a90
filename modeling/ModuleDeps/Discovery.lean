import ModuleDeps.Log
import ModuleDeps.Path.Resolve

/-!
# Discovery of module maps

A module map depends on itself and on the module maps that its extern declarations name, and these
on further ones. A search follows the declarations depth first, each file's in the order in which
they are written, and reads no file twice. File names in a module map are relative to its own
directory, not to the working directory.

`visit` looks at one path and tells which paths to go on with; it does not recur. The search itself
is `Discovery.add`. A chain of references has no bound that could be read off a file system, so the
search is told how long a chain it may follow, and gives no answer if that is not enough.

Any failure ends the search: a list with files left out would say too little.
-/

namespace ModuleDeps

/-- A module map that another one, or the question, refers to. -/
structure ModuleMapFile where
  /-- The path that it is referred to by, seen from the working directory. -/
  relPath : String
  /-- The resolved path. -/
  absPath : Path
  /-- What was known of the file when it was found. -/
  stat : FileStat
  deriving DecidableEq, Repr

/-- The resolved path of a path that is seen from the working directory `cwd`. -/
def Path.seenFrom (cwd p : Path) : Path := (cwd.join p).resolve

/-- The path of a file that the module map at `p` names. -/
def Path.reference (p : Path) (filename : String) : Path := p.dirname.join (.ofString filename)

/-! ### One file -/

/-- What comes of looking at one path. -/
structure Visit where
  /-- The paths that the file refers to, or why it cannot be had. -/
  result : Except FileError (List Path)
  /-- The file, if it was found. -/
  file? : Option ModuleMapFile := none
  /-- What was done. -/
  actions : List Action

/-- A visit that fails; the error is reported last. -/
def Visit.failure (error : FileError) (file? : Option ModuleMapFile) (actions : List Action) : Visit :=
  ⟨.error error, file?, actions ++ [.log (.failed error)]⟩

/-- Reads the module map at a resolved path. -/
def readModuleMap (fs : FileSystem) (path : Path) : Except FileError ModuleMap := do
  ModuleMap.ofFile path (← (fs.read path).mapError (.unreadable path))

/-- Looks at the path `p`, seen from `cwd`, when the files at `visited` have been seen. -/
def visit (fs : FileSystem) (cwd : Path) (visited : List Path) (p : Path) : Visit :=
  match p.text? with
  | none => .failure (.notUtf8 p) none []
  | some relPath =>
    let absPath := Path.seenFrom cwd p
    if absPath ∈ visited then
      { result := .ok [], actions := [.log (.alreadyVisited absPath)] }
    else
      let stat := fs.stat absPath
      if !stat.isValid then
        .failure (.missing absPath) none [.stat absPath]
      else if stat.isDirectory then
        .failure (.directory absPath) none [.stat absPath]
      else
        let file : ModuleMapFile := ⟨relPath, absPath, stat⟩
        let actions : List Action := [.stat absPath, .log (.visiting absPath), .read absPath]
        match readModuleMap fs absPath with
        | .error e => .failure e (some file) actions
        | .ok m => ⟨.ok (m.externFilenames.map p.reference), some file, actions⟩

/-! ### The search -/

/-- How far a search has come. -/
structure Discovery where
  /-- The resolved paths of the files seen so far. -/
  visited : List Path := []
  /-- The files found so far. -/
  collected : List ModuleMapFile := []
  /-- What was done so far. -/
  actions : List Action := []
  deriving DecidableEq, Repr

namespace Discovery

/-- The search after a visit. -/
def after (d : Discovery) (v : Visit) : Discovery where
  visited := d.visited ++ v.file?.toList.map (·.absPath)
  collected := d.collected ++ v.file?.toList
  actions := d.actions ++ v.actions

/-- Adds the paths of a list one after the other, up to the first failure. -/
def addEach (add : Path → Discovery → Option (Except FileError Unit × Discovery)) :
    List Path → Discovery → Option (Except FileError Unit × Discovery)
  | [], d => some (.ok (), d)
  | p :: ps, d =>
    match add p d with
    | some (.ok (), d) => addEach add ps d
    | stopped => stopped

/-- Adds the file at `p` and all that it depends on, following chains of at most `depth` references,
the first one being `p` itself. -/
def add (fs : FileSystem) (cwd : Path) :
    (depth : Nat) → Path → Discovery → Option (Except FileError Unit × Discovery)
  | 0, _, _ => none
  | depth + 1, p, d =>
    let v := visit fs cwd d.visited p
    match v.result with
    | .error e => some (.error e, d.after v)
    | .ok references => addEach (add fs cwd depth) references (d.after v)

end Discovery

/-- The files that the module map at `root` depends on, seen from `cwd`, itself first, and what was
done to find them. -/
def dependencies (fs : FileSystem) (cwd : Path) (depth : Nat) (root : Path) :
    Option (Except FileError (List ModuleMapFile) × List Action) :=
  (Discovery.add fs cwd depth root {}).map fun (result, d) => (result.map fun _ => d.collected, d.actions)

end ModuleDeps
