import ModuleDeps.FileSystem
import ModuleDeps.ModuleMap

/-!
# Errors

Why a module map cannot be had from a file, and why the module maps that it depends on cannot be
listed. Each error names the file that is at fault.
-/

namespace ModuleDeps

/-- Why a module map cannot be had from a file. -/
inductive FileError where
  /-- The path is not text. -/
  | notUtf8 (path : Path)
  /-- There is no such file. -/
  | missing (path : Path)
  /-- The path leads to a directory. -/
  | directory (path : Path)
  /-- The file is not read. -/
  | unreadable (path : Path) (failure : ReadFailure)
  /-- The content is no module map. -/
  | malformed (path : Path) (error : SyntaxError)
  deriving DecidableEq, Repr

namespace FileError

/-- The file at fault. -/
def path : FileError → Path
  | notUtf8 p | missing p | directory p | unreadable p _ | malformed p _ => p

/-- The error as it is reported. -/
def message : FileError → String
  | notUtf8 p => "Module map path is not valid UTF-8: " ++ p.display
  | missing p => "Module map file not found: " ++ p.display
  | directory p => "Module map path is a directory: " ++ p.display
  | unreadable p (.io _) => "Failed to read file: " ++ p.display
  | unreadable p .notRegular => "Not a regular file: " ++ p.display
  | unreadable p (.tooBig size limit) =>
    "File too large: " ++ p.display ++ " (" ++ toString size ++ " bytes, limit " ++ toString limit ++ ")"
  | malformed p (.lex _) => "Failed to lex module map: " ++ p.display
  | malformed p (.parse _) => "Failed to parse module map: " ++ p.display

end FileError

/-- The module maps that one depends on cannot be listed. -/
structure Unresolvable where
  /-- The module map in question. -/
  moduleMap : Path
  /-- What is wrong with it, or with one that it depends on. -/
  source : FileError
  deriving DecidableEq, Repr

namespace Unresolvable

/-- The file at fault. -/
def path (e : Unresolvable) : Path := e.source.path

/-- The error as it is reported. -/
def message (e : Unresolvable) : String :=
  "Could not determine dependencies for module map: " ++ e.moduleMap.display

end Unresolvable

/-- The module map that a file with the given content holds. -/
def ModuleMap.ofFile (path : Path) (content : String) : Except FileError ModuleMap :=
  (ModuleMap.ofText content).mapError (.malformed path)

end ModuleDeps
