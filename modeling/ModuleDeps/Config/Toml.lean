import ModuleDeps.Config
import ModuleDeps.Text.Utf8
import ModuleDeps.Toml.Document

/-!
# Configuration files

A configuration is kept in a TOML file. Each setting is a whole number under its own key and has a
default; keys that are no settings are ignored, though the whole file has to be well formed. The
integers of TOML have a sign and 64 bits, so a larger setting cannot be written.
-/

namespace ModuleDeps

namespace Config

/-- A setting in a table: an integer that is not negative, or the default if there is none. -/
def setting? (t : Toml.Table) (key : String) (default : Nat) : Option Nat :=
  match t.lookup key with
  | none => some default
  | some (.integer n) => if 0 ≤ n then some n.toNat else none
  | some _ => none

/-- The configuration that a table holds. -/
def ofTable? (t : Toml.Table) : Option Config := do
  let defaults : Config := {}
  some {
    maxEntries := ← setting? t "max_entries" defaults.maxEntries
    staleSlackMs := ← setting? t "stale_slack_ms" defaults.staleSlackMs
    maxFileSize := ← setting? t "max_file_size" defaults.maxFileSize }

/-- The configuration in a file, given the bytes of the file if it exists. -/
def ofFile? (file : Option (List UInt8)) : Option Config := do
  ofTable? (← Toml.Table.ofText? (← Utf8.decode? (← file)))

/-- The configuration in a file, or the default one if the file cannot be read. -/
def ofFileOrDefault (file : Option (List UInt8)) : Config := (ofFile? file).getD {}

/-- The line of a file that holds a setting. -/
def settingLine? (key : String) (n : Nat) : Option String :=
  if n ≤ Toml.maxInteger then some (key ++ " = " ++ Nat.repr n ++ "\n") else none

/-- The text of a file that holds the configuration. -/
def text? (c : Config) : Option String := do
  let maxEntries ← settingLine? "max_entries" c.maxEntries
  let staleSlackMs ← settingLine? "stale_slack_ms" c.staleSlackMs
  let maxFileSize ← settingLine? "max_file_size" c.maxFileSize
  some (maxEntries ++ staleSlackMs ++ maxFileSize)

end Config

end ModuleDeps
