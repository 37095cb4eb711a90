import ModuleDeps.Module

/-!
# Writing modules

A module tree is written as the declarations that denote it, two spaces deeper at each level, and
the members of a module in a fixed order: required features, headers, umbrella directories,
submodules, and then exports, further names, uses, links, configuration macros and conflicts.
Names and quoted texts are written as they are, without escapes.

What does not go together is left out: of a module that another module map declares only its name
and its file are written, and of an inferred submodule no submodules.
-/

namespace ModuleDeps

/-- A text between quotes. -/
def quoted (s : String) : String := "\"" ++ s ++ "\""

/-- The word with a space behind it, if it is to be written. -/
def wordIf (b : Bool) (word : String) : String := if b then word ++ " " else ""

/-- A feature, with a `!` in front of it if it has to be absent. -/
def Feature.text (f : Feature) : String := if f.isPositive then f.name else "!" ++ f.name

/-- The expected size and modification time of a header, in braces. -/
def Header.properties (h : Header) : String :=
  match h.size, h.mtime with
  | none, none => ""
  | some s, none => " \x7b size " ++ s ++ " \x7d"
  | none, some t => " \x7b mtime " ++ t ++ " \x7d"
  | some s, some t => " \x7b size " ++ s ++ " mtime " ++ t ++ " \x7d"

/-- The declaration of a header. -/
def Header.text (h : Header) : String :=
  wordIf h.isUmbrella "umbrella" ++ wordIf h.isExclude "exclude" ++ wordIf h.isPrivate "private" ++
    wordIf h.isTextual "textual" ++ "header " ++ quoted h.name ++ h.properties

/-- The declaration of a link. -/
def Link.text (l : Link) : String := "link " ++ wordIf l.isFramework "framework" ++ quoted l.name

/-- Attributes in brackets, with a space behind each. -/
def attributesText (names : List String) : String :=
  String.join (names.map fun name => "[" ++ name ++ "] ")

/-- The declaration of configuration macros. -/
def ConfigMacros.text (c : ConfigMacros) : String :=
  "config_macros " ++ attributesText c.attributes ++ String.intercalate ", " c.macros

/-- The declaration of a conflict. -/
def Conflict.text (c : Conflict) : String := "conflict " ++ c.moduleId ++ ", " ++ quoted c.reason

namespace ModuleInfo

/-- The declaration of a module that another module map declares. -/
def externText (i : ModuleInfo) : String := "extern module " ++ i.id ++ " " ++ quoted i.externFilename

/-- The line that opens a module's body. -/
def head (i : ModuleInfo) : String :=
  wordIf i.isExplicit "explicit" ++ wordIf i.isFramework "framework" ++ "module " ++ i.id ++ " " ++
    attributesText i.attributes ++ "\x7b"

/-- The declarations in front of the submodules. -/
def before (i : ModuleInfo) : List String :=
  (if i.requires.isEmpty then []
    else ["requires " ++ String.intercalate ", " (i.requires.map Feature.text)]) ++
  i.headers.map Header.text ++
  i.umbrellaDirs.map (fun dir => "umbrella " ++ quoted dir)

/-- The declarations behind the submodules. -/
def behind (i : ModuleInfo) : List String :=
  i.exports.map ("export " ++ ·) ++
  i.exportAs.map ("export_as " ++ ·) ++
  i.uses.map ("use " ++ ·) ++
  i.links.map Link.text ++
  i.configMacros.map ConfigMacros.text ++
  i.conflicts.map Conflict.text

end ModuleInfo

/-- A line at a level, with its line feed. -/
def indented (level : Nat) (line : String) : String :=
  String.ofList (List.replicate (2 * level) ' ') ++ line ++ "\n"

/-- Lines at one level. -/
def indentedAll (level : Nat) (lines : List String) : String := String.join (lines.map (indented level))

namespace Module

mutual

/-- The declaration of a module at a level. -/
def textAt (level : Nat) : Module → String
  | ⟨i, ms⟩ =>
    if i.isExtern then
      indented level i.externText
    else
      indented level i.head ++
      indentedAll (level + 1) i.before ++
      (if i.isInferred then indentedAll (level + 1) (if i.exportsAll then ["export *"] else [])
        else textListAt (level + 1) ms) ++
      indentedAll (level + 1) i.behind ++
      indented level "\x7d"

/-- The declarations of modules at a level. -/
def textListAt (level : Nat) : List Module → String
  | [] => ""
  | m :: ms => m.textAt level ++ textListAt level ms

end

/-- The declaration of a module. -/
def text (m : Module) : String := m.textAt 0

instance : ToString Module := ⟨text⟩

end Module

end ModuleDeps
