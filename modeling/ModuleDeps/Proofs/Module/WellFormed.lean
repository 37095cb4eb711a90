import ModuleDeps.ModuleMap
import ModuleDeps.Proofs.Lexing.Lexeme

/-!
# Well-formed trees

A module tree keeps names as texts and has a field for all that may be declared of any module, so
there are trees that no module map declares. This is what sets the others apart, said of the tree
alone: texts that can be written where they stand (`IsDotted`, `IsQuotable` and so on), one form for
each header (`Header.WellFormed`), one of three kinds for each module (`Module.WellFormed`), and
bodies that do not nest too deep (`Module.nesting`).
-/

namespace ModuleDeps

/-! ### Texts -/

/-- The text is an identifier. -/
def IsIdentifier (s : String) : Prop := Token.IsWord s.toList

/-- The text is one identifier or more, with dots between them. -/
def IsDotted (s : String) : Prop :=
  ∃ words, words ≠ [] ∧ (∀ w ∈ words, IsIdentifier w) ∧ s = String.intercalate "." words

/-- The text names what can be exported: everything, a module, or the modules below one. -/
def IsExportable (s : String) : Prop := s = "*" ∨ IsDotted s ∨ ∃ name, IsDotted name ∧ s = name ++ ".*"

/-- The text can stand between quotes. -/
def IsQuotable (s : String) : Prop := Token.isRaw s.toList = true

/-- The text is one digit or more. -/
def IsNumeral (s : String) : Prop := Token.IsNumber s.toList

/-! ### Members -/

/-- The header is an umbrella, or left out, or any mix of private and textual; and not both its size
and its modification time are expected. -/
structure Header.WellFormed (h : Header) : Prop where
  name : IsQuotable h.name
  umbrella : h.isUmbrella = true →
    h.isExclude = false ∧ h.isPrivate = false ∧ h.isTextual = false
  exclude : h.isExclude = true → h.isPrivate = false ∧ h.isTextual = false
  size : ∀ digits, h.size = some digits → IsNumeral digits
  mtime : ∀ digits, h.mtime = some digits → IsNumeral digits
  property : h.size = none ∨ h.mtime = none

/-- The attributes and macros are identifiers. -/
structure ConfigMacros.WellFormed (c : ConfigMacros) : Prop where
  attributes : ∀ a ∈ c.attributes, IsIdentifier a
  macros : ∀ name ∈ c.macros, IsIdentifier name

/-- The other module is named, and the reason can be quoted. -/
structure Conflict.WellFormed (c : Conflict) : Prop where
  moduleId : IsDotted c.moduleId
  reason : IsQuotable c.reason

/-! ### Modules -/

/-- What can be declared of a module with a body. -/
structure ModuleInfo.Regular (i : ModuleInfo) : Prop where
  id : IsDotted i.id
  attributes : ∀ a ∈ i.attributes, IsIdentifier a
  requires : ∀ f ∈ i.requires, IsIdentifier f.name
  headers : ∀ h ∈ i.headers, h.WellFormed
  umbrellaDirs : ∀ dir ∈ i.umbrellaDirs, IsQuotable dir
  exports : ∀ name ∈ i.exports, IsExportable name
  exportAs : ∀ name ∈ i.exportAs, IsIdentifier name
  uses : ∀ name ∈ i.uses, IsIdentifier name
  links : ∀ l ∈ i.links, IsQuotable l.name
  configMacros : ∀ c ∈ i.configMacros, c.WellFormed
  /-- No list of macros but the last is empty. -/
  separated : ∀ c ∈ i.configMacros.dropLast, c.macros ≠ []
  conflicts : ∀ c ∈ i.conflicts, c.WellFormed
  isExtern : i.isExtern = false
  externFilename : i.externFilename = ""
  isInferred : i.isInferred = false
  exportsAll : i.exportsAll = false

/-- What can be declared of a module that another module map declares: its name and its file. -/
inductive ModuleInfo.Extern : ModuleInfo → Prop where
  /-- `extern module id "file"`. -/
  | mk {id file : String} (hid : IsDotted id) (hfile : IsQuotable file) :
    Extern { id := id, isExtern := true, externFilename := file }

/-- What can be declared of an inferred submodule: the words and attributes of its head, and whether
it exports what it imports. -/
inductive ModuleInfo.Inferred : ModuleInfo → Prop where
  /-- `explicit? framework? module * [attribute]`. -/
  | mk {isExplicit isFramework exportsAll : Bool} {attributes : List String}
    (h : ∀ a ∈ attributes, IsIdentifier a) :
    Inferred {
      id := "*"
      attributes := attributes
      isExplicit := isExplicit
      isFramework := isFramework
      isInferred := true
      exportsAll := exportsAll }

/-- Each module of the tree is of one of the three kinds that can be declared inside of a module. -/
inductive Module.WellFormed : Module → Prop where
  /-- A module with a body. -/
  | regular {i : ModuleInfo} {ms : List Module} (hi : i.Regular) (hms : ∀ m ∈ ms, m.WellFormed) :
    WellFormed ⟨i, ms⟩
  /-- A module that another module map declares. -/
  | external {i : ModuleInfo} (hi : i.Extern) : WellFormed ⟨i, []⟩
  /-- An inferred submodule. -/
  | inferred {i : ModuleInfo} (hi : i.Inferred) : WellFormed ⟨i, []⟩

mutual

/-- The most modules with a body on any way down from the module, itself among them. -/
def Module.nesting : Module → Nat
  | ⟨i, ms⟩ => if i.isExtern || i.isInferred then 0 else Module.nestingList ms + 1

/-- The most modules with a body on any way down from some modules. -/
def Module.nestingList : List Module → Nat
  | [] => 0
  | m :: ms => max m.nesting (Module.nestingList ms)

end

/-- The trees can stand together in a file: outside of all modules nothing is inferred, and at most
256 modules with a body are nested in each other. -/
def ModuleMap.WellFormed (m : ModuleMap) : Prop :=
  ∀ t ∈ m.modules, t.WellFormed ∧ t.info.isInferred = false ∧ t.nesting ≤ 256

end ModuleDeps
