import ModuleDeps.Module
import ModuleDeps.Token

/-!
# Declarations

What a module map says, as it is written: the declarations of a file or of a module's body in
their order, with all that the writer is free to choose.
-/

namespace ModuleDeps

/-! ### Keywords -/

/-- The words that open or qualify a declaration. They are identifiers, and also usable as names. -/
inductive Keyword where
  /-- `config_macros`. -/
  | configMacros
  /-- `conflict`. -/
  | conflict
  /-- `exclude`. -/
  | exclude
  /-- `explicit`. -/
  | explicit
  /-- `export`. -/
  | exports
  /-- `export_as`. -/
  | exportAs
  /-- `extern`. -/
  | external
  /-- `framework`. -/
  | framework
  /-- `header`. -/
  | header
  /-- `link`. -/
  | link
  /-- `module`. -/
  | module
  /-- `mtime`. -/
  | mtime
  /-- `private`. -/
  | privately
  /-- `requires`. -/
  | requires
  /-- `size`. -/
  | size
  /-- `textual`. -/
  | textual
  /-- `umbrella`. -/
  | umbrella
  /-- `use`. -/
  | use
  deriving DecidableEq, Repr

namespace Keyword

/-- The word. -/
def text : Keyword → String
  | configMacros => "config_macros"
  | conflict => "conflict"
  | exclude => "exclude"
  | explicit => "explicit"
  | exports => "export"
  | exportAs => "export_as"
  | external => "extern"
  | framework => "framework"
  | header => "header"
  | link => "link"
  | module => "module"
  | mtime => "mtime"
  | privately => "private"
  | requires => "requires"
  | size => "size"
  | textual => "textual"
  | umbrella => "umbrella"
  | use => "use"

/-- All keywords. -/
def all : List Keyword :=
  [configMacros, conflict, exclude, explicit, exports, exportAs, external, framework, header, link,
    module, mtime, privately, requires, size, textual, umbrella, use]

/-- The identifier that spells the keyword. -/
def token (k : Keyword) : Token := .ident k.text

/-- The keyword that a token spells. -/
def ofToken? : Token → Option Keyword
  | .ident s => all.find? (·.text == s)
  | _ => none

/-- The keyword found under its own text is itself, so no two keywords share a text. -/
theorem find?_text (k : Keyword) : all.find? (·.text == k.text) = some k := by cases k <;> rfl

@[simp] theorem ofToken?_eq_some_iff {t : Token} {k : Keyword} : ofToken? t = some k ↔ t = k.token := by
  constructor
  · intro h
    cases t <;> simp only [ofToken?, reduceCtorEq] at h
    have := List.find?_some h
    simp only [beq_iff_eq] at this
    simp [token, this]
  · rintro rfl
    exact find?_text k

end Keyword

/-! ### Names -/

/-- A name of one or more identifiers. -/
structure DottedName where
  /-- The first identifier. -/
  first : String
  /-- The identifiers behind the dots. -/
  more : List String := []
  deriving DecidableEq, Repr

/-- What a module exports. -/
inductive ExportName where
  /-- All that it imports, `*`. -/
  | all
  /-- One module. -/
  | one (name : DottedName)
  /-- All modules below one, `a.b.*`. -/
  | below (name : DottedName)
  deriving DecidableEq, Repr

/-! ### Declarations -/

/-- How a header is qualified. -/
inductive HeaderForm where
  /-- `umbrella header`. -/
  | umbrella
  /-- `exclude header`. -/
  | exclude
  /-- `private? textual? header`. -/
  | plain (isPrivate isTextual : Bool)
  deriving DecidableEq, Repr

/-- An expected property of a header file. -/
inductive HeaderProperty where
  /-- Its size. -/
  | size (digits : String)
  /-- Its modification time. -/
  | mtime (digits : String)
  deriving DecidableEq, Repr

/-- A declaration of a module map. -/
inductive Decl where
  /-- `requires f, !g`. -/
  | requires (first : Feature) (more : List Feature)
  /-- A header. An expected property stands in braces, which may also be empty. -/
  | header (form : HeaderForm) (name : String) (braces : Option (Option HeaderProperty))
  /-- `umbrella "dir"`. -/
  | umbrellaDir (name : String)
  /-- `export name`. -/
  | exports (name : ExportName)
  /-- `export_as name`. -/
  | exportAs (name : String)
  /-- `use name`. -/
  | use (name : String)
  /-- `link framework? "name"`. -/
  | link (isFramework : Bool) (name : String)
  /-- `config_macros [attribute] a, b`. -/
  | configMacros (attributes macros : List String)
  /-- `conflict name, "reason"`. -/
  | conflict (name : DottedName) (reason : String)
  /-- `extern module name "file"`. -/
  | external (name : DottedName) (file : String)
  /-- `module *`, whose body says `export *` any number of times. -/
  | inferred (isExplicit isFramework : Bool) (attributes : List String) (exportCount : Nat)
  /-- A module with its body. -/
  | regular (isExplicit isFramework : Bool) (name : DottedName) (attributes : List String)
      (members : List Decl)
  deriving Repr

end ModuleDeps
