import ModuleDeps.Declaration.Grammar
import ModuleDeps.Module.Builder
import ModuleDeps.Module.Printer
import ModuleDeps.Token.Lexer

/-!
# Module maps

A module map is a list of modules. It is read from a text in three steps: the text is cut into
tokens, the tokens are read as declarations, and the modules are built from the declarations. It is
written as its modules, one after the other.
-/

namespace ModuleDeps

/-- The modules of a file, in the order in which they are written. -/
structure ModuleMap where
  /-- The modules outside of all others. -/
  modules : List Module
  deriving DecidableEq, Repr, Inhabited

/-- Why a text is no module map. -/
inductive SyntaxError where
  /-- The text cannot be cut into tokens. -/
  | lex (error : LexError)
  /-- The tokens are no declarations. -/
  | parse (error : ParseError)
  deriving DecidableEq, Repr

namespace ModuleMap

/-- All modules of the map, depth first. -/
def walk (m : ModuleMap) : List Module := Module.walkList m.modules

/-- The files of the modules that other module maps declare, depth first. -/
def externFilenames (m : ModuleMap) : List String :=
  (m.walk.map (·.info.externFilename)).filter (· ≠ "")

/-- The text of the map. -/
def text (m : ModuleMap) : String := Module.textListAt 0 m.modules

instance : ToString ModuleMap := ⟨text⟩

/-- The map with the module that is read from one more declaration. -/
def addDecl (m : ModuleMap) (d : Decl) : ModuleMap :=
  match d.build? with
  | some module => ⟨m.modules ++ [module]⟩
  | none => m

/-- The map that is read from the declarations of a file. -/
def build (decls : List Decl) : ModuleMap := decls.foldl addDecl ⟨[]⟩

/-- The map that is read from a token list. -/
def ofTokens (ts : List Token) : Except ParseError ModuleMap := (Decl.ofTokens ts).map build

/-- The map that is read from a text. -/
def ofText (content : String) : Except SyntaxError ModuleMap := do
  let ts ← (tokenize content).mapError .lex
  (ofTokens ts).mapError .parse

end ModuleMap

end ModuleDeps
