/-!
# Modules

The tree that a module map denotes. A module holds what is declared of it, each kind of member in
the order in which it is written, and its submodules. The fields of a module are independent of
each other, so a tree may hold combinations that no module map can declare, such as a header that
is both an umbrella and excluded.
-/

namespace ModuleDeps

/-- A feature that a module requires, or requires to be absent. -/
structure Feature where
  /-- The name of the feature. -/
  name : String
  /-- The feature has to be there; `false` where it is written with a `!`. -/
  isPositive : Bool
  deriving DecidableEq, Repr, Inhabited

/-- A header of a module. -/
structure Header where
  /-- The file name between the quotes. -/
  name : String
  /-- It stands for all headers of its directory. -/
  isUmbrella : Bool := false
  /-- It is left out of the module. -/
  isExclude : Bool := false
  /-- It is not for users of the module. -/
  isPrivate : Bool := false
  /-- It is included as text. -/
  isTextual : Bool := false
  /-- The expected size, in digits. -/
  size : Option String := none
  /-- The expected modification time, in digits. -/
  mtime : Option String := none
  deriving DecidableEq, Repr, Inhabited

/-- A library to link. -/
structure Link where
  /-- The name of the library. -/
  name : String
  /-- The library is a framework. -/
  isFramework : Bool
  deriving DecidableEq, Repr, Inhabited

/-- Macros that change the meaning of a module. -/
structure ConfigMacros where
  /-- The attributes of the list. -/
  attributes : List String := []
  /-- The names of the macros. -/
  macros : List String := []
  deriving DecidableEq, Repr, Inhabited

/-- A module that cannot be used together with this one. -/
structure Conflict where
  /-- The name of the other module. -/
  moduleId : String
  /-- Why the two do not go together. -/
  reason : String
  deriving DecidableEq, Repr, Inhabited

/-- What is declared of a module, its submodules apart. -/
structure ModuleInfo where
  /-- The name, with dots between its parts; `*` for an inferred submodule. -/
  id : String := ""
  /-- The attributes behind the name. -/
  attributes : List String := []
  /-- The module has to be imported by name. -/
  isExplicit : Bool := false
  /-- The module is a framework. -/
  isFramework : Bool := false
  /-- The features of all `requires` lists. -/
  requires : List Feature := []
  /-- The headers. -/
  headers : List Header := []
  /-- The umbrella directories. -/
  umbrellaDirs : List String := []
  /-- The names of the exported modules; a name may end in `*`. -/
  exports : List String := []
  /-- The modules whose interface this module is part of. -/
  exportAs : List String := []
  /-- The modules that this module uses. -/
  uses : List String := []
  /-- The libraries to link. -/
  links : List Link := []
  /-- The lists of configuration macros. -/
  configMacros : List ConfigMacros := []
  /-- The conflicts with other modules. -/
  conflicts : List Conflict := []
  /-- The module is declared in another module map. -/
  isExtern : Bool := false
  /-- The module map that declares it, if it is declared in another one; else empty. -/
  externFilename : String := ""
  /-- The module stands for one submodule for each header of an umbrella. -/
  isInferred : Bool := false
  /-- The inferred submodules export what they import. -/
  exportsAll : Bool := false
  deriving DecidableEq, Repr, Inhabited

/-- A module with its submodules. -/
structure Module where
  /-- What is declared of the module itself. -/
  info : ModuleInfo
  /-- The submodules, in the order in which they are written. -/
  submodules : List Module := []
  deriving Repr, Inhabited

namespace Module

/-! ### Equality of trees -/

mutual

/-- Two trees are equal in all fields of all modules. -/
def beq : Module → Module → Bool
  | ⟨i, ms⟩, ⟨j, ns⟩ => i == j && beqList ms ns

/-- Two lists of trees are equal. -/
def beqList : List Module → List Module → Bool
  | [], [] => true
  | m :: ms, n :: ns => m.beq n && beqList ms ns
  | _, _ => false

end

mutual

theorem beq_iff_eq : ∀ {m n : Module}, m.beq n = true ↔ m = n
  | ⟨i, ms⟩, ⟨j, ns⟩ => by simp [beq, beqList_iff_eq]

theorem beqList_iff_eq : ∀ {ms ns : List Module}, beqList ms ns = true ↔ ms = ns
  | [], [] => by simp [beqList]
  | [], _ :: _ => by simp [beqList]
  | _ :: _, [] => by simp [beqList]
  | m :: ms, n :: ns => by simp [beqList, @beq_iff_eq m, @beqList_iff_eq ms]

end

instance : DecidableEq Module := fun m n =>
  if h : m.beq n = true then isTrue (beq_iff_eq.mp h) else isFalse fun e => h (beq_iff_eq.mpr e)

/-! ### Walking the tree -/

mutual

/-- The module and all modules below it, depth first. -/
def walk : Module → List Module
  | ⟨i, ms⟩ => ⟨i, ms⟩ :: walkList ms

/-- The modules of some trees, one tree after the other. -/
def walkList : List Module → List Module
  | [] => []
  | m :: ms => m.walk ++ walkList ms

end

/-- The module has the attribute. -/
def hasAttribute (m : Module) (name : String) : Bool := m.info.attributes.contains name

end Module

end ModuleDeps
