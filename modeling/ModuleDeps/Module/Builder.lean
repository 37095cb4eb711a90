import ModuleDeps.Declaration

/-!
# Building modules

How the tree of a module map comes about as its declarations are read. A module starts out with its
head, and the members of its body are added to it one after the other; a submodule is added when its
own body has been read. Names are put together part by part, and a header starts out as no header in
particular and takes on what is said of it.
-/

namespace ModuleDeps

/-! ### Names -/

/-- The name, with a dot put in front of each further part. -/
def DottedName.joined (n : DottedName) : String :=
  n.more.foldl (fun text part => text.push '.' ++ part) n.first

/-- The exported name, with its star put behind it. -/
def ExportName.joined : ExportName → String
  | all => "".push '*'
  | one n => n.joined
  | below n => (n.joined.push '.').push '*'

/-! ### Headers -/

namespace Header

/-- The header with the words in front of `header` taken in. -/
def qualify (h : Header) : HeaderForm → Header
  | .umbrella => { h with isUmbrella := true }
  | .exclude => { h with isExclude := true }
  | .plain isPrivate isTextual => { h with isPrivate, isTextual }

/-- The header with an expected property taken in. -/
def expecting (h : Header) : HeaderProperty → Header
  | .size digits => { h with size := some digits }
  | .mtime digits => { h with mtime := some digits }

/-- The header that is read from the parts of its declaration. -/
def build (form : HeaderForm) (name : String) (braces : Option (Option HeaderProperty)) : Header :=
  let header := { Header.qualify { name := "" } form with name }
  match braces with
  | some (some property) => header.expecting property
  | some none | none => header

end Header

/-! ### Modules -/

namespace ModuleInfo

/-- A module whose head has been read. -/
def ofHead (isExplicit isFramework : Bool) (id : String) (attributes : List String) : ModuleInfo :=
  { isExplicit, isFramework, id, attributes }

/-- The module with one more required feature. -/
def addFeature (i : ModuleInfo) (feature : Feature) : ModuleInfo :=
  { i with requires := i.requires ++ [feature] }

/-- The module with a member added that is no submodule. -/
def addMember (i : ModuleInfo) : Decl → ModuleInfo
  | .requires first more => more.foldl addFeature (i.addFeature first)
  | .header form name braces => { i with headers := i.headers ++ [.build form name braces] }
  | .umbrellaDir name => { i with umbrellaDirs := i.umbrellaDirs ++ [name] }
  | .exports name => { i with exports := i.exports ++ [name.joined] }
  | .exportAs name => { i with exportAs := i.exportAs ++ [name] }
  | .use name => { i with uses := i.uses ++ [name] }
  | .link isFramework name => { i with links := i.links ++ [{ name, isFramework }] }
  | .configMacros attributes macros =>
    { i with configMacros := i.configMacros ++ [{ attributes, macros }] }
  | .conflict name reason =>
    { i with conflicts := i.conflicts ++ [{ moduleId := name.joined, reason }] }
  | .external .. | .inferred .. | .regular .. => i

/-- The inferred submodule with one more `export *` read in its body. -/
def addExportAll (i : ModuleInfo) : ModuleInfo := { i with exportsAll := true }

end ModuleInfo

/-- The module with a member added, which is the submodule `sub?` if there is one. -/
def Module.addMember (m : Module) (d : Decl) (sub? : Option Module) : Module :=
  match sub? with
  | some sub => { m with submodules := m.submodules ++ [sub] }
  | none => { m with info := m.info.addMember d }

mutual

/-- The module that is read from a declaration, if it declares one. -/
def Decl.build? : Decl → Option Module
  | .external name file =>
    some { info := { isExtern := true, id := name.joined, externFilename := file } }
  | .inferred isExplicit isFramework attributes exportCount =>
    let head := { ModuleInfo.ofHead isExplicit isFramework "*" attributes with isInferred := true }
    some { info := exportCount.repeat ModuleInfo.addExportAll head }
  | .regular isExplicit isFramework name attributes members =>
    some (Module.addMembers { info := .ofHead isExplicit isFramework name.joined attributes } members)
  | _ => none

/-- The module with the members of its body added one after the other. -/
def Module.addMembers (m : Module) : List Decl → Module
  | [] => m
  | d :: ds => Module.addMembers (m.addMember d d.build?) ds

end

end ModuleDeps
