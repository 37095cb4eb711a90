import ModuleDeps.ModuleMap

/-!
# The tree that declarations denote

A module holds each kind of member apart, in the order in which the members are written; lists of
required features are put together, and the flags say which words stand in front. `Module.ofDecls`
is this tree, read off the declarations kind by kind. Building adds the members to a module one
after the other instead, and comes to the same tree (`ModuleMap.ofTokens_eq`).
-/

namespace ModuleDeps

/-! ### Names -/

/-- The identifiers with dots between them. -/
def DottedName.text (n : DottedName) : String := String.intercalate "." (n.first :: n.more)

/-- The exported name as it is written. -/
def ExportName.text : ExportName → String
  | all => "*"
  | one n => n.text
  | below n => n.text ++ ".*"

namespace Decl

/-! ### What a member adds to its module -/

/-- The header that the form, the name and the property denote. -/
def headerOf (form : HeaderForm) (name : String) (property : Option HeaderProperty) : Header where
  name := name
  isUmbrella := form == .umbrella
  isExclude := form == .exclude
  isPrivate := match form with | .plain p _ => p | _ => false
  isTextual := match form with | .plain _ t => t | _ => false
  size := match property with | some (.size n) => some n | _ => none
  mtime := match property with | some (.mtime n) => some n | _ => none

/-- The features that a declaration requires. -/
def features : Decl → List Feature
  | requires f fs => f :: fs
  | _ => []

/-- The header that a declaration declares. -/
def header? : Decl → Option Header
  | header form name braces => some (headerOf form name braces.join)
  | _ => none

/-- The umbrella directory that a declaration names. -/
def umbrellaDir? : Decl → Option String
  | umbrellaDir name => some name
  | _ => none

/-- The name that a declaration exports. -/
def export? : Decl → Option String
  | exports name => some name.text
  | _ => none

/-- The name that a declaration exports its module as. -/
def exportAs? : Decl → Option String
  | exportAs name => some name
  | _ => none

/-- The module that a declaration uses. -/
def use? : Decl → Option String
  | use name => some name
  | _ => none

/-- The library that a declaration links. -/
def link? : Decl → Option Link
  | link isFramework name => some ⟨name, isFramework⟩
  | _ => none

/-- The configuration macros that a declaration lists. -/
def configMacros? : Decl → Option ConfigMacros
  | configMacros attributes macros => some ⟨attributes, macros⟩
  | _ => none

/-- The conflict that a declaration states. -/
def conflict? : Decl → Option Conflict
  | conflict name reason => some ⟨name.text, reason⟩
  | _ => none

end Decl

/-! ### The tree that declarations denote -/

/-- What a module's head and the members of its body declare of it. -/
def ModuleInfo.ofMembers (isExplicit isFramework : Bool) (name : DottedName) (attributes : List String)
    (members : List Decl) : ModuleInfo where
  id := name.text
  attributes := attributes
  isExplicit := isExplicit
  isFramework := isFramework
  requires := members.flatMap Decl.features
  headers := members.filterMap Decl.header?
  umbrellaDirs := members.filterMap Decl.umbrellaDir?
  exports := members.filterMap Decl.export?
  exportAs := members.filterMap Decl.exportAs?
  uses := members.filterMap Decl.use?
  links := members.filterMap Decl.link?
  configMacros := members.filterMap Decl.configMacros?
  conflicts := members.filterMap Decl.conflict?

/-- What is declared of a module that another module map declares. -/
def ModuleInfo.external (name : DottedName) (file : String) : ModuleInfo where
  id := name.text
  isExtern := true
  externFilename := file

/-- What is declared of an inferred submodule. -/
def ModuleInfo.inferred (isExplicit isFramework : Bool) (attributes : List String) (exportCount : Nat) :
    ModuleInfo where
  id := "*"
  attributes := attributes
  isExplicit := isExplicit
  isFramework := isFramework
  isInferred := true
  exportsAll := exportCount != 0

mutual

/-- The module that a declaration declares, if it declares one. -/
def Decl.module? : Decl → Option Module
  | .external name file => some ⟨.external name file, []⟩
  | .inferred isExplicit isFramework attributes exportCount =>
    some ⟨.inferred isExplicit isFramework attributes exportCount, []⟩
  | .regular isExplicit isFramework name attributes members =>
    some ⟨.ofMembers isExplicit isFramework name attributes members, Module.ofDecls members⟩
  | _ => none

/-- The modules that declarations declare, in their order. -/
def Module.ofDecls : List Decl → List Module
  | [] => []
  | d :: ds => d.module?.toList ++ Module.ofDecls ds

end

/-! ### Building comes to this tree -/

/-- Further parts of a name are put behind a dot each. -/
theorem foldl_push_dot (s : String) (ss : List String) :
    ss.foldl (fun text part => text.push '.' ++ part) s = String.intercalate "." (s :: ss) := by
  induction ss generalizing s with
  | nil => rfl
  | cons t ss ih =>
    rw [List.foldl_cons, ih, String.push_eq_append]
    rfl

theorem DottedName.joined_eq (n : DottedName) : n.joined = n.text := foldl_push_dot n.first n.more

theorem ExportName.joined_eq (name : ExportName) : name.joined = name.text := by
  cases name with
  | all => rfl
  | one n => exact n.joined_eq
  | below n =>
    rw [joined, text, n.joined_eq, String.push_eq_append, String.push_eq_append, String.append_assoc]
    rfl

theorem Header.build_eq (form : HeaderForm) (name : String)
    (braces : Option (Option HeaderProperty)) :
    Header.build form name braces = Decl.headerOf form name braces.join := by
  rcases braces with - | - | (digits | digits) <;> cases form <;> rfl

namespace ModuleInfo

/-- The module with all that the members of a body say of it put behind what it has. -/
def extend (i : ModuleInfo) (members : List Decl) : ModuleInfo :=
  { i with
    requires := i.requires ++ members.flatMap Decl.features
    headers := i.headers ++ members.filterMap Decl.header?
    umbrellaDirs := i.umbrellaDirs ++ members.filterMap Decl.umbrellaDir?
    exports := i.exports ++ members.filterMap Decl.export?
    exportAs := i.exportAs ++ members.filterMap Decl.exportAs?
    uses := i.uses ++ members.filterMap Decl.use?
    links := i.links ++ members.filterMap Decl.link?
    configMacros := i.configMacros ++ members.filterMap Decl.configMacros?
    conflicts := i.conflicts ++ members.filterMap Decl.conflict? }

theorem extend_nil (i : ModuleInfo) : i.extend [] = i := by
  simp only [extend, List.flatMap_nil, List.filterMap_nil, List.append_nil]

theorem extend_append (i : ModuleInfo) (ds es : List Decl) :
    i.extend (ds ++ es) = (i.extend ds).extend es := by
  simp [extend]

theorem foldl_addFeature (i : ModuleInfo) (fs : List Feature) :
    fs.foldl addFeature i = { i with requires := i.requires ++ fs } := by
  induction fs generalizing i with
  | nil => rw [List.foldl_nil, List.append_nil]
  | cons f fs ih =>
    rw [List.foldl_cons, ih, addFeature, List.append_assoc]
    rfl

/-- What a member says of its module is what is added for it. -/
theorem extend_singleton (i : ModuleInfo) (d : Decl) : i.extend [d] = i.addMember d := by
  cases d <;>
    simp [extend, addMember, foldl_addFeature, addFeature, Header.build_eq, ExportName.joined_eq,
      DottedName.joined_eq, List.filterMap_cons, Decl.features, Decl.header?, Decl.umbrellaDir?,
      Decl.export?, Decl.exportAs?, Decl.use?, Decl.link?, Decl.configMacros?, Decl.conflict?]

theorem extend_addMember (i : ModuleInfo) (d : Decl) (ds : List Decl) :
    (i.addMember d).extend ds = i.extend (d :: ds) := by
  rw [← extend_singleton, ← extend_append]
  rfl

/-- Submodules say nothing of their module. -/
theorem addMember_of_module? {d : Decl} {m : Module} (h : d.module? = some m) (i : ModuleInfo) :
    i.addMember d = i := by
  cases d with
  | external | inferred | regular => rfl
  | requires | header | umbrellaDir | exports | exportAs | use | link | configMacros | conflict =>
    cases h

theorem repeat_addExportAll (i : ModuleInfo) (n : Nat) :
    n.repeat addExportAll i = { i with exportsAll := i.exportsAll || n != 0 } := by
  induction n with
  | zero => simp [Nat.repeat]
  | succ n ih => simp [Nat.repeat, ih, addExportAll]

end ModuleInfo

mutual

/-- The module that is built from a declaration is the one that it declares. -/
theorem Decl.build?_eq : ∀ d : Decl, d.build? = d.module?
  | .external name file => by
    rw [Decl.build?, Decl.module?, ModuleInfo.external, DottedName.joined_eq]
  | .inferred e f as count => by
    rw [Decl.build?, Decl.module?, ModuleInfo.repeat_addExportAll]
    rfl
  | .regular e f name as members => by
    rw [Decl.build?, Decl.module?, Module.addMembers_eq _ members, DottedName.joined_eq]
    rfl
  | .requires .. | .header .. | .umbrellaDir .. | .exports .. | .exportAs .. | .use .. | .link ..
  | .configMacros .. | .conflict .. => rfl

/-- Adding the members of a body one after the other adds what all of them say. -/
theorem Module.addMembers_eq : ∀ (m : Module) (ds : List Decl),
    m.addMembers ds = ⟨m.info.extend ds, m.submodules ++ Module.ofDecls ds⟩
  | ⟨i, subs⟩, [] => by
    rw [Module.addMembers, ModuleInfo.extend_nil, Module.ofDecls, List.append_nil]
  | m, d :: ds => by
    rw [Module.addMembers, Module.addMembers_eq _ ds, Module.ofDecls, Decl.build?_eq d,
      ← ModuleInfo.extend_addMember]
    cases h : d.module? with
    | none => rfl
    | some sub => simp [Module.addMember, ModuleInfo.addMember_of_module? h]

end

namespace ModuleMap

theorem foldl_addDecl (m : ModuleMap) (ds : List Decl) :
    ds.foldl addDecl m = ⟨m.modules ++ Module.ofDecls ds⟩ := by
  induction ds generalizing m with
  | nil => rw [List.foldl_nil, Module.ofDecls, List.append_nil]
  | cons d ds ih =>
    rw [List.foldl_cons, ih, addDecl, Decl.build?_eq, Module.ofDecls]
    cases d.module? with
    | none => rfl
    | some sub => simp

/-- **The map that is built from declarations is the one that they denote.** -/
theorem build_eq (ds : List Decl) : build ds = ⟨Module.ofDecls ds⟩ := foldl_addDecl ⟨[]⟩ ds

theorem ofTokens_eq (ts : List Token) :
    ofTokens ts = (Decl.ofTokens ts).map fun ds => ⟨Module.ofDecls ds⟩ := by
  rw [ofTokens, funext build_eq]

end ModuleMap

end ModuleDeps
