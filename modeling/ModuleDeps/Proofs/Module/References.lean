import ModuleDeps.ModuleMap
import ModuleDeps.Proofs.Writing.Order

/-!
# The files that a module map refers to

A search takes the references of a module map from its tree, where each module keeps its own. In the
declarations they stand in the order in which they are written, at whatever depth of nesting, and
that is the order of the tree too (`externFilenames_ofDecls`). A reference to the empty name is none.
-/

namespace ModuleDeps

mutual

/-- The files that a declaration refers to, in the order in which they are written. -/
def Decl.references : Decl → List String
  | .external _ file => if file = "" then [] else [file]
  | .regular _ _ _ _ members => Decl.referencesList members
  | _ => []

/-- The files that declarations refer to, in the order in which they are written. -/
def Decl.referencesList : List Decl → List String
  | [] => []
  | d :: ds => d.references ++ Decl.referencesList ds

end

namespace ModuleMap

theorem externFilenames_append (ms ns : List Module) :
    (⟨ms ++ ns⟩ : ModuleMap).externFilenames =
      (⟨ms⟩ : ModuleMap).externFilenames ++ (⟨ns⟩ : ModuleMap).externFilenames := by
  simp only [externFilenames, walk, Module.walkList_append, List.map_append, List.filter_append]

/-- A module's own reference comes in front of those of its submodules. -/
theorem externFilenames_module (i : ModuleInfo) (ms : List Module) :
    (⟨[⟨i, ms⟩]⟩ : ModuleMap).externFilenames =
      (if i.externFilename = "" then [] else [i.externFilename]) ++
        (⟨ms⟩ : ModuleMap).externFilenames := by
  simp only [externFilenames, walk, Module.walkList, Module.walk, List.append_nil, List.map_cons]
  by_cases h : i.externFilename = ""
  · rw [List.filter_cons_of_neg (by simpa using h), if_pos h, List.nil_append]
  · rw [List.filter_cons_of_pos (by simpa using h), if_neg h, List.singleton_append]

mutual

/-- A declaration refers to the same files as its module. -/
theorem externFilenames_of_module? :
    ∀ d : Decl, (⟨d.module?.toList⟩ : ModuleMap).externFilenames = d.references
  | .external name file => (externFilenames_module (.external name file) []).trans (List.append_nil _)
  | .inferred .. => rfl
  | .regular _ _ _ _ ds => (externFilenames_module _ _).trans (externFilenames_ofDecls ds)
  | .requires .. | .header .. | .umbrellaDir .. | .exports .. | .exportAs .. | .use .. | .link .. |
    .configMacros .. | .conflict .. => rfl

/-- A tree refers to the files of its declarations, in the order in which they are written. -/
theorem externFilenames_ofDecls :
    ∀ ds : List Decl, (⟨Module.ofDecls ds⟩ : ModuleMap).externFilenames = Decl.referencesList ds
  | [] => rfl
  | d :: ds => by
    rw [Module.ofDecls, externFilenames_append, externFilenames_of_module? d,
      externFilenames_ofDecls ds, Decl.referencesList]

end

end ModuleMap

end ModuleDeps
