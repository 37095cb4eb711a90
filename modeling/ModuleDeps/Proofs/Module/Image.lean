import ModuleDeps.Proofs.Lexing.Cutting
import ModuleDeps.Proofs.Module.Members
import ModuleDeps.Proofs.Writing.RoundTrip

/-!
# The trees that module maps denote

A tree is denoted by some module map if and only if it is well-formed (`exists_ofText_iff`). What is
read is well-formed because its declarations were cut from a text and are legible; this goes down the
declarations, one kind of declaration at a time. Conversely a well-formed tree is denoted by
declarations that are built from its leaves upwards, and their tokens are those of some text.

That text need not be the one that is written for the tree: lists of macros can be put behind the
conflicts when declarations are chosen for it, but they are written in front of them. The trees that
are read back from the text that is written for them are told apart by this alone
(`ofText_text_eq_self_iff`).
-/

namespace ModuleDeps

open Token Grammar Decl

/-! ### Nesting -/

theorem Module.nestingList_append (ms ns : List Module) :
    nestingList (ms ++ ns) = max (nestingList ms) (nestingList ns) := by
  induction ms with
  | nil => simp [nestingList]
  | cons m ms ih => rw [List.cons_append, nestingList, nestingList, ih, Nat.max_assoc]

namespace Decl

theorem nesting_of_module?_eq_none {d : Decl} (h : d.module? = none) : d.nesting = 0 := by
  cases d with
  | external | inferred | regular => cases h
  | requires | header | umbrellaDir | exports | exportAs | use | link | configMacros | conflict =>
    rfl

mutual

/-- Modules nest as their declarations do. -/
theorem nesting_of_module? : ∀ (d : Decl) {m : Module}, d.module? = some m → m.nesting = d.nesting
  | .external .., _, hm => by cases hm; rfl
  | .inferred .., _, hm => by cases hm; rfl
  | .regular _ _ _ _ ds, _, hm => by
    cases hm
    exact congrArg (· + 1) (nestingList_ofDecls ds)
  | .requires .., _, hm | .header .., _, hm | .umbrellaDir .., _, hm | .exports .., _, hm |
    .exportAs .., _, hm | .use .., _, hm | .link .., _, hm | .configMacros .., _, hm |
    .conflict .., _, hm => by cases hm

theorem nestingList_ofDecls :
    ∀ ds : List Decl, Module.nestingList (Module.ofDecls ds) = nestingList ds
  | [] => rfl
  | d :: ds => by
    rw [Module.ofDecls, Module.nestingList_append, nestingList_ofDecls ds, nestingList]
    cases hm : d.module? with
    | none =>
      rw [nesting_of_module?_eq_none hm]
      rfl
    | some m =>
      rw [← nesting_of_module? d hm]
      simp [Module.nestingList]

end

/-! ### What is declared is well-formed -/

mutual

theorem wellFormed_of_module? : ∀ (d : Decl) {m : Module}, d.module? = some m → Lexed d.tokens →
    d.Legible → m.WellFormed
  | .external name file, _, hm, h, _ => by
    cases hm
    obtain ⟨hname, hfile⟩ : Lexed name.tokens ∧ IsQuotable file := by simpa [tokens] using h
    exact .external (.mk (isDotted_iff.mpr ⟨name, rfl, hname⟩) hfile)
  | .inferred e f as k, _, hm, h, _ => by
    cases hm
    have has : ∀ a ∈ as, IsIdentifier a := by simpa [tokens] using h
    exact .inferred (.mk has)
  | .regular e f name as ds, _, hm, h, hlegible => by
    cases hm
    obtain ⟨hname, has, hds⟩ :
        Lexed name.tokens ∧ Lexed (attributeTokens as) ∧ Lexed (tokensList ds) := by
      simpa [tokens] using h
    exact .regular (regular_ofMembers e f hname has hds.each hlegible)
      (wellFormed_ofDecls ds hds.each (legibleList_iff.mp hlegible).2)
  | .requires .., _, hm, _, _ | .header .., _, hm, _, _ | .umbrellaDir .., _, hm, _, _ |
    .exports .., _, hm, _, _ | .exportAs .., _, hm, _, _ | .use .., _, hm, _, _ |
    .link .., _, hm, _, _ | .configMacros .., _, hm, _, _ | .conflict .., _, hm, _, _ => by cases hm

theorem wellFormed_ofDecls : ∀ ds : List Decl, (∀ d ∈ ds, Lexed d.tokens) → (∀ d ∈ ds, d.Legible) →
    ∀ m ∈ Module.ofDecls ds, m.WellFormed
  | [], _, _ => nofun
  | d :: ds, h, hlegible => by
    obtain ⟨hd, hds⟩ := List.forall_mem_cons.mp h
    obtain ⟨hld, hlds⟩ := List.forall_mem_cons.mp hlegible
    intro m hm
    rcases List.mem_append.mp hm with hm | hm
    · exact wellFormed_of_module? d (Option.mem_toList.mp hm) hd hld
    · exact wellFormed_ofDecls ds hds hlds m hm

end

end Decl

/-! ### What is well-formed can be declared -/

/-- Each well-formed module is denoted by a legible declaration. -/
theorem Module.WellFormed.exists_decl {m : Module} (h : m.WellFormed) :
    ∃ d : Decl, d.module? = some m ∧ Lexed d.tokens ∧ d.Legible := by
  induction h with
  | @regular i ms hi _ ih =>
    obtain ⟨subs, rfl, hsubs⟩ := exists_filterMap_eq ih
    obtain ⟨name, ds, hinfo, hmodules, hname, hds, hlegible⟩ :=
      hi.exists_ofMembers (fun d hd => (hsubs d hd).1) (fun d hd => (hsubs d hd).2)
    refine ⟨.regular i.isExplicit i.isFramework name i.attributes ds, ?_, ?_, hlegible⟩
    · rw [module?, hinfo, hmodules, ofDecls_eq_filterMap]
    · simpa [tokens, tokensList_eq_flatMap, hname] using And.intro hi.attributes hds
  | external hi =>
    obtain ⟨hid, hfile⟩ := hi
    obtain ⟨name, rfl, hname⟩ := isDotted_iff.mp hid
    exact ⟨.external name _, rfl, by simpa [tokens, hname] using hfile, trivial⟩
  | inferred hi =>
    obtain ⟨has⟩ := hi
    rename_i e f all as
    refine ⟨.inferred e f as all.toNat, ?_, by simpa [tokens] using has, trivial⟩
    cases all <;> rfl

/-! ### Files -/

theorem Decl.isTopLevel_iff {d : Decl} {m : Module} (h : d.module? = some m) :
    d.isTopLevel = true ↔ m.info.isInferred = false := by
  cases d with
  | external | inferred | regular =>
    cases h
    simp [isTopLevel, ModuleInfo.external, ModuleInfo.inferred, ModuleInfo.ofMembers]
  | requires | header | umbrellaDir | exports | exportAs | use | link | configMacros | conflict =>
    cases h

namespace ModuleMap

/-- The well-formed maps are those of declarations that can be cut from a text and read. -/
theorem wellFormed_iff {m : ModuleMap} : m.WellFormed ↔ ∃ ds, m = ⟨Module.ofDecls ds⟩ ∧
    Lexed (tokensList ds) ∧
    ∀ d ∈ ds, d.isTopLevel = true ∧ d.nesting ≤ Rule.maxNesting ∧ d.Legible := by
  constructor
  · intro h
    have hdecl : ∀ t ∈ m.modules, ∃ d : Decl, d.module? = some t ∧ Lexed d.tokens ∧
        d.isTopLevel = true ∧ d.nesting ≤ Rule.maxNesting ∧ d.Legible := by
      intro t ht
      obtain ⟨hwf, hinferred, hnesting⟩ := h t ht
      obtain ⟨d, hd, hlex, hlegible⟩ := hwf.exists_decl
      exact ⟨d, hd, hlex, (isTopLevel_iff hd).mpr hinferred, nesting_of_module? d hd ▸ hnesting,
        hlegible⟩
    obtain ⟨ds, hds, hall⟩ := exists_filterMap_eq hdecl
    refine ⟨ds, ?_, ?_, fun d hd => (hall d hd).2⟩
    · rw [ofDecls_eq_filterMap, hds]
    · rw [tokensList_eq_flatMap, lexed_flatMap_iff]
      exact fun d hd => (hall d hd).1
  · rintro ⟨ds, rfl, hlex, hds⟩ t ht
    rw [ofDecls_eq_filterMap] at ht
    obtain ⟨d, hd, hdt⟩ := List.mem_filterMap.mp ht
    obtain ⟨htop, hnesting, hlegible⟩ := hds d hd
    exact ⟨wellFormed_of_module? d hdt (hlex.each d hd) hlegible, (isTopLevel_iff hdt).mp htop,
      nesting_of_module? d hdt ▸ hnesting⟩

theorem wellFormed_of_ofText {content : String} {m : ModuleMap} (h : ofText content = .ok m) :
    m.WellFormed := by
  obtain ⟨ts, ds, hcut, hfile, rfl⟩ := ofText_eq_ok_iff.mp h
  obtain ⟨rfl, hds⟩ := file_iff.mp hfile
  exact wellFormed_iff.mpr ⟨ds, rfl, hcut.isLexeme, hds⟩

theorem WellFormed.exists_content {m : ModuleMap} (h : m.WellFormed) :
    ∃ content, ofText content = .ok m := by
  obtain ⟨ds, rfl, hlex, hds⟩ := wellFormed_iff.mp h
  obtain ⟨cs, hcut⟩ := exists_cut hlex
  rw [← String.toList_ofList (l := cs)] at hcut
  exact ⟨.ofList cs, ofText_eq_ok_iff.mpr ⟨_, ds, hcut, file_iff.mpr ⟨rfl, hds⟩, rfl⟩⟩

/-- **A tree is denoted by some module map exactly if it is well-formed.** -/
theorem exists_ofText_iff (m : ModuleMap) : (∃ content, ofText content = .ok m) ↔ m.WellFormed := by
  constructor
  · rintro ⟨content, h⟩
    exact wellFormed_of_ofText h
  · exact WellFormed.exists_content

/-! ### Maps that can be written -/

/-- The map is well-formed, and no list of macros is empty in a module with conflicts, which are
written behind it. -/
def Printable (m : ModuleMap) : Prop := m.WellFormed ∧ ∀ sub ∈ m.walk, sub.info.Separates

/-- **A map is read back from its text exactly if it is printable**, however it was built. -/
theorem ofText_text_eq_self_iff (m : ModuleMap) : ofText m.text = .ok m ↔ m.Printable := by
  constructor
  · intro h
    have hm : m.WellFormed := wellFormed_of_ofText h
    refine ⟨hm, ?_⟩
    obtain ⟨ds, rfl, hlex, hds⟩ := wellFormed_iff.mp hm
    exact (ofText_text_ofDecls_iff hds hlex).mp h
  · rintro ⟨hm, hseparates⟩
    obtain ⟨ds, rfl, hlex, hds⟩ := wellFormed_iff.mp hm
    exact (ofText_text_ofDecls_iff hds hlex).mpr hseparates

end ModuleMap

end ModuleDeps
