import ModuleDeps.Proofs.Module.Declared

/-!
# The members of a well-formed module

Members that are lexed, and legible in their order, say of their module what can be declared of it
(`regular_ofMembers`). For the converse the members of a module have to be put into an order in
which they are legible: the lists of macros go last, so that only the last of them may be empty
(`Decl.arranged`). This is not the order of writing, in which conflicts stand behind them.
-/

namespace ModuleDeps

namespace Decl

/-! ### Empty lists of macros -/

/-- What holds of all but the last. -/
theorem pairwise_left_iff {α : Type} {P : α → Prop} {as : List α} :
    as.Pairwise (fun a _ => P a) ↔ ∀ a ∈ as.dropLast, P a := by
  induction as with
  | nil => simp
  | cons a as ih =>
    rw [List.pairwise_cons, ih]
    cases as with
    | nil => simp
    | cons b bs =>
      rw [List.dropLast_cons_cons, List.forall_mem_cons (p := P)]
      exact and_congr_left fun _ => ⟨fun h => h b List.mem_cons_self, fun h _ _ => h⟩

/-- Among lists of macros, none but the last is bare if none but the last is empty. -/
theorem pairwise_isBare_iff {ds : List Decl} (h : ∀ d ∈ ds, d.rank = 8) :
    ds.Pairwise (fun d _ => d.isBare = false) ↔
      ∀ c ∈ (ds.filterMap configMacros?).dropLast, c.macros ≠ [] := by
  rw [← pairwise_left_iff, List.pairwise_filterMap]
  refine List.Pairwise.iff_of_mem fun {d d'} _ hd' => ?_
  rw [isBare_eq_false_iff]
  constructor
  · exact fun hd c hc _ _ => hd c hc
  · intro hd c hc
    obtain ⟨c', hc'⟩ : ∃ c', d'.configMacros? = some c' := by
      rw [← Option.isSome_iff_exists, collects_configMacros? d', h d' hd']
      rfl
    exact hd c hc c' hc'

theorem separated_of_pairwise {ds : List Decl} (h : ds.Pairwise fun d _ => d.isBare = false) :
    ∀ c ∈ (ds.filterMap configMacros?).dropLast, c.macros ≠ [] := by
  have h8 : (ofRank 8 ds).Pairwise fun d _ => d.isBare = false := h.filter _
  rwa [pairwise_isBare_iff fun d hd => (mem_ofRank.mp hd).2, filterMap_ofRank collects_configMacros?,
    if_pos rfl] at h8

/-! ### What members say -/

theorem lexed_requires_iff {f : Feature} {fs : List Feature} :
    Lexed (requires f fs).tokens ↔ ∀ g ∈ f :: fs, IsIdentifier g.name := by
  simp [tokens]

theorem forall_mem_features {ds : List Decl} (h : ∀ d ∈ ds, Lexed d.tokens) :
    ∀ f ∈ ds.flatMap features, IsIdentifier f.name :=
  fun f hf => Feature.lexed_iff.mp (lexed_features h f hf)

end Decl

open Decl

/-- Members that are lexed and legible say what can be declared of a module with a body. -/
theorem regular_ofMembers (e f : Bool) {name : DottedName} {as : List String} {ds : List Decl}
    (hname : Lexed name.tokens) (has : Lexed (attributeTokens as)) (hds : ∀ d ∈ ds, Lexed d.tokens)
    (hlegible : LegibleList ds) : (ModuleInfo.ofMembers e f name as ds).Regular where
  id := isDotted_iff.mpr ⟨name, rfl, hname⟩
  attributes := lexed_attributeTokens_iff.mp has
  requires := forall_mem_features hds
  headers := forall_mem_filterMap declares_header?_iff hds
  umbrellaDirs := forall_mem_filterMap declares_umbrellaDir?_iff hds
  exports := forall_mem_filterMap declares_export?_iff hds
  exportAs := forall_mem_filterMap declares_exportAs?_iff hds
  uses := forall_mem_filterMap declares_use?_iff hds
  links := forall_mem_filterMap declares_link?_iff hds
  configMacros := forall_mem_filterMap declares_configMacros?_iff hds
  separated := separated_of_pairwise (legibleList_iff.mp hlegible).1
  conflicts := forall_mem_filterMap declares_conflict?_iff hds
  isExtern := rfl
  externFilename := rfl
  isInferred := rfl
  exportsAll := rfl

/-! ### Members in a legible order -/

namespace Decl

/-- Required features and members of the other ranks, those of rank `r` taken from `kinds r`, with
the lists of macros last. -/
def arranged (fs : List Feature) (kinds : Nat → List Decl) : List Decl :=
  requiring fs ++ ([1, 2, 3, 4, 5, 6, 7, 9].flatMap fun r => ofRank r (kinds r)) ++ ofRank 8 (kinds 8)

variable {fs : List Feature} {kinds : Nat → List Decl}

theorem mem_arranged {d : Decl} (h : d ∈ arranged fs kinds) :
    d ∈ requiring fs ∨ ∃ r, 0 < r ∧ d ∈ ofRank r (kinds r) := by
  simp only [arranged, List.mem_append, List.mem_flatMap] at h
  rcases h with (h | ⟨r, hr, h⟩) | h
  · exact .inl h
  · refine .inr ⟨r, ?_, h⟩
    by_contra hzero
    obtain rfl : r = 0 := by omega
    exact absurd hr (by decide)
  · exact .inr ⟨8, by omega, h⟩

theorem flatMap_features_arranged (fs : List Feature) (kinds : Nat → List Decl) :
    (arranged fs kinds).flatMap features = fs := by
  simp [arranged, List.flatMap_append, flatMap_features_requiring, flatMap_features_ofRank]

/-- What is found in the members is what is found in those of its rank. -/
theorem filterMap_arranged {α : Type} {p : Decl → Option α} {r : Nat} (hp : Collects p r)
    (hr : 0 < r) (hr' : r < 10) (fs : List Feature) (kinds : Nat → List Decl) :
    (arranged fs kinds).filterMap p = (kinds r).filterMap p := by
  simp only [arranged, List.flatMap_cons, List.flatMap_nil, List.filterMap_append,
    filterMap_ofRank hp, filterMap_requiring hp hr]
  obtain rfl | rfl | rfl | rfl | rfl | rfl | rfl | rfl | rfl :
    r = 1 ∨ r = 2 ∨ r = 3 ∨ r = 4 ∨ r = 5 ∨ r = 6 ∨ r = 7 ∨ r = 8 ∨ r = 9 := by omega
  all_goals simp

theorem legible_of_rank_ne {d : Decl} (h : d.rank ≠ 3) : d.Legible := by
  cases d with
  | external | inferred | regular => exact absurd rfl h
  | requires | header | umbrellaDir | exports | exportAs | use | link | configMacros | conflict =>
    trivial

theorem legibleList_arranged (hsubs : ∀ d ∈ kinds 3, d.Legible)
    (hmacros : ∀ c ∈ ((kinds 8).filterMap configMacros?).dropLast, c.macros ≠ []) :
    LegibleList (arranged fs kinds) := by
  rw [legibleList_iff]
  constructor
  · have hfront : ∀ d ∈ requiring fs ++ ([1, 2, 3, 4, 5, 6, 7, 9].flatMap fun r =>
        ofRank r (kinds r)), d.isBare = false := by
      intro d hd
      by_contra hbare
      have h8 := rank_of_isBare (Bool.not_eq_false _ ▸ hbare)
      rcases List.mem_append.mp hd with hd | hd
      · obtain ⟨f, fs, rfl⟩ := mem_requiring hd
        cases h8
      · obtain ⟨r, hr, hd⟩ := List.mem_flatMap.mp hd
        rw [← (mem_ofRank.mp hd).2, h8] at hr
        exact absurd hr (by decide)
    rw [arranged, List.pairwise_append]
    refine ⟨List.pairwise_of_forall_mem_list fun d hd _ _ => hfront d hd, ?_,
      fun d hd _ _ => hfront d hd⟩
    rw [pairwise_isBare_iff fun d hd => (mem_ofRank.mp hd).2, filterMap_ofRank collects_configMacros?,
      if_pos rfl]
    exact hmacros
  · intro d hd
    rcases mem_arranged hd with hd | ⟨r, -, hd⟩
    · obtain ⟨f, fs, rfl⟩ := mem_requiring hd
      trivial
    · obtain ⟨hd, rfl⟩ := mem_ofRank.mp hd
      by_cases h3 : d.rank = 3
      · rw [h3] at hd
        exact hsubs d hd
      · exact legible_of_rank_ne h3

theorem lexed_arranged (hfs : ∀ f ∈ fs, IsIdentifier f.name)
    (h : ∀ r, 0 < r → ∀ d ∈ kinds r, Lexed d.tokens) :
    ∀ d ∈ arranged fs kinds, Lexed d.tokens := by
  intro d hd
  rcases mem_arranged hd with hd | ⟨r, hr, hd⟩
  · cases fs with
    | nil => cases hd
    | cons f fs =>
      rw [List.mem_singleton.mp hd]
      exact lexed_requires_iff.mpr hfs
  · exact h r hr d (mem_ofRank.mp hd).1

end Decl

/-- The members of the ranks say what is declared of a module, its required features apart. -/
structure ModuleInfo.SaidBy (i : ModuleInfo) (kinds : Nat → List Decl) : Prop where
  headers : (kinds 1).filterMap header? = i.headers
  umbrellaDirs : (kinds 2).filterMap umbrellaDir? = i.umbrellaDirs
  exports : (kinds 4).filterMap export? = i.exports
  exportAs : (kinds 5).filterMap exportAs? = i.exportAs
  uses : (kinds 6).filterMap use? = i.uses
  links : (kinds 7).filterMap link? = i.links
  configMacros : (kinds 8).filterMap configMacros? = i.configMacros
  conflicts : (kinds 9).filterMap conflict? = i.conflicts

namespace ModuleInfo

variable {i : ModuleInfo} {kinds : Nat → List Decl}

/-- A module with a body has nothing of the other kinds. -/
theorem Regular.eq_self (hi : i.Regular) :
    { i with isExtern := false, externFilename := "", isInferred := false, exportsAll := false } =
      i := by
  have hextern := hi.isExtern
  have hfile := hi.externFilename
  have hinferred := hi.isInferred
  have hexports := hi.exportsAll
  cases i
  simp_all

theorem SaidBy.ofMembers_arranged (h : i.SaidBy kinds) (hi : i.Regular) {name : DottedName}
    (hname : name.text = i.id) :
    ofMembers i.isExplicit i.isFramework name i.attributes (arranged i.requires kinds) = i := by
  have hfound {α : Type} {p : Decl → Option α} {r : Nat} (hp : Collects p r) (hr : 0 < r ∧ r < 10) :
      (arranged i.requires kinds).filterMap p = (kinds r).filterMap p :=
    filterMap_arranged hp hr.1 hr.2 _ _
  unfold ofMembers
  rw [flatMap_features_arranged, hfound collects_header? (by omega),
    hfound collects_umbrellaDir? (by omega), hfound collects_export? (by omega),
    hfound collects_exportAs? (by omega), hfound collects_use? (by omega),
    hfound collects_link? (by omega), hfound collects_configMacros? (by omega),
    hfound collects_conflict? (by omega), h.headers, h.umbrellaDirs, h.exports, h.exportAs, h.uses,
    h.links, h.configMacros, h.conflicts, hname]
  exact hi.eq_self

/-- What can be declared of a module with a body is said by members that are lexed, with any
submodules among them. -/
theorem Regular.exists_kinds (hi : i.Regular) {subs : List Decl}
    (hsubs : ∀ d ∈ subs, Lexed d.tokens) :
    ∃ kinds, i.SaidBy kinds ∧ kinds 3 = subs ∧ ∀ r, ∀ d ∈ kinds r, Lexed d.tokens := by
  obtain ⟨headers, hheaders, hlex₁⟩ := exists_members declares_header?_iff hi.headers
  obtain ⟨dirs, hdirs, hlex₂⟩ := exists_members declares_umbrellaDir?_iff hi.umbrellaDirs
  obtain ⟨exports, hexports, hlex₄⟩ := exists_members declares_export?_iff hi.exports
  obtain ⟨exportAs, hexportAs, hlex₅⟩ := exists_members declares_exportAs?_iff hi.exportAs
  obtain ⟨uses, huses, hlex₆⟩ := exists_members declares_use?_iff hi.uses
  obtain ⟨links, hlinks, hlex₇⟩ := exists_members declares_link?_iff hi.links
  obtain ⟨macros, hmacros, hlex₈⟩ := exists_members declares_configMacros?_iff hi.configMacros
  obtain ⟨conflicts, hconflicts, hlex₉⟩ := exists_members declares_conflict?_iff hi.conflicts
  refine ⟨fun
    | 1 => headers
    | 2 => dirs
    | 3 => subs
    | 4 => exports
    | 5 => exportAs
    | 6 => uses
    | 7 => links
    | 8 => macros
    | 9 => conflicts
    | _ => [],
    ⟨hheaders, hdirs, hexports, hexportAs, huses, hlinks, hmacros, hconflicts⟩, rfl, fun r => ?_⟩
  match r with
  | 1 => exact hlex₁
  | 2 => exact hlex₂
  | 3 => exact hsubs
  | 4 => exact hlex₄
  | 5 => exact hlex₅
  | 6 => exact hlex₆
  | 7 => exact hlex₇
  | 8 => exact hlex₈
  | 9 => exact hlex₉
  | 0 | _ + 10 => exact nofun

/-- The members can be put into a legible order. -/
theorem Regular.exists_ofMembers (hi : i.Regular) {subs : List Decl}
    (hlex : ∀ d ∈ subs, Lexed d.tokens) (hlegible : ∀ d ∈ subs, d.Legible) :
    ∃ name ds, ofMembers i.isExplicit i.isFramework name i.attributes ds = i ∧
      Module.ofDecls ds = Module.ofDecls subs ∧ Lexed name.tokens ∧ (∀ d ∈ ds, Lexed d.tokens) ∧
      LegibleList ds := by
  obtain ⟨name, hname, hnamelex⟩ := isDotted_iff.mp hi.id
  obtain ⟨kinds, hsaid, rfl, hkinds⟩ := hi.exists_kinds hlex
  refine ⟨name, arranged i.requires kinds, hsaid.ofMembers_arranged hi hname, ?_, hnamelex,
    lexed_arranged hi.requires fun r _ => hkinds r,
    legibleList_arranged hlegible (hsaid.configMacros ▸ hi.separated)⟩
  rw [ofDecls_eq_filterMap, ofDecls_eq_filterMap]
  exact filterMap_arranged collects_module? (by omega) (by omega) _ _

end ModuleInfo

end ModuleDeps
