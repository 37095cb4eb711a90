import ModuleDeps.Proofs.Grammar.Declarations
import ModuleDeps.Proofs.Grammar.Denotation
import ModuleDeps.Proofs.Grammar.Yield

/-!
# The rules read exactly the grammar

A token list is a module map if and only if the grammar derives the whole of it, and the map is the
one that its derivation denotes; there is no more than one derivation (`ofTokens_exact`). The rules
read the declarations of the derivation, and building their modules comes to the tree that they
denote (`ModuleMap.ofTokens_eq`).

A member is chosen by the token in front, so what is read is derived (`moduleMember_of_member`), and
what is derived is read wherever a member may end (`member_of_moduleMember`). The levels of nesting
follow by induction (`readsBody`).
-/

namespace ModuleDeps.Grammar

open Rule

variable {body : Rule (List Decl)} {phrase : Phrase (List Decl)}

/-! ### What is read is derived -/

theorem moduleMember_of_submodule (hbody : ReadsBody body phrase) {d : Decl} {ts rest : List Token}
    (h : submodule body ts = .ok (d, rest)) : ModuleMember phrase d ts rest := by
  rcases submodule_eq_ok_iff.mp h with ⟨e, f, mid, hhead, h⟩ | ⟨e, f, mid, hhead, -, h⟩
  · obtain ⟨as, us, mid', rfl, has, hus⟩ := inferred_eq_ok_iff.mp h
    exact .inferred hhead has hus
  · obtain ⟨name, as, members, mid₁, mid₂, rfl, hname, has, hmembers⟩ :=
      (regular_eq_ok_iff hbody).mp h
    exact .submodule (.regular hhead hname has hmembers)

theorem moduleDeclaration_of_topLevel (hbody : ReadsBody body phrase) {d : Decl}
    {ts rest : List Token}
    (h : topLevel body ts = .ok (d, rest)) : ModuleDeclaration phrase d ts rest := by
  obtain ⟨e, f, mid, hhead, h⟩ := topLevel_eq_ok_iff.mp h
  obtain ⟨name, as, members, mid₁, mid₂, rfl, hname, has, hmembers⟩ :=
    (regular_eq_ok_iff hbody).mp h
  exact .regular hhead hname has hmembers

theorem moduleDeclaration_of_external {d : Decl} {ts rest : List Token}
    (h : external ts = .ok (d, rest)) :
    ModuleDeclaration phrase d ts rest := by
  obtain ⟨name, file, ts', rfl, rfl, hname⟩ := external_eq_ok_iff.mp h
  exact .external hname

theorem moduleMember_of_umbrella {d : Decl} {ts rest : List Token}
    (h : umbrella ts = .ok (some d, rest)) :
    ModuleMember phrase d ts rest := by
  unfold umbrella at h
  split at h
  · obtain ⟨name, ts', rfl, hts, hname⟩ := keyword_bind_eq_ok_iff.mp (some_map_eq_ok_iff.mp h)
    rw [hts, stringLiteral_eq_ok_iff.mp hname]
    exact .umbrellaDir
  · split at h
    · exact moduleMember_of_header (some_map_eq_ok_iff.mp h)
    · cases h
  · cases h

/-- A member that is read is derived. -/
theorem moduleMember_of_member (hbody : ReadsBody body phrase) {d : Decl} {ts rest : List Token}
    (h : member body ts = .ok (some d, rest)) : ModuleMember phrase d ts rest := by
  rw [member, peek_bind] at h
  cases hk : Keyword.ofToken? (Token.front ts) with
  | none =>
    rw [hk] at h
    cases h
  | some k =>
    rw [hk] at h
    cases k with
    | size | mtime => cases h
    | umbrella => exact moduleMember_of_umbrella h
    | header | exclude | privately | textual =>
      exact moduleMember_of_header (some_map_eq_ok_iff.mp h)
    | explicit | framework | module =>
      have h := some_map_eq_ok_iff.mp h
      rw [submoduleDeclaration_of_ofToken? hk, if_neg nofun] at h
      exact moduleMember_of_submodule hbody h
    | external =>
      have h := some_map_eq_ok_iff.mp h
      rw [submoduleDeclaration_of_ofToken? hk, if_pos rfl] at h
      exact .submodule (moduleDeclaration_of_external h)
    | requires =>
      obtain ⟨f, fs, ts', rfl, rfl, hs, -⟩ := requires_eq_ok_iff.mp (some_map_eq_ok_iff.mp h)
      exact .requires hs
    | exports =>
      obtain ⟨name, ts', rfl, rfl, hname⟩ := keyword_bind_eq_ok_iff.mp (some_map_eq_ok_iff.mp h)
      exact .exports (exportName_eq_ok_iff.mp hname).1
    | exportAs =>
      obtain ⟨name, ts', rfl, rfl, hname⟩ := keyword_bind_eq_ok_iff.mp (some_map_eq_ok_iff.mp h)
      rw [identifier_eq_ok_iff.mp hname]
      exact .exportAs
    | use =>
      obtain ⟨name, ts', rfl, rfl, hname⟩ := keyword_bind_eq_ok_iff.mp (some_map_eq_ok_iff.mp h)
      rw [identifier_eq_ok_iff.mp hname]
      exact .use
    | link =>
      obtain ⟨isFramework, name, ts', rfl, rfl, hflag⟩ :=
        link_eq_ok_iff.mp (some_map_eq_ok_iff.mp h)
      exact .link hflag
    | configMacros =>
      obtain ⟨as, ms, ts', mid, rfl, rfl, has, hms⟩ :=
        configMacros_eq_ok_iff.mp (some_map_eq_ok_iff.mp h)
      exact .configMacros (attributes_eq_ok_iff.mp has).1 (macros_eq_ok_iff.mp hms).1
    | conflict =>
      obtain ⟨name, reason, ts', rfl, rfl, hname⟩ := conflict_eq_ok_iff.mp (some_map_eq_ok_iff.mp h)
      exact .conflict hname

/-! ### What is derived is read -/

/-- The words in front of `module` open a submodule. -/
theorem member_of_moduleHead {e f : Bool} {ts mid : List Token} (h : ModuleHead (e, f) ts mid) :
    member body ts = (some <$> submodule body) ts := by
  obtain ⟨he, hf⟩ := h
  cases he with
  | present => rfl
  | absent =>
    cases hf with
    | present => rfl
    | absent => rfl

theorem declaration_of_moduleHead {e f : Bool} {ts mid : List Token}
    (h : ModuleHead (e, f) ts mid) :
    declaration body ts = (some <$> topLevel body) ts := by
  obtain ⟨he, hf⟩ := h
  cases he with
  | present => rfl
  | absent =>
    cases hf with
    | present => rfl
    | absent => rfl

/-- The words in front of `header` open a header. -/
theorem member_of_isHeaderForm {form : HeaderForm} {ts rest : List Token}
    (h : IsHeaderForm form ts (Keyword.header.token :: rest)) :
    member body ts = (some <$> header) ts := by
  cases h with
  | exclude => rfl
  | umbrella => exact umbrella_header rest
  | plain hp ht =>
    cases hp with
    | present => rfl
    | absent =>
      cases ht with
      | present => rfl
      | absent => rfl

/-- A submodule that is derived is read. -/
theorem member_of_moduleDeclaration (hbody : ReadsBody body phrase) {d : Decl}
    {ts rest : List Token}
    (h : ModuleDeclaration phrase d ts rest) : member body ts = .ok (some d, rest) := by
  cases h with
  | external hname =>
    exact some_map_eq_ok_iff.mpr (external_eq_ok_iff.mpr ⟨_, _, _, rfl, rfl, hname⟩)
  | regular hhead hname has hmembers =>
    obtain ⟨s, ts', hfront⟩ := hname.front
    rw [member_of_moduleHead hhead, some_map_eq_ok_iff, submodule_eq_ok_iff]
    refine .inr ⟨_, _, _, hhead, ?_,
      (regular_eq_ok_iff hbody).mpr ⟨_, _, _, _, _, rfl, hname, has, hmembers⟩⟩
    rw [hfront]
    nofun

/-- A member that is derived is read, where a member may end. -/
theorem member_of_moduleMember (hbody : ReadsBody body phrase) {d : Decl} {ts rest : List Token}
    (h : ModuleMember phrase d ts rest) (hends : Ends rest) :
    member body ts = .ok (some d, rest) := by
  cases h with
  | submodule h => exact member_of_moduleDeclaration hbody h
  | umbrellaDir => rfl
  | exportAs => rfl
  | use => rfl
  | requires hs =>
    exact some_map_eq_ok_iff.mpr
      (requires_eq_ok_iff.mpr ⟨_, _, _, rfl, rfl, hs, hends.head_ne (by decide)⟩)
  | header hform hbraces =>
    rw [member_of_isHeaderForm hform, some_map_eq_ok_iff]
    exact header_of_isHeaderForm hform hbraces hends
  | inferred hhead has hus =>
    rw [member_of_moduleHead hhead, some_map_eq_ok_iff, submodule_eq_ok_iff]
    exact .inl ⟨_, _, _, hhead, inferred_eq_ok_iff.mpr ⟨_, _, _, rfl, has, hus⟩⟩
  | exports hname =>
    have hname := exportName_eq_ok_iff.mpr ⟨hname, fun _ _ => hends.head_ne (by decide)⟩
    exact some_map_eq_ok_iff.mpr (keyword_bind_eq_ok_iff.mpr ⟨_, _, rfl, rfl, hname⟩)
  | link hflag => exact some_map_eq_ok_iff.mpr (link_eq_ok_iff.mpr ⟨_, _, _, rfl, rfl, hflag⟩)
  | @configMacros as ms ts mid rest has hms =>
    have hbracket : mid.head? ≠ some (.punc '[') := by
      cases hms with
      | absent => exact hends.head_ne (by decide)
      | present h =>
        obtain ⟨⟨⟩, -⟩ := h
        nofun
    have has := attributes_eq_ok_iff.mpr ⟨has, hbracket⟩
    have hms := macros_eq_ok_iff.mpr ⟨hms, fun _ => hends.head_ne (by decide)⟩
    exact some_map_eq_ok_iff.mpr (configMacros_eq_ok_iff.mpr ⟨_, _, _, _, rfl, rfl, has, hms⟩)
  | conflict hname =>
    exact some_map_eq_ok_iff.mpr (conflict_eq_ok_iff.mpr ⟨_, _, _, rfl, rfl, hname⟩)

theorem declaration_of_moduleDeclaration (hbody : ReadsBody body phrase) {d : Decl}
    {ts rest : List Token}
    (h : ModuleDeclaration phrase d ts rest) : declaration body ts = .ok (some d, rest) := by
  cases h with
  | external hname =>
    exact some_map_eq_ok_iff.mpr (external_eq_ok_iff.mpr ⟨_, _, _, rfl, rfl, hname⟩)
  | regular hhead hname has hmembers =>
    rw [declaration_of_moduleHead hhead, some_map_eq_ok_iff, topLevel_eq_ok_iff]
    exact ⟨_, _, _, hhead, (regular_eq_ok_iff hbody).mpr ⟨_, _, _, _, _, rfl, hname, has, hmembers⟩⟩

theorem moduleDeclaration_of_declaration (hbody : ReadsBody body phrase) {d : Decl}
    {ts rest : List Token}
    (h : declaration body ts = .ok (some d, rest)) : ModuleDeclaration phrase d ts rest := by
  rw [declaration, peek_bind] at h
  cases hk : Keyword.ofToken? (Token.front ts) with
  | none =>
    rw [hk] at h
    cases h
  | some k =>
    rw [hk] at h
    cases k with
    | explicit | framework | module =>
      have h := some_map_eq_ok_iff.mp h
      rw [moduleDeclaration_of_ofToken? hk, if_neg nofun, if_pos (by decide)] at h
      exact moduleDeclaration_of_topLevel hbody h
    | external =>
      have h := some_map_eq_ok_iff.mp h
      rw [moduleDeclaration_of_ofToken? hk, if_pos rfl] at h
      exact moduleDeclaration_of_external h
    | size | mtime | umbrella | header | exclude | privately | textual | requires | exports |
      exportAs | use | link | configMacros | conflict => cases h

/-! ### Bodies and files -/

theorem some_map_ne_none {α : Type} {r : Rule α} {ts rest : List Token} :
    (some <$> r) ts ≠ .ok (none, rest) := by
  intro h
  obtain ⟨a, -, ⟨⟩⟩ := map_eq_ok_iff.mp h

/-- Where no member opens nothing is taken. -/
theorem eq_of_member_eq_none {ts rest : List Token} (h : member body ts = .ok (none, rest)) :
    rest = ts := by
  rw [member, peek_bind] at h
  cases hk : Keyword.ofToken? (Token.front ts) with
  | none =>
    rw [hk] at h
    exact (pure_eq_ok_iff.mp h).2.symm
  | some k =>
    rw [hk] at h
    cases k with
    | size | mtime => exact (pure_eq_ok_iff.mp h).2.symm
    | umbrella =>
      simp only [umbrella] at h
      split at h
      · exact absurd h some_map_ne_none
      · split at h
        · exact absurd h some_map_ne_none
        · cases h
          rfl
      · cases h
        rfl
    | header | exclude | privately | textual | explicit | framework | module | external | requires |
      exports | exportAs | use | link | configMacros | conflict => exact absurd h some_map_ne_none

theorem eq_of_declaration_eq_none {ts rest : List Token}
    (h : declaration body ts = .ok (none, rest)) :
    rest = ts := by
  rw [declaration, peek_bind] at h
  cases hk : Keyword.ofToken? (Token.front ts) with
  | none =>
    rw [hk] at h
    exact (pure_eq_ok_iff.mp h).2.symm
  | some k =>
    rw [hk] at h
    cases k with
    | explicit | framework | module | external => exact absurd h some_map_ne_none
    | size | mtime | umbrella | header | exclude | privately | textual | requires | exports |
      exportAs | use | link | configMacros | conflict => exact (pure_eq_ok_iff.mp h).2.symm

/-- In front of items that open with identifiers a member may end if it may end behind them. -/
theorem Ends.of_many {p : Phrase Decl}
    (hfront : ∀ d ts rest, p d ts rest → ∃ s ts', ts = .ident s :: ts')
    {ds : List Decl} {ts rest : List Token} (h : Many p ds ts rest) (hends : Ends rest) :
    Ends ts := by
  cases h with
  | nil => exact hends
  | cons hd _ =>
    obtain ⟨s, ts', rfl⟩ := hfront _ _ _ hd
    exact ends_ident s ts'

/-- Members are read as they are derived, up to a place where a member may end and none opens. -/
theorem many_of_derived {item : Rule (Option Decl)} {p : Phrase Decl}
    (hread : ∀ d ts rest, p d ts rest → Ends rest → item ts = .ok (some d, rest))
    (hfront : ∀ d ts rest, p d ts rest → ∃ s ts', ts = .ident s :: ts') {ds : List Decl}
    {ts rest : List Token} (h : Many p ds ts rest) (hends : Ends rest) :
    Many (fun d ts rest => item ts = .ok (some d, rest)) ds ts rest := by
  induction h with
  | nil => exact .nil
  | cons hd hds ih => exact .cons (hread _ _ _ hd (hends.of_many hfront hds)) (ih hends)

theorem readsBody_many (hbody : ReadsBody body phrase) (hp : Progressing (member body)) :
    ReadsBody (many (member body) hp) (Many (ModuleMember phrase)) := by
  intro ds ts rest
  rw [many_eq_ok_iff]
  constructor
  · rintro ⟨mid, hm, hend⟩
    obtain rfl := eq_of_member_eq_none hend
    exact hm.mono fun _ _ _ => moduleMember_of_member hbody
  · intro h
    have hread (d : Decl) (ts rest : List Token) (hd : ModuleMember phrase d ts rest)
        (hends : Ends rest) :
        member body ts = .ok (some d, rest) := member_of_moduleMember hbody hd hends
    exact ⟨_, many_of_derived hread (fun _ _ _ => ModuleMember.front) h (ends_brace rest), rfl⟩

/-- Bodies are read exactly as the grammar derives them, at each level of nesting. -/
theorem readsBody (n : Nat) : ReadsBody (Rule.body n) (Body n) := by
  induction n with
  | zero =>
    intro ds ts rest
    constructor
    · nofun
    · exact False.elim
  | succ n ih => exact readsBody_many ih _

/-- Declarations outside of all modules are read as they are derived. -/
theorem many_declaration_of_derived {n : Nat} {ds : List Decl} {ts rest : List Token}
    (h : Many (ModuleDeclaration (Body n)) ds ts rest) :
    Many (fun d ts rest => declaration (Rule.body n) ts = .ok (some d, rest)) ds ts rest :=
  h.mono fun _ _ _ => declaration_of_moduleDeclaration (readsBody n)

/-- Declarations outside of all modules are derived if they are read. -/
theorem derived_of_many_declaration {n : Nat} {ds : List Decl} {ts rest : List Token}
    (h : Many (fun d ts rest => declaration (Rule.body n) ts = .ok (some d, rest)) ds ts rest) :
    Many (ModuleDeclaration (Body n)) ds ts rest :=
  h.mono fun _ _ _ => moduleDeclaration_of_declaration (readsBody n)

theorem file_of_derived {ts : List Token} {ds : List Decl} (h : File ds ts) :
    file ts = .ok (ds, []) :=
  bind_eq_ok_iff.mpr
    ⟨ds, [], many_eq_ok_iff.mpr ⟨[], many_declaration_of_derived h, rfl⟩, rfl⟩

theorem ofTokens_of_derived {ts : List Token} {ds : List Decl} (h : File ds ts) :
    Decl.ofTokens ts = .ok ds := by
  rw [Decl.ofTokens, file_of_derived h]

/-- The declarations of a file without a token for the end of the input. -/
theorem file_eq_ok_iff {ts : List Token} (heof : .eof ∉ ts) {ds : List Decl} {rest : List Token} :
    file ts = .ok (ds, rest) ↔ File ds ts ∧ rest = [] := by
  constructor
  · intro h
    obtain ⟨ds', mid, hmany, h⟩ := bind_eq_ok_iff.mp h
    obtain ⟨mid', hm, hend⟩ := many_eq_ok_iff.mp hmany
    obtain rfl := eq_of_declaration_eq_none hend
    have hm := derived_of_many_declaration hm
    rw [peek_bind] at h
    split at h
    · rename_i hfront
      obtain ⟨rfl, rfl⟩ := pure_eq_ok_iff.mp h
      cases mid with
      | nil => exact ⟨hm, rfl⟩
      | cons t mid =>
        -- the end of the input would stand among the tokens
        obtain rfl : t = .eof := hfront
        rw [eq_append_of_many hm] at heof
        simp at heof
    · cases h
  · rintro ⟨h, rfl⟩
    exact file_of_derived h

theorem decls_ofTokens_eq_ok_iff {ts : List Token} (heof : .eof ∉ ts) {ds : List Decl} :
    Decl.ofTokens ts = .ok ds ↔ File ds ts := by
  constructor
  · intro h
    unfold Decl.ofTokens at h
    cases hf : file ts with
    | error fault => rw [hf] at h; cases h
    | ok out =>
      rw [hf] at h
      cases h
      exact ((file_eq_ok_iff heof).mp hf).1
  · exact ofTokens_of_derived

theorem ofTokens_eq_ok_iff {ts : List Token} (heof : .eof ∉ ts) {m : ModuleMap} :
    ModuleMap.ofTokens ts = .ok m ↔ ∃ decls, File decls ts ∧ m = ⟨Module.ofDecls decls⟩ := by
  rw [ModuleMap.ofTokens_eq]
  constructor
  · intro h
    cases hd : Decl.ofTokens ts with
    | error e => rw [hd] at h; cases h
    | ok decls =>
      rw [hd] at h
      cases h
      exact ⟨decls, (decls_ofTokens_eq_ok_iff heof).mp hd, rfl⟩
  · rintro ⟨decls, hfile, rfl⟩
    rw [(decls_ofTokens_eq_ok_iff heof).mpr hfile]
    rfl

/-- **A token list is a module map exactly if the grammar derives it**, and the map is the one that
the derivation denotes. No token list has two derivations. -/
theorem ofTokens_exact {ts : List Token} (heof : .eof ∉ ts) :
    (∀ m, ModuleMap.ofTokens ts = .ok m ↔ ∃ decls, File decls ts ∧ m = ⟨Module.ofDecls decls⟩) ∧
      ∀ decls decls', File decls ts → File decls' ts → decls = decls' := by
  constructor
  · intro m
    exact ofTokens_eq_ok_iff heof
  · intro decls decls' h h'
    have hd := (decls_ofTokens_eq_ok_iff heof).mpr h
    rw [(decls_ofTokens_eq_ok_iff heof).mpr h'] at hd
    exact (Except.ok.inj hd).symm

/-- All keywords in their places, and some of them as names. Lists of features are put together,
macros are left out in front of a brace. -/
theorem ofTokens_exact_keywords :
    let ts : List Token :=
      [.ident "extern", .ident "module", .ident "module", .punc '.', .ident "extern", .string "f",
        .ident "explicit", .ident "framework", .ident "module", .ident "use", .punc '.',
        .ident "link", .punc '[', .ident "size", .punc ']', .punc '{',
        .ident "requires", .ident "a", .punc ',', .punc '!', .ident "b",
        .ident "umbrella", .ident "header", .string "h", .punc '{', .ident "size", .integer "1",
        .punc '}',
        .ident "exclude", .ident "header", .string "i", .punc '{', .punc '}',
        .ident "private", .ident "textual", .ident "header", .string "j", .punc '{',
        .ident "mtime", .integer "2", .punc '}',
        .ident "umbrella", .string "d",
        .ident "requires", .ident "c",
        .ident "explicit", .ident "module", .punc '*', .punc '[', .ident "y", .punc ']', .punc '{',
        .ident "export", .punc '*', .ident "export", .punc '*', .punc '}',
        .ident "extern", .ident "module", .ident "e", .string "g",
        .ident "framework", .ident "module", .ident "s", .punc '{', .ident "config_macros",
        .ident "m", .punc ',', .ident "n", .ident "module", .punc '*', .punc '{', .punc '}',
        .punc '}',
        .ident "export", .ident "use", .punc '.', .punc '*', .ident "export", .punc '*',
        .ident "export_as", .ident "export_as",
        .ident "use", .ident "use", .ident "use", .ident "u",
        .ident "link", .ident "framework", .string "l", .ident "link", .string "k",
        .ident "conflict", .ident "p", .punc '.', .ident "q", .punc ',', .string "w",
        .ident "config_macros", .punc '[', .ident "x", .punc ']', .punc '}']
    let m : ModuleMap := ⟨[
      { info := { id := "module.extern", isExtern := true, externFilename := "f" } },
      { info := {
          id := "use.link"
          attributes := ["size"]
          isExplicit := true
          isFramework := true
          requires := [⟨"a", true⟩, ⟨"b", false⟩, ⟨"c", true⟩]
          headers := [{ name := "h", isUmbrella := true, size := some "1" },
            { name := "i", isExclude := true },
            { name := "j", isPrivate := true, isTextual := true, mtime := some "2" }]
          umbrellaDirs := ["d"]
          exports := ["use.*", "*"]
          exportAs := ["export_as"]
          uses := ["use", "u"]
          links := [⟨"l", true⟩, ⟨"k", false⟩]
          configMacros := [⟨["x"], []⟩]
          conflicts := [⟨"p.q", "w"⟩] }
        submodules := [
          { info := {
              id := "*"
              attributes := ["y"]
              isExplicit := true
              isInferred := true
              exportsAll := true } },
          { info := { id := "e", isExtern := true, externFilename := "g" } },
          { info := { id := "s", isFramework := true, configMacros := [⟨[], ["m", "n"]⟩] }
            submodules := [{ info := { id := "*", isInferred := true } }] }] }]⟩
    .eof ∉ ts ∧ ModuleMap.ofTokens ts = .ok m ∧ ∃ decls, File decls ts ∧
      m = ⟨Module.ofDecls decls⟩ := by
  intro ts m
  have heof : .eof ∉ ts := by decide
  have hm : ModuleMap.ofTokens ts = .ok m := by decide +kernel
  exact ⟨heof, hm, ((ofTokens_exact heof).1 m).mp hm⟩

end ModuleDeps.Grammar
