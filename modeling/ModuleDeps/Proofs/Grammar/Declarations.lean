import ModuleDeps.Proofs.Grammar.Reading

/-!
# What the rules for declarations read

For the rule of each kind of declaration the phrase that it reads. The rules for modules are
compared with their phrases for bodies that are already known to be read as they should
(`ReadsBody`). Where a declaration may end early, the tokens that follow must not continue it:
`Ends` is what is left open in front of a closing brace, of another declaration and of the end of
the file.
-/

namespace ModuleDeps.Grammar

open Rule

variable {body : Rule (List Decl)} {phrase : Phrase (List Decl)}

/-- A member may end in front of `rest`: no punctuation follows but a closing brace. -/
def Ends (rest : List Token) : Prop := ∀ c, rest.head? = some (.punc c) → c = '}'

theorem Ends.head_ne {rest : List Token} (h : Ends rest) {c : Char} (hc : c ≠ '}') :
    rest.head? ≠ some (.punc c) := fun heq => hc (h c heq)

theorem ends_brace (rest : List Token) : Ends (.punc '}' :: rest) := by
  rintro c ⟨⟩
  rfl

theorem ends_ident (s : String) (rest : List Token) : Ends (.ident s :: rest) := nofun

/-- A rule reads a body as its phrase says, in front of the closing brace. -/
def ReadsBody (body : Rule (List Decl)) (phrase : Phrase (List Decl)) : Prop :=
  ∀ ds ts rest, body ts = .ok (ds, .punc '}' :: rest) ↔ phrase ds ts (.punc '}' :: rest)

/-! ### Headers -/

/-- A flag for a token that was asked for. -/
theorem flag_of_accept {t : Token} {b : Bool} {ts rest : List Token}
    (h : accept t ts = .ok (b, rest)) :
    Flag t b ts rest := (accept_eq_ok_iff.mp h).1

theorem isHeaderForm_of_headerForm {form : HeaderForm} {ts rest : List Token}
    (h : headerForm ts = .ok (form, rest)) : IsHeaderForm form ts rest := by
  rcases accept_bind_eq_ok_iff.mp h with ⟨ts', rfl, h₁⟩ | ⟨-, h₁⟩
  · obtain ⟨rfl, rfl⟩ := pure_eq_ok_iff.mp h₁
    exact .umbrella
  · rcases accept_bind_eq_ok_iff.mp h₁ with ⟨ts', rfl, h₂⟩ | ⟨-, h₂⟩
    · obtain ⟨rfl, rfl⟩ := pure_eq_ok_iff.mp h₂
      exact .exclude
    · obtain ⟨p, mid, hp, h₃⟩ := bind_eq_ok_iff.mp h₂
      obtain ⟨t, mid', ht, h₄⟩ := bind_eq_ok_iff.mp h₃
      obtain ⟨rfl, rfl⟩ := pure_eq_ok_iff.mp h₄
      exact .plain (flag_of_accept hp) (flag_of_accept ht)

theorem headerForm_of_isHeaderForm {form : HeaderForm} {ts rest : List Token}
    (h : IsHeaderForm form ts (Keyword.header.token :: rest)) :
    headerForm ts = .ok (form, Keyword.header.token :: rest) := by
  cases h with
  | umbrella => rw [headerForm, bind_of_ok (accept_cons _ _)]; rfl
  | exclude =>
    rw [headerForm, bind_of_ok (accept_of_ne (head_token_ne (by decide) _)),
      if_neg Bool.false_ne_true, bind_of_ok (accept_cons _ _)]
    rfl
  | @plain p t _ mid _ hp ht =>
    have hmid {k : Keyword} (h₁ : .textual ≠ k) (h₂ : .header ≠ k) : mid.head? ≠ some k.token :=
      ht.head_ne h₁ (head_token_ne h₂ _)
    rw [headerForm,
      bind_of_ok (accept_of_ne (hp.head_ne (by decide) (hmid (by decide) (by decide)))),
      if_neg Bool.false_ne_true,
      bind_of_ok (accept_of_ne (hp.head_ne (by decide) (hmid (by decide) (by decide)))),
      if_neg Bool.false_ne_true,
      bind_of_ok (accept_of_flag hp (hmid (by decide) (by decide))),
      bind_of_ok (accept_of_flag ht (head_token_ne (by decide) _))]
    rfl

/-- The digits behind the word of a property. -/
theorem digits_eq_ok_iff {f : String → HeaderProperty} {p : HeaderProperty} {ts rest : List Token} :
    (do let digits ← integerLiteral; pure (f digits) : Rule HeaderProperty) ts = .ok (p, rest) ↔
      ∃ digits, p = f digits ∧ ts = .integer digits :: rest := by
  constructor
  · intro h
    obtain ⟨digits, mid, hd, h⟩ := bind_eq_ok_iff.mp h
    obtain rfl := integerLiteral_eq_ok_iff.mp hd
    obtain ⟨rfl, rfl⟩ := pure_eq_ok_iff.mp h
    exact ⟨digits, rfl, rfl⟩
  · rintro ⟨digits, rfl, rfl⟩
    rfl

theorem headerProperty_eq_ok_iff {p : HeaderProperty} {ts rest : List Token} :
    headerProperty ts = .ok (p, rest) ↔ HeaderAttr p ts rest := by
  constructor
  · intro h
    rcases accept_bind_eq_ok_iff.mp h with ⟨ts', rfl, h₁⟩ | ⟨-, h₁⟩
    · obtain ⟨digits, rfl, rfl⟩ := digits_eq_ok_iff.mp h₁
      exact .size
    · rcases accept_bind_eq_ok_iff.mp h₁ with ⟨ts', rfl, h₂⟩ | ⟨-, h₂⟩
      · obtain ⟨digits, rfl, rfl⟩ := digits_eq_ok_iff.mp h₂
        exact .mtime
      · cases h₂
  · intro h
    cases h with
    | size =>
      rw [headerProperty, bind_of_ok (accept_cons _ _)]
      rfl
    | mtime =>
      rw [headerProperty, bind_of_ok (accept_of_ne (head_token_ne (by decide) _)),
        if_neg Bool.false_ne_true, bind_of_ok (accept_cons _ _)]
      rfl

theorem headerAttr_of_headerProperty? {property : Option HeaderProperty} {ts rest : List Token}
    (h : headerProperty? ts = .ok (property, rest)) :
    property = none ∧ ts = rest ∨ ∃ p, property = some p ∧ HeaderAttr p ts rest := by
  have hnone (h : (pure none : Rule (Option HeaderProperty)) ts = .ok (property, rest)) :
      property = none ∧ ts = rest := by
    obtain ⟨rfl, rfl⟩ := pure_eq_ok_iff.mp h
    exact ⟨rfl, rfl⟩
  rw [headerProperty?, peek_bind] at h
  cases hk : Keyword.ofToken? (Token.front ts) with
  | none =>
    rw [hk] at h
    exact .inl (hnone h)
  | some k =>
    rw [hk] at h
    cases k with
    | size | mtime =>
      obtain ⟨p, hp, rfl⟩ := map_eq_ok_iff.mp h
      exact .inr ⟨p, rfl, headerProperty_eq_ok_iff.mp hp⟩
    | configMacros | conflict | exclude | explicit | exports | exportAs | external | framework |
      header | link | module | privately | requires | textual | umbrella | use =>
      exact .inl (hnone h)

theorem headerProperty?_of_headerAttr {p : HeaderProperty} {ts rest : List Token}
    (h : HeaderAttr p ts rest) : headerProperty? ts = .ok (some p, rest) := by
  have hread := some_map_eq_ok_iff.mpr (headerProperty_eq_ok_iff.mpr h)
  cases h with
  | size => exact hread
  | mtime => exact hread

theorem headerBraces_eq_ok_iff {braces : Option (Option HeaderProperty)} {ts rest : List Token} :
    headerBraces ts = .ok (braces, rest) ↔
      HeaderAttrs braces ts rest ∧ (braces = none → rest.head? ≠ some (.punc '{')) := by
  constructor
  · intro h
    rcases accept_bind_eq_ok_iff.mp h with ⟨ts', rfl, h₁⟩ | ⟨hne, h₁⟩
    · obtain ⟨property, mid, hp, h₂⟩ := bind_eq_ok_iff.mp h₁
      obtain ⟨u, mid', hu, h₃⟩ := bind_eq_ok_iff.mp h₂
      obtain ⟨rfl, rfl⟩ := pure_eq_ok_iff.mp h₃
      obtain rfl := symbol_eq_ok_iff.mp hu
      refine ⟨?_, nofun⟩
      rcases headerAttr_of_headerProperty? hp with ⟨rfl, rfl⟩ | ⟨p, rfl, hattr⟩
      · exact .empty
      · exact .one hattr
    · obtain ⟨rfl, rfl⟩ := pure_eq_ok_iff.mp h₁
      exact ⟨.absent, fun _ => hne⟩
  · rintro ⟨h, hne⟩
    cases h with
    | absent =>
      rw [headerBraces, bind_of_ok (accept_of_ne (hne rfl))]
      rfl
    | empty => rfl
    | one hp =>
      rw [headerBraces, bind_of_ok (accept_cons _ _), if_pos rfl,
        bind_of_ok (headerProperty?_of_headerAttr hp),
        bind_of_ok (a := ()) (symbol_eq_ok_iff.mpr rfl)]
      rfl

theorem moduleMember_of_header {d : Decl} {ts rest : List Token} (h : header ts = .ok (d, rest)) :
    ModuleMember phrase d ts rest := by
  obtain ⟨form, mid₁, hform, h₁⟩ := bind_eq_ok_iff.mp h
  obtain ⟨u, mid₂, hu, h₂⟩ := bind_eq_ok_iff.mp h₁
  obtain ⟨name, mid₃, hname, h₃⟩ := bind_eq_ok_iff.mp h₂
  obtain ⟨braces, mid₄, hbraces, h₄⟩ := bind_eq_ok_iff.mp h₃
  obtain ⟨rfl, rfl⟩ := pure_eq_ok_iff.mp h₄
  obtain rfl := keyword_eq_ok_iff.mp hu
  obtain rfl := stringLiteral_eq_ok_iff.mp hname
  exact .header (isHeaderForm_of_headerForm hform) (headerBraces_eq_ok_iff.mp hbraces).1

theorem header_of_isHeaderForm {form : HeaderForm} {name : String}
    {braces : Option (Option HeaderProperty)}
    {ts mid rest : List Token}
    (hform : IsHeaderForm form ts (Keyword.header.token :: .string name :: mid))
    (hbraces : HeaderAttrs braces mid rest) (hends : Ends rest) :
    header ts = .ok (.header form name braces, rest) := by
  rw [header, bind_of_ok (headerForm_of_isHeaderForm hform),
    bind_of_ok (a := ()) (keyword_eq_ok_iff.mpr rfl), bind_of_ok (stringLiteral_eq_ok_iff.mpr rfl),
    bind_of_ok (headerBraces_eq_ok_iff.mpr ⟨hbraces, fun _ => hends.head_ne (by decide)⟩)]
  rfl

/-! ### Members other than modules -/

/-- A keyword, what stands behind it, and the declaration of it. -/
theorem keyword_bind_eq_ok_iff {α : Type} {k : Keyword} {r : Rule α} {f : α → Decl} {d : Decl}
    {ts rest : List Token} :
    (do keyword k; let a ← r; pure (f a) : Rule Decl) ts = .ok (d, rest) ↔
      ∃ a ts', d = f a ∧ ts = k.token :: ts' ∧ r ts' = .ok (a, rest) := by
  constructor
  · intro h
    obtain ⟨u, mid, hu, h₁⟩ := bind_eq_ok_iff.mp h
    obtain ⟨a, mid₁, ha, h₂⟩ := bind_eq_ok_iff.mp h₁
    obtain ⟨rfl, rfl⟩ := pure_eq_ok_iff.mp h₂
    exact ⟨a, mid, rfl, keyword_eq_ok_iff.mp hu, ha⟩
  · rintro ⟨a, ts', rfl, rfl, ha⟩
    rw [bind_of_ok (a := ()) (keyword_eq_ok_iff.mpr rfl), bind_of_ok ha]
    rfl

theorem requires_eq_ok_iff {d : Decl} {ts rest : List Token} :
    requires ts = .ok (d, rest) ↔ ∃ f fs ts', d = .requires f fs ∧
      ts = Keyword.requires.token :: ts' ∧
      Separated (.punc ',') IsFeature (f :: fs) ts' rest ∧ rest.head? ≠ some (.punc ',') := by
  unfold requires
  rw [bind_eq_ok_iff]
  constructor
  · rintro ⟨u, mid, hu, h⟩
    obtain ⟨f, fs, rfl, hs, hne⟩ := (separated_eq_ok_iff feature_iff).mp h
    exact ⟨f, fs, mid, rfl, keyword_eq_ok_iff.mp hu, hs, hne⟩
  · rintro ⟨f, fs, ts', rfl, rfl, hs, hne⟩
    exact ⟨(), ts', keyword_eq_ok_iff.mpr rfl,
      (separated_eq_ok_iff feature_iff).mpr ⟨f, fs, rfl, hs, hne⟩⟩

theorem link_eq_ok_iff {d : Decl} {ts rest : List Token} :
    link ts = .ok (d, rest) ↔ ∃ isFramework name ts', d = .link isFramework name ∧
      ts = Keyword.link.token :: ts' ∧
        Flag Keyword.framework.token isFramework ts' (.string name :: rest) := by
  constructor
  · intro h
    obtain ⟨u, mid, hu, h₁⟩ := bind_eq_ok_iff.mp h
    obtain ⟨b, mid₁, hb, h₂⟩ := bind_eq_ok_iff.mp h₁
    obtain ⟨name, mid₂, hname, h₃⟩ := bind_eq_ok_iff.mp h₂
    obtain ⟨rfl, rfl⟩ := pure_eq_ok_iff.mp h₃
    exact ⟨b, name, mid, rfl, keyword_eq_ok_iff.mp hu,
      stringLiteral_eq_ok_iff.mp hname ▸ flag_of_accept hb⟩
  · rintro ⟨b, name, ts', rfl, rfl, hb⟩
    rw [link, bind_of_ok (a := ()) (keyword_eq_ok_iff.mpr rfl),
      bind_of_ok (accept_of_flag hb nofun)]
    rfl

theorem configMacros_eq_ok_iff {d : Decl} {ts rest : List Token} :
    configMacros ts = .ok (d, rest) ↔ ∃ as ms ts' mid, d = .configMacros as ms ∧
      ts = Keyword.configMacros.token :: ts' ∧ attributes ts' = .ok (as, mid) ∧
        macros mid = .ok (ms, rest) := by
  constructor
  · intro h
    obtain ⟨u, mid, hu, h₁⟩ := bind_eq_ok_iff.mp h
    obtain ⟨as, mid₁, has, h₂⟩ := bind_eq_ok_iff.mp h₁
    obtain ⟨ms, mid₂, hms, h₃⟩ := bind_eq_ok_iff.mp h₂
    obtain ⟨rfl, rfl⟩ := pure_eq_ok_iff.mp h₃
    exact ⟨as, ms, mid, mid₁, rfl, keyword_eq_ok_iff.mp hu, has, hms⟩
  · rintro ⟨as, ms, ts', mid, rfl, rfl, has, hms⟩
    rw [configMacros, bind_of_ok (a := ()) (keyword_eq_ok_iff.mpr rfl), bind_of_ok has,
      bind_of_ok hms]
    rfl

theorem conflict_eq_ok_iff {d : Decl} {ts rest : List Token} :
    conflict ts = .ok (d, rest) ↔ ∃ name reason ts', d = .conflict name reason ∧
      ts = Keyword.conflict.token :: ts' ∧
        ModuleId name ts' (.punc ',' :: .string reason :: rest) := by
  constructor
  · intro h
    obtain ⟨u, mid, hu, h₁⟩ := bind_eq_ok_iff.mp h
    obtain ⟨name, mid₁, hname, h₂⟩ := bind_eq_ok_iff.mp h₁
    obtain ⟨v, mid₂, hv, h₃⟩ := bind_eq_ok_iff.mp h₂
    obtain ⟨reason, mid₃, hreason, h₄⟩ := bind_eq_ok_iff.mp h₃
    obtain ⟨rfl, rfl⟩ := pure_eq_ok_iff.mp h₄
    obtain rfl := stringLiteral_eq_ok_iff.mp hreason
    obtain rfl := symbol_eq_ok_iff.mp hv
    exact ⟨name, reason, mid, rfl, keyword_eq_ok_iff.mp hu, (dottedName_eq_ok_iff.mp hname).1⟩
  · rintro ⟨name, reason, ts', rfl, rfl, hname⟩
    rw [conflict, bind_of_ok (a := ()) (keyword_eq_ok_iff.mpr rfl),
      bind_of_ok (dottedName_eq_ok_iff.mpr ⟨hname, by simp⟩),
      bind_of_ok (a := ()) (symbol_eq_ok_iff.mpr rfl)]
    rfl

/-! ### Modules -/

theorem moduleHead_iff {e f : Bool} {ts rest : List Token} :
    moduleHead ts = .ok ((e, f), rest) ↔ ModuleHead (e, f) ts rest := by
  constructor
  · intro h
    obtain ⟨e', mid₁, he, h₁⟩ := bind_eq_ok_iff.mp h
    obtain ⟨f', mid₂, hf, h₂⟩ := bind_eq_ok_iff.mp h₁
    obtain ⟨u, mid₃, hu, h₃⟩ := bind_eq_ok_iff.mp h₂
    obtain ⟨⟨⟩, rfl⟩ := pure_eq_ok_iff.mp h₃
    obtain rfl := keyword_eq_ok_iff.mp hu
    exact .mk (flag_of_accept he) (flag_of_accept hf)
  · rintro ⟨he, hf⟩
    rw [moduleHead,
      bind_of_ok (accept_of_flag he (hf.head_ne (by decide) (head_token_ne (by decide) _))),
      bind_of_ok (accept_of_flag hf (head_token_ne (by decide) _)),
      bind_of_ok (a := ()) (keyword_eq_ok_iff.mpr rfl)]
    rfl

theorem regular_eq_ok_iff (hbody : ReadsBody body phrase) {e f : Bool} {d : Decl}
    {ts rest : List Token} :
    regular body e f ts = .ok (d, rest) ↔
      ∃ name as members mid₁ mid₂, d = .regular e f name as members ∧
      ModuleId name ts mid₁ ∧ Attributes as mid₁ (.punc '{' :: mid₂) ∧
        phrase members mid₂ (.punc '}' :: rest) := by
  constructor
  · intro h
    obtain ⟨name, mid₁, hname, h₁⟩ := bind_eq_ok_iff.mp h
    obtain ⟨as, mid₂, has, h₂⟩ := bind_eq_ok_iff.mp h₁
    obtain ⟨u, mid₃, hu, h₃⟩ := bind_eq_ok_iff.mp h₂
    obtain ⟨members, mid₄, hmembers, h₄⟩ := bind_eq_ok_iff.mp h₃
    obtain ⟨v, mid₅, hv, h₅⟩ := bind_eq_ok_iff.mp h₄
    obtain ⟨rfl, rfl⟩ := pure_eq_ok_iff.mp h₅
    obtain rfl := symbol_eq_ok_iff.mp hu
    obtain rfl := symbol_eq_ok_iff.mp hv
    exact ⟨name, as, members, mid₁, mid₃, rfl, (dottedName_eq_ok_iff.mp hname).1,
      (attributes_eq_ok_iff.mp has).1, (hbody _ _ _).mp hmembers⟩
  · rintro ⟨name, as, members, mid₁, mid₂, rfl, hname, has, hmembers⟩
    have hdot : mid₁.head? ≠ some (.punc '.') := by
      cases has with
      | nil => simp
      | cons ha _ => cases ha; simp
    rw [regular, bind_of_ok (dottedName_eq_ok_iff.mpr ⟨hname, hdot⟩),
      bind_of_ok (attributes_eq_ok_iff.mpr ⟨has, by simp⟩),
      bind_of_ok (a := ()) (symbol_eq_ok_iff.mpr rfl),
      bind_of_ok ((hbody _ _ _).mpr hmembers), bind_of_ok (a := ()) (symbol_eq_ok_iff.mpr rfl)]
    rfl

theorem topLevel_eq_ok_iff {d : Decl} {ts rest : List Token} :
    topLevel body ts = .ok (d, rest) ↔
      ∃ e f mid, ModuleHead (e, f) ts mid ∧ regular body e f mid = .ok (d, rest) := by
  unfold topLevel
  rw [bind_eq_ok_iff]
  constructor
  · rintro ⟨⟨e, f⟩, mid, hhead, h⟩
    exact ⟨e, f, mid, moduleHead_iff.mp hhead, h⟩
  · rintro ⟨e, f, mid, hhead, h⟩
    exact ⟨(e, f), mid, moduleHead_iff.mpr hhead, h⟩

theorem external_eq_ok_iff {d : Decl} {ts rest : List Token} :
    external ts = .ok (d, rest) ↔ ∃ name file ts', d = .external name file ∧
      ts = Keyword.external.token :: Keyword.module.token :: ts' ∧
        ModuleId name ts' (.string file :: rest) := by
  constructor
  · intro h
    obtain ⟨u, mid₁, hu, h₁⟩ := bind_eq_ok_iff.mp h
    obtain ⟨v, mid₂, hv, h₂⟩ := bind_eq_ok_iff.mp h₁
    obtain ⟨name, mid₃, hname, h₃⟩ := bind_eq_ok_iff.mp h₂
    obtain ⟨file, mid₄, hfile, h₄⟩ := bind_eq_ok_iff.mp h₃
    obtain ⟨rfl, rfl⟩ := pure_eq_ok_iff.mp h₄
    obtain rfl := stringLiteral_eq_ok_iff.mp hfile
    obtain rfl := keyword_eq_ok_iff.mp hv
    exact ⟨name, file, mid₂, rfl, keyword_eq_ok_iff.mp hu, (dottedName_eq_ok_iff.mp hname).1⟩
  · rintro ⟨name, file, ts', rfl, rfl, hname⟩
    rw [external, bind_of_ok (a := ()) (keyword_eq_ok_iff.mpr rfl),
      bind_of_ok (a := ()) (keyword_eq_ok_iff.mpr rfl),
      bind_of_ok (dottedName_eq_ok_iff.mpr ⟨hname, by simp⟩)]
    rfl

theorem inferredMember_iff (u : Unit) (ts rest : List Token) :
    Behind Keyword.exports.token (fun u ts rest => symbol '*' ts = .ok (u, rest)) u ts rest ↔
      InferredMember u ts rest := by
  constructor
  · rintro ⟨h⟩
    rw [symbol_eq_ok_iff.mp h]
    exact .mk
  · rintro ⟨⟩
    exact .mk (symbol_eq_ok_iff.mpr rfl)

theorem inferred_eq_ok_iff {e f : Bool} {d : Decl} {ts rest : List Token} :
    inferred e f ts = .ok (d, rest) ↔ ∃ as us mid, d = .inferred e f as us.length ∧
      Attributes as ts (.punc '{' :: mid) ∧ Many InferredMember us mid (.punc '}' :: rest) := by
  constructor
  · intro h
    obtain ⟨as, mid₁, has, h₁⟩ := bind_eq_ok_iff.mp h
    obtain ⟨u, mid₂, hu, h₂⟩ := bind_eq_ok_iff.mp h₁
    obtain ⟨us, mid₃, hus, h₃⟩ := bind_eq_ok_iff.mp h₂
    obtain ⟨v, mid₄, hv, h₄⟩ := bind_eq_ok_iff.mp h₃
    obtain ⟨rfl, rfl⟩ := pure_eq_ok_iff.mp h₄
    obtain rfl := symbol_eq_ok_iff.mp hu
    obtain rfl := symbol_eq_ok_iff.mp hv
    obtain ⟨hmany, -⟩ := (many_after_eq_ok_iff fun _ _ _ => Iff.rfl).mp hus
    exact ⟨as, us, mid₂, rfl, (attributes_eq_ok_iff.mp has).1,
      hmany.mono fun u ts rest => (inferredMember_iff u ts rest).mp⟩
  · rintro ⟨as, us, mid, rfl, has, hus⟩
    have hmany := hus.mono fun u ts rest => (inferredMember_iff u ts rest).mpr
    rw [inferred, bind_of_ok (attributes_eq_ok_iff.mpr ⟨has, by simp⟩),
      bind_of_ok (a := ()) (symbol_eq_ok_iff.mpr rfl),
      bind_of_ok ((many_after_eq_ok_iff fun _ _ _ => Iff.rfl).mpr ⟨hmany, nofun⟩),
      bind_of_ok (a := ()) (symbol_eq_ok_iff.mpr rfl)]
    rfl

theorem submodule_eq_ok_iff {d : Decl} {ts rest : List Token} :
    submodule body ts = .ok (d, rest) ↔
      (∃ e f mid, ModuleHead (e, f) ts (.punc '*' :: mid) ∧ inferred e f mid = .ok (d, rest)) ∨
      ∃ e f mid, ModuleHead (e, f) ts mid ∧ mid.head? ≠ some (.punc '*') ∧
        regular body e f mid = .ok (d, rest) := by
  unfold submodule
  rw [bind_eq_ok_iff]
  constructor
  · rintro ⟨⟨e, f⟩, mid, hhead, h⟩
    rcases accept_bind_eq_ok_iff.mp h with ⟨mid', rfl, h₁⟩ | ⟨hne, h₁⟩
    · exact .inl ⟨e, f, mid', moduleHead_iff.mp hhead, h₁⟩
    · exact .inr ⟨e, f, mid, moduleHead_iff.mp hhead, hne, h₁⟩
  · rintro (⟨e, f, mid, hhead, h⟩ | ⟨e, f, mid, hhead, hne, h⟩)
    · exact ⟨(e, f), _, moduleHead_iff.mpr hhead, accept_bind_eq_ok_iff.mpr (.inl ⟨mid, rfl, h⟩)⟩
    · exact ⟨(e, f), mid, moduleHead_iff.mpr hhead, accept_bind_eq_ok_iff.mpr (.inr ⟨hne, h⟩)⟩

/-! ### Which kind of module -/

/-- What a token list that opens with a keyword declares outside of all modules. -/
theorem moduleDeclaration_of_ofToken? {k : Keyword} {ts : List Token}
    (hk : Keyword.ofToken? (Token.front ts) = some k) :
    moduleDeclaration body ts =
      if k = .external then external ts
      else if k = .explicit ∨ k = .framework ∨ k = .module then topLevel body ts
      else refuse (.expected .moduleDeclaration) ts := by
  rw [moduleDeclaration, peek_bind, hk]
  cases k <;> rfl

/-- What a token list that opens with a keyword declares inside a module. -/
theorem submoduleDeclaration_of_ofToken? {k : Keyword} {ts : List Token}
    (hk : Keyword.ofToken? (Token.front ts) = some k) :
    submoduleDeclaration body ts = if k = .external then external ts else submodule body ts := by
  have hfront : Token.front ts = Keyword.external.token ↔ k = .external := by
    rw [Keyword.ofToken?_eq_some_iff.mp hk, token_inj]
  rw [submoduleDeclaration, peek_bind]
  by_cases hext : k = .external
  · rw [if_pos (hfront.mpr hext), if_pos hext, moduleDeclaration_of_ofToken? hk, if_pos hext]
  · rw [if_neg (mt hfront.mp hext), if_neg hext]

end ModuleDeps.Grammar
