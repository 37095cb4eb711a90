import ModuleDeps.Proofs.Module.WellFormed
import ModuleDeps.Proofs.Writing.Text

/-!
# What can be declared

Each part of a well-formed tree is what some declaration says whose tokens are lexemes, and nothing
else is. The statements are equivalences, one for each kind of name and of member: from left to
right they tell what a reader of declarations can rely on, and from right to left they find a
declaration for what is to be said.
-/

namespace ModuleDeps

open Token

/-! ### Lexemes -/

@[simp] theorem lexed_nil : Lexed [] := nofun

@[simp] theorem lexed_cons_iff {t : Token} {ts : List Token} :
    Lexed (t :: ts) ↔ t.IsLexeme ∧ Lexed ts := List.forall_mem_cons

@[simp] theorem lexed_append_iff {ts us : List Token} :
    Lexed (ts ++ us) ↔ Lexed ts ∧ Lexed us := List.forall_mem_append

@[simp] theorem lexed_flatMap_iff {α : Type} {as : List α} {y : α → List Token} :
    Lexed (as.flatMap y) ↔ ∀ a ∈ as, Lexed (y a) := by
  induction as with
  | nil => simp
  | cons a as ih => rw [List.flatMap_cons, lexed_append_iff, ih, List.forall_mem_cons]

@[simp] theorem lexed_optional_iff {t : Token} {b : Bool} :
    Lexed (t.optional b) ↔ (b = true → t.IsLexeme) := by
  cases b <;> simp [Token.optional]

@[simp] theorem isLexeme_ident {s : String} : (ident s).IsLexeme ↔ IsIdentifier s := Iff.rfl

@[simp] theorem isLexeme_string {s : String} : (string s).IsLexeme ↔ IsQuotable s := Iff.rfl

@[simp] theorem isLexeme_integer {s : String} : (integer s).IsLexeme ↔ IsNumeral s := Iff.rfl

@[simp] theorem isLexeme_keyword (k : Keyword) : k.token.IsLexeme := isWord_keyword k

/-- The marks of the grammar are lexemes. -/
@[simp] theorem isLexeme_punc {c : Char} (h : c ∈ ['.', '*', '!', ',', '[', ']', '{', '}']) :
    (punc c).IsLexeme := by
  simp only [List.mem_cons, List.not_mem_nil, or_false] at h
  rcases h with rfl | rfl | rfl | rfl | rfl | rfl | rfl | rfl <;>
    exact ⟨rfl, by decide, rfl, rfl⟩

/-! ### Names -/

theorem DottedName.lexed_iff {n : DottedName} :
    Lexed n.tokens ↔ ∀ w ∈ n.first :: n.more, IsIdentifier w := by
  simp [tokens]

theorem isDotted_iff {s : String} : IsDotted s ↔ ∃ n : DottedName, n.text = s ∧ Lexed n.tokens := by
  constructor
  · rintro ⟨words, hne, hwords, rfl⟩
    obtain ⟨first, more, rfl⟩ := List.exists_cons_of_ne_nil hne
    exact ⟨⟨first, more⟩, rfl, DottedName.lexed_iff.mpr hwords⟩
  · rintro ⟨n, rfl, hn⟩
    exact ⟨n.first :: n.more, List.cons_ne_nil _ _, DottedName.lexed_iff.mp hn, rfl⟩

theorem isExportable_iff {s : String} :
    IsExportable s ↔ ∃ name : ExportName, name.text = s ∧ Lexed name.tokens := by
  constructor
  · rintro (rfl | hs | ⟨t, ht, rfl⟩)
    · exact ⟨.all, rfl, by simp [ExportName.tokens]⟩
    · obtain ⟨n, rfl, hn⟩ := isDotted_iff.mp hs
      exact ⟨.one n, rfl, hn⟩
    · obtain ⟨n, rfl, hn⟩ := isDotted_iff.mp ht
      exact ⟨.below n, rfl, by simpa [ExportName.tokens] using hn⟩
  · rintro ⟨name, rfl, hname⟩
    cases name with
    | all => exact .inl rfl
    | one n => exact .inr (.inl (isDotted_iff.mpr ⟨n, rfl, hname⟩))
    | below n =>
      have hn : Lexed n.tokens := hname.of_subset (List.subset_append_left _ _)
      exact .inr (.inr ⟨n.text, isDotted_iff.mpr ⟨n, rfl, hn⟩, rfl⟩)

@[simp] theorem Feature.lexed_iff {f : Feature} : Lexed f.tokens ↔ IsIdentifier f.name := by
  simp [tokens]

@[simp] theorem lexed_attributeTokens_iff {as : List String} :
    Lexed (attributeTokens as) ↔ ∀ a ∈ as, IsIdentifier a := by
  simp [attributeTokens]

@[simp] theorem lexed_macroTokens_iff {ms : List String} :
    Lexed (macroTokens ms) ↔ ∀ name ∈ ms, IsIdentifier name := by
  cases ms <;> simp [macroTokens]

@[simp] theorem lexed_headTokens (e f : Bool) : Lexed (headTokens e f) := by
  simp [headTokens]

/-! ### Headers -/

@[simp] theorem lexed_headerForm (form : HeaderForm) : Lexed form.tokens := by
  cases form <;> simp [HeaderForm.tokens]

/-- Braces that hold nothing do not matter. -/
theorem lexed_braceTokens_iff {braces : Option (Option HeaderProperty)} :
    Lexed (braceTokens braces) ↔ ∀ p, braces.join = some p → Lexed p.tokens := by
  rcases braces with - | - | p <;> simp [braceTokens]

/-- A header in its one form. -/
theorem headerOf_wellFormed {form : HeaderForm} {name : String} {property : Option HeaderProperty}
    (hname : IsQuotable name) (hproperty : ∀ p, property = some p → Lexed p.tokens) :
    (Decl.headerOf form name property).WellFormed where
  name := hname
  umbrella h := by cases form <;> simp_all [Decl.headerOf]
  exclude h := by cases form <;> simp_all [Decl.headerOf]
  size digits h := by
    rcases property with - | (n | n) <;> cases h
    simpa [HeaderProperty.tokens] using hproperty _ rfl
  mtime digits h := by
    rcases property with - | (n | n) <;> cases h
    simpa [HeaderProperty.tokens] using hproperty _ rfl
  property := by
    rcases property with - | (n | n)
    · exact .inl rfl
    · exact .inr rfl
    · exact .inl rfl

theorem Header.WellFormed.exists_form {h : Header} (hh : h.WellFormed) :
    ∃ form, Decl.headerOf form h.name none = { h with size := none, mtime := none } := by
  obtain ⟨name, isUmbrella, isExclude, isPrivate, isTextual, size, mtime⟩ := h
  cases isUmbrella with
  | true =>
    obtain ⟨rfl, rfl, rfl⟩ := hh.umbrella rfl
    exact ⟨.umbrella, rfl⟩
  | false =>
    cases isExclude with
    | true =>
      obtain ⟨rfl, rfl⟩ := hh.exclude rfl
      exact ⟨.exclude, rfl⟩
    | false => exact ⟨.plain isPrivate isTextual, rfl⟩

theorem Header.WellFormed.exists_property {h : Header} (hh : h.WellFormed) :
    ∃ property : Option HeaderProperty, (∀ p, property = some p → Lexed p.tokens) ∧
      ∀ form name, (Decl.headerOf form name property).size = h.size ∧
        (Decl.headerOf form name property).mtime = h.mtime := by
  obtain ⟨name, isUmbrella, isExclude, isPrivate, isTextual, size, mtime⟩ := h
  cases size with
  | some n =>
    obtain rfl : mtime = none := by simpa using hh.property
    refine ⟨some (.size n), ?_, fun _ _ => ⟨rfl, rfl⟩⟩
    rintro p ⟨⟩
    simpa [HeaderProperty.tokens] using hh.size n rfl
  | none =>
    cases mtime with
    | some n =>
      refine ⟨some (.mtime n), ?_, fun _ _ => ⟨rfl, rfl⟩⟩
      rintro p ⟨⟩
      simpa [HeaderProperty.tokens] using hh.mtime n rfl
    | none =>
      refine ⟨none, ?_, fun _ _ => ⟨rfl, rfl⟩⟩
      rintro p ⟨⟩

/-- Each well-formed header can be written. -/
theorem Header.WellFormed.exists_headerOf {h : Header} (hh : h.WellFormed) :
    ∃ form property, Decl.headerOf form h.name property = h ∧
      ∀ p, property = some p → Lexed p.tokens := by
  obtain ⟨form, hform⟩ := hh.exists_form
  obtain ⟨property, hlex, hproperty⟩ := hh.exists_property
  refine ⟨form, property, ?_, hlex⟩
  have hflags : Decl.headerOf form h.name property =
      { Decl.headerOf form h.name none with
        size := (Decl.headerOf form h.name property).size
        mtime := (Decl.headerOf form h.name property).mtime } := rfl
  obtain ⟨hsize, hmtime⟩ := hproperty form h.name
  rw [hflags, hform, hsize, hmtime]

/-! ### Members -/

namespace Decl

/-- Some declaration whose tokens are lexemes says `a`, as far as `p` looks. -/
def Declares {α : Type} (p : Decl → Option α) (a : α) : Prop := ∃ d, p d = some a ∧ Lexed d.tokens

theorem declares_header?_iff {h : Header} : Declares header? h ↔ h.WellFormed := by
  constructor
  · rintro ⟨d, hd, hlex⟩
    cases d with
    | header form name braces =>
      cases hd
      simp only [tokens, lexed_append_iff, lexed_cons_iff, lexed_braceTokens_iff] at hlex
      exact headerOf_wellFormed hlex.1.2.2.1 hlex.2
    | requires | umbrellaDir | external | inferred | regular | exports | exportAs | use | link |
      configMacros | conflict => cases hd
  · intro hh
    obtain ⟨form, property, hform, hproperty⟩ := hh.exists_headerOf
    have hjoin : (property.map some).join = property := by cases property <;> rfl
    refine ⟨header form h.name (property.map some), ?_, ?_⟩
    · rw [header?, hjoin, hform]
    · have hbraces : Lexed (braceTokens (property.map some)) := by
        rw [lexed_braceTokens_iff, hjoin]
        exact hproperty
      simp [tokens, hbraces, hh.name]

theorem declares_umbrellaDir?_iff {dir : String} :
    Declares umbrellaDir? dir ↔ IsQuotable dir := by
  constructor
  · rintro ⟨d, hd, hlex⟩
    cases d with
    | umbrellaDir => cases hd; simpa [tokens] using hlex
    | requires | header | external | inferred | regular | exports | exportAs | use | link |
      configMacros | conflict => cases hd
  · intro h
    exact ⟨.umbrellaDir dir, rfl, by simpa [tokens] using h⟩

theorem declares_export?_iff {name : String} : Declares export? name ↔ IsExportable name := by
  rw [isExportable_iff]
  constructor
  · rintro ⟨d, hd, hlex⟩
    cases d with
    | exports name => cases hd; exact ⟨name, rfl, by simpa [tokens] using hlex⟩
    | requires | header | umbrellaDir | external | inferred | regular | exportAs | use | link |
      configMacros | conflict => cases hd
  · rintro ⟨name, rfl, hlex⟩
    exact ⟨.exports name, rfl, by simpa [tokens] using hlex⟩

theorem declares_exportAs?_iff {name : String} :
    Declares exportAs? name ↔ IsIdentifier name := by
  constructor
  · rintro ⟨d, hd, hlex⟩
    cases d with
    | exportAs => cases hd; simpa [tokens] using hlex
    | requires | header | umbrellaDir | external | inferred | regular | exports | use | link |
      configMacros | conflict => cases hd
  · intro h
    exact ⟨.exportAs name, rfl, by simpa [tokens] using h⟩

theorem declares_use?_iff {name : String} : Declares use? name ↔ IsIdentifier name := by
  constructor
  · rintro ⟨d, hd, hlex⟩
    cases d with
    | use => cases hd; simpa [tokens] using hlex
    | requires | header | umbrellaDir | external | inferred | regular | exports | exportAs | link |
      configMacros | conflict => cases hd
  · intro h
    exact ⟨.use name, rfl, by simpa [tokens] using h⟩

theorem declares_link?_iff {l : Link} : Declares link? l ↔ IsQuotable l.name := by
  constructor
  · rintro ⟨d, hd, hlex⟩
    cases d with
    | link => cases hd; simpa [tokens] using hlex
    | requires | header | umbrellaDir | external | inferred | regular | exports | exportAs | use |
      configMacros | conflict => cases hd
  · intro h
    exact ⟨.link l.isFramework l.name, rfl, by simpa [tokens] using h⟩

theorem declares_configMacros?_iff {c : ConfigMacros} :
    Declares configMacros? c ↔ c.WellFormed := by
  constructor
  · rintro ⟨d, hd, hlex⟩
    cases d with
    | configMacros as ms =>
      cases hd
      obtain ⟨has, hms⟩ : (∀ a ∈ as, IsIdentifier a) ∧ ∀ name ∈ ms, IsIdentifier name := by
        simpa [tokens] using hlex
      exact ⟨has, hms⟩
    | requires | header | umbrellaDir | external | inferred | regular | exports | exportAs | use |
      link | conflict => cases hd
  · intro h
    exact ⟨.configMacros c.attributes c.macros, rfl, by simpa [tokens] using ⟨h.attributes, h.macros⟩⟩

theorem declares_conflict?_iff {c : Conflict} : Declares conflict? c ↔ c.WellFormed := by
  constructor
  · rintro ⟨d, hd, hlex⟩
    cases d with
    | conflict name reason =>
      cases hd
      obtain ⟨hname, hreason⟩ : Lexed name.tokens ∧ IsQuotable reason := by
        simpa [tokens] using hlex
      exact ⟨isDotted_iff.mpr ⟨name, rfl, hname⟩, hreason⟩
    | requires | header | umbrellaDir | external | inferred | regular | exports | exportAs | use |
      link | configMacros => cases hd
  · intro h
    obtain ⟨name, hname, hlex⟩ := isDotted_iff.mp h.moduleId
    refine ⟨.conflict name c.reason, ?_, by simpa [tokens, hlex] using h.reason⟩
    rw [conflict?, hname]

/-! ### Lists of members -/

variable {α : Type} {p : Decl → Option α} {q : α → Prop} {ds : List Decl}

/-- What is found in members. -/
theorem forall_mem_filterMap (hq : ∀ {a}, Declares p a ↔ q a) (h : ∀ d ∈ ds, Lexed d.tokens) :
    ∀ a ∈ ds.filterMap p, q a := by
  intro a ha
  obtain ⟨d, hd, hda⟩ := List.mem_filterMap.mp ha
  exact hq.mp ⟨d, hda, h d hd⟩

/-- Members that say all that is to be said. -/
theorem exists_filterMap_eq {P : Decl → Prop} {as : List α}
    (h : ∀ a ∈ as, ∃ d, p d = some a ∧ P d) :
    ∃ ds : List Decl, ds.filterMap p = as ∧ ∀ d ∈ ds, P d := by
  induction as with
  | nil => exact ⟨[], rfl, nofun⟩
  | cons a as ih =>
    obtain ⟨⟨d, hd, hPd⟩, has⟩ := List.forall_mem_cons.mp h
    obtain ⟨ds, hds, hPds⟩ := ih has
    exact ⟨d :: ds, by rw [List.filterMap_cons_some hd, hds], List.forall_mem_cons.mpr ⟨hPd, hPds⟩⟩

theorem exists_members (hq : ∀ {a}, Declares p a ↔ q a) {as : List α} (h : ∀ a ∈ as, q a) :
    ∃ ds : List Decl, ds.filterMap p = as ∧ ∀ d ∈ ds, Lexed d.tokens :=
  exists_filterMap_eq fun a ha => hq.mpr (h a ha)

end Decl

end ModuleDeps
