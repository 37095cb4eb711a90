import ModuleDeps.Proofs.Grammar.Derivation

/-!
# The tokens of a declaration

A declaration keeps all that its writer was free to choose, so it has one spelling: `Decl.tokens`.
Each phrase says its value in these tokens (`ModuleMember.eq_append`, `Body.eq_append`).
-/

namespace ModuleDeps

/-! ### Spelling -/

/-- A token that is there if the flag is set. -/
def Token.optional (t : Token) (b : Bool) : List Token := if b then [t] else []

/-- The tokens of a name. -/
def DottedName.tokens (n : DottedName) : List Token :=
  .ident n.first :: n.more.flatMap fun s => [.punc '.', .ident s]

/-- The tokens of an exported name. -/
def ExportName.tokens : ExportName → List Token
  | all => [.punc '*']
  | one n => n.tokens
  | below n => n.tokens ++ [.punc '.', .punc '*']

/-- The tokens of a feature. -/
def Feature.tokens (f : Feature) : List Token :=
  Token.optional (.punc '!') (!f.isPositive) ++ [.ident f.name]

/-- The tokens of attributes. -/
def attributeTokens (names : List String) : List Token :=
  names.flatMap fun s => [.punc '[', .ident s, .punc ']']

/-- The tokens of a list of macros. -/
def macroTokens : List String → List Token
  | [] => []
  | m :: ms => .ident m :: ms.flatMap fun s => [.punc ',', .ident s]

/-- The tokens in front of `header`. -/
def HeaderForm.tokens : HeaderForm → List Token
  | umbrella => [Keyword.umbrella.token]
  | exclude => [Keyword.exclude.token]
  | plain p t => Token.optional Keyword.privately.token p ++ Token.optional Keyword.textual.token t

/-- The tokens of an expected property. -/
def HeaderProperty.tokens : HeaderProperty → List Token
  | size digits => [Keyword.size.token, .integer digits]
  | mtime digits => [Keyword.mtime.token, .integer digits]

/-- The tokens behind the name of a header. -/
def braceTokens : Option (Option HeaderProperty) → List Token
  | none => []
  | some none => [.punc '{', .punc '}']
  | some (some p) => .punc '{' :: p.tokens ++ [.punc '}']

/-- The tokens in front of the name of a module. -/
def headTokens (isExplicit isFramework : Bool) : List Token :=
  Token.optional Keyword.explicit.token isExplicit ++
    Token.optional Keyword.framework.token isFramework ++
    [Keyword.module.token]

mutual

/-- The tokens of a declaration. -/
def Decl.tokens : Decl → List Token
  | .requires f fs => Keyword.requires.token :: f.tokens ++ fs.flatMap fun g =>
    .punc ',' :: g.tokens
  | .header form name braces =>
    form.tokens ++ [Keyword.header.token, .string name] ++ braceTokens braces
  | .umbrellaDir name => [Keyword.umbrella.token, .string name]
  | .exports name => Keyword.exports.token :: name.tokens
  | .exportAs name => [Keyword.exportAs.token, .ident name]
  | .use name => [Keyword.use.token, .ident name]
  | .link isFramework name =>
    Keyword.link.token :: Token.optional Keyword.framework.token isFramework ++ [.string name]
  | .configMacros attributes macros =>
    Keyword.configMacros.token :: attributeTokens attributes ++ macroTokens macros
  | .conflict name reason => Keyword.conflict.token :: name.tokens ++ [.punc ',', .string reason]
  | .external name file =>
    Keyword.external.token :: Keyword.module.token :: name.tokens ++ [.string file]
  | .inferred isExplicit isFramework attributes exportCount =>
    headTokens isExplicit isFramework ++ .punc '*' :: attributeTokens attributes ++ .punc '{' ::
      (List.replicate exportCount ()).flatMap (fun _ => [Keyword.exports.token, .punc '*']) ++
        [.punc '}']
  | .regular isExplicit isFramework name attributes members =>
    headTokens isExplicit isFramework ++ name.tokens ++ attributeTokens attributes ++ .punc '{' ::
      Decl.tokensList members ++ [.punc '}']

/-- The tokens of declarations, one after the other. -/
def Decl.tokensList : List Decl → List Token
  | [] => []
  | d :: ds => d.tokens ++ Decl.tokensList ds

end

theorem Decl.tokensList_eq_flatMap (ds : List Decl) :
    Decl.tokensList ds = ds.flatMap Decl.tokens := by
  induction ds with
  | nil => rfl
  | cons d ds ih => rw [tokensList, ih, List.flatMap_cons]

theorem Decl.tokensList_append (ds ds' : List Decl) :
    tokensList (ds ++ ds') = tokensList ds ++ tokensList ds' := by
  simp [tokensList_eq_flatMap]

namespace Grammar

variable {α : Type}

/-! ### Each phrase is spelled so -/

theorem Many.eq_append {p : Phrase α} {y : α → List Token}
    (h : ∀ a ts rest, p a ts rest → ts = y a ++ rest)
    {as : List α} {ts rest : List Token} (hm : Many p as ts rest) : ts = as.flatMap y ++ rest := by
  induction hm with
  | nil => rfl
  | cons ha _ ih => rw [h _ _ _ ha, ih, List.flatMap_cons, List.append_assoc]

theorem Separated.eq_append {t : Token} {p : Phrase α} {y : α → List Token}
    (h : ∀ a ts rest, p a ts rest → ts = y a ++ rest) {a : α} {as : List α} {ts rest : List Token}
    (hs : Separated t p (a :: as) ts rest) :
    ts = y a ++ as.flatMap (fun b => t :: y b) ++ rest := by
  obtain ⟨ha, hm⟩ := hs
  have hm := hm.eq_append fun b us rest (hb : Behind t p b us rest) =>
      show us = (t :: y b) ++ rest by
    obtain ⟨hb⟩ := hb
    rw [h _ _ _ hb, List.cons_append]
  rw [h _ _ _ ha, hm, List.append_assoc]

theorem Flag.eq_append {t : Token} {b : Bool} {ts rest : List Token} (h : Flag t b ts rest) :
    ts = t.optional b ++ rest := by
  cases h <;> rfl

theorem Identifier.eq_append {s : String} {ts rest : List Token} (h : Identifier s ts rest) :
    ts = [.ident s] ++ rest := by
  cases h
  rfl

theorem ModuleId.eq_append {n : DottedName} {ts rest : List Token} (h : ModuleId n ts rest) :
    ts = n.tokens ++ rest := by
  obtain ⟨h⟩ := h
  exact h.eq_append fun s ts rest (hs : Identifier s ts rest) => hs.eq_append

theorem tokens_under (s : String) (name : ExportName) :
    (under s name).tokens = .ident s :: .punc '.' :: name.tokens := by
  cases name <;> rfl

theorem WildcardModuleId.eq_append {name : ExportName} {ts rest : List Token}
    (h : WildcardModuleId name ts rest) : ts = name.tokens ++ rest := by
  induction h with
  | identifier => rfl
  | star => rfl
  | under _ ih => rw [tokens_under, ih, List.cons_append, List.cons_append]

theorem Attributes.eq_append {as : List String} {ts rest : List Token} (h : Attributes as ts rest) :
    ts = attributeTokens as ++ rest :=
  Many.eq_append (fun s ts rest (h : Attribute s ts rest) => by cases h; rfl) h

theorem IsFeature.eq_append {f : Feature} {ts rest : List Token} (h : IsFeature f ts rest) :
    ts = f.tokens ++ rest := by
  cases h <;> rfl

theorem MacroList.eq_append {ms : List String} {ts rest : List Token} (h : MacroList ms ts rest) :
    ts = macroTokens ms ++ rest := by
  cases h with
  | absent => rfl
  | present h =>
    cases h with
    | mk ha hs => exact (Separated.mk ha hs).eq_append fun s ts rest (hi : Identifier s ts rest) =>
      hi.eq_append

theorem IsHeaderForm.eq_append {form : HeaderForm} {ts rest : List Token}
    (h : IsHeaderForm form ts rest) :
    ts = form.tokens ++ rest := by
  cases h with
  | umbrella => rfl
  | exclude => rfl
  | plain hp ht => rw [hp.eq_append, ht.eq_append, HeaderForm.tokens, List.append_assoc]

theorem HeaderAttrs.eq_append {braces : Option (Option HeaderProperty)} {ts rest : List Token}
    (h : HeaderAttrs braces ts rest) : ts = braceTokens braces ++ rest := by
  cases h with
  | absent => rfl
  | empty => rfl
  | one h => cases h <;> rfl

theorem ModuleHead.eq_append {e f : Bool} {ts rest : List Token} (h : ModuleHead (e, f) ts rest) :
    ts = headTokens e f ++ rest := by
  obtain ⟨he, hf⟩ := h
  rw [he.eq_append, hf.eq_append, headTokens]
  simp

theorem ModuleDeclaration.eq_append {body : Phrase (List Decl)}
    (hbody : ∀ ds ts rest, body ds ts rest → ts = Decl.tokensList ds ++ rest) {d : Decl}
    {ts rest : List Token} (h : ModuleDeclaration body d ts rest) : ts = d.tokens ++ rest := by
  cases h with
  | regular hhead hname hattributes hmembers =>
    rw [hhead.eq_append, hname.eq_append, hattributes.eq_append, hbody _ _ _ hmembers, Decl.tokens]
    simp
  | external h =>
    rw [h.eq_append, Decl.tokens]
    simp

theorem ModuleMember.eq_append {body : Phrase (List Decl)}
    (hbody : ∀ ds ts rest, body ds ts rest → ts = Decl.tokensList ds ++ rest) {d : Decl}
    {ts rest : List Token} (h : ModuleMember body d ts rest) : ts = d.tokens ++ rest := by
  cases h with
  | submodule h => exact h.eq_append hbody
  | umbrellaDir => rfl
  | exportAs => rfl
  | use => rfl
  | requires h =>
    rw [h.eq_append fun f ts rest (hf : IsFeature f ts rest) => hf.eq_append, Decl.tokens]
    simp
  | header hform hbraces =>
    rw [hform.eq_append, hbraces.eq_append, Decl.tokens]
    simp
  | @inferred _ _ _ exports _ _ _ _ hhead hattributes hexports =>
    have hexports := hexports.eq_append (fun u ts rest (h : InferredMember u ts rest) =>
      show ts = [Keyword.exports.token, .punc '*'] ++ rest by cases h; rfl)
    have hcount : exports = List.replicate exports.length () :=
      List.eq_replicate_of_mem fun _ _ => rfl
    rw [hhead.eq_append, Attributes.eq_append hattributes, hexports, Decl.tokens, ← hcount]
    simp
  | exports h =>
    rw [h.eq_append, Decl.tokens]
    rfl
  | link h =>
    rw [h.eq_append, Decl.tokens]
    simp
  | configMacros hattributes hmacros =>
    rw [hattributes.eq_append, hmacros.eq_append, Decl.tokens]
    simp
  | conflict h =>
    rw [h.eq_append, Decl.tokens]
    simp

theorem Body.eq_append {n : Nat} {ds : List Decl} {ts rest : List Token} (h : Body n ds ts rest) :
    ts = Decl.tokensList ds ++ rest := by
  induction n generalizing ds ts rest with
  | zero => exact h.elim
  | succ n ih =>
    rw [Decl.tokensList_eq_flatMap]
    exact Many.eq_append (fun _ _ _ hd => ModuleMember.eq_append (fun _ _ _ => ih) hd) h

theorem eq_append_of_many {n : Nat} {ds : List Decl} {ts rest : List Token}
    (h : Many (ModuleDeclaration (Body n)) ds ts rest) : ts = Decl.tokensList ds ++ rest := by
  rw [Decl.tokensList_eq_flatMap]
  exact h.eq_append fun _ _ _ hd => hd.eq_append fun _ _ _ => Body.eq_append

/-! ### What phrases open with -/

theorem ModuleId.front {name : DottedName} {ts rest : List Token} (h : ModuleId name ts rest) :
    ∃ s ts', ts = .ident s :: ts' := by
  obtain ⟨⟨⟨⟩, -⟩⟩ := h
  exact ⟨_, _, rfl⟩

theorem ModuleHead.front {e f : Bool} {ts rest : List Token} (h : ModuleHead (e, f) ts rest) :
    ∃ s ts', ts = .ident s :: ts' := by
  obtain ⟨he, hf⟩ := h
  cases he with
  | present => exact ⟨_, _, rfl⟩
  | absent => cases hf <;> exact ⟨_, _, rfl⟩

theorem ModuleDeclaration.front {body : Phrase (List Decl)} {d : Decl} {ts rest : List Token}
    (h : ModuleDeclaration body d ts rest) :
    ∃ s ts', ts = .ident s :: ts' := by
  cases h with
  | regular hhead => exact hhead.front
  | external => exact ⟨_, _, rfl⟩

/-- Each member opens with an identifier. -/
theorem ModuleMember.front {body : Phrase (List Decl)} {d : Decl} {ts rest : List Token}
    (h : ModuleMember body d ts rest) :
    ∃ s ts', ts = .ident s :: ts' := by
  cases h with
  | submodule h => exact h.front
  | inferred hhead => exact hhead.front
  | header hform =>
    cases hform with
    | umbrella | exclude => exact ⟨_, _, rfl⟩
    | plain hp ht =>
      cases hp with
      | present => exact ⟨_, _, rfl⟩
      | absent => cases ht <;> exact ⟨_, _, rfl⟩
  | requires | umbrellaDir | exports | exportAs | use | link | configMacros | conflict =>
    exact ⟨_, _, rfl⟩

end Grammar

end ModuleDeps
