import ModuleDeps.Declaration.Grammar

/-!
# Derivations

The grammar of module maps without a way of reading them: a phrase relates what is said to the
tokens that say it, up to the tokens that follow. Each production stands above its phrase. Keywords
are identifiers as well, and may be used as names.

Three things are not in the productions alone. Between the braces of a header stands at most one
attribute. The names of configuration macros are left out only in front of a token that is no
identifier. And bodies nest at most `Rule.maxNesting` deep, where those of inferred submodules and
the braces of headers do not count: `Body n` is a body in which they nest at most `n` deep, itself
counted.
-/

namespace ModuleDeps.Grammar

/-- A phrase says a value in front of the tokens that follow: `p a ts rest` says `a` in the tokens
that `ts` has in front of `rest`. -/
abbrev Phrase (α : Type) := α → List Token → List Token → Prop

variable {α : Type}

/-! ### Building blocks -/

/-- `item*`. -/
inductive Many (item : Phrase α) : Phrase (List α) where
  | nil {ts : List Token} : Many item [] ts ts
  | cons {a : α} {as : List α} {ts mid rest : List Token} (h : item a ts mid)
    (hs : Many item as mid rest) :
      Many item (a :: as) ts rest

/-- `t item`. -/
inductive Behind (t : Token) (item : Phrase α) : Phrase α where
  | mk {a : α} {ts rest : List Token} (h : item a ts rest) : Behind t item a (t :: ts) rest

/-- `item (t item)*`. -/
inductive Separated (t : Token) (item : Phrase α) : Phrase (List α) where
  | mk {a : α} {as : List α} {ts mid rest : List Token} (h : item a ts mid)
      (hs : Many (Behind t item) as mid rest) : Separated t item (a :: as) ts rest

/-- `t?`, a flag that is set if the token is there. -/
inductive Flag (t : Token) : Phrase Bool where
  | absent {ts : List Token} : Flag t false ts ts
  | present {ts : List Token} : Flag t true (t :: ts) ts

/-- An identifier. -/
inductive Identifier : Phrase String where
  | mk {s : String} {ts : List Token} : Identifier s (.ident s :: ts) ts

/-! ### Names and lists -/

/-- `module-id: identifier ('.' identifier)*`. -/
inductive ModuleId : Phrase DottedName where
  | mk {s : String} {ss : List String} {ts rest : List Token}
      (h : Separated (.punc '.') Identifier (s :: ss) ts rest) : ModuleId ⟨s, ss⟩ ts rest

/-- The exported name with an identifier and a dot in front of it. -/
def under (s : String) : ExportName → ExportName
  | .all => .below ⟨s, []⟩
  | .one n => .one ⟨s, n.first :: n.more⟩
  | .below n => .below ⟨s, n.first :: n.more⟩

/-- `wildcard-module-id: identifier | '*' | identifier '.' wildcard-module-id`. -/
inductive WildcardModuleId : Phrase ExportName where
  | identifier {s : String} {ts : List Token} : WildcardModuleId (.one ⟨s, []⟩) (.ident s :: ts) ts
  | star {ts : List Token} : WildcardModuleId .all (.punc '*' :: ts) ts
  | under {s : String} {name : ExportName} {ts rest : List Token}
    (h : WildcardModuleId name ts rest) :
      WildcardModuleId (under s name) (.ident s :: .punc '.' :: ts) rest

/-- `'[' identifier ']'`. -/
inductive Attribute : Phrase String where
  | mk {s : String} {ts : List Token} : Attribute s (.punc '[' :: .ident s :: .punc ']' :: ts) ts

/-- `attributes?`, where `attributes: ('[' identifier ']')+`. -/
abbrev Attributes : Phrase (List String) := Many Attribute

/-- `feature: '!'? identifier`. -/
inductive IsFeature : Phrase Feature where
  | positive {s : String} {ts : List Token} : IsFeature ⟨s, true⟩ (.ident s :: ts) ts
  | negative {s : String} {ts : List Token} : IsFeature ⟨s, false⟩ (.punc '!' :: .ident s :: ts) ts

/-- `config-macro-list?`, where `config-macro-list: identifier (',' identifier)*`. -/
inductive MacroList : Phrase (List String) where
  /-- The list is left out, and no identifier follows. -/
  | absent {ts : List Token} (h : ∀ s, ts.head? ≠ some (.ident s)) : MacroList [] ts ts
  | present {macros : List String} {ts rest : List Token}
      (h : Separated (.punc ',') Identifier macros ts rest) : MacroList macros ts rest

/-! ### Headers -/

/-- `private? textual? | umbrella | exclude`. -/
inductive IsHeaderForm : Phrase HeaderForm where
  | plain {p t : Bool} {ts mid rest : List Token} (hp : Flag Keyword.privately.token p ts mid)
      (ht : Flag Keyword.textual.token t mid rest) : IsHeaderForm (.plain p t) ts rest
  | umbrella {ts : List Token} : IsHeaderForm .umbrella (Keyword.umbrella.token :: ts) ts
  | exclude {ts : List Token} : IsHeaderForm .exclude (Keyword.exclude.token :: ts) ts

/-- `header-attr: size integer-literal | mtime integer-literal`. -/
inductive HeaderAttr : Phrase HeaderProperty where
  | size {digits : String} {ts : List Token} :
      HeaderAttr (.size digits) (Keyword.size.token :: .integer digits :: ts) ts
  | mtime {digits : String} {ts : List Token} :
      HeaderAttr (.mtime digits) (Keyword.mtime.token :: .integer digits :: ts) ts

/-- `header-attrs?`, where `header-attrs: '{' header-attr? '}'`. -/
inductive HeaderAttrs : Phrase (Option (Option HeaderProperty)) where
  | absent {ts : List Token} : HeaderAttrs none ts ts
  | empty {ts : List Token} : HeaderAttrs (some none) (.punc '{' :: .punc '}' :: ts) ts
  | one {p : HeaderProperty} {ts rest : List Token} (h : HeaderAttr p ts (.punc '}' :: rest)) :
      HeaderAttrs (some (some p)) (.punc '{' :: ts) rest

/-! ### Modules and their members -/

/-- `explicit? framework? module`. -/
inductive ModuleHead : Phrase (Bool × Bool) where
  | mk {e f : Bool} {ts mid rest : List Token} (he : Flag Keyword.explicit.token e ts mid)
      (hf : Flag Keyword.framework.token f mid (Keyword.module.token :: rest)) :
        ModuleHead (e, f) ts rest

/-- `module-declaration`, where `body` stands between the braces. -/
inductive ModuleDeclaration (body : Phrase (List Decl)) : Phrase Decl where
  /-- `explicit? framework? module module-id attributes? '{' module-member* '}'`. -/
  | regular {e f : Bool} {name : DottedName} {attributes : List String} {members : List Decl}
      {ts ts₁ ts₂ ts₃ rest : List Token} (hhead : ModuleHead (e, f) ts ts₁)
        (hname : ModuleId name ts₁ ts₂)
      (hattributes : Attributes attributes ts₂ (.punc '{' :: ts₃))
      (hbody : body members ts₃ (.punc '}' :: rest)) :
      ModuleDeclaration body (.regular e f name attributes members) ts rest
  /-- `extern module module-id string-literal`. -/
  | external {name : DottedName} {file : String} {ts rest : List Token}
      (h : ModuleId name ts (.string file :: rest)) :
      ModuleDeclaration body (.external name file)
        (Keyword.external.token :: Keyword.module.token :: ts) rest

/-- `inferred-submodule-member: export '*'`. -/
inductive InferredMember : Phrase Unit where
  | mk {ts : List Token} : InferredMember () (Keyword.exports.token :: .punc '*' :: ts) ts

/-- `module-member`, where `body` stands between the braces of a submodule. -/
inductive ModuleMember (body : Phrase (List Decl)) : Phrase Decl where
  /-- `requires feature (',' feature)*`. -/
  | requires {f : Feature} {fs : List Feature} {ts rest : List Token}
      (h : Separated (.punc ',') IsFeature (f :: fs) ts rest) :
      ModuleMember body (.requires f fs) (Keyword.requires.token :: ts) rest
  /-- `private? textual? header string-literal header-attrs?`, or with `umbrella` or `exclude`. -/
  | header {form : HeaderForm} {name : String} {braces : Option (Option HeaderProperty)}
      {ts mid rest : List Token}
        (hform : IsHeaderForm form ts (Keyword.header.token :: .string name :: mid))
      (hbraces : HeaderAttrs braces mid rest) : ModuleMember body (.header form name braces) ts rest
  /-- `umbrella string-literal`. -/
  | umbrellaDir {name : String} {ts : List Token} :
      ModuleMember body (.umbrellaDir name) (Keyword.umbrella.token :: .string name :: ts) ts
  /-- `module-declaration`, as a submodule. -/
  | submodule {d : Decl} {ts rest : List Token} (h : ModuleDeclaration body d ts rest) :
      ModuleMember body d ts rest
  /-- `explicit? framework? module '*' attributes? '{' inferred-submodule-member* '}'`. -/
  | inferred {e f : Bool} {attributes : List String} {exports : List Unit}
    {ts ts₁ ts₂ rest : List Token}
      (hhead : ModuleHead (e, f) ts (.punc '*' :: ts₁))
      (hattributes : Attributes attributes ts₁ (.punc '{' :: ts₂))
      (hexports : Many InferredMember exports ts₂ (.punc '}' :: rest)) :
      ModuleMember body (.inferred e f attributes exports.length) ts rest
  /-- `export wildcard-module-id`. -/
  | exports {name : ExportName} {ts rest : List Token} (h : WildcardModuleId name ts rest) :
      ModuleMember body (.exports name) (Keyword.exports.token :: ts) rest
  /-- `export_as identifier`. -/
  | exportAs {name : String} {ts : List Token} :
      ModuleMember body (.exportAs name) (Keyword.exportAs.token :: .ident name :: ts) ts
  /-- `use identifier`. -/
  | use {name : String} {ts : List Token} :
      ModuleMember body (.use name) (Keyword.use.token :: .ident name :: ts) ts
  /-- `link framework? string-literal`. -/
  | link {isFramework : Bool} {name : String} {ts rest : List Token}
      (h : Flag Keyword.framework.token isFramework ts (.string name :: rest)) :
      ModuleMember body (.link isFramework name) (Keyword.link.token :: ts) rest
  /-- `config_macros attributes? config-macro-list?`. -/
  | configMacros {attributes macros : List String} {ts mid rest : List Token}
      (hattributes : Attributes attributes ts mid) (hmacros : MacroList macros mid rest) :
      ModuleMember body (.configMacros attributes macros) (Keyword.configMacros.token :: ts) rest
  /-- `conflict module-id ',' string-literal`. -/
  | conflict {name : DottedName} {reason : String} {ts rest : List Token}
      (h : ModuleId name ts (.punc ',' :: .string reason :: rest)) :
      ModuleMember body (.conflict name reason) (Keyword.conflict.token :: ts) rest

/-- `module-member*`, with bodies that nest at most as deep as the number says. -/
def Body : Nat → Phrase (List Decl)
  | 0 => fun _ _ _ => False
  | n + 1 => Many (ModuleMember (Body n))

/-- `module-map-file: module-declaration*`. -/
def File (decls : List Decl) (ts : List Token) : Prop :=
  Many (ModuleDeclaration (Body Rule.maxNesting)) decls ts []

end ModuleDeps.Grammar
