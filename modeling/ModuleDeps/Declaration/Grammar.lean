import ModuleDeps.Declaration.Rule

/-!
# The grammar of module maps

The rules that read declarations from tokens. At most two tokens decide how to go on: the second
one is needed behind `umbrella`, which opens a header or names a directory, and behind a dot in an
exported name. The keywords are identifiers, so they may also be used as names.

A body that opens inside `maxNesting` others is refused, so the rules for bodies are defined by
recursion on how many more may open. The bodies of inferred submodules hold nothing but `export *`
and are not counted.
-/

namespace ModuleDeps

namespace Rule

/-! ### Names and lists -/

/-- `identifier ('.' identifier)*`. -/
def dottedName : Rule DottedName := do
  let first ← identifier
  let more ← many (after (.punc '.') identifier) (progressing_after _ consuming_identifier.nonGrowing)
  pure ⟨first, more⟩

/-- A further part of an exported name: an identifier behind a dot. A dot before `*` is left. -/
def exportPart : Rule (Option String) := fun ts =>
  match ts with
  | .punc '.' :: .punc '*' :: _ => .ok (none, ts)
  | _ => after (.punc '.') identifier ts

theorem progressing_exportPart : Progressing exportPart := by
  have h := progressing_after (.punc '.') consuming_identifier.nonGrowing
  constructor
  · intro ts a rest hr
    unfold exportPart at hr
    split at hr
    · simp only [Except.ok.injEq, Prod.mk.injEq] at hr
      simp [← hr.2]
    · exact h.1 _ _ _ hr
  · intro ts a rest hr
    unfold exportPart at hr
    split at hr
    · simp at hr
    · exact h.2 _ _ _ hr

/-- `'*' | identifier ('.' identifier)* ('.' '*')?`. -/
def exportName : Rule ExportName := do
  if ← accept (.punc '*') then
    pure .all
  else
    let first ← identifier
    let more ← many exportPart progressing_exportPart
    if ← accept (.punc '.') then
      symbol '*'
      pure (.below ⟨first, more⟩)
    else
      pure (.one ⟨first, more⟩)

/-- `'!'? identifier`. -/
def feature : Rule Feature := do
  let isNegative ← accept (.punc '!')
  let name ← identifier
  pure ⟨name, !isNegative⟩

/-- `identifier ']'`, the rest of an attribute. -/
def attributeName : Rule String := do
  let name ← identifier
  symbol ']'
  pure name

theorem consuming_feature : Consuming feature :=
  (nonGrowing_accept _).bind_consuming fun _ => consuming_identifier.bind fun _ => nonGrowing_pure _

theorem consuming_attributeName : Consuming attributeName :=
  consuming_identifier.bind fun _ => (consuming_symbol _).nonGrowing.bind fun _ => nonGrowing_pure _

/-- `('[' identifier ']')*`. -/
def attributes : Rule (List String) :=
  many (after (.punc '[') attributeName) (progressing_after _ consuming_attributeName.nonGrowing)

/-- `(identifier (',' identifier)*)?`. -/
def macros : Rule (List String) := do
  match ← peek with
  | .ident _ =>
    let first ← identifier
    let more ← many (after (.punc ',') identifier) (progressing_after _ consuming_identifier.nonGrowing)
    pure (first :: more)
  | _ => pure []

/-! ### Members other than modules -/

/-- `requires feature (',' feature)*`. -/
def requires : Rule Decl := do
  keyword .requires
  let first ← feature
  let more ← many (after (.punc ',') feature) (progressing_after _ consuming_feature.nonGrowing)
  pure (.requires first more)

/-- `umbrella | exclude | private? textual?`, in front of `header`. -/
def headerForm : Rule HeaderForm := do
  if ← accept Keyword.umbrella.token then
    pure .umbrella
  else if ← accept Keyword.exclude.token then
    pure .exclude
  else
    let isPrivate ← accept Keyword.privately.token
    let isTextual ← accept Keyword.textual.token
    pure (.plain isPrivate isTextual)

/-- `size integer | mtime integer`. -/
def headerProperty : Rule HeaderProperty := do
  if ← accept Keyword.size.token then
    let digits ← integerLiteral
    pure (.size digits)
  else if ← accept Keyword.mtime.token then
    let digits ← integerLiteral
    pure (.mtime digits)
  else
    refuse (.expected .headerAttribute)

/-- `headerProperty?`. -/
def headerProperty? : Rule (Option HeaderProperty) := do
  match Keyword.ofToken? (← peek) with
  | some .size | some .mtime => some <$> headerProperty
  | _ => pure none

/-- `'{' headerProperty? '}'`, or nothing. -/
def headerBraces : Rule (Option (Option HeaderProperty)) := do
  if ← accept (.punc '{') then
    let property ← headerProperty?
    symbol '}'
    pure (some property)
  else
    pure none

/-- `headerForm header string headerBraces`. -/
def header : Rule Decl := do
  let form ← headerForm
  keyword .header
  let name ← stringLiteral
  let braces ← headerBraces
  pure (.header form name braces)

/-- `umbrella string`. -/
def umbrellaDir : Rule Decl := do
  keyword .umbrella
  let name ← stringLiteral
  pure (.umbrellaDir name)

/-- `export exportName`. -/
def exports : Rule Decl := do
  keyword .exports
  let name ← exportName
  pure (.exports name)

/-- `export_as identifier`. -/
def exportAs : Rule Decl := do
  keyword .exportAs
  let name ← identifier
  pure (.exportAs name)

/-- `use identifier`. -/
def use : Rule Decl := do
  keyword .use
  let name ← identifier
  pure (.use name)

/-- `link framework? string`. -/
def link : Rule Decl := do
  keyword .link
  let isFramework ← accept Keyword.framework.token
  let name ← stringLiteral
  pure (.link isFramework name)

/-- `config_macros attributes macros`. -/
def configMacros : Rule Decl := do
  keyword .configMacros
  let attributes ← attributes
  let macros ← macros
  pure (.configMacros attributes macros)

/-- `conflict dottedName ',' string`. -/
def conflict : Rule Decl := do
  keyword .conflict
  let name ← dottedName
  symbol ','
  let reason ← stringLiteral
  pure (.conflict name reason)

/-! ### Modules -/

/-- `explicit? framework? module`. -/
def moduleHead : Rule (Bool × Bool) := do
  let isExplicit ← accept Keyword.explicit.token
  let isFramework ← accept Keyword.framework.token
  keyword .module
  pure (isExplicit, isFramework)

/-- `extern module dottedName string`. -/
def external : Rule Decl := do
  keyword .external
  keyword .module
  let name ← dottedName
  let file ← stringLiteral
  pure (.external name file)

/-- What follows the head of a module: `dottedName attributes '{' body '}'`. -/
def regular (body : Rule (List Decl)) (isExplicit isFramework : Bool) : Rule Decl := do
  let name ← dottedName
  let attributes ← attributes
  symbol '{'
  let members ← body
  symbol '}'
  pure (.regular isExplicit isFramework name attributes members)

/-- What follows the head and the `*` of an inferred submodule: `attributes '{' (export '*')* '}'`. -/
def inferred (isExplicit isFramework : Bool) : Rule Decl := do
  let attributes ← attributes
  symbol '{'
  let all ← many (after Keyword.exports.token (symbol '*'))
    (progressing_after _ (consuming_symbol _).nonGrowing)
  symbol '}'
  pure (.inferred isExplicit isFramework attributes all.length)

/-- A module outside of all others. -/
def topLevel (body : Rule (List Decl)) : Rule Decl := do
  let (isExplicit, isFramework) ← moduleHead
  regular body isExplicit isFramework

/-- A module inside another one. -/
def submodule (body : Rule (List Decl)) : Rule Decl := do
  let (isExplicit, isFramework) ← moduleHead
  if ← accept (.punc '*') then inferred isExplicit isFramework else regular body isExplicit isFramework

/-- `topLevel | external`, as the next token says. -/
def moduleDeclaration (body : Rule (List Decl)) : Rule Decl := do
  match Keyword.ofToken? (← peek) with
  | some .explicit | some .framework | some .module => topLevel body
  | some .external => external
  | _ => refuse (.expected .moduleDeclaration)

/-- `submodule | external`, as the next token says. -/
def submoduleDeclaration (body : Rule (List Decl)) : Rule Decl := do
  if (← peek) = Keyword.external.token then moduleDeclaration body else submodule body

/-- What a token list that opens with `umbrella` declares, if anything: a header or a directory. -/
def umbrella : Rule (Option Decl) := fun ts =>
  match ts with
  | _ :: .string _ :: _ => (some <$> umbrellaDir) ts
  | _ :: t :: _ => if t = Keyword.header.token then (some <$> header) ts else .ok (none, ts)
  | _ => .ok (none, ts)

theorem umbrella_header (ts : List Token) :
    umbrella (Keyword.umbrella.token :: Keyword.header.token :: ts) =
      (some <$> header) (Keyword.umbrella.token :: Keyword.header.token :: ts) := by
  change (if Keyword.header.token = Keyword.header.token then
    (some <$> header) (Keyword.umbrella.token :: Keyword.header.token :: ts)
    else .ok (none, Keyword.umbrella.token :: Keyword.header.token :: ts)) = _
  exact if_pos rfl

/-- The next member of a module, if the next tokens open one. -/
def member (body : Rule (List Decl)) : Rule (Option Decl) := do
  match Keyword.ofToken? (← peek) with
  | some .requires => some <$> requires
  | some .privately | some .textual | some .header | some .exclude => some <$> header
  | some .umbrella => umbrella
  | some .explicit | some .framework | some .module | some .external =>
    some <$> submoduleDeclaration body
  | some .exports => some <$> exports
  | some .exportAs => some <$> exportAs
  | some .use => some <$> use
  | some .link => some <$> link
  | some .configMacros => some <$> configMacros
  | some .conflict => some <$> conflict
  | some .size | some .mtime | none => pure none

/-- The next module of a file, if the next token opens one. -/
def declaration (body : Rule (List Decl)) : Rule (Option Decl) := do
  match Keyword.ofToken? (← peek) with
  | some .explicit | some .framework | some .module | some .external =>
    some <$> moduleDeclaration body
  | _ => pure none

/-! ### Members take tokens -/

theorem nonGrowing_dottedName : NonGrowing dottedName :=
  consuming_identifier.nonGrowing.bind fun _ =>
    (nonGrowing_many _ _).bind fun _ => nonGrowing_pure _

theorem nonGrowing_macros : NonGrowing macros := by
  refine nonGrowing_peek.bind fun t => ?_
  cases t <;> first
    | exact nonGrowing_pure _
    | exact consuming_identifier.nonGrowing.bind fun _ =>
        (nonGrowing_many _ _).bind fun _ => nonGrowing_pure _

theorem nonGrowing_exportName : NonGrowing exportName := by
  refine (nonGrowing_accept _).bind fun b => ?_
  cases b
  · refine consuming_identifier.nonGrowing.bind fun _ => (nonGrowing_many _ _).bind fun _ =>
      (nonGrowing_accept _).bind fun b => ?_
    cases b
    · exact nonGrowing_pure _
    · exact (consuming_symbol _).nonGrowing.bind fun _ => nonGrowing_pure _
  · exact nonGrowing_pure _

theorem nonGrowing_headerForm : NonGrowing headerForm := by
  refine (nonGrowing_accept _).bind fun b => ?_
  cases b
  · refine (nonGrowing_accept _).bind fun b => ?_
    cases b
    · exact (nonGrowing_accept _).bind fun _ => (nonGrowing_accept _).bind fun _ => nonGrowing_pure _
    · exact nonGrowing_pure _
  · exact nonGrowing_pure _

theorem consuming_headerProperty : Consuming headerProperty := by
  have h (f : String → HeaderProperty) :
      Consuming (do let digits ← integerLiteral; pure (f digits) : Rule HeaderProperty) :=
    consuming_integerLiteral.bind fun _ => nonGrowing_pure _
  refine (nonGrowing_accept _).bind_consuming fun b => ?_
  cases b
  · refine (nonGrowing_accept _).bind_consuming fun b => ?_
    cases b
    · exact consuming_refuse _
    · exact h _
  · exact h _

theorem nonGrowing_headerProperty? : NonGrowing headerProperty? := by
  refine nonGrowing_peek.bind fun t => ?_
  split
  · exact (consuming_headerProperty.map some).nonGrowing
  · exact (consuming_headerProperty.map some).nonGrowing
  · exact nonGrowing_pure _

theorem nonGrowing_headerBraces : NonGrowing headerBraces := by
  refine (nonGrowing_accept _).bind fun b => ?_
  cases b
  · exact nonGrowing_pure _
  · exact nonGrowing_headerProperty?.bind fun _ => (consuming_symbol _).nonGrowing.bind fun _ =>
      nonGrowing_pure _

theorem consuming_requires : Consuming requires :=
  (consuming_keyword _).bind fun _ => consuming_feature.nonGrowing.bind fun _ =>
    (nonGrowing_many _ _).bind fun _ => nonGrowing_pure _

theorem consuming_header : Consuming header :=
  nonGrowing_headerForm.bind_consuming fun _ => (consuming_keyword _).bind fun _ =>
    consuming_stringLiteral.nonGrowing.bind fun _ => nonGrowing_headerBraces.bind fun _ =>
      nonGrowing_pure _

theorem consuming_umbrellaDir : Consuming umbrellaDir :=
  (consuming_keyword _).bind fun _ => consuming_stringLiteral.nonGrowing.bind fun _ => nonGrowing_pure _

theorem consuming_exports : Consuming exports :=
  (consuming_keyword _).bind fun _ => nonGrowing_exportName.bind fun _ => nonGrowing_pure _

theorem consuming_exportAs : Consuming exportAs :=
  (consuming_keyword _).bind fun _ => consuming_identifier.nonGrowing.bind fun _ => nonGrowing_pure _

theorem consuming_use : Consuming use :=
  (consuming_keyword _).bind fun _ => consuming_identifier.nonGrowing.bind fun _ => nonGrowing_pure _

theorem consuming_link : Consuming link :=
  (consuming_keyword _).bind fun _ => (nonGrowing_accept _).bind fun _ =>
    consuming_stringLiteral.nonGrowing.bind fun _ => nonGrowing_pure _

theorem consuming_configMacros : Consuming configMacros :=
  (consuming_keyword _).bind fun _ => (nonGrowing_many _ _).bind fun _ =>
    nonGrowing_macros.bind fun _ => nonGrowing_pure _

theorem consuming_conflict : Consuming conflict :=
  (consuming_keyword _).bind fun _ => nonGrowing_dottedName.bind fun _ =>
    (consuming_symbol _).nonGrowing.bind fun _ =>
      consuming_stringLiteral.nonGrowing.bind fun _ => nonGrowing_pure _

theorem consuming_moduleHead : Consuming moduleHead :=
  (nonGrowing_accept _).bind_consuming fun _ => (nonGrowing_accept _).bind_consuming fun _ =>
    (consuming_keyword _).bind fun _ => nonGrowing_pure _

theorem consuming_external : Consuming external :=
  (consuming_keyword _).bind fun _ => (consuming_keyword _).nonGrowing.bind fun _ =>
    nonGrowing_dottedName.bind fun _ => consuming_stringLiteral.nonGrowing.bind fun _ =>
      nonGrowing_pure _

theorem nonGrowing_regular {body : Rule (List Decl)} (h : NonGrowing body) (isExplicit isFramework : Bool) :
    NonGrowing (regular body isExplicit isFramework) :=
  nonGrowing_dottedName.bind fun _ => (nonGrowing_many _ _).bind fun _ =>
    (consuming_symbol _).nonGrowing.bind fun _ => h.bind fun _ =>
      (consuming_symbol _).nonGrowing.bind fun _ => nonGrowing_pure _

theorem nonGrowing_inferred (isExplicit isFramework : Bool) : NonGrowing (inferred isExplicit isFramework) :=
  (nonGrowing_many _ _).bind fun _ => (consuming_symbol _).nonGrowing.bind fun _ =>
    (nonGrowing_many _ _).bind fun _ => (consuming_symbol _).nonGrowing.bind fun _ => nonGrowing_pure _

theorem consuming_topLevel {body : Rule (List Decl)} (h : NonGrowing body) : Consuming (topLevel body) :=
  consuming_moduleHead.bind fun _ => nonGrowing_regular h _ _

theorem consuming_submodule {body : Rule (List Decl)} (h : NonGrowing body) : Consuming (submodule body) := by
  refine consuming_moduleHead.bind fun _ => (nonGrowing_accept _).bind fun b => ?_
  cases b
  · exact nonGrowing_regular h _ _
  · exact nonGrowing_inferred _ _

theorem consuming_moduleDeclaration {body : Rule (List Decl)} (h : NonGrowing body) :
    Consuming (moduleDeclaration body) := by
  refine nonGrowing_peek.bind_consuming fun t => ?_
  split
  · exact consuming_topLevel h
  · exact consuming_topLevel h
  · exact consuming_topLevel h
  · exact consuming_external
  · exact consuming_refuse _

theorem consuming_submoduleDeclaration {body : Rule (List Decl)} (h : NonGrowing body) :
    Consuming (submoduleDeclaration body) := by
  refine nonGrowing_peek.bind_consuming fun t => ?_
  split
  · exact consuming_moduleDeclaration h
  · exact consuming_submodule h

theorem progressing_some {r : Rule Decl} (h : Consuming r) : Progressing (some <$> r) :=
  .of_consuming (h.map some)

theorem progressing_umbrella : Progressing umbrella := by
  have hd := progressing_some consuming_umbrellaDir
  have hh := progressing_some consuming_header
  constructor
  · intro ts a rest hr
    unfold umbrella at hr
    split at hr
    · exact hd.1 _ _ _ hr
    · split at hr
      · exact hh.1 _ _ _ hr
      · simp_all
    · simp_all
  · intro ts a rest hr
    unfold umbrella at hr
    split at hr
    · exact hd.2 _ _ _ hr
    · split at hr
      · exact hh.2 _ _ _ hr
      · simp at hr
    · simp at hr

/-- A rule that looks at the next token and then goes on as `f` says makes progress if `f` does. -/
theorem Progressing.peek_bind {α : Type} {f : Token → Rule (Option α)} (h : ∀ t, Progressing (f t)) :
    Progressing (peek >>= f) := by
  refine ⟨nonGrowing_peek.bind fun t => (h t).1, fun ts a rest hr => ?_⟩
  obtain ⟨t, mid, h₁, h₂⟩ := bind_eq_ok_iff.mp hr
  have := nonGrowing_peek _ _ _ h₁
  have := (h t).2 _ _ _ h₂
  omega

theorem progressing_member {body : Rule (List Decl)} (h : NonGrowing body) : Progressing (member body) := by
  refine .peek_bind fun t => ?_
  cases Keyword.ofToken? t with
  | none => exact progressing_none
  | some k =>
    cases k with
    | configMacros => exact progressing_some consuming_configMacros
    | conflict => exact progressing_some consuming_conflict
    | exclude | header | privately | textual => exact progressing_some consuming_header
    | explicit | framework | module | external =>
      exact progressing_some (consuming_submoduleDeclaration h)
    | exports => exact progressing_some consuming_exports
    | exportAs => exact progressing_some consuming_exportAs
    | link => exact progressing_some consuming_link
    | mtime | size => exact progressing_none
    | requires => exact progressing_some consuming_requires
    | umbrella => exact progressing_umbrella
    | use => exact progressing_some consuming_use

theorem progressing_declaration {body : Rule (List Decl)} (h : NonGrowing body) :
    Progressing (declaration body) := by
  refine .peek_bind fun t => ?_
  split
  · exact progressing_some (consuming_moduleDeclaration h)
  · exact progressing_some (consuming_moduleDeclaration h)
  · exact progressing_some (consuming_moduleDeclaration h)
  · exact progressing_some (consuming_moduleDeclaration h)
  · exact progressing_none

/-! ### Bodies and files -/

/-- The body of a module when `n` bodies may open, this one counted; with none left it is refused. -/
def bodyWithin : Nat → { r : Rule (List Decl) // NonGrowing r }
  | 0 => ⟨refuse .nesting, nonGrowing_refuse _⟩
  | n + 1 =>
    let inner := bodyWithin n
    ⟨many (member inner.1) (progressing_member inner.2), nonGrowing_many _ _⟩

/-- The members of a body when `n` bodies may open. -/
def body (n : Nat) : Rule (List Decl) := (bodyWithin n).1

theorem nonGrowing_body (n : Nat) : NonGrowing (body n) := (bodyWithin n).2

@[simp] theorem body_zero : body 0 = refuse .nesting := rfl

@[simp] theorem body_succ (n : Nat) :
    body (n + 1) = many (member (body n)) (progressing_member (nonGrowing_body n)) := rfl

/-- The number of bodies that may be open at one time. -/
def maxNesting : Nat := 256

/-- The declarations of a file; nothing but the end of the input may follow them. -/
def file : Rule (List Decl) := do
  let decls ← many (declaration (body maxNesting)) (progressing_declaration (nonGrowing_body _))
  if (← peek) = .eof then pure decls else refuse .trailing

end Rule

/-- The declarations of a token list. -/
def Decl.ofTokens (ts : List Token) : Except ParseError (List Decl) :=
  match Rule.file ts with
  | .ok (decls, _) => .ok decls
  | .error fault => .error (fault.locate ts.length)

end ModuleDeps
