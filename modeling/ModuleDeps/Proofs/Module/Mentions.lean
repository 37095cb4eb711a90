import Mathlib.Data.List.Induction
import ModuleDeps.Proofs.Module.References
import ModuleDeps.Proofs.Writing.RoundTrip

/-!
# References in the tokens of a module map

The files that a module map refers to can be found without reading it: they are the string literals
behind `extern`, `module` and a dotted name. Both words may also be used as names, but nowhere in a
module map does a string literal follow them so unless it names the file of an external module
(`ofText_mentions`).

What stands in front of a declaration never ends with a dot, nor with `extern` and `module`
(`InHead`), so no literal in it is taken for a file because of what stands in front.
-/

namespace ModuleDeps

open Token Grammar

/-! ### Looking for files in tokens -/

namespace Token

/-- The tokens end with `extern`, `module` and a dotted name. -/
def NamesFile (before : List Token) : Prop :=
  ∃ name : DottedName, Keyword.external.token :: Keyword.module.token :: name.tokens <:+ before

/-- Reads `extern`, `module` and a dotted name from the last token on. -/
def namesFileBackward : List Token → Bool
  | .ident _ :: .punc '.' :: rest => namesFileBackward rest
  | .ident _ :: t :: u :: _ => t == Keyword.module.token && u == Keyword.external.token
  | _ => false

theorem namesFile_of_backward {us : List Token} (h : namesFileBackward us = true) :
    NamesFile us.reverse := by
  fun_induction namesFileBackward us with
  | case1 s rest ih =>
    obtain ⟨⟨first, more⟩, pre, hpre⟩ := ih h
    exact ⟨⟨first, more ++ [s]⟩, pre, by simp [DottedName.tokens, ← hpre]⟩
  | case2 s t u rest =>
    obtain ⟨rfl, rfl⟩ : t = Keyword.module.token ∧ u = Keyword.external.token := by simpa using h
    exact ⟨⟨s, []⟩, rest.reverse, by simp [DottedName.tokens]⟩
  | case3 => cases h

theorem namesFileBackward_reverse (pre : List Token) (first : String) (more : List String) :
    namesFileBackward (pre ++ Keyword.external.token :: Keyword.module.token ::
      DottedName.tokens ⟨first, more⟩).reverse = true := by
  induction more using List.reverseRecOn with
  | nil => simp [DottedName.tokens, namesFileBackward, Keyword.token]
  | append_singleton more s ih =>
    rw [← ih]
    simp [DottedName.tokens, namesFileBackward]

instance : DecidablePred NamesFile := fun before =>
  decidable_of_iff (namesFileBackward before.reverse = true) <| by
    constructor
    · intro h
      simpa using namesFile_of_backward h
    · rintro ⟨⟨first, more⟩, pre, rfl⟩
      exact namesFileBackward_reverse pre first more

/-- The string literals in some tokens that stand behind `extern`, `module` and a dotted name, each
with the tokens in front of it; `before` stands in front of all. -/
def mentionsFrom (before : List Token) : List Token → List (List Token × String)
  | [] => []
  | .string s :: ts =>
    if NamesFile before then (before, s) :: mentionsFrom (before ++ [.string s]) ts
    else mentionsFrom (before ++ [.string s]) ts
  | t :: ts => mentionsFrom (before ++ [t]) ts

/-- The string literals that stand behind `extern`, `module` and a dotted name, in their order. -/
def mentions (ts : List Token) : List (List Token × String) := mentionsFrom [] ts

theorem mentionsFrom_append (before ts us : List Token) :
    mentionsFrom before (ts ++ us) = mentionsFrom before ts ++ mentionsFrom (before ++ ts) us := by
  fun_induction mentionsFrom before ts with
  | case1 => simp
  | case2 before s ts h ih => simpa [mentionsFrom, h] using ih
  | case3 before s ts h ih => simpa [mentionsFrom, h] using ih
  | case4 before t ts hstring ih =>
    rw [List.cons_append, mentionsFrom, ih, List.append_assoc, List.singleton_append]
    exact hstring

theorem mentionsFrom_eq_nil {ts : List Token} (h : ∀ s, .string s ∉ ts) (before : List Token) :
    mentionsFrom before ts = [] := by
  fun_induction mentionsFrom before ts with
  | case1 => rfl
  | case2 before s | case3 before s => exact absurd List.mem_cons_self (h s)
  | case4 before t ts _ ih => exact ih fun s hmem => h s (List.mem_cons_of_mem _ hmem)

/-- Exactly the literals behind `extern`, `module` and a dotted name are found. -/
theorem mem_mentionsFrom_iff {before ts : List Token} {m : List Token × String} :
    m ∈ mentionsFrom before ts ↔
      ∃ xs post, ts = xs ++ .string m.2 :: post ∧ m.1 = before ++ xs ∧ NamesFile m.1 := by
  constructor
  · intro h
    fun_induction mentionsFrom before ts with
    | case1 => cases h
    | case2 before s ts hfile ih =>
      rcases List.mem_cons.mp h with rfl | h
      · exact ⟨[], ts, rfl, (List.append_nil _).symm, hfile⟩
      · obtain ⟨xs, post, rfl, hm, hfile⟩ := ih h
        exact ⟨.string s :: xs, post, rfl, by simpa using hm, hfile⟩
    | case3 before s ts _ ih =>
      obtain ⟨xs, post, rfl, hm, hfile⟩ := ih h
      exact ⟨.string s :: xs, post, rfl, by simpa using hm, hfile⟩
    | case4 before t ts _ ih =>
      obtain ⟨xs, post, rfl, hm, hfile⟩ := ih h
      exact ⟨t :: xs, post, rfl, by simpa using hm, hfile⟩
  · obtain ⟨_, s⟩ := m
    rintro ⟨xs, post, rfl, rfl, hfile⟩
    rw [mentionsFrom_append, mentionsFrom, if_pos hfile]
    exact List.mem_append_right _ List.mem_cons_self

/-! ### What a name may go on with -/

/-- The tokens end with a dot, or with `extern` and `module`. -/
def InHead (before : List Token) : Prop :=
  [.punc '.'] <:+ before ∨ [Keyword.external.token, Keyword.module.token] <:+ before

theorem eq_ident_of_namesFile {before : List Token} {t : Token} (h : NamesFile (before ++ [t])) :
    (∃ s, t = .ident s) ∧ InHead before := by
  obtain ⟨⟨first, more⟩, pre, hpre⟩ := h
  rcases List.eq_nil_or_concat more with rfl | ⟨more, s, rfl⟩
  · have hsplit : pre ++ [Keyword.external.token, Keyword.module.token] ++ [.ident first] =
        before ++ [t] := by
      rw [← hpre]
      simp [DottedName.tokens]
    obtain ⟨rfl, ht⟩ := List.append_inj' hsplit rfl
    cases ht
    exact ⟨⟨first, rfl⟩, .inr ⟨pre, rfl⟩⟩
  · have hsplit : pre ++ Keyword.external.token :: Keyword.module.token ::
        (DottedName.tokens ⟨first, more⟩ ++ [.punc '.']) ++ [.ident s] = before ++ [t] := by
      rw [← hpre]
      simp [DottedName.tokens]
    obtain ⟨rfl, ht⟩ := List.append_inj' hsplit rfl
    cases ht
    refine ⟨⟨s, rfl⟩, .inl ⟨pre ++ Keyword.external.token :: Keyword.module.token ::
      DottedName.tokens ⟨first, more⟩, ?_⟩⟩
    simp

theorem not_inHead_nil : ¬ InHead [] := by
  rintro (h | h) <;> simp at h

/-- Behind any other token. -/
theorem not_inHead_concat (t : Token) (hdot : t ≠ .punc '.') (hmodule : t ≠ Keyword.module.token)
    (before : List Token) : ¬ InHead (before ++ [t]) := by
  rintro (⟨pre, h⟩ | ⟨pre, h⟩)
  · obtain ⟨-, ht⟩ := List.append_inj' h rfl
    cases ht
    exact hdot rfl
  · have hsplit : pre ++ [Keyword.external.token] ++ [Keyword.module.token] = before ++ [t] := by
      rw [← h, List.append_assoc]
      rfl
    obtain ⟨-, ht⟩ := List.append_inj' hsplit rfl
    cases ht
    exact hmodule rfl

/-- Behind any identifier, if `extern` is not in front of it. -/
theorem not_inHead_ident (t : Token) (ht : t ≠ Keyword.external.token) (before : List Token)
    (s : String) : ¬ InHead (before ++ [t, .ident s]) := by
  rintro (⟨pre, h⟩ | ⟨pre, h⟩)
  · have hsplit : pre ++ [.punc '.'] = before ++ [t] ++ [.ident s] := by simpa using h
    obtain ⟨-, ht⟩ := List.append_inj' hsplit rfl
    cases ht
  · obtain ⟨-, heq⟩ := List.append_inj' h rfl
    cases heq
    exact ht rfl

theorem not_inHead_flatMap {α : Type} {y : α → List Token}
    (h : ∀ before a, ¬ InHead (before ++ y a)) (as : List α) {before : List Token}
    (hbefore : ¬ InHead before) : ¬ InHead (before ++ as.flatMap y) := by
  induction as generalizing before with
  | nil => simpa using hbefore
  | cons a as ih =>
    rw [List.flatMap_cons, ← List.append_assoc]
    exact ih (h before a)

end Token

/-! ### Declarations leave no name open -/

theorem Feature.not_inHead_tokens (f : Feature) (t : Token) (ht : t ≠ Keyword.external.token)
    (before : List Token) : ¬ InHead (before ++ t :: f.tokens) := by
  obtain ⟨name, isPositive⟩ := f
  cases isPositive with
  | true => exact not_inHead_ident t ht before name
  | false =>
    have := not_inHead_ident (.punc '!') nofun (before ++ [t]) name
    simpa [tokens, Token.optional] using this

theorem not_inHead_attributeTokens (as : List String) {before : List Token}
    (h : ¬ InHead before) : ¬ InHead (before ++ attributeTokens as) := by
  refine not_inHead_flatMap (fun before s => ?_) as h
  have := not_inHead_concat (.punc ']') (by decide) nofun (before ++ [.punc '[', .ident s])
  simpa using this

/-- Behind a comma, or behind what is no `extern`, macros leave no name open. -/
theorem not_inHead_macros (t : Token) (ht : t ≠ Keyword.external.token) (before : List Token)
    (m : String) (ms : List String) : ¬ InHead (before ++ t :: macroTokens (m :: ms)) := by
  have h := not_inHead_flatMap (y := fun s => [.punc ',', .ident s])
    (fun before s => not_inHead_ident _ (by decide) before s) ms (not_inHead_ident t ht before m)
  simpa [macroTokens] using h

namespace Decl

theorem not_inHead_configMacros (before : List Token) (as ms : List String) :
    ¬ InHead (before ++ (configMacros as ms).tokens) := by
  cases ms with
  | nil =>
    have h := not_inHead_attributeTokens as
      (not_inHead_concat Keyword.configMacros.token nofun (by decide) before)
    simpa [tokens, macroTokens] using h
  | cons m ms =>
    rcases List.eq_nil_or_concat as with rfl | ⟨as, a, rfl⟩
    · exact not_inHead_macros _ (by decide) before m ms
    · have h := not_inHead_macros (.punc ']') nofun
        (before ++ Keyword.configMacros.token :: (attributeTokens as ++ [.punc '[', .ident a])) m ms
      simpa [tokens, attributeTokens] using h

theorem not_inHead_exports (before : List Token) (name : ExportName) :
    ¬ InHead (before ++ (exports name).tokens) := by
  cases name with
  | all =>
    have h := not_inHead_concat (.punc '*') (by decide) nofun
      (before ++ [Keyword.exports.token])
    simpa [tokens, ExportName.tokens] using h
  | one n =>
    have h := not_inHead_flatMap (y := fun s => [.punc '.', .ident s])
      (fun before s => not_inHead_ident _ (by decide) before s) n.more
      (not_inHead_ident Keyword.exports.token (by decide) before n.first)
    simpa [tokens, ExportName.tokens, DottedName.tokens] using h
  | below n =>
    have h := not_inHead_concat (.punc '*') (by decide) nofun
      (before ++ Keyword.exports.token :: (n.tokens ++ [.punc '.']))
    simpa [tokens, ExportName.tokens] using h

/-- A declaration ends with no dot, and not with `extern` and `module`. -/
theorem not_inHead_tokens (d : Decl) (before : List Token) : ¬ InHead (before ++ d.tokens) := by
  have hstring (before : List Token) (s : String) : ¬ InHead (before ++ [.string s]) :=
    not_inHead_concat (.string s) nofun nofun before
  have hbrace (before : List Token) : ¬ InHead (before ++ [.punc '}']) :=
    not_inHead_concat (.punc '}') (by decide) nofun before
  cases d with
  | requires f fs =>
    have h := not_inHead_flatMap (y := fun g : Feature => .punc ',' :: g.tokens)
      (fun before g => g.not_inHead_tokens (.punc ',') (by decide) before) fs
      (f.not_inHead_tokens Keyword.requires.token (by decide) before)
    simpa [tokens] using h
  | header form name braces =>
    rcases braces with - | - | p
    · simpa [tokens, braceTokens] using
        hstring (before ++ (form.tokens ++ [Keyword.header.token])) name
    · simpa [tokens, braceTokens] using
        hbrace (before ++ (form.tokens ++ [Keyword.header.token, .string name, .punc '{']))
    · simpa [tokens, braceTokens] using
        hbrace (before ++ (form.tokens ++ Keyword.header.token :: .string name :: .punc '{' ::
          p.tokens))
  | umbrellaDir name => simpa [tokens] using hstring (before ++ [Keyword.umbrella.token]) name
  | exports name => exact not_inHead_exports before name
  | exportAs name => exact not_inHead_ident _ (by decide) before name
  | use name => exact not_inHead_ident _ (by decide) before name
  | link isFramework name =>
    simpa [tokens] using hstring
      (before ++ Keyword.link.token :: Token.optional Keyword.framework.token isFramework) name
  | configMacros as ms => exact not_inHead_configMacros before as ms
  | conflict name reason =>
    have h := hstring (before ++ Keyword.conflict.token :: name.tokens ++ [.punc ',']) reason
    simpa [tokens] using h
  | external name file =>
    simpa [tokens] using hstring
      (before ++ Keyword.external.token :: Keyword.module.token :: name.tokens) file
  | inferred e f as count =>
    simpa [tokens] using hbrace (before ++ (headTokens e f ++ .punc '*' :: (attributeTokens as ++
      .punc '{' :: (List.replicate count ()).flatMap fun _ => [Keyword.exports.token, .punc '*'])))
  | regular e f name as ms =>
    simpa [tokens] using hbrace (before ++ (headTokens e f ++ (name.tokens ++
      (attributeTokens as ++ .punc '{' :: tokensList ms))))

/-! ### External modules in their places -/

mutual

/-- The external modules that a declaration declares, each with the tokens in front of it; `before`
stands in front of all. -/
def externals (before : List Token) : Decl → List (List Token × DottedName × String)
  | .external name file => [(before, name, file)]
  | .regular e f name as ms =>
    externalsList (before ++ (headTokens e f ++ name.tokens ++ attributeTokens as ++ [.punc '{']))
      ms
  | _ => []

/-- The external modules that declarations declare, each with the tokens in front of it. -/
def externalsList (before : List Token) : List Decl → List (List Token × DottedName × String)
  | [] => []
  | d :: ds => d.externals before ++ externalsList (before ++ d.tokens) ds

end

/-- The literal that names the file of an external module, with the tokens in front of it. -/
def mention (m : List Token × DottedName × String) : List Token × String :=
  (m.1 ++ Keyword.external.token :: Keyword.module.token :: m.2.1.tokens, m.2.2)

end Decl

/-! ### Tokens without literals -/

section NotMem

variable (s : String)

@[simp] theorem Token.string_ne_token (k : Keyword) : .string s ≠ k.token := nofun

@[simp] theorem Token.string_notMem_optional {t : Token} (ht : .string s ≠ t) (b : Bool) :
    .string s ∉ t.optional b := by
  cases b <;> simp [optional, ht]

@[simp] theorem DottedName.string_notMem_tokens (n : DottedName) : .string s ∉ n.tokens := by
  simp [tokens]

@[simp] theorem ExportName.string_notMem_tokens (name : ExportName) : .string s ∉ name.tokens := by
  cases name <;> simp [tokens]

@[simp] theorem Feature.string_notMem_tokens (f : Feature) : .string s ∉ f.tokens := by
  simp [tokens]

@[simp] theorem string_notMem_attributeTokens (as : List String) :
    .string s ∉ attributeTokens as := by
  simp [attributeTokens]

@[simp] theorem string_notMem_macroTokens (ms : List String) : .string s ∉ macroTokens ms := by
  cases ms <;> simp [macroTokens]

@[simp] theorem HeaderForm.string_notMem_tokens (form : HeaderForm) : .string s ∉ form.tokens := by
  cases form <;> simp [tokens]

@[simp] theorem string_notMem_braceTokens (braces : Option (Option HeaderProperty)) :
    .string s ∉ braceTokens braces := by
  rcases braces with - | - | (_ | _) <;> simp [braceTokens, HeaderProperty.tokens]

@[simp] theorem string_notMem_headTokens (e f : Bool) : .string s ∉ headTokens e f := by
  simp [headTokens]

end NotMem

/-! ### What is found in the tokens of declarations -/

theorem Token.not_namesFile_concat {before : List Token} (h : ¬ InHead before) (t : Token) :
    ¬ NamesFile (before ++ [t]) :=
  fun hfile => h (eq_ident_of_namesFile hfile).2

/-- One literal among tokens that hold no others. -/
theorem Token.mentionsFrom_between {before : List Token} (xs ys : List Token) (s : String)
    (hxs : ∀ s, .string s ∉ xs) (hys : ∀ s, .string s ∉ ys) (h : ¬ NamesFile (before ++ xs)) :
    mentionsFrom before (xs ++ .string s :: ys) = [] := by
  rw [mentionsFrom_append, mentionsFrom_eq_nil hxs, mentionsFrom, if_neg h,
    mentionsFrom_eq_nil hys, List.append_nil]

theorem not_inHead_keyword {k : Keyword} (hk : k ≠ .module) (before : List Token) :
    ¬ InHead (before ++ [k.token]) :=
  not_inHead_concat k.token nofun (fun heq => hk (token_inj.mp heq)) before

theorem HeaderForm.not_inHead_tokens (form : HeaderForm) {before : List Token}
    (h : ¬ InHead before) : ¬ InHead (before ++ form.tokens) := by
  cases form with
  | umbrella => exact not_inHead_keyword (by decide) before
  | exclude => exact not_inHead_keyword (by decide) before
  | plain p t =>
    rw [tokens, ← List.append_assoc]
    cases t with
    | true => exact not_inHead_keyword (by decide) (before ++ Keyword.privately.token.optional p)
    | false =>
      cases p with
      | true => simpa [Token.optional] using not_inHead_keyword (k := .privately) (by decide) before
      | false => simpa [Token.optional] using h

namespace Decl

theorem mentionsFrom_header (form : HeaderForm) (name : String)
    (braces : Option (Option HeaderProperty)) {before : List Token} (h : ¬ InHead before) :
    mentionsFrom before (header form name braces).tokens = [] := by
  have hfile := not_namesFile_concat (form.not_inHead_tokens h) Keyword.header.token
  rw [List.append_assoc] at hfile
  have hnone := mentionsFrom_between _ (braceTokens braces) name (by simp) (by simp) hfile
  simpa [tokens] using hnone

theorem mentionsFrom_link (isFramework : Bool) (name : String) {before : List Token}
    (h : ¬ InHead before) : mentionsFrom before (link isFramework name).tokens = [] := by
  have hlink : ¬ InHead (before ++ [Keyword.link.token]) := not_inHead_keyword (by decide) before
  cases isFramework with
  | true =>
    have hfile := not_namesFile_concat hlink Keyword.framework.token
    rw [List.append_assoc] at hfile
    exact mentionsFrom_between _ [] name (by simp) (by simp) hfile
  | false =>
    have hfile := not_namesFile_concat h Keyword.link.token
    exact mentionsFrom_between _ [] name (by simp) (by simp) hfile

theorem mentionsFrom_conflict (name : DottedName) (reason : String) (before : List Token) :
    mentionsFrom before (conflict name reason).tokens = [] := by
  have hfile : ¬ NamesFile (before ++ Keyword.conflict.token :: name.tokens ++ [.punc ',']) := by
    intro h
    obtain ⟨⟨s, hs⟩, -⟩ := eq_ident_of_namesFile h
    cases hs
  rw [List.append_assoc] at hfile
  have hnone := mentionsFrom_between _ [] reason (by simp) (by simp) hfile
  simpa [tokens] using hnone

theorem mentionsFrom_external (name : DottedName) (file : String) (before : List Token) :
    mentionsFrom before (external name file).tokens = [mention (before, name, file)] := by
  have hfile :
      NamesFile (before ++ Keyword.external.token :: Keyword.module.token :: name.tokens) :=
    ⟨name, before, rfl⟩
  rw [tokens, mentionsFrom_append, mentionsFrom_eq_nil (by simp), mentionsFrom, if_pos hfile]
  rfl

mutual

/-- In the tokens of a declaration the files of its external modules are found, and no others. -/
theorem mentionsFrom_tokens : ∀ (d : Decl) {before : List Token}, ¬ InHead before →
    mentionsFrom before d.tokens = (d.externals before).map mention
  | .requires f fs, before, _ => mentionsFrom_eq_nil (by simp [tokens]) before
  | .header form name braces, _, h => mentionsFrom_header form name braces h
  | .umbrellaDir name, before, h =>
    mentionsFrom_between [Keyword.umbrella.token] [] name (by simp) (by simp)
      (not_namesFile_concat h _)
  | .exports name, before, _ => mentionsFrom_eq_nil (by simp [tokens]) before
  | .exportAs _, _, _ => rfl
  | .use _, _, _ => rfl
  | .link isFramework name, _, h => mentionsFrom_link isFramework name h
  | .configMacros as ms, before, _ => mentionsFrom_eq_nil (by simp [tokens]) before
  | .conflict name reason, before, _ => mentionsFrom_conflict name reason before
  | .external name file, before, _ => mentionsFrom_external name file before
  | .inferred e f as count, before, _ => mentionsFrom_eq_nil (by simp [tokens]) before
  | .regular e f name as ms, before, _ => by
    have hsplit : (regular e f name as ms).tokens =
        headTokens e f ++ name.tokens ++ attributeTokens as ++ [.punc '{'] ++ tokensList ms ++
          [.punc '}'] := by
      simp [tokens]
    have hopen : ¬ InHead (before ++ (headTokens e f ++ name.tokens ++ attributeTokens as ++
        [.punc '{'])) := by
      rw [← List.append_assoc]
      exact not_inHead_concat (.punc '{') (by decide) nofun _
    rw [hsplit, mentionsFrom_append, mentionsFrom_append, mentionsFrom_eq_nil (by simp),
      mentionsFrom_tokensList ms hopen, mentionsFrom_eq_nil (by simp), List.nil_append,
      List.append_nil, externals]

/-- In the tokens of declarations the files of their external modules are found, and no others. -/
theorem mentionsFrom_tokensList : ∀ (ds : List Decl) {before : List Token}, ¬ InHead before →
    mentionsFrom before (tokensList ds) = (externalsList before ds).map mention
  | [], _, _ => rfl
  | d :: ds, before, h => by
    rw [tokensList, mentionsFrom_append, mentionsFrom_tokens d h,
      mentionsFrom_tokensList ds (d.not_inHead_tokens before), externalsList, List.map_append]

end

/-! ### Where external modules stand -/

/-- `StandsIn d pre ds`: the declaration `d` is one of the declarations `ds` or stands in the body
of one, at whatever depth, and the tokens `pre` stand in front of it. -/
inductive StandsIn (d : Decl) : List Token → List Decl → Prop where
  /-- It is one of them. -/
  | here (ds es : List Decl) : StandsIn d (tokensList ds) (ds ++ d :: es)
  /-- It stands in the body of one of them. -/
  | inside {e f : Bool} {name : DottedName} {as : List String} {ms : List Decl} {pre : List Token}
      (ds es : List Decl) (h : StandsIn d pre ms) :
      StandsIn d (tokensList ds ++
        (headTokens e f ++ name.tokens ++ attributeTokens as ++ [.punc '{'] ++ pre))
        (ds ++ regular e f name as ms :: es)

theorem StandsIn.append {d : Decl} {pre : List Token} {ds : List Decl} (h : StandsIn d pre ds)
    (es : List Decl) : StandsIn d pre (ds ++ es) := by
  cases h with
  | here ds es' =>
    rw [List.append_assoc ds]
    exact .here ds (es' ++ es)
  | inside ds es' h =>
    rw [List.append_assoc ds]
    exact .inside ds (es' ++ es) h

theorem StandsIn.behind {d : Decl} {pre : List Token} {ds : List Decl} (h : StandsIn d pre ds)
    (c : Decl) : StandsIn d (c.tokens ++ pre) (c :: ds) := by
  cases h with
  | here ds es => exact .here (c :: ds) es
  | inside ds es h =>
    rw [← List.append_assoc]
    exact .inside (c :: ds) es h

mutual

theorem standsIn_of_mem_externals : ∀ (d : Decl) {before : List Token}
    {m : List Token × DottedName × String}, m ∈ d.externals before →
      ∃ pre, m.1 = before ++ pre ∧ StandsIn (external m.2.1 m.2.2) pre [d]
  | .external name file, before, m, h => by
    obtain rfl := List.mem_singleton.mp h
    exact ⟨[], (List.append_nil _).symm, .here [] []⟩
  | .regular e f name as ms, before, m, h => by
    obtain ⟨pre, hpre, hin⟩ := standsIn_of_mem_externalsList ms h
    rw [List.append_assoc] at hpre
    exact ⟨_, hpre, .inside [] [] hin⟩
  | .requires .., _, _, h | .header .., _, _, h | .umbrellaDir .., _, _, h | .exports .., _, _, h
  | .exportAs .., _, _, h | .use .., _, _, h | .link .., _, _, h | .configMacros .., _, _, h
  | .conflict .., _, _, h | .inferred .., _, _, h => by cases h

theorem standsIn_of_mem_externalsList : ∀ (ds : List Decl) {before : List Token}
    {m : List Token × DottedName × String}, m ∈ externalsList before ds →
      ∃ pre, m.1 = before ++ pre ∧ StandsIn (external m.2.1 m.2.2) pre ds
  | [], _, _, h => by cases h
  | d :: ds, before, m, h => by
    rcases List.mem_append.mp h with h | h
    · obtain ⟨pre, hpre, hin⟩ := standsIn_of_mem_externals d h
      exact ⟨pre, hpre, hin.append ds⟩
    · obtain ⟨pre, hpre, hin⟩ := standsIn_of_mem_externalsList ds h
      exact ⟨d.tokens ++ pre, by rw [hpre, List.append_assoc], hin.behind d⟩

end

mutual

theorem references_eq_externals : ∀ (d : Decl) (before : List Token),
    d.references = ((d.externals before).map fun m => m.2.2).filter (· ≠ "")
  | .external name file, before => by
    by_cases h : file = "" <;> simp [references, externals, h]
  | .regular e f name as ms, before => referencesList_eq_externals ms _
  | .requires .., _ | .header .., _ | .umbrellaDir .., _ | .exports .., _ | .exportAs .., _
  | .use .., _ | .link .., _ | .configMacros .., _ | .conflict .., _ | .inferred .., _ => rfl

/-- Declarations refer to the files of the external modules in them. -/
theorem referencesList_eq_externals : ∀ (ds : List Decl) (before : List Token),
    referencesList ds = ((externalsList before ds).map fun m => m.2.2).filter (· ≠ "")
  | [], _ => rfl
  | d :: ds, before => by
    rw [referencesList, externalsList, List.map_append, List.filter_append,
      ← references_eq_externals d before, ← referencesList_eq_externals ds]

end

end Decl

/-- The tokens that external modules open with can be told from the last one on. -/
theorem externalHead_inj {pre pre' : List Token} {n n' : DottedName}
    (h : pre ++ Keyword.external.token :: Keyword.module.token :: n.tokens =
      pre' ++ Keyword.external.token :: Keyword.module.token :: n'.tokens) :
    pre = pre' ∧ n = n' := by
  have hconcat (us : List Token) (first : String) (more : List String) (s : String) :
      us ++ Keyword.external.token :: Keyword.module.token ::
          DottedName.tokens ⟨first, more ++ [s]⟩ =
        us ++ Keyword.external.token :: Keyword.module.token :: DottedName.tokens ⟨first, more⟩ ++
          [.punc '.', .ident s] := by
    simp [DottedName.tokens]
  -- one identifier stands behind `module`, and the last one of several behind a dot
  have hone (us us' : List Token) (s t : String) :
      us ++ [Keyword.external.token, Keyword.module.token, .ident s] ≠
        us' ++ [.punc '.', .ident t] := by
    intro h
    have hsplit : us ++ [Keyword.external.token] ++ [Keyword.module.token, .ident s] =
        us' ++ [.punc '.', .ident t] := by simpa using h
    cases (List.append_inj' hsplit rfl).2
  obtain ⟨first, more⟩ := n
  obtain ⟨first', more'⟩ := n'
  induction more using List.reverseRecOn generalizing more' with
  | nil =>
    rcases List.eq_nil_or_concat' more' with rfl | ⟨more', s', rfl⟩
    · obtain ⟨rfl, hname⟩ := List.append_inj' h rfl
      cases hname
      exact ⟨rfl, rfl⟩
    · rw [hconcat] at h
      exact absurd h (hone _ _ _ _)
  | append_singleton more s ih =>
    rw [hconcat] at h
    rcases List.eq_nil_or_concat' more' with rfl | ⟨more', s', rfl⟩
    · exact absurd h.symm (hone _ _ _ _)
    · rw [hconcat] at h
      obtain ⟨hfront, hlast⟩ := List.append_inj' h rfl
      obtain ⟨rfl, hname⟩ := ih _ hfront
      cases hlast
      cases hname
      exact ⟨rfl, rfl⟩

/-- **The references of a module map can be found in its tokens.** They are the string literals
behind `extern`, `module` and a dotted name, in their order, but for empty ones. Wherever such a
literal stands, an external module is declared, at whatever depth. -/
theorem ModuleMap.ofText_mentions {content : String} {m : ModuleMap}
    (h : ModuleMap.ofText content = .ok m) :
    ∃ ts decls, tokenize content = .ok ts ∧ File decls ts ∧ m = ⟨Module.ofDecls decls⟩ ∧
      m.externFilenames = ((mentions ts).map (·.2)).filter (· ≠ "") ∧
      ∀ pre name file post, ts = pre ++ (Decl.external name file).tokens ++ post →
        Decl.StandsIn (.external name file) pre decls := by
  obtain ⟨ts, ds, hcut, hfile, rfl⟩ := ofText_eq_ok_iff.mp h
  have hts : ts = Decl.tokensList ds := (file_iff.mp hfile).1
  have hmentions : mentions ts = (Decl.externalsList [] ds).map Decl.mention := by
    rw [hts]
    exact Decl.mentionsFrom_tokensList ds not_inHead_nil
  refine ⟨ts, ds, cut_iff.mpr hcut, hfile, rfl, ?_, ?_⟩
  · rw [externFilenames_ofDecls, Decl.referencesList_eq_externals ds [], hmentions, List.map_map]
    rfl
  · intro pre name file post hsplit
    have hmem : Decl.mention (pre, name, file) ∈ mentions ts :=
      mem_mentionsFrom_iff.mpr ⟨_, post, by simp [hsplit, Decl.mention, Decl.tokens], rfl,
        name, pre, rfl⟩
    rw [hmentions, List.mem_map] at hmem
    obtain ⟨⟨pre', name', file'⟩, hmem, heq⟩ := hmem
    obtain ⟨hhead, rfl⟩ := Prod.ext_iff.mp heq
    obtain ⟨rfl, rfl⟩ := externalHead_inj hhead
    obtain ⟨pre, rfl, hin⟩ := Decl.standsIn_of_mem_externalsList ds hmem
    exact hin

/-- The words are used as names too, and one of the files has an empty name. -/
theorem ModuleMap.ofText_mentions_keywords :
    let content :=
      "module extern \x7b use module extern module a.module \"f\" extern module b \"\" \x7d"
    let m : ModuleMap := ⟨[{
      info := { id := "extern", uses := ["module"] }
      submodules := [
        { info := { id := "a.module", isExtern := true, externFilename := "f" } },
        { info := { id := "b", isExtern := true } }] }]⟩
    ModuleMap.ofText content = .ok m ∧ m.externFilenames = ["f"] ∧
      ∃ ts decls, tokenize content = .ok ts ∧ File decls ts ∧ m = ⟨Module.ofDecls decls⟩ ∧
        m.externFilenames = ((mentions ts).map (·.2)).filter (· ≠ "") ∧
        ∀ pre name file post, ts = pre ++ (Decl.external name file).tokens ++ post →
          Decl.StandsIn (.external name file) pre decls := by
  intro content m
  have h : ModuleMap.ofText content = .ok m := by decide +kernel
  exact ⟨h, by decide +kernel, ofText_mentions h⟩

end ModuleDeps
