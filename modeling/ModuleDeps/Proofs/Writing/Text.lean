import ModuleDeps.ModuleMap
import ModuleDeps.Proofs.Lexing.Spelling
import ModuleDeps.Proofs.Writing.Order

/-!
# Written text spells declarations

The text of a module that a declaration denotes spells the tokens of the declaration that is written
for it (`Decl.seals_textAt`). Each kind of line is looked at once; what is needed of the declaration
is that its tokens are lexemes, so that names are words, texts can stand between quotes, and sizes
are digits.
-/

namespace ModuleDeps

open Token

/-- All tokens can be cut from a text. -/
def Lexed (ts : List Token) : Prop := ∀ t ∈ ts, t.IsLexeme

theorem Lexed.of_subset {ts us : List Token} (h : Lexed us) (hsub : ts ⊆ us) : Lexed ts :=
  fun t ht => h t (hsub ht)

theorem Lexed.word {s : String} {ts : List Token} (h : Lexed ts) (hs : .ident s ∈ ts) :
    IsWord s.toList := h _ hs

theorem Lexed.raw {s : String} {ts : List Token} (h : Lexed ts) (hs : .string s ∈ ts) :
    isRaw s.toList = true := h _ hs

theorem Lexed.each {ds : List Decl} (h : Lexed (Decl.tokensList ds)) :
    ∀ d ∈ ds, Lexed d.tokens := by
  intro d hd
  refine h.of_subset fun t ht => ?_
  rw [Decl.tokensList_eq_flatMap]
  exact List.mem_flatMap.mpr ⟨d, hd, ht⟩

/-! ### Marks and blanks -/

theorem Token.Parts.append {s : String} (h : Parts s) (t : String) : Parts (s ++ t) := by
  obtain ⟨c, cs, hs, hc⟩ := h
  exact ⟨c, cs ++ t.toList, by rw [String.toList_append, hs, List.cons_append], hc⟩

theorem seals_blank : Seals " " [] := fun _ _ h => .blank rfl h

theorem parts_blank : Parts " " := ⟨' ', [], rfl, rfl⟩

theorem seals_lineFeed : Seals "\n" [] := fun _ _ h => .blank rfl h

theorem parts_lineFeed : Parts "\n" := ⟨'\n', [], rfl, rfl⟩

theorem seals_spaces (n : Nat) : Seals (String.ofList (List.replicate n ' ')) [] := by
  intro rest us h
  rw [String.toList_ofList]
  induction n with
  | zero => exact h
  | succ n ih => exact .blank rfl ih

theorem seals_comma : Seals ", " [.punc ','] :=
  fun _ _ h => cut_punc ⟨rfl, by decide, rfl, rfl⟩ (by decide) (.blank rfl h)

theorem parts_comma : Parts ", " := ⟨',', [' '], rfl, rfl⟩

theorem seals_dot : Seals "." [.punc '.'] :=
  fun _ _ h => cut_punc ⟨rfl, by decide, rfl, rfl⟩ (by decide) h

theorem parts_dot : Parts "." := ⟨'.', [], rfl, rfl⟩

theorem seals_star : Seals "*" [.punc '*'] :=
  fun _ _ h => cut_punc ⟨rfl, by decide, rfl, rfl⟩ (by decide) h

theorem seals_not : Seals "!" [.punc '!'] :=
  fun _ _ h => cut_punc ⟨rfl, by decide, rfl, rfl⟩ (by decide) h

theorem seals_bracket : Seals "[" [.punc '['] :=
  fun _ _ h => cut_punc ⟨rfl, by decide, rfl, rfl⟩ (by decide) h

theorem seals_bracket_close : Seals "] " [.punc ']'] :=
  fun _ _ h => cut_punc ⟨rfl, by decide, rfl, rfl⟩ (by decide) (.blank rfl h)

theorem parts_bracket_close : Parts "] " := ⟨']', [' '], rfl, rfl⟩

theorem seals_brace : Seals "\x7b" [.punc '{'] :=
  fun _ _ h => cut_punc ⟨rfl, by decide, rfl, rfl⟩ (by decide) h

theorem seals_brace_close : Seals "\x7d" [.punc '}'] :=
  fun _ _ h => cut_punc ⟨rfl, by decide, rfl, rfl⟩ (by decide) h

/-! ### Words and quoted texts -/

theorem isWord_keyword (k : Keyword) : IsWord k.text.toList := by
  cases k <;> exact ⟨_, _, rfl, rfl, List.all_eq_true.mp rfl⟩

theorem seals_keyword (k : Keyword) : Seals (k.text ++ " ") [k.token] :=
  (spells_ident (isWord_keyword k)).append seals_blank parts_blank

theorem seals_wordIf (b : Bool) (k : Keyword) : Seals (wordIf b k.text) (k.token.optional b) := by
  cases b with
  | false => exact seals_empty
  | true => exact seals_keyword k

theorem seals_quoted {s : String} (h : isRaw s.toList = true) : Seals (quoted s) [.string s] := by
  intro rest us hus
  have hs := cut_string h hus
  rw [String.ofList_toList] at hs
  simpa [quoted, String.toList_append] using hs

/-! ### Lists -/

/-- Items with a separator between them. -/
theorem spells_intercalate {α : Type} {sep : String} {t : Token} (hsep : Seals sep [t])
    (hparts : Parts sep) {f : α → String} {y : α → List Token} (a : α) (as : List α)
    (h : ∀ b ∈ a :: as, Spells (f b) (y b)) :
    Spells (String.intercalate sep ((a :: as).map f)) (y a ++ as.flatMap fun b => t :: y b) := by
  induction as generalizing a with
  | nil =>
    rw [List.map_singleton, String.intercalate_singleton, List.flatMap_nil, List.append_nil]
    exact h a List.mem_cons_self
  | cons b bs ih =>
    have hb := ih b fun c hc => h c (List.mem_cons_of_mem a hc)
    have ha := (h a List.mem_cons_self).append hsep hparts
    rw [List.map_cons, List.map_cons, String.intercalate_cons_cons, List.flatMap_cons]
    simpa [String.append_assoc] using ha.append_spells hb

/-- A list of names with a separator between them. -/
theorem spells_names {sep : String} {t : Token} (hsep : Seals sep [t]) (hparts : Parts sep)
    (s : String) (ss : List String) (h : ∀ b ∈ s :: ss, IsWord b.toList) :
    Spells (String.intercalate sep (s :: ss)) (.ident s :: ss.flatMap fun b => [t, .ident b]) := by
  have hs := spells_intercalate (f := id) (y := fun b => [.ident b]) hsep hparts s ss
    fun b hb => spells_ident (h b hb)
  rwa [List.map_id] at hs

theorem DottedName.spells_text {n : DottedName} (h : Lexed n.tokens) : Spells n.text n.tokens := by
  refine spells_names seals_dot parts_dot n.first n.more fun b hb => h.word ?_
  rcases List.mem_cons.mp hb with rfl | hb
  · exact List.mem_cons_self
  · exact List.mem_cons_of_mem _ (List.mem_flatMap.mpr ⟨b, hb, by simp⟩)

theorem ExportName.spells_text {name : ExportName} (h : Lexed name.tokens) :
    Spells name.text name.tokens := by
  cases name with
  | all => exact seals_star.spells
  | one n => exact n.spells_text h
  | below n =>
    have hn := n.spells_text (h.of_subset (List.subset_append_left n.tokens _))
    exact (hn.append (seals_dot.append seals_star) ⟨'.', ['*'], rfl, rfl⟩).spells

theorem Feature.spells_text {f : Feature} (h : Lexed f.tokens) : Spells f.text f.tokens := by
  have hname := spells_ident (h.word (s := f.name) (by simp [tokens]))
  obtain ⟨name, isPositive⟩ := f
  cases isPositive with
  | true => exact hname
  | false => exact seals_not.append_spells hname

theorem attributesText_cons (a : String) (as : List String) :
    attributesText (a :: as) = "[" ++ (a ++ "] ") ++ attributesText as := by
  simp [attributesText, String.append_assoc]

theorem seals_attributesText {as : List String} (h : Lexed (attributeTokens as)) :
    Seals (attributesText as) (attributeTokens as) := by
  induction as with
  | nil => exact seals_empty
  | cons a as ih =>
    have ha := spells_ident (h.word (s := a) (by simp [attributeTokens]))
    have has := ih (h.of_subset fun t ht => List.mem_append_right _ ht)
    rw [attributesText_cons]
    exact (seals_bracket.append (ha.append seals_bracket_close parts_bracket_close)).append has

theorem spells_macros {ms : List String} (h : Lexed (macroTokens ms)) :
    Spells (String.intercalate ", " ms) (macroTokens ms) := by
  cases ms with
  | nil => exact seals_empty.spells
  | cons m ms =>
    refine spells_names seals_comma parts_comma m ms fun b hb => h.word ?_
    rcases List.mem_cons.mp hb with rfl | hb
    · exact List.mem_cons_self
    · exact List.mem_cons_of_mem _ (List.mem_flatMap.mpr ⟨b, hb, by simp⟩)

/-! ### The lines of members -/

namespace Decl

theorem spells_requires {f : Feature} {fs : List Feature} (h : ∀ g ∈ f :: fs, Lexed g.tokens) :
    Spells ("requires " ++ String.intercalate ", " ((f :: fs).map Feature.text))
      (requires f fs).tokens :=
  (seals_keyword .requires).append_spells
    (spells_intercalate seals_comma parts_comma f fs fun g hg => g.spells_text (h g hg))

/-- The words in front of `header`. -/
theorem seals_headerForm (form : HeaderForm) (name : String) (property : Option HeaderProperty) :
    Seals (wordIf (headerOf form name property).isUmbrella "umbrella" ++
      wordIf (headerOf form name property).isExclude "exclude" ++
      wordIf (headerOf form name property).isPrivate "private" ++
      wordIf (headerOf form name property).isTextual "textual") form.tokens := by
  have h (u x p t : Bool) :=
    (((seals_wordIf u .umbrella).append (seals_wordIf x .exclude)).append
      (seals_wordIf p .privately)).append
      (seals_wordIf t .textual)
  cases form with
  | umbrella => exact h true false false false
  | exclude => exact h false true false false
  | plain p t => exact h false false p t

theorem seals_property (k : Keyword) {digits : String} (h : IsNumber digits.toList) :
    Seals (" \x7b " ++ (k.text ++ " ") ++ digits ++ " \x7d")
      [.punc '{', k.token, .integer digits, .punc '}'] := by
  have hopen := (seals_blank.append (seals_brace.append seals_blank)).append (seals_keyword k)
  have hdigits := (spells_integer h).append (seals_blank.append seals_brace_close)
      ⟨' ', ['}'], rfl, rfl⟩
  rw [String.append_assoc]
  exact hopen.append hdigits

theorem seals_properties {form : HeaderForm} {name : String} {property : Option HeaderProperty}
    (h : Lexed (braceTokens (property.map some))) :
    Seals (headerOf form name property).properties (braceTokens (property.map some)) := by
  rcases property with - | (digits | digits)
  · exact seals_empty
  · exact seals_property .size (h (.integer digits) (by simp [braceTokens, HeaderProperty.tokens]))
  · exact seals_property .mtime (h (.integer digits) (by simp [braceTokens, HeaderProperty.tokens]))

theorem seals_header {form : HeaderForm} {name : String} {property : Option HeaderProperty}
    (hname : isRaw name.toList = true) (h : Lexed (braceTokens (property.map some))) :
    Seals (headerOf form name property).text (header form name (property.map some)).tokens := by
  have hform := (seals_headerForm form name property).append (seals_keyword .header)
  have hproperties :
      Seals (headerOf form name property).properties (braceTokens (property.map some)) :=
    seals_properties h
  have hall := (hform.append (seals_quoted hname)).append hproperties
  rw [List.append_assoc form.tokens] at hall
  exact hall

/-- What a member of one kind is written as spells the member that is written. -/
theorem spells_of_header? {d : Decl} {h : Header} (hd : d.header? = some h)
    (hlex : Lexed d.tokens) :
    Spells h.text d.written.tokens := by
  cases d with
  | header form name braces =>
    cases hd
    refine (seals_header (hlex.raw (by simp [tokens])) (hlex.of_subset ?_)).spells
    intro t ht
    rcases braces with - | - | p
    · cases ht
    · cases ht
    · exact List.mem_append_right _ ht
  | requires | umbrellaDir | external | inferred | regular | exports | exportAs | use | link |
    configMacros | conflict => cases hd

theorem spells_of_umbrellaDir? {d : Decl} {dir : String} (hd : d.umbrellaDir? = some dir)
    (hlex : Lexed d.tokens) :
    Spells ("umbrella " ++ quoted dir) d.written.tokens := by
  cases d with
  | umbrellaDir name =>
    cases hd
    exact ((seals_keyword .umbrella).append (seals_quoted (hlex.raw (by simp [tokens])))).spells
  | requires | header | external | inferred | regular | exports | exportAs | use | link |
    configMacros | conflict => cases hd

theorem spells_of_export? {d : Decl} {name : String} (hd : d.export? = some name)
    (hlex : Lexed d.tokens) :
    Spells ("export " ++ name) d.written.tokens := by
  cases d with
  | exports name =>
    cases hd
    exact (seals_keyword .exports).append_spells
      (name.spells_text (hlex.of_subset (List.subset_cons_self _ _)))
  | requires | header | umbrellaDir | external | inferred | regular | exportAs | use | link |
    configMacros | conflict => cases hd

theorem spells_of_exportAs? {d : Decl} {name : String} (hd : d.exportAs? = some name)
    (hlex : Lexed d.tokens) :
    Spells ("export_as " ++ name) d.written.tokens := by
  cases d with
  | exportAs name =>
    cases hd
    exact (seals_keyword .exportAs).append_spells (spells_ident (hlex.word (by simp [tokens])))
  | requires | header | umbrellaDir | external | inferred | regular | exports | use | link |
    configMacros | conflict => cases hd

theorem spells_of_use? {d : Decl} {name : String} (hd : d.use? = some name)
    (hlex : Lexed d.tokens) :
    Spells ("use " ++ name) d.written.tokens := by
  cases d with
  | use name =>
    cases hd
    exact (seals_keyword .use).append_spells (spells_ident (hlex.word (by simp [tokens])))
  | requires | header | umbrellaDir | external | inferred | regular | exports | exportAs | link |
    configMacros | conflict => cases hd

theorem spells_of_link? {d : Decl} {l : Link} (hd : d.link? = some l) (hlex : Lexed d.tokens) :
    Spells l.text d.written.tokens := by
  cases d with
  | link isFramework name =>
    cases hd
    have hname := seals_quoted (hlex.raw (s := name) (by simp [tokens]))
    exact (((seals_keyword .link).append (seals_wordIf isFramework .framework)).append hname).spells
  | requires | header | umbrellaDir | external | inferred | regular | exports | exportAs | use |
    configMacros | conflict => cases hd

theorem spells_of_configMacros? {d : Decl} {c : ConfigMacros} (hd : d.configMacros? = some c)
    (hlex : Lexed d.tokens) : Spells c.text d.written.tokens := by
  cases d with
  | configMacros as ms =>
    cases hd
    have has : Lexed (attributeTokens as) := hlex.of_subset fun t ht => by simp [tokens, ht]
    have hms : Lexed (macroTokens ms) := hlex.of_subset fun t ht => by simp [tokens, ht]
    exact ((seals_keyword .configMacros).append (seals_attributesText has)).append_spells
      (spells_macros hms)
  | requires | header | umbrellaDir | external | inferred | regular | exports | exportAs | use |
    link | conflict => cases hd

theorem spells_of_conflict? {d : Decl} {c : Conflict} (hd : d.conflict? = some c)
    (hlex : Lexed d.tokens) :
    Spells c.text d.written.tokens := by
  cases d with
  | conflict name reason =>
    cases hd
    have hname := name.spells_text (hlex.of_subset fun t ht => by simp [tokens, ht])
    have hreason := seals_quoted (hlex.raw (s := reason) (by simp [tokens]))
    have hall := (seals_keyword .conflict).append (hname.append (seals_comma.append hreason)
        (parts_comma.append _))
    rw [← String.append_assoc, ← String.append_assoc] at hall
    exact hall.spells
  | requires | header | umbrellaDir | external | inferred | regular | exports | exportAs | use |
    link | configMacros => cases hd

theorem spells_external {name : DottedName} {file : String}
    (h : Lexed (external name file).tokens) :
    Spells (ModuleInfo.external name file).externText (external name file).tokens := by
  have hname := name.spells_text (h.of_subset fun t ht => by simp [tokens, ht])
  have hfile := seals_blank.append (seals_quoted (h.raw (s := file) (by simp [tokens])))
  have hall := ((seals_keyword .external).append (seals_keyword .module)).append
    (hname.append hfile (parts_blank.append _))
  have hwords : Keyword.external.text ++ " " ++ (Keyword.module.text ++ " ") = "extern module " :=
    rfl
  rw [hwords, ← String.append_assoc, ← String.append_assoc] at hall
  exact hall.spells

/-- The line that opens a body, whatever the name of the module is. -/
theorem seals_head {i : ModuleInfo} {ts : List Token} (hname : Spells i.id ts)
    (has : Lexed (attributeTokens i.attributes)) :
    Seals i.head (headTokens i.isExplicit i.isFramework ++ ts ++ attributeTokens i.attributes ++
      [.punc '{']) := by
  have hwords := (seals_wordIf i.isExplicit .explicit).append (seals_wordIf i.isFramework .framework)
  have hid := (hwords.append (seals_keyword .module)).append (hname.append seals_blank parts_blank)
  have hall := (hid.append (seals_attributesText has)).append seals_brace
  rw [List.append_nil, ← String.append_assoc] at hall
  exact hall

end Decl

/-! ### Lines -/

theorem seals_indented {line : String} {ts : List Token} (level : Nat) (h : Spells line ts) :
    Seals (indented level line) ts := by
  have hline := (seals_spaces (2 * level)).append (h.append seals_lineFeed parts_lineFeed)
  rw [List.nil_append, List.append_nil, ← String.append_assoc] at hline
  exact hline

theorem indentedAll_append (level : Nat) (lines lines' : List String) :
    indentedAll level (lines ++ lines') = indentedAll level lines ++ indentedAll level lines' := by
  simp [indentedAll]

/-- The lines for what is found in members of one rank. -/
theorem seals_indentedAll {α : Type} {p : Decl → Option α} {text : α → String} {r : Nat}
    (level : Nat) (hp : Decl.Collects p r) {ds : List Decl} (h : ∀ d ∈ ds, Lexed d.tokens)
    (htext : ∀ d a, p d = some a → Lexed d.tokens → Spells (text a) d.written.tokens) :
    Seals (indentedAll level ((ds.filterMap p).map text))
      (Decl.tokensList (Decl.ofRank r (Decl.writtenEach ds))) := by
  induction ds with
  | nil => exact seals_empty
  | cons d ds ih =>
    have hds := ih fun d' hd' => h d' (List.mem_cons_of_mem d hd')
    have hd := hp d
    rw [Decl.writtenEach, Decl.ofRank, List.filter_cons, Decl.rank_written, ← hd]
    cases hpd : p d with
    | none => rwa [List.filterMap_cons_none hpd]
    | some a =>
      have hline := seals_indented level (htext d a hpd (h d List.mem_cons_self))
      rw [List.filterMap_cons_some hpd]
      simpa [indentedAll, Decl.tokensList, Decl.ofRank] using hline.append hds

/-- The line for all required features, if there are any. -/
theorem seals_requiring (level : Nat) {fs : List Feature} (h : ∀ f ∈ fs, Lexed f.tokens) :
    Seals (indentedAll level (if fs.isEmpty then []
      else ["requires " ++ String.intercalate ", " (fs.map Feature.text)]))
        (Decl.tokensList (Decl.requiring fs)) := by
  cases fs with
  | nil => exact seals_empty
  | cons f fs =>
    have hline := seals_indented level (Decl.spells_requires h)
    rw [List.isEmpty_cons, if_neg Bool.false_ne_true, Decl.requiring, Decl.tokensList,
      Decl.tokensList, List.append_nil, indentedAll, List.map_singleton, String.join_cons,
      String.join_nil, String.append_empty]
    exact hline

namespace Decl

theorem lexed_features {ds : List Decl} (h : ∀ d ∈ ds, Lexed d.tokens) :
    ∀ f ∈ ds.flatMap features, Lexed f.tokens := by
  intro f hf
  obtain ⟨d, hd, hfd⟩ := List.mem_flatMap.mp hf
  cases d with
  | requires g gs =>
    refine (h _ hd).of_subset fun t ht => ?_
    rcases List.mem_cons.mp hfd with rfl | hgs
    · simp [tokens, ht]
    · exact List.mem_append_right _ (List.mem_flatMap.mpr ⟨f, hgs, List.mem_cons_of_mem _ ht⟩)
  | header | umbrellaDir | external | inferred | regular | exports | exportAs | use | link |
    configMacros | conflict => cases hfd

variable {ds : List Decl} (level : Nat) (h : ∀ d ∈ ds, Lexed d.tokens) (e f : Bool)
  (name : DottedName) (as : List String)

include h

/-- The lines in front of the submodules. -/
theorem seals_before : Seals (indentedAll level (ModuleInfo.ofMembers e f name as ds).before)
    (tokensList (requiring (ds.flatMap features) ++ ofRank 1 (writtenEach ds) ++
      ofRank 2 (writtenEach ds))) := by
  have hrequires := seals_requiring level (lexed_features h)
  have hheaders := seals_indentedAll level collects_header? h fun _ _ => spells_of_header?
  have hdirs := seals_indentedAll level collects_umbrellaDir? h fun _ _ => spells_of_umbrellaDir?
  rw [ModuleInfo.before, indentedAll_append, indentedAll_append, tokensList_append,
    tokensList_append]
  exact (hrequires.append hheaders).append hdirs

/-- The lines behind the submodules. -/
theorem seals_behind : Seals (indentedAll level (ModuleInfo.ofMembers e f name as ds).behind)
    (tokensList (ofRank 4 (writtenEach ds) ++ ofRank 5 (writtenEach ds) ++
      ofRank 6 (writtenEach ds) ++ ofRank 7 (writtenEach ds) ++ ofRank 8 (writtenEach ds) ++
      ofRank 9 (writtenEach ds))) := by
  have hexports := seals_indentedAll level collects_export? h fun _ _ => spells_of_export?
  have hexportAs := seals_indentedAll level collects_exportAs? h fun _ _ => spells_of_exportAs?
  have huses := seals_indentedAll level collects_use? h fun _ _ => spells_of_use?
  have hlinks := seals_indentedAll level collects_link? h fun _ _ => spells_of_link?
  have hmacros := seals_indentedAll level collects_configMacros? h fun _ _ => spells_of_configMacros?
  have hconflicts := seals_indentedAll level collects_conflict? h fun _ _ => spells_of_conflict?
  simp only [ModuleInfo.behind, indentedAll_append, tokensList_append]
  have hfront := ((hexports.append hexportAs).append huses).append hlinks
  exact (hfront.append hmacros).append hconflicts

omit h

theorem seals_inferred {k : Nat} (h : Lexed (inferred e f as k).tokens) :
    Seals (Module.textAt level ⟨.inferred e f as k, []⟩) (inferred e f as (min k 1)).tokens := by
  have has : Lexed (attributeTokens as) := h.of_subset fun t ht => by simp [tokens, ht]
  have hhead := seals_indented level
    (seals_head (i := .inferred e f as k) seals_star.spells has).spells
  have hclose := seals_indented level seals_brace_close.spells
  have hbody : Seals (indentedAll (level + 1) (if k != 0 then ["export *"] else []))
      ((List.replicate (min k 1) ()).flatMap fun _ => [Keyword.exports.token, .punc '*']) := by
    cases k with
    | zero => exact seals_empty
    | succ k =>
      have hline : Seals (indented (level + 1) "export *") [Keyword.exports.token, .punc '*'] :=
        seals_indented (level + 1) ((seals_keyword .exports).append seals_star).spells
      rw [Nat.min_eq_right (by omega)]
      simpa [indentedAll] using hline
  have hall := (hhead.append hbody).append hclose
  simpa [Module.textAt, ModuleInfo.inferred, ModuleInfo.before, ModuleInfo.behind, indentedAll,
    tokens] using hall

/-! ### Modules -/

mutual

/-- **What is written for a module spells the declaration that is written for it.** -/
theorem seals_textAt :
    ∀ (d : Decl) (level : Nat) {m : Module}, d.module? = some m → Lexed d.tokens →
    Seals (m.textAt level) d.written.tokens
  | .external name file, level, _, hm, h => by
    cases hm
    exact seals_indented level (spells_external h)
  | .inferred e f as k, level, _, hm, h => by
    cases hm
    exact seals_inferred level e f as h
  | .regular e f name as ms, level, _, hm, h => by
    cases hm
    have has : Lexed (attributeTokens as) := h.of_subset fun t ht => by simp [tokens, ht]
    have hname := name.spells_text (h.of_subset fun t ht => by simp [tokens, ht])
    have hms : ∀ d ∈ ms, Lexed d.tokens :=
      Lexed.each (h.of_subset fun t ht => by simp [tokens, ht])
    have hhead : Seals (indented level (ModuleInfo.ofMembers e f name as ms).head)
        (headTokens e f ++ name.tokens ++ attributeTokens as ++ [.punc '{']) :=
      seals_indented level (seals_head (i := .ofMembers e f name as ms) hname has).spells
    have hclose := seals_indented level seals_brace_close.spells
    have hbefore := seals_before (level + 1) hms e f name as
    have hsub := seals_textListAt ms (level + 1) hms
    have hbehind := seals_behind (level + 1) hms e f name as
    have hall := (((hhead.append hbefore).append hsub).append hbehind).append hclose
    have htext : Module.textAt level ⟨.ofMembers e f name as ms, Module.ofDecls ms⟩ =
        indented level (ModuleInfo.ofMembers e f name as ms).head ++
        indentedAll (level + 1) (ModuleInfo.ofMembers e f name as ms).before ++
        Module.textListAt (level + 1) (Module.ofDecls ms) ++
        indentedAll (level + 1) (ModuleInfo.ofMembers e f name as ms).behind ++
        indented level "\x7d" := rfl
    rw [htext]
    simpa [written, tokens, grouped, groupedFront, tokensList_append,
      flatMap_features_writtenEach] using hall
  | .requires .., _, _, hm, _ | .header .., _, _, hm, _ | .umbrellaDir .., _, _, hm, _ |
    .exports .., _, _, hm, _ | .exportAs .., _, _, hm, _ | .use .., _, _, hm, _ |
    .link .., _, _, hm, _ | .configMacros .., _, _, hm, _ | .conflict .., _, _, hm, _ => by cases hm

/-- What is written for the modules among some declarations. -/
theorem seals_textListAt : ∀ (ds : List Decl) (level : Nat), (∀ d ∈ ds, Lexed d.tokens) →
    Seals (Module.textListAt level (Module.ofDecls ds)) (tokensList (ofRank 3 (writtenEach ds)))
  | [], _, _ => seals_empty
  | d :: ds, level, h => by
    have hds := seals_textListAt ds level fun d' hd' => h d' (List.mem_cons_of_mem d hd')
    have hrank := collects_module? d
    rw [Module.ofDecls, writtenEach, ofRank, List.filter_cons, rank_written, ← hrank]
    cases hm : d.module? with
    | none => exact hds
    | some m => exact (seals_textAt d level hm (h d List.mem_cons_self)).append hds

end

end Decl

end ModuleDeps
