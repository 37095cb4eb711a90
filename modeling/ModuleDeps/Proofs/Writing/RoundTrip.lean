import ModuleDeps.Proofs.Grammar.Rereading
import ModuleDeps.Proofs.Writing.Text

/-!
# Reading what is written

A module map that was read is written as the tokens of the declarations that are written for it.
They are read again as these declarations, which denote the same map, if and only if they are
legible (`ofText_text_iff`): in no module may a list of macros be empty while there are conflicts.
-/

namespace ModuleDeps

open Token Grammar

namespace Decl

/-! ### Declarations outside of all modules -/

theorem isTopLevel_written (d : Decl) : d.written.isTopLevel = d.isTopLevel := by
  cases d <;> rfl

theorem rank_of_isTopLevel {d : Decl} (h : d.isTopLevel = true) : d.rank = 3 := by
  cases d with
  | regular | external => rfl
  | requires | header | umbrellaDir | inferred | exports | exportAs | use | link | configMacros |
    conflict => cases h

theorem ofRank_eq_self {ds : List Decl} (h : ∀ d ∈ ds, d.isTopLevel = true) : ofRank 3 ds = ds := by
  refine List.filter_eq_self.mpr fun d hd => ?_
  rw [rank_of_isTopLevel (h d hd)]
  rfl

theorem filterMap_configMacros?_eq_nil {ds : List Decl} (h : ∀ d ∈ ds, d.isTopLevel = true) :
    ds.filterMap configMacros? = [] := by
  refine List.filterMap_eq_nil_iff.mpr fun d hd => collects_configMacros?.eq_none_iff.mpr ?_
  rw [rank_of_isTopLevel (h d hd)]
  omega

theorem forall_mem_writtenEach {p : Decl → Prop} {ds : List Decl} (h : ∀ d ∈ ds, p d.written) :
    ∀ d ∈ writtenEach ds, p d := by
  rwa [writtenEach_eq_map, List.forall_mem_map]

end Decl

namespace ModuleMap

/-! ### Texts -/

/-- A text is a map exactly if it is cut into tokens that the grammar derives. -/
theorem ofText_eq_ok_iff {content : String} {m : ModuleMap} :
    ofText content = .ok m ↔
      ∃ ts ds, Cut content.toList ts ∧ File ds ts ∧ m = ⟨Module.ofDecls ds⟩ := by
  have heof {ts : List Token} (h : Cut content.toList ts) : .eof ∉ ts :=
    fun hmem => h.isLexeme _ hmem
  unfold ofText
  cases htokens : tokenize content with
  | error e =>
    constructor
    · nofun
    · rintro ⟨ts, ds, hcut, -, -⟩
      rw [cut_iff.mpr hcut] at htokens
      cases htokens
  | ok ts =>
    have hcut := cut_iff.mp htokens
    have hmap : (ofTokens ts).mapError SyntaxError.parse = .ok m ↔ ofTokens ts = .ok m := by
      cases ofTokens ts <;> simp [Except.mapError]
    refine hmap.trans ((ofTokens_eq_ok_iff (heof hcut)).trans ?_)
    constructor
    · rintro ⟨ds, hfile, rfl⟩
      exact ⟨ts, ds, hcut, hfile, rfl⟩
    · rintro ⟨ts', ds, hcut', hfile, rfl⟩
      rw [cut_iff.mpr hcut'] at htokens
      cases htokens
      exact ⟨ds, hfile, rfl⟩

/-- What is read from the text of a map. -/
theorem ofText_text_eq_ok_iff {ds : List Decl} (htop : ∀ d ∈ ds, d.isTopLevel = true)
    (hlex : Lexed (Decl.tokensList ds)) {m : ModuleMap} :
    ofText (text ⟨Module.ofDecls ds⟩) = .ok m ↔
      ∃ rs, File rs (Decl.tokensList (Decl.writtenEach ds)) ∧ m = ⟨Module.ofDecls rs⟩ := by
  have htop' : ∀ d ∈ Decl.writtenEach ds, d.isTopLevel = true :=
    Decl.forall_mem_writtenEach fun d hd => d.isTopLevel_written.trans (htop d hd)
  have hcut : Cut (text ⟨Module.ofDecls ds⟩).toList
      (Decl.tokensList (Decl.ofRank 3 (Decl.writtenEach ds))) :=
    (Decl.seals_textListAt ds 0 hlex.each).cut
  rw [Decl.ofRank_eq_self htop'] at hcut
  rw [ofText_eq_ok_iff]
  constructor
  · rintro ⟨ts, rs, hts, hfile, rfl⟩
    have htokens := cut_iff.mpr hts
    rw [cut_iff.mpr hcut] at htokens
    cases htokens
    exact ⟨rs, hfile, rfl⟩
  · rintro ⟨rs, hfile, rfl⟩
    exact ⟨_, rs, hcut, hfile, rfl⟩

/-- A map is read again from its text, if it is denoted by declarations that can be read, exactly if
in none of its modules a list of macros is empty while there are conflicts. -/
theorem ofText_text_ofDecls_iff {ds : List Decl}
    (hds : ∀ d ∈ ds, d.isTopLevel = true ∧ d.nesting ≤ Rule.maxNesting ∧ d.Legible)
    (hlex : Lexed (Decl.tokensList ds)) :
    ofText (text ⟨Module.ofDecls ds⟩) = .ok ⟨Module.ofDecls ds⟩ ↔
      ∀ sub ∈ Module.walkList (Module.ofDecls ds), sub.info.Separates := by
  have htop (d : Decl) (hd : d ∈ ds) : d.isTopLevel = true := (hds d hd).1
  have htop' : ∀ d ∈ Decl.writtenEach ds, d.isTopLevel = true :=
    Decl.forall_mem_writtenEach fun d hd => d.isTopLevel_written.trans (htop d hd)
  have hnesting : ∀ d ∈ Decl.writtenEach ds, d.nesting ≤ Rule.maxNesting :=
    Decl.forall_mem_writtenEach fun d hd => d.nesting_written_le.trans (hds d hd).2.1
  rw [ofText_text_eq_ok_iff htop hlex,
    ← Decl.legibleList_writtenEach_iff ds fun d hd => (hds d hd).2.2]
  constructor
  · rintro ⟨rs, hrs, hm⟩
    have hbody :
        Body (Rule.maxNesting + 1) rs (Decl.tokensList (Decl.writtenEach ds) ++ []) [] := by
      rw [List.append_nil]
      exact Many.mono (fun _ _ _ => .submodule) hrs
    have hmacros : rs.filterMap Decl.configMacros? =
        (Decl.writtenEach ds).filterMap Decl.configMacros? := by
      rw [Decl.filterMap_configMacros?_eq_nil htop',
        Decl.filterMap_configMacros?_eq_nil fun d hd => ((file_iff.mp hrs).2 d hd).1]
    have hmodules : Module.ofDecls rs = Module.ofDecls (Decl.writtenEach ds) := by
      rw [Decl.ofDecls_writtenEach]
      exact (ModuleMap.mk.inj hm).symm
    have hlegible := hbody.legible closes_nil closes_nil
      (Nat.succ_le_succ (Decl.nestingList_le_iff.mpr hnesting)) hmacros hmodules
    exact (Decl.legibleList_iff.mp hlegible).2
  · intro hlegible
    refine ⟨Decl.writtenEach ds, file_iff.mpr ⟨rfl, fun d hd => ?_⟩,
      by rw [Decl.ofDecls_writtenEach]⟩
    exact ⟨htop' d hd, hnesting d hd, hlegible d hd⟩

/-- **A map that was read is read again from its text** exactly if in none of its modules a list of
macros is empty while there are conflicts. -/
theorem ofText_text_iff {content : String} {m : ModuleMap} (h : ofText content = .ok m) :
    ofText m.text = .ok m ↔ ∀ sub ∈ m.walk, sub.info.Separates := by
  obtain ⟨ts, ds, hcut, hfile, rfl⟩ := ofText_eq_ok_iff.mp h
  obtain ⟨rfl, hds⟩ := file_iff.mp hfile
  exact ofText_text_ofDecls_iff hds hcut.isLexeme

/-- Members out of order, braces without a property, and a list of macros left out where it does no
harm. -/
theorem ofText_text_regrouped :
    let content :=
      "module a.b \x7b use c requires f, !g header \"h\" \x7b \x7d requires e module * \x7b export * " ++
      "\x7d conflict d.e, \"no\" config_macros y, z module n \x7b config_macros \x7d \x7d"
    let m : ModuleMap := ⟨[{
      info := {
        id := "a.b"
        requires := [⟨"f", true⟩, ⟨"g", false⟩, ⟨"e", true⟩]
        headers := [{ name := "h" }]
        uses := ["c"]
        configMacros := [⟨[], ["y", "z"]⟩]
        conflicts := [⟨"d.e", "no"⟩] }
      submodules := [
        { info := { id := "*", isInferred := true, exportsAll := true } },
        { info := { id := "n", configMacros := [{}] } }] }]⟩
    ofText content = .ok m ∧ ofText m.text = .ok m := by
  intro content m
  have h : ofText content = .ok m := by decide +kernel
  exact ⟨h, (ofText_text_iff h).mpr (by decide +kernel)⟩

/-- A conflict is taken for a macro if the list of macros that stood behind it is empty. -/
theorem exists_not_ofText_text :
    let content := "module m \x7b conflict a, \"x\" config_macros \x7d"
    let m : ModuleMap :=
      ⟨[{ info := { id := "m", configMacros := [{}], conflicts := [⟨"a", "x"⟩] } }]⟩
    ofText content = .ok m ∧ ofText m.text ≠ .ok m := by
  decide +kernel

end ModuleMap

end ModuleDeps
