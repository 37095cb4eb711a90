import ModuleDeps.Proofs.Grammar.Exactness
import ModuleDeps.Proofs.Grammar.Lookahead
import ModuleDeps.Proofs.Lexing.Lines
import ModuleDeps.Proofs.Writing.Order

/-!
# Module maps one behind the other

A module map leaves nothing behind that could change what follows it. The declarations that a file
opens with are read as they are read alone, whatever stands behind them (`file_append`), and the
text in front of a text in a line of its own is lexed as it is alone. So module maps can be put
together by putting their texts together, and an error in the second one is the error that it has
alone, at a place further behind (`tokenize_ofTokens_append`).
-/

namespace ModuleDeps

open Token Grammar

/-- The error for tokens that stand `n` tokens further behind. -/
def ParseError.behind (n : Nat) : ParseError → ParseError
  | unexpected what found m => unexpected what found (m + n)
  | trailingTokens found m => trailingTokens found (m + n)
  | nestingTooDeep m => nestingTooDeep (m + n)

theorem Fault.locate_add {f : Fault} {size : Nat} (h : f.rest.length ≤ size) (n : Nat) :
    f.locate (n + size) = (f.locate size).behind n := by
  have hsize : n + size - f.rest.length = size - f.rest.length + n := by omega
  obtain ⟨reason, rest⟩ := f
  cases reason <;> simp only [locate, hsize, ParseError.behind]

/-! ### Tokens behind those of a file -/

namespace Rule

variable {α : Type} {item : Rule (Option α)} {hp : Progressing item}

/-- A repetition goes on behind the items that it finds first. -/
theorem manyFrom_of_many {as : List α} {ts mid : List Token}
    (h : Many (fun a ts rest => item ts = .ok (some a, rest)) as ts mid) (acc : List α) :
    manyFrom item hp acc ts = manyFrom item hp (as.reverse ++ acc) mid := by
  induction h generalizing acc with
  | nil => rfl
  | @cons a as ts mid rest ha _ ih =>
    rw [manyFrom_of_some ha, ih, List.reverse_cons, List.append_assoc, List.singleton_append]

/-- The items that are already found come in front of the others. -/
theorem manyFrom_eq_map (acc : List α) (ts : List Token) :
    manyFrom item hp acc ts =
      (manyFrom item hp [] ts).map fun out => (acc.reverse ++ out.1, out.2) := by
  suffices h : ∀ bs, manyFrom item hp (bs ++ acc) ts =
      (manyFrom item hp bs ts).map fun out => (acc.reverse ++ out.1, out.2) from h []
  intro bs
  fun_induction manyFrom item hp bs ts with
  | case1 bs ts fault hs =>
    rw [manyFrom_of_error hs]
    rfl
  | case2 bs ts rest hs =>
    rw [manyFrom_of_none hs, List.reverse_append]
    rfl
  | case3 bs ts a rest hs ih => rw [manyFrom_of_some hs, ← ih, List.cons_append]

/-- Items that are found first come in front of those that a repetition finds behind them. -/
theorem many_append {as : List α} {ts mid : List Token}
    (h : Many (fun a ts rest => item ts = .ok (some a, rest)) as ts mid) :
    many item hp ts = (many item hp mid).map fun out => (as ++ out.1, out.2) := by
  rw [many, manyFrom_of_many h, manyFrom_eq_map, List.append_nil, List.reverse_reverse]

/-- A file goes on behind its first declarations as if it began there. -/
theorem file_append {ds : List Decl} {ts : List Token} (h : File ds ts) (us : List Token) :
    file (ts ++ us) = (file us).map fun out => (ds ++ out.1, out.2) := by
  obtain ⟨rfl, hds⟩ := file_iff.mp h
  have hread := many_declaration_of_derived (many_moduleDeclaration_tokens hds us)
  have hmany : many (declaration (body maxNesting)) (progressing_declaration (nonGrowing_body _))
      (Decl.tokensList ds ++ us) = _ := many_append hread
  unfold file
  cases hout : many (declaration (body maxNesting)) (progressing_declaration (nonGrowing_body _)) us
    with
  | error fault =>
    rw [hout] at hmany
    rw [bind_of_error hmany, bind_of_error hout]
    rfl
  | ok out =>
    rw [hout] at hmany
    rw [bind_of_ok hmany, bind_of_ok hout, peek_bind, peek_bind]
    split
    · rfl
    · rfl

end Rule

/-- Declarations of a file and what follows them are read one behind the other. -/
theorem Decl.ofTokens_append {ds : List Decl} {ts : List Token} (h : File ds ts)
    (us : List Token) :
    (∀ ds', Decl.ofTokens us = .ok ds' → Decl.ofTokens (ts ++ us) = .ok (ds ++ ds')) ∧
      ∀ e, Decl.ofTokens us = .error e →
        Decl.ofTokens (ts ++ us) = .error (e.behind ts.length) := by
  unfold Decl.ofTokens
  rw [Rule.file_append h us]
  cases hus : Rule.file us with
  | ok out =>
    constructor
    · rintro ds' ⟨⟩
      rfl
    · nofun
  | error fault =>
    constructor
    · nofun
    · rintro e ⟨⟩
      -- the fault is found among the tokens `us`, so their number counts it
      obtain ⟨pre, hpre, -⟩ := (Rule.local_file us).eq_error hus
      have hle : fault.rest.length ≤ us.length := by
        rw [hpre, List.length_append]
        omega
      change Except.error (fault.locate (ts ++ us).length) = _
      rw [List.length_append, Fault.locate_add hle]

theorem ofDecls_append (ds ds' : List Decl) :
    Module.ofDecls (ds ++ ds') = Module.ofDecls ds ++ Module.ofDecls ds' := by
  rw [Decl.ofDecls_eq_filterMap, Decl.ofDecls_eq_filterMap, Decl.ofDecls_eq_filterMap,
    List.filterMap_append]

theorem ModuleMap.ofTokens_append {ts : List Token} (heof : .eof ∉ ts) {m : ModuleMap}
    (h : ModuleMap.ofTokens ts = .ok m) (us : List Token) :
    (∀ m', ModuleMap.ofTokens us = .ok m' →
        ModuleMap.ofTokens (ts ++ us) = .ok ⟨m.modules ++ m'.modules⟩) ∧
      ∀ e, ModuleMap.ofTokens us = .error e →
        ModuleMap.ofTokens (ts ++ us) = .error (e.behind ts.length) := by
  obtain ⟨ds, hfile, rfl⟩ := (ofTokens_eq_ok_iff heof).mp h
  obtain ⟨hok, herror⟩ := Decl.ofTokens_append hfile us
  simp only [ModuleMap.ofTokens_eq]
  cases hus : Decl.ofTokens us with
  | ok ds' =>
    rw [hok ds' hus]
    constructor
    · rintro m' ⟨⟩
      exact congrArg (fun ms => Except.ok (ModuleMap.mk ms)) (ofDecls_append ds ds')
    · nofun
  | error e =>
    rw [herror e hus]
    constructor
    · nofun
    · rintro e' ⟨⟩
      rfl

/-! ### Texts -/

/-- **Reading is compositional.** Behind a text that can be cut into tokens and a line feed, a text
is cut into the tokens that it is cut into alone, and its errors are found as many bytes further
behind as it stands. Behind a module map, tokens are read as the modules that they are read as
alone, and their errors are found as many tokens further behind. -/
theorem tokenize_ofTokens_append {a : String} {ts : List Token} (ha : tokenize a = .ok ts) :
    (∀ b us, tokenize b = .ok us → tokenize (a ++ "\n" ++ b) = .ok (ts ++ us)) ∧
    (∀ b e, tokenize b = .error e →
      tokenize (a ++ "\n" ++ b) = .error (e.behind (a.utf8ByteSize + 1))) ∧
    ∀ m, ModuleMap.ofTokens ts = .ok m → ∀ us,
      (∀ m', ModuleMap.ofTokens us = .ok m' →
        ModuleMap.ofTokens (ts ++ us) = .ok ⟨m.modules ++ m'.modules⟩) ∧
      ∀ e, ModuleMap.ofTokens us = .error e →
        ModuleMap.ofTokens (ts ++ us) = .error (e.behind ts.length) := by
  refine ⟨fun b us => tokenize_append ha, fun b e => tokenize_append_eq_error ha, ?_⟩
  intro m hm us
  have heof : .eof ∉ ts := fun hmem => (cut_iff.mp ha).isLexeme _ hmem
  exact ModuleMap.ofTokens_append heof hm us

/-- A comment that ends with its text, in front of a comment that is not closed, of an external
module and of a word that opens no module. -/
theorem tokenize_ofTokens_append_comment :
    let a := "module a \x7b\x7d // ü"
    let ts : List Token := [.ident "module", .ident "a", .punc '{', .punc '}']
    let us : List Token := [.ident "extern", .ident "module", .ident "b", .string "c"]
    let m : ModuleMap := ⟨[{ info := { id := "a" } }]⟩
    let m' : ModuleMap := ⟨[{ info := { id := "b", isExtern := true, externFilename := "c" } }]⟩
    (tokenize a = .ok ts ∧ ModuleMap.ofTokens ts = .ok m ∧ ModuleMap.ofTokens us = .ok m') ∧
      tokenize (a ++ "\n" ++ "extern module b\"c\"") = .ok (ts ++ us) ∧
      tokenize (a ++ "\n" ++ "b /*") = .error (.unterminatedBlockComment 20) ∧
      ModuleMap.ofTokens (ts ++ us) = .ok ⟨m.modules ++ m'.modules⟩ ∧
      ModuleMap.ofTokens (ts ++ [.ident "b"]) = .error (.trailingTokens (.ident "b") 4) := by
  intro a ts us m m'
  have ha : tokenize a = .ok ts := by decide +kernel
  have hm : ModuleMap.ofTokens ts = .ok m := by decide +kernel
  have hm' : ModuleMap.ofTokens us = .ok m' := by decide +kernel
  obtain ⟨hok, herror, hmaps⟩ := tokenize_ofTokens_append ha
  refine ⟨⟨ha, hm, hm'⟩, hok _ us (by decide +kernel), ?_, (hmaps m hm us).1 m' hm', ?_⟩
  · exact herror "b /*" (.unterminatedBlockComment 2) (by decide +kernel)
  · exact (hmaps m hm _).2 (.trailingTokens (.ident "b") 0) (by decide +kernel)

end ModuleDeps
