import ModuleDeps.Proofs.Grammar.Yield

/-!
# Which declarations can be read back

The tokens of a declaration derive it again, whatever its writer chose, with two exceptions: bodies
may nest too deep, and macros that are left out in front of another member would take its keyword
for a macro. `Legible` rules the second one out, and `file_iff` says that there are no others.
-/

namespace ModuleDeps

namespace Decl

mutual

/-- How deep bodies nest in a declaration. -/
def nesting : Decl → Nat
  | .regular _ _ _ _ members => nestingList members + 1
  | _ => 0

/-- How deep bodies nest in some declarations. -/
def nestingList : List Decl → Nat
  | [] => 0
  | d :: ds => max d.nesting (nestingList ds)

end

/-- The declaration lists configuration macros, and none are given. -/
def isBare : Decl → Bool
  | .configMacros _ [] => true
  | _ => false

mutual

/-- In all bodies of the declaration macros are left out in the last member only. -/
def Legible : Decl → Prop
  | .regular _ _ _ _ members => LegibleList members
  | _ => True

/-- Macros are left out in the last one of the members only, and in their bodies likewise. -/
def LegibleList : List Decl → Prop
  | [] => True
  | d :: ds => (d.isBare = true → ds = []) ∧ d.Legible ∧ LegibleList ds

end

theorem exists_eq_of_isBare {d : Decl} (h : d.isBare = true) : ∃ as, d = .configMacros as [] := by
  cases d with
  | configMacros as ms =>
    cases ms with
    | nil => exact ⟨as, rfl⟩
    | cons => cases h
  | requires | header | umbrellaDir | external | inferred | regular | exports | exportAs | use |
    link | conflict => cases h

theorem nestingList_le_iff {ds : List Decl} {n : Nat} :
    nestingList ds ≤ n ↔ ∀ d ∈ ds, d.nesting ≤ n := by
  induction ds with
  | nil => simp [nestingList]
  | cons d ds ih => rw [nestingList, Nat.max_le, ih, List.forall_mem_cons]

theorem legibleList_iff {ds : List Decl} :
    LegibleList ds ↔ ds.Pairwise (fun d _ => d.isBare = false) ∧ ∀ d ∈ ds, d.Legible := by
  induction ds with
  | nil => simp [LegibleList]
  | cons d ds ih =>
    have hlast : (d.isBare = true → ds = []) ↔ ∀ d' ∈ ds, d.isBare = false := by
      cases hd : d.isBare with
      | false => simp
      | true => simp [List.eq_nil_iff_forall_not_mem]
    rw [LegibleList, ih, hlast, List.pairwise_cons, List.forall_mem_cons]
    constructor
    · rintro ⟨hbare, hd, hpair, hds⟩
      exact ⟨⟨hbare, hpair⟩, hd, hds⟩
    · rintro ⟨⟨hbare, hpair⟩, hd, hds⟩
      exact ⟨hbare, hd, hpair, hds⟩

/-- The declaration can stand outside of all modules. -/
def isTopLevel : Decl → Bool
  | .regular .. | .external .. => true
  | _ => false

end Decl

namespace Grammar

variable {α : Type} {body : Phrase (List Decl)}

/-- Nothing follows, or a closing brace does. -/
def Closes (rest : List Token) : Prop := ∀ t, rest.head? = some t → t = .punc '}'

theorem closes_nil : Closes [] := by
  intro t ht
  cases ht

theorem closes_brace (rest : List Token) : Closes (.punc '}' :: rest) := by
  rintro t ⟨⟩
  rfl

theorem Closes.head_ne {rest : List Token} (h : Closes rest) (s : String) :
    rest.head? ≠ some (.ident s) := by
  intro hs
  cases h _ hs

/-! ### What is derived can be read back -/

theorem MacroList.head_ne {ts rest : List Token} (h : MacroList [] ts rest) (s : String) :
    rest.head? ≠ some (.ident s) := by
  cases h with
  | absent h => exact h s
  | present h => cases h

theorem ModuleMember.head_ne_of_isBare {d : Decl} {ts rest : List Token}
    (h : ModuleMember body d ts rest)
    (hbare : d.isBare = true) (s : String) : rest.head? ≠ some (.ident s) := by
  cases h with
  | @configMacros as ms _ _ _ _ hms =>
    cases ms with
    | nil => exact hms.head_ne s
    | cons => cases hbare
  | submodule h => cases h <;> cases hbare
  | requires | header | umbrellaDir | inferred | exports | exportAs | use | link | conflict =>
    cases hbare

theorem ModuleDeclaration.formed {n : Nat} (hbody : ∀ ds ts rest, body ds ts rest →
    Decl.nestingList ds + 1 ≤ n ∧ Decl.LegibleList ds) {d : Decl} {ts rest : List Token}
    (h : ModuleDeclaration body d ts rest) : d.isTopLevel = true ∧ d.nesting ≤ n ∧ d.Legible := by
  cases h with
  | regular _ _ _ hmembers => exact ⟨rfl, hbody _ _ _ hmembers⟩
  | external => exact ⟨rfl, Nat.zero_le _, trivial⟩

theorem ModuleMember.formed {n : Nat} (hbody : ∀ ds ts rest, body ds ts rest →
    Decl.nestingList ds + 1 ≤ n ∧ Decl.LegibleList ds) {d : Decl} {ts rest : List Token}
    (h : ModuleMember body d ts rest) : d.nesting ≤ n ∧ d.Legible := by
  cases h with
  | submodule h => exact (h.formed hbody).2
  | requires | header | umbrellaDir | inferred | exports | exportAs | use | link | configMacros |
    conflict => exact ⟨Nat.zero_le _, trivial⟩

theorem Body.formed {n : Nat} {ds : List Decl} {ts rest : List Token} (h : Body n ds ts rest) :
    Decl.nestingList ds + 1 ≤ n ∧ Decl.LegibleList ds := by
  induction n generalizing ds ts rest with
  | zero => exact h.elim
  | succ n ih =>
    change Many (ModuleMember (Body n)) ds ts rest at h
    induction h with
    | nil => exact ⟨Nat.succ_le_succ (Nat.zero_le n), trivial⟩
    | cons hd hds ihds =>
      obtain ⟨hn, hl⟩ := hd.formed fun _ _ _ => ih
      obtain ⟨hns, hls⟩ := ihds
      refine ⟨by simp only [Decl.nestingList]; omega, ?_, hl, hls⟩
      intro hbare
      -- a further member would open with an identifier
      cases hds with
      | nil => rfl
      | cons hd' _ =>
        obtain ⟨s, ts', rfl⟩ := hd'.front
        exact absurd rfl (hd.head_ne_of_isBare hbare s)

/-! ### What can be read back is derived -/

theorem many_tokens {p : Phrase α} {y : α → List Token} (h : ∀ a rest, p a (y a ++ rest) rest)
    (as : List α) (rest : List Token) : Many p as (as.flatMap y ++ rest) rest := by
  induction as with
  | nil => exact .nil
  | cons a as ih =>
    rw [List.flatMap_cons, List.append_assoc]
    exact .cons (h a _) ih

theorem separated_tokens {t : Token} {p : Phrase α} {y : α → List Token}
    (h : ∀ a rest, p a (y a ++ rest) rest) (a : α) (as : List α) (rest : List Token) :
    Separated t p (a :: as) (y a ++ as.flatMap (fun b => t :: y b) ++ rest) rest := by
  rw [List.append_assoc]
  exact .mk (h a _) (many_tokens (fun b rest => .mk (h b rest)) as rest)

theorem flag_tokens (t : Token) (b : Bool) (rest : List Token) :
    Flag t b (t.optional b ++ rest) rest := by
  cases b with
  | false => exact .absent
  | true => exact .present

theorem identifier_tokens (s : String) (rest : List Token) :
    Identifier s ([.ident s] ++ rest) rest := .mk

theorem moduleId_tokens (n : DottedName) (rest : List Token) : ModuleId n (n.tokens ++ rest) rest :=
  .mk (separated_tokens identifier_tokens n.first n.more rest)

theorem wildcardModuleId_tokens (name : ExportName) (rest : List Token) :
    WildcardModuleId name (name.tokens ++ rest) rest := by
  have hname (s : String) (ss : List String) (rest : List Token) :
      WildcardModuleId (.one ⟨s, ss⟩) (DottedName.tokens ⟨s, ss⟩ ++ rest) rest ∧
        WildcardModuleId (.below ⟨s, ss⟩)
          (DottedName.tokens ⟨s, ss⟩ ++ .punc '.' :: .punc '*' :: rest) rest := by
    induction ss generalizing s with
    | nil => exact ⟨.identifier, .under .star⟩
    | cons s' ss ih => exact ⟨.under (ih s').1, .under (ih s').2⟩
  cases name with
  | all => exact .star
  | one n => exact (hname n.first n.more rest).1
  | below n =>
    rw [ExportName.tokens, List.append_assoc]
    exact (hname n.first n.more rest).2

theorem attributes_tokens (as : List String) (rest : List Token) :
    Attributes as (attributeTokens as ++ rest) rest := many_tokens (fun _ _ => .mk) as rest

theorem isFeature_tokens (f : Feature) (rest : List Token) :
    IsFeature f (f.tokens ++ rest) rest := by
  obtain ⟨name, isPositive⟩ := f
  cases isPositive with
  | true => exact .positive
  | false => exact .negative

theorem macroList_tokens (ms : List String) {rest : List Token}
    (h : ms = [] → ∀ s, rest.head? ≠ some (.ident s)) :
    MacroList ms (macroTokens ms ++ rest) rest := by
  cases ms with
  | nil => exact .absent (h rfl)
  | cons m ms => exact .present (separated_tokens identifier_tokens m ms rest)

theorem isHeaderForm_tokens (form : HeaderForm) (rest : List Token) :
    IsHeaderForm form (form.tokens ++ rest) rest := by
  cases form with
  | umbrella => exact .umbrella
  | exclude => exact .exclude
  | plain p t =>
    rw [HeaderForm.tokens, List.append_assoc]
    exact .plain (flag_tokens _ p _) (flag_tokens _ t rest)

theorem headerAttrs_tokens (braces : Option (Option HeaderProperty)) (rest : List Token) :
    HeaderAttrs braces (braceTokens braces ++ rest) rest := by
  rcases braces with - | - | (_ | _)
  · exact .absent
  · exact .empty
  · exact .one .size
  · exact .one .mtime

theorem moduleHead_tokens (e f : Bool) (rest : List Token) :
    ModuleHead (e, f) (headTokens e f ++ rest) rest := by
  rw [headTokens, List.append_assoc, List.append_assoc]
  exact .mk (flag_tokens _ e _) (flag_tokens _ f _)

theorem moduleDeclaration_tokens {n : Nat}
    (hbody : ∀ ds rest, Decl.nestingList ds + 1 ≤ n → Decl.LegibleList ds →
      body ds (Decl.tokensList ds ++ .punc '}' :: rest) (.punc '}' :: rest))
    {d : Decl} (ht : d.isTopLevel = true) (hn : d.nesting ≤ n) (hl : d.Legible)
    (rest : List Token) :
    ModuleDeclaration body d (d.tokens ++ rest) rest := by
  cases d with
  | regular e f name as ds =>
    have hds := hbody ds rest hn hl
    have h := ModuleDeclaration.regular (moduleHead_tokens e f _) (moduleId_tokens name _)
      (attributes_tokens as (.punc '{' :: (Decl.tokensList ds ++ .punc '}' :: rest))) hds
    simpa [Decl.tokens] using h
  | external name file =>
    have h : ModuleDeclaration body _ _ rest :=
      .external (moduleId_tokens name (.string file :: rest))
    simpa [Decl.tokens] using h
  | requires | header | umbrellaDir | inferred | exports | exportAs | use | link | configMacros |
    conflict => cases ht

theorem moduleMember_tokens {n : Nat}
    (hbody : ∀ ds rest, Decl.nestingList ds + 1 ≤ n → Decl.LegibleList ds →
      body ds (Decl.tokensList ds ++ .punc '}' :: rest) (.punc '}' :: rest))
    {d : Decl} (hn : d.nesting ≤ n) (hl : d.Legible) {rest : List Token}
    (hrest : d.isBare = true → ∀ s, rest.head? ≠ some (.ident s)) :
    ModuleMember body d (d.tokens ++ rest) rest := by
  cases d with
  | regular => exact .submodule (moduleDeclaration_tokens hbody rfl hn hl rest)
  | external => exact .submodule (moduleDeclaration_tokens hbody rfl hn hl rest)
  | umbrellaDir => exact .umbrellaDir
  | exportAs => exact .exportAs
  | use => exact .use
  | requires f fs =>
    have h : ModuleMember body _ _ rest := .requires (separated_tokens isFeature_tokens f fs rest)
    simpa [Decl.tokens] using h
  | header form name braces =>
    have h : ModuleMember body _ _ rest :=
      .header (isHeaderForm_tokens form (Keyword.header.token :: .string name ::
        (braceTokens braces ++ rest)))
        (headerAttrs_tokens braces rest)
    simpa [Decl.tokens] using h
  | exports name => exact .exports (wildcardModuleId_tokens name rest)
  | link isFramework name =>
    have h : ModuleMember body _ _ rest := .link (flag_tokens _ isFramework (.string name :: rest))
    simpa [Decl.tokens] using h
  | configMacros as ms =>
    have hms : ms = [] → ∀ s, rest.head? ≠ some (.ident s) := by
      rintro rfl
      exact hrest rfl
    have h : ModuleMember body _ _ rest :=
      .configMacros (attributes_tokens as _) (macroList_tokens ms hms)
    simpa [Decl.tokens] using h
  | conflict name reason =>
    have h : ModuleMember body _ _ rest :=
      .conflict (moduleId_tokens name (.punc ',' :: .string reason :: rest))
    simpa [Decl.tokens] using h
  | inferred e f as count =>
    have hexports : Many InferredMember (List.replicate count ())
        ((List.replicate count ()).flatMap (fun _ => [Keyword.exports.token, .punc '*']) ++
          .punc '}' :: rest)
        (.punc '}' :: rest) := many_tokens (fun _ _ => .mk) _ _
    have h : ModuleMember body _ _ rest :=
      .inferred (moduleHead_tokens e f _) (attributes_tokens as (.punc '{' :: _)) hexports
    simpa [Decl.tokens] using h

theorem body_tokens {n : Nat} {ds : List Decl} (hn : Decl.nestingList ds + 1 ≤ n)
    (hl : Decl.LegibleList ds) {rest : List Token} (hrest : Closes rest) :
    Body n ds (Decl.tokensList ds ++ rest) rest := by
  induction n generalizing ds rest with
  | zero => omega
  | succ n ih =>
    change Many (ModuleMember (Body n)) ds _ rest
    induction ds with
    | nil => exact .nil
    | cons d ds ihds =>
      obtain ⟨hbare, hd, hds⟩ := hl
      simp only [Decl.nestingList] at hn
      rw [Decl.tokensList, List.append_assoc]
      refine .cons (moduleMember_tokens (fun ds rest hn hl => ih hn hl (closes_brace rest))
        (by omega) hd ?_) (ihds (by omega) hds)
      intro hb
      rw [hbare hb]
      exact hrest.head_ne

/-! ### Files -/

/-- Declarations that are derived outside of all modules may stand there, and can be read back. -/
theorem forall_formed_of_many {n : Nat} {ds : List Decl} {ts rest : List Token}
    (h : Many (ModuleDeclaration (Body n)) ds ts rest) :
    ∀ d ∈ ds, d.isTopLevel = true ∧ d.nesting ≤ n ∧ d.Legible := by
  induction h with
  | nil =>
    intro d hmem
    cases hmem
  | cons hd _ ih => exact List.forall_mem_cons.mpr ⟨hd.formed fun _ _ _ => Body.formed, ih⟩

/-- Such declarations are derived from their tokens, whatever follows. -/
theorem many_moduleDeclaration_tokens {n : Nat} {ds : List Decl}
    (h : ∀ d ∈ ds, d.isTopLevel = true ∧ d.nesting ≤ n ∧ d.Legible) (rest : List Token) :
    Many (ModuleDeclaration (Body n)) ds (Decl.tokensList ds ++ rest) rest := by
  induction ds with
  | nil => exact .nil
  | cons d ds ih =>
    obtain ⟨⟨ht, hn, hl⟩, hds⟩ := List.forall_mem_cons.mp h
    rw [Decl.tokensList, List.append_assoc]
    have hd := moduleDeclaration_tokens
      (fun ds rest hn hl => body_tokens hn hl (closes_brace rest)) ht hn hl
    exact .cons (hd _) (ih hds)

/-- **The declarations of a file are read back from their tokens** if no bodies nest too deep in
them and macros are left out at the end of bodies only; and no other declarations can be read at
all. -/
theorem file_iff {ds : List Decl} {ts : List Token} :
    File ds ts ↔ ts = Decl.tokensList ds ∧
      ∀ d ∈ ds, d.isTopLevel = true ∧ d.nesting ≤ Rule.maxNesting ∧ d.Legible := by
  constructor
  · intro h
    exact ⟨by rw [eq_append_of_many h, List.append_nil], forall_formed_of_many h⟩
  · rintro ⟨rfl, h⟩
    have hds := many_moduleDeclaration_tokens h []
    rwa [List.append_nil] at hds

end Grammar

end ModuleDeps
