import ModuleDeps.Proofs.Grammar.Exactness
import ModuleDeps.Proofs.Grammar.Formation

/-!
# Reading the tokens of other declarations

The tokens of declarations that are not legible may still be read, but not as these declarations: up
to the first macros that are left out too early both agree, and there a macro is read that was not
meant. So no declarations with the same macros and the same modules are read from them
(`Body.legible`).
-/

namespace ModuleDeps

theorem Decl.exists_tokens_eq_cons (d : Decl) : ∃ s ts, d.tokens = .ident s :: ts := by
  cases d with
  | header form name braces =>
    cases form with
    | umbrella | exclude => exact ⟨_, _, rfl⟩
    | plain p t => cases p <;> cases t <;> exact ⟨_, _, rfl⟩
  | inferred e f as k => cases e <;> cases f <;> exact ⟨_, _, rfl⟩
  | regular e f name as ds => cases e <;> cases f <;> exact ⟨_, _, rfl⟩
  | requires | umbrellaDir | external | exports | exportAs | use | link | configMacros | conflict =>
    exact ⟨_, _, rfl⟩

namespace Grammar

open Rule

theorem Closes.ends {rest : List Token} (h : Closes rest) : Ends rest := by
  intro c hc
  cases h _ hc
  rfl

theorem ends_tokensList {close : List Token} (h : Closes close) (ds : List Decl) :
    Ends (Decl.tokensList ds ++ close) := by
  cases ds with
  | nil => exact h.ends
  | cons d ds =>
    obtain ⟨s, ts, hts⟩ := d.exists_tokens_eq_cons
    rw [Decl.tokensList, hts]
    exact ends_ident s _

variable {n : Nat} {d : Decl} {ts rest : List Token}

/-! ### One member -/

/-- From the tokens of a legible member nothing else is read. -/
theorem ModuleMember.eq_of_legible {w : Decl} (h : ModuleMember (Body n) d (w.tokens ++ ts) rest)
    (hrest : Ends rest) (hts : Ends ts) (hn : w.nesting ≤ n) (hl : w.Legible)
    (hbare : w.isBare = true → ∀ s, ts.head? ≠ some (.ident s)) : d = w ∧ rest = ts := by
  have hbody (ds : List Decl) (rest : List Token) (hn : Decl.nestingList ds + 1 ≤ n)
      (hl : Decl.LegibleList ds) :
      Body n ds (Decl.tokensList ds ++ .punc '}' :: rest) (.punc '}' :: rest) :=
    body_tokens hn hl (closes_brace rest)
  have hw := moduleMember_tokens hbody hn hl hbare
  have hd := member_of_moduleMember (readsBody n) h hrest
  rw [member_of_moduleMember (readsBody n) hw hts] at hd
  cases hd
  exact ⟨rfl, rfl⟩

/-- Where macros are left out in front of an identifier, other macros are read. -/
theorem ModuleMember.macros_ne {as : List String} {s : String}
    (h : ModuleMember (Body n) d (Decl.tokens (.configMacros as []) ++ ts) rest) (hrest : Ends rest)
    (hs : ts.head? = some (.ident s)) : ∃ c, d.configMacros? = some c ∧ c ≠ ⟨as, []⟩ := by
  have hd : (some <$> Rule.configMacros) (Decl.tokens (.configMacros as []) ++ ts) =
      .ok (some d, rest) := member_of_moduleMember (readsBody n) h hrest
  obtain ⟨as', ms, ts', mid, rfl, -, -, -⟩ := configMacros_eq_ok_iff.mp (some_map_eq_ok_iff.mp hd)
  refine ⟨⟨as', ms⟩, rfl, ?_⟩
  rintro ⟨⟩
  obtain rfl := List.append_cancel_left (h.eq_append fun _ _ _ => Body.eq_append)
  exact h.head_ne_of_isBare rfl s hs

/-- The head of a module is read as it stands, whatever its body is. -/
theorem ModuleMember.of_regular {e f : Bool} {name : DottedName} {as : List String}
    {ms : List Decl} (h : ModuleMember (Body n) d (Decl.tokens (.regular e f name as ms) ++ ts) rest)
    (hrest : Ends rest) :
    ∃ members, d = .regular e f name as members ∧
      Body n members (Decl.tokensList ms ++ .punc '}' :: ts) (.punc '}' :: rest) := by
  have htokens : Decl.tokens (.regular e f name as ms) ++ ts =
      headTokens e f ++ (name.tokens ++ (attributeTokens as ++ .punc '{' ::
        (Decl.tokensList ms ++ .punc '}' :: ts))) := by
    simp [Decl.tokens]
  rw [htokens] at h
  generalize Decl.tokensList ms ++ .punc '}' :: ts = ts at h ⊢
  have hd := member_of_moduleMember (readsBody n) h hrest
  have hhead := moduleHead_tokens e f (name.tokens ++ (attributeTokens as ++ .punc '{' :: ts))
  have hdot : (attributeTokens as ++ .punc '{' :: ts).head? ≠ some (.punc '.') := by
    cases as <;> simp [attributeTokens]
  rw [member_of_moduleHead hhead, some_map_eq_ok_iff, submodule_eq_ok_iff] at hd
  rcases hd with ⟨e', f', mid, hhead', -⟩ | ⟨e', f', mid, hhead', -, hd⟩
  · have hok := moduleHead_iff.mpr hhead'
    rw [moduleHead_iff.mpr hhead] at hok
    cases hok
  · have hok := moduleHead_iff.mpr hhead'
    rw [moduleHead_iff.mpr hhead] at hok
    cases hok
    rw [regular, bind_of_ok (dottedName_eq_ok_iff.mpr ⟨moduleId_tokens name _, hdot⟩),
      bind_of_ok (attributes_eq_ok_iff.mpr ⟨attributes_tokens as _, by simp⟩),
      bind_of_ok (a := ()) (symbol_eq_ok_iff.mpr rfl)] at hd
    obtain ⟨members, mid', hmembers, hclose⟩ := bind_eq_ok_iff.mp hd
    obtain ⟨u, mid'', hu, hpure⟩ := bind_eq_ok_iff.mp hclose
    obtain ⟨rfl, rfl⟩ := pure_eq_ok_iff.mp hpure
    obtain rfl := symbol_eq_ok_iff.mp hu
    exact ⟨members, rfl, (readsBody n _ _ _).mp hmembers⟩

/-! ### Bodies -/

/-- Where tokens of a declaration come first, a member is read first. -/
theorem Many.exists_cons {p : Phrase Decl} {rs : List Decl} {w : Decl}
    (h : Many p rs (w.tokens ++ ts) rest) (hrest : Closes rest) :
    ∃ d ds mid, rs = d :: ds ∧ p d (w.tokens ++ ts) mid ∧ Many p ds mid rest := by
  obtain ⟨s, us, hs⟩ := w.exists_tokens_eq_cons
  generalize hts : w.tokens ++ ts = vs at h
  cases h with
  | nil =>
    rw [hs, List.cons_append] at hts
    exact absurd (by rw [← hts]; rfl) (hrest.head_ne s)
  | cons hd hds => exact ⟨_, _, _, rfl, hd, hds⟩

/-- **Declarations are legible if others that are read from their tokens have the same macros and
the same modules.** -/
theorem Body.legible {rs ws : List Decl} {close : List Token}
    (h : Body n rs (Decl.tokensList ws ++ close) rest) (hclose : Closes close) (hrest : Closes rest)
    (hn : Decl.nestingList ws + 1 ≤ n)
    (hmacros : rs.filterMap Decl.configMacros? = ws.filterMap Decl.configMacros?)
    (hmodules : Module.ofDecls rs = Module.ofDecls ws) : Decl.LegibleList ws := by
  induction n generalizing rs ws close rest with
  | zero => exact h.elim
  | succ n ih =>
    change Many (ModuleMember (Body n)) rs _ rest at h
    induction ws generalizing rs with
    | nil => trivial
    | cons w ws ihws =>
      simp only [Decl.nestingList] at hn
      rw [Decl.tokensList, List.append_assoc] at h
      obtain ⟨d, rs, mid, rfl, hd, hrs⟩ := h.exists_cons hrest
      have hmid : Ends mid := hrest.ends.of_many (fun _ _ _ => ModuleMember.front) hrs
      have hts := ends_tokensList hclose ws
      by_cases hl : w.Legible
      · by_cases hbare : w.isBare = true → ws = []
        · have hhead (hb : w.isBare = true) (s : String) :
              (Decl.tokensList ws ++ close).head? ≠ some (.ident s) := by
            rw [hbare hb]
            exact hclose.head_ne s
          obtain ⟨rfl, rfl⟩ := hd.eq_of_legible hmid hts (by omega) hl hhead
          refine ⟨hbare, hl, ihws (by omega) ?_ (List.append_cancel_left hmodules) hrs⟩
          cases hp : d.configMacros? <;> simpa [hp] using hmacros
        · obtain ⟨hb, hne⟩ := Classical.not_imp.mp hbare
          obtain ⟨as, rfl⟩ := Decl.exists_eq_of_isBare hb
          obtain ⟨w, ws, rfl⟩ := List.exists_cons_of_ne_nil hne
          obtain ⟨s, us, hs⟩ := w.exists_tokens_eq_cons
          obtain ⟨c, hc, hcne⟩ := hd.macros_ne (s := s) hmid (by rw [Decl.tokensList, hs]; rfl)
          rw [List.filterMap_cons_some hc] at hmacros
          exact absurd (List.cons.inj hmacros).1 hcne
      · cases w with
        | regular e f name as ms =>
          obtain ⟨members, rfl, hbody⟩ := hd.of_regular hmid
          obtain ⟨⟨hinfo, hmodules⟩, -⟩ : (_ ∧ _) ∧ _ := by
            simpa only [Module.ofDecls, Decl.module?, Option.toList_some, List.cons_append,
              List.nil_append, List.cons.injEq, Module.mk.injEq] using hmodules
          have hmacros := congrArg ModuleInfo.configMacros hinfo
          have hnms : Decl.nestingList ms + 1 ≤ n := by
            simp only [Decl.nesting] at hn
            omega
          exact absurd (ih hbody (closes_brace _) (closes_brace _) hnms hmacros hmodules) hl
        | requires | header | umbrellaDir | external | inferred | exports | exportAs | use | link |
          configMacros | conflict => exact absurd trivial hl

end Grammar

end ModuleDeps
