import ModuleDeps.Proofs.Grammar.Exactness
import ModuleDeps.Proofs.Grammar.Formation
import ModuleDeps.Proofs.Grammar.Lookahead

/-!
# Where tokens are refused

A rule that asks for something else has taken tokens that could have gone on well: they open the
tokens of some value that it reads. `Refuses V r` says so of the tokens taken, for a property `V` of
what is taken so far, and passes from the parts of a rule to the whole, with the tokens of the parts
in front already put before. At the leaves the value is given.

A module that is taken up to its name still needs a body, so it can only go on well where one more
body may open. No more bodies are open than braces are taken, so the number of braces bounds them.
-/

namespace ModuleDeps

open Token

/-- All that is ever asked for. -/
def Expected.asked : List Expected :=
  [.keyword .header, .keyword .module, .identifier, .stringLiteral, .integerLiteral, .symbol '{',
    .symbol '}', .symbol ']', .symbol '*', .symbol ',']

namespace Grammar

open Rule

variable {α β : Type} {V W : List Token → Prop} {r : Rule α} {ts : List Token}

/-! ### Refusals -/

/-- If the rule refuses `ts`, and not because no more bodies may open, then it asks for one of the
things that are ever asked for, and the tokens that it has taken satisfy `V`. -/
def RefusesAt (V : List Token → Prop) (r : Rule α) (ts : List Token) : Prop :=
  ∀ reason rest, r ts = .error ⟨reason, rest⟩ → reason ≠ .nesting →
    (∃ what ∈ Expected.asked, reason = .expected what) ∧ ∃ pre, ts = pre ++ rest ∧ V pre

/-- Wherever the rule asks for something else, the tokens that it has taken satisfy `V`. -/
def Refuses (V : List Token → Prop) (r : Rule α) : Prop := ∀ ts, RefusesAt V r ts

/-- The rule reads a value from the tokens `y` of it. -/
def Yields (r : Rule α) (y : α → List Token) : Prop :=
  ∀ ts a rest, r ts = .ok (a, rest) → ts = y a ++ rest

/-- The tokens open the tokens `y` of some value. -/
abbrev Opens (y : α → List Token) (xs : List Token) : Prop := ∃ a, xs <+: y a

theorem RefusesAt.mono (h : RefusesAt V r ts) (hVW : ∀ xs, V xs → W xs) : RefusesAt W r ts := by
  intro reason rest hr hne
  obtain ⟨hreason, pre, hpre, hV⟩ := h reason rest hr hne
  exact ⟨hreason, pre, hpre, hVW pre hV⟩

theorem Refuses.mono (h : Refuses V r) (hVW : ∀ xs, V xs → W xs) : Refuses W r :=
  fun ts => (h ts).mono hVW

theorem refusesAt_of_eq_ok {a : α} {rest : List Token} (h : r ts = .ok (a, rest)) :
    RefusesAt V r ts := by
  intro reason rest' hr
  rw [h] at hr
  cases hr

theorem refuses_pure (a : α) : Refuses V (pure a : Rule α) := fun _ => refusesAt_of_eq_ok rfl

theorem refuses_refuse {what : Expected} (hwhat : what ∈ Expected.asked) (h : V []) :
    Refuses V (refuse (.expected what) : Rule α) := by
  rintro ts reason rest ⟨⟩ -
  exact ⟨⟨what, hwhat, rfl⟩, [], rfl, h⟩

/-! ### Sequences and repetitions -/

/-- In a sequence the tokens of the first value stand before those that are taken next. -/
theorem Refuses.bind_of_read {f : α → Rule β} {y : α → List Token} (hy : Yields r y)
    (hr : Refuses V r)
    (hf : ∀ a us rest, r us = .ok (a, rest) → Refuses (fun xs => V (y a ++ xs)) (f a)) :
    Refuses V (r >>= f) := by
  intro ts reason rest h hne
  cases hout : r ts with
  | error fault =>
    rw [bind_of_error hout] at h
    cases h
    exact hr ts reason rest hout hne
  | ok out =>
    obtain ⟨a, mid⟩ := out
    rw [bind_of_ok hout] at h
    obtain ⟨hreason, pre, rfl, hV⟩ := hf a _ _ hout mid reason rest h hne
    refine ⟨hreason, y a ++ pre, ?_, hV⟩
    rw [hy _ _ _ hout, List.append_assoc]

theorem Refuses.bind {f : α → Rule β} {y : α → List Token} (hy : Yields r y) (hr : Refuses V r)
    (hf : ∀ a, Refuses (fun xs => V (y a ++ xs)) (f a)) : Refuses V (r >>= f) :=
  .bind_of_read hy hr fun a _ _ _ => hf a

theorem RefusesAt.peek_bind {f : Token → Rule α} (h : RefusesAt V (f (front ts)) ts) :
    RefusesAt V (peek >>= f) ts := h

theorem RefusesAt.map (f : α → β) (h : RefusesAt V r ts) : RefusesAt V (f <$> r) ts := by
  intro reason rest hr
  refine h reason rest ?_
  rw [map_eq_pure_bind] at hr
  cases hout : r ts with
  | error fault =>
    rw [bind_of_error hout] at hr
    cases hr
    rfl
  | ok out =>
    rw [bind_of_ok hout] at hr
    cases hr

theorem yields_accept (t : Token) : Yields (accept t) t.optional :=
  fun _ _ _ h => (flag_of_accept h).eq_append

theorem refuses_accept (t : Token) : Refuses V (accept t) := by
  intro ts
  cases ts with
  | nil => exact refusesAt_of_eq_ok rfl
  | cons u ts =>
    by_cases hu : u = t
    · exact refusesAt_of_eq_ok (if_pos hu)
    · exact refusesAt_of_eq_ok (if_neg hu)

/-- A token that may be there is taken or not. -/
theorem refuses_accept_bind {t : Token} {f : Bool → Rule β}
    (htrue : Refuses (fun xs => V (t :: xs)) (f true)) (hfalse : Refuses V (f false)) :
    Refuses V (accept t >>= f) := by
  refine .bind (yields_accept t) (refuses_accept t) fun b => ?_
  cases b with
  | true => exact htrue
  | false => exact hfalse

/-- A token that stands there is taken. -/
theorem refusesAt_accept_bind {t : Token} {f : Bool → Rule β}
    (hf : Refuses (fun xs => V (t :: xs)) (f true)) (ts : List Token) :
    RefusesAt V (accept t >>= f) (t :: ts) := by
  intro reason rest h hne
  rw [bind_of_ok (accept_cons t ts)] at h
  obtain ⟨hreason, pre, rfl, hV⟩ := hf ts reason rest h hne
  exact ⟨hreason, t :: pre, rfl, hV⟩

/-- Behind a token that is asked for. -/
theorem refuses_expect_bind {t : Token} {what : Expected} {f : Unit → Rule β}
    (hwhat : what ∈ Expected.asked) (h : V []) (hf : Refuses (fun xs => V (t :: xs)) (f ())) :
    Refuses V (expect t what >>= f) := by
  refine .bind (y := fun _ => [t]) (fun _ _ _ => expect_eq_ok_iff.mp) ?_ fun _ => hf
  exact refuses_accept_bind (refuses_pure _) (refuses_refuse hwhat h)

/-- Behind a keyword that is already seen. -/
theorem refusesAt_keyword_bind {k : Keyword} {f : Unit → Rule β}
    (hf : Refuses (fun xs => V (k.token :: xs)) (f ())) (ts : List Token) :
    RefusesAt V (keyword k >>= f) (k.token :: ts) := by
  intro reason rest h hne
  rw [bind_of_ok (a := ()) (keyword_eq_ok_iff.mpr rfl)] at h
  obtain ⟨hreason, pre, rfl, hV⟩ := hf ts reason rest h hne
  exact ⟨hreason, k.token :: pre, rfl, hV⟩

/-- Where a repetition fails, one more item fails behind those that are found. -/
theorem exists_many_of_manyFrom_eq_error {item : Rule (Option α)} {hp : Progressing item}
    {acc : List α} {fault : Fault} (h : manyFrom item hp acc ts = .error fault) :
    ∃ as mid, Many (fun a ts rest => item ts = .ok (some a, rest)) as ts mid ∧
      item mid = .error fault := by
  fun_induction manyFrom item hp acc ts with
  | case1 acc ts fault' hs =>
    cases h
    exact ⟨[], ts, .nil, hs⟩
  | case2 => cases h
  | case3 acc ts a rest hs ih =>
    obtain ⟨as, mid, hm, hmid⟩ := ih h
    exact ⟨a :: as, mid, .cons hs hm, hmid⟩

theorem refuses_many {item : Rule (Option α)} {hp : Progressing item} {y : α → List Token}
    (hy : ∀ ts a rest, item ts = .ok (some a, rest) → ts = y a ++ rest)
    (hi : ∀ as : List α, Refuses (fun xs => V (as.flatMap y ++ xs)) item) :
    Refuses V (many item hp) := by
  intro ts reason rest h hne
  obtain ⟨as, mid, hm, hmid⟩ := exists_many_of_manyFrom_eq_error h
  obtain ⟨hreason, pre, rfl, hV⟩ := hi as mid reason rest hmid hne
  have hts := hm.eq_append fun a ts rest => hy ts a rest
  exact ⟨hreason, _, by rw [hts, List.append_assoc], hV⟩

/-- Items with a token in front of each. -/
theorem refuses_many_after {t : Token} {item : Rule α} {hp : Progressing (after t item)}
    {y : α → List Token} (hy : Yields item y)
    (hi : ∀ as : List α, Refuses (fun xs => V (as.flatMap (fun a => t :: y a) ++ t :: xs)) item) :
    Refuses V (many (after t item) hp) := by
  refine refuses_many (y := fun a => t :: y a) ?_ fun as =>
    refuses_accept_bind (fun ts => (hi as ts).map some) (refuses_pure none)
  intro ts a rest h
  obtain ⟨h⟩ := after_eq_some_iff.mp h
  rw [hy _ _ _ h, List.cons_append]

theorem yields_many_after {t : Token} {item : Rule α} {hp : Progressing (after t item)}
    {y : α → List Token} (hy : Yields item y) :
    Yields (many (after t item) hp) fun as => as.flatMap fun a => t :: y a := by
  intro ts as rest h
  obtain ⟨mid, hm, hend⟩ := many_eq_ok_iff.mp h
  obtain ⟨rfl, -⟩ := after_eq_none_iff.mp hend
  refine hm.eq_append fun a ts rest h => ?_
  obtain ⟨h⟩ := after_eq_some_iff.mp h
  rw [hy _ _ _ h, List.cons_append]

/-! ### Single tokens -/

theorem yields_identifier : Yields identifier fun s => [.ident s] :=
  fun _ _ _ => identifier_eq_ok_iff.mp

theorem yields_stringLiteral : Yields stringLiteral fun s => [.string s] :=
  fun _ _ _ => stringLiteral_eq_ok_iff.mp

theorem yields_integerLiteral : Yields integerLiteral fun s => [.integer s] :=
  fun _ _ _ => integerLiteral_eq_ok_iff.mp

theorem refuses_identifier (h : V []) : Refuses V identifier := by
  intro ts
  unfold RefusesAt identifier
  split
  · nofun
  · exact refuses_refuse (by decide) h ts

theorem refuses_stringLiteral (h : V []) : Refuses V stringLiteral := by
  intro ts
  unfold RefusesAt stringLiteral
  split
  · nofun
  · exact refuses_refuse (by decide) h ts

theorem refuses_integerLiteral (h : V []) : Refuses V integerLiteral := by
  intro ts
  unfold RefusesAt integerLiteral
  split
  · nofun
  · exact refuses_refuse (by decide) h ts

/-! ### Names and lists -/

theorem yields_dottedName : Yields dottedName DottedName.tokens :=
  fun _ _ _ h => (dottedName_eq_ok_iff.mp h).1.eq_append

theorem refuses_dottedName : Refuses (Opens DottedName.tokens) dottedName := by
  refine .bind yields_identifier (refuses_identifier ⟨⟨"", []⟩, List.nil_prefix⟩) fun s => ?_
  refine .bind (yields_many_after yields_identifier) (refuses_many_after yields_identifier
    fun ss => refuses_identifier ⟨⟨s, ss ++ [""]⟩, [.ident ""], ?_⟩) fun _ => refuses_pure _
  simp [DottedName.tokens]

theorem yields_feature : Yields feature Feature.tokens :=
  fun _ _ _ h => ((feature_iff _ _ _).mp h).eq_append

theorem refuses_feature : Refuses (Opens Feature.tokens) feature := by
  refine refuses_accept_bind ?_ ?_
  · refine .bind yields_identifier (refuses_identifier ⟨⟨"", false⟩, [.ident ""], rfl⟩) fun _ => ?_
    exact refuses_pure _
  · refine .bind yields_identifier (refuses_identifier ⟨⟨"", true⟩, List.nil_prefix⟩) fun _ => ?_
    exact refuses_pure _

theorem yields_attributes : Yields attributes attributeTokens :=
  fun _ _ _ h => (attributes_eq_ok_iff.mp h).1.eq_append

theorem refuses_attributes : Refuses (Opens attributeTokens) attributes := by
  refine refuses_many_after (y := fun s => [.ident s, .punc ']'])
    (fun _ _ _ => attributeName_eq_ok_iff.mp) fun as => ?_
  refine .bind yields_identifier
    (refuses_identifier ⟨as ++ [""], [.ident "", .punc ']'], ?_⟩) fun s => ?_
  · simp [attributeTokens]
  · refine refuses_expect_bind (by decide) ⟨as ++ [s], [.punc ']'], ?_⟩ (refuses_pure _)
    simp [attributeTokens]

theorem refuses_macros : Refuses (Opens macroTokens) macros := by
  intro ts
  refine RefusesAt.peek_bind ?_
  cases front ts with
  | ident =>
    refine Refuses.bind yields_identifier (refuses_identifier ⟨[], List.nil_prefix⟩)
      (fun m => ?_) ts
    refine .bind (yields_many_after yields_identifier) (refuses_many_after yields_identifier
      fun ms => refuses_identifier ⟨m :: (ms ++ [""]), [.ident ""], ?_⟩) fun _ => refuses_pure _
    simp [macroTokens]
  | string | integer | punc | eof | invalid => exact refuses_pure _ ts

theorem yields_exportName : Yields exportName ExportName.tokens :=
  fun _ _ _ h => (exportName_eq_ok_iff.mp h).1.eq_append

theorem refuses_exportPart (h : Refuses (fun xs => V (.punc '.' :: xs)) identifier) :
    Refuses V exportPart := by
  intro ts
  unfold RefusesAt exportPart
  split
  · nofun
  · exact refuses_accept_bind (fun ts => (h ts).map some) (refuses_pure none) ts

theorem refuses_exportName : Refuses (Opens ExportName.tokens) exportName := by
  refine refuses_accept_bind (refuses_pure _) ?_
  refine .bind yields_identifier
    (refuses_identifier ⟨.one ⟨"", []⟩, List.nil_prefix⟩) fun s => ?_
  have hdotted (t : String) (ts rest : List Token) (h : Dotted t ts rest) :
      ts = [.punc '.', .ident t] ++ rest := by
    obtain ⟨⟨⟩⟩ := h
    rfl
  refine .bind (y := fun ss => ss.flatMap fun t => [.punc '.', .ident t])
    (fun ts ss rest hr => (many_exportPart_eq_ok_iff.mp hr).1.eq_append hdotted)
    (refuses_many (fun ts t rest hr => hdotted t ts rest (exportPart_eq_some_iff.mp hr)) fun ss =>
      refuses_exportPart (refuses_identifier ⟨.one ⟨s, ss ++ [""]⟩, [.ident ""], ?_⟩)) fun ss => ?_
  · simp [ExportName.tokens, DottedName.tokens]
  · refine refuses_accept_bind ?_ (refuses_pure _)
    refine refuses_expect_bind (by decide) ⟨.below ⟨s, ss⟩, [.punc '*'], ?_⟩ (refuses_pure _)
    simp [ExportName.tokens, DottedName.tokens]

/-! ### Headers -/

theorem refuses_headerForm : Refuses V headerForm :=
  refuses_accept_bind (refuses_pure _) (refuses_accept_bind (refuses_pure _)
    (.bind (yields_accept _) (refuses_accept _) fun _ =>
      .bind (yields_accept _) (refuses_accept _) fun _ => refuses_pure _))

/-- The tokens of a property that may be left out. -/
def propertyTokens (property : Option HeaderProperty) : List Token :=
  property.elim [] HeaderProperty.tokens

theorem yields_headerProperty? : Yields headerProperty? propertyTokens := by
  intro ts property rest h
  rcases headerAttr_of_headerProperty? h with ⟨rfl, rfl⟩ | ⟨p, rfl, hattr⟩
  · rfl
  · cases hattr with
    | size => rfl
    | mtime => rfl

/-- Where a property opens, its digits are asked for, and no property that is none. -/
theorem refusesAt_headerProperty {k : Keyword} (hk : k = .size ∨ k = .mtime) (ts : List Token) :
    RefusesAt (Opens HeaderProperty.tokens) headerProperty (k.token :: ts) := by
  rcases hk with rfl | rfl
  · refine refusesAt_accept_bind ?_ ts
    exact .bind yields_integerLiteral (refuses_integerLiteral ⟨.size "", [.integer ""], rfl⟩)
      fun _ => refuses_pure _
  · intro reason rest h
    rw [headerProperty, bind_of_ok (accept_of_ne (head_token_ne (by decide) ts)),
      if_neg Bool.false_ne_true] at h
    refine refusesAt_accept_bind ?_ ts reason rest h
    exact .bind yields_integerLiteral (refuses_integerLiteral ⟨.mtime "", [.integer ""], rfl⟩)
      fun _ => refuses_pure _

theorem refuses_headerProperty? : Refuses (Opens propertyTokens) headerProperty? := by
  intro ts
  refine RefusesAt.peek_bind ?_
  cases hk : Keyword.ofToken? (front ts) with
  | none => exact refuses_pure _ ts
  | some k =>
    obtain ⟨ts, rfl⟩ :=
      exists_eq_cons_of_front (keyword_ne_eof k) (Keyword.ofToken?_eq_some_iff.mp hk)
    have hopens (hk : k = .size ∨ k = .mtime) :
        RefusesAt (Opens propertyTokens) (some <$> headerProperty) (k.token :: ts) := by
      refine ((refusesAt_headerProperty hk ts).mono ?_).map some
      rintro xs ⟨property, hxs⟩
      exact ⟨some property, hxs⟩
    cases k with
    | size => exact hopens (.inl rfl)
    | mtime => exact hopens (.inr rfl)
    | configMacros | conflict | exclude | explicit | exports | exportAs | external | framework |
      header | link | module | privately | requires | textual | umbrella | use =>
      exact refuses_pure _ _

theorem braceTokens_some (property : Option HeaderProperty) :
    braceTokens (some property) = .punc '{' :: propertyTokens property ++ [.punc '}'] := by
  cases property <;> rfl

theorem refuses_headerBraces : Refuses (Opens braceTokens) headerBraces := by
  refine refuses_accept_bind (.bind yields_headerProperty? ?_ fun property => ?_) (refuses_pure _)
  · refine refuses_headerProperty?.mono ?_
    rintro xs ⟨property, hxs⟩
    rw [← List.prefix_cons_inj (.punc '{')] at hxs
    exact ⟨some property, braceTokens_some property ▸ hxs.trans (List.prefix_append _ _)⟩
  · refine refuses_expect_bind (by decide) ⟨some property, [.punc '}'], ?_⟩ (refuses_pure _)
    rw [braceTokens_some]
    simp

/-! ### Members other than modules -/

/-- Within `n` bodies, the tokens open a member that can be read back. -/
def OpensMember (n : Nat) (xs : List Token) : Prop :=
  xs.count (.punc '{') < n → ∃ d : Decl, xs <+: d.tokens ∧ d.nesting ≤ n ∧ d.Legible

theorem opensMember_of_prefix {n : Nat} {xs : List Token} (d : Decl) (h : xs <+: d.tokens)
    (hd : d.nesting = 0 ∧ d.Legible) : OpensMember n xs :=
  fun _ => ⟨d, h, hd.1 ▸ Nat.zero_le n, hd.2⟩

theorem refusesAt_requires (n : Nat) (ts : List Token) :
    RefusesAt (OpensMember n) requires (Keyword.requires.token :: ts) := by
  refine refusesAt_keyword_bind (.bind yields_feature ?_ fun f => ?_) ts
  · refine refuses_feature.mono ?_
    rintro xs ⟨f, more, hf⟩
    refine opensMember_of_prefix (.requires f []) ⟨more, ?_⟩ ⟨rfl, trivial⟩
    simp [Decl.tokens, hf]
  · refine .bind (yields_many_after yields_feature) (refuses_many_after yields_feature fun fs =>
      refuses_feature.mono ?_) fun _ => refuses_pure _
    rintro xs ⟨g, more, hg⟩
    refine opensMember_of_prefix (.requires f (fs ++ [g])) ⟨more, ?_⟩ ⟨rfl, trivial⟩
    simp [Decl.tokens, hg]

theorem refuses_header (n : Nat) : Refuses (OpensMember n) header := by
  refine .bind (fun _ _ _ h => (isHeaderForm_of_headerForm h).eq_append) refuses_headerForm
    fun form => ?_
  refine refuses_expect_bind (by decide) ?_ ?_
  · refine opensMember_of_prefix (.header form "" none)
      ⟨[Keyword.header.token, .string ""], ?_⟩ ⟨rfl, trivial⟩
    simp [Decl.tokens, braceTokens]
  · refine .bind yields_stringLiteral (refuses_stringLiteral ?_) fun name => ?_
    · refine opensMember_of_prefix (.header form "" none) ⟨[.string ""], ?_⟩ ⟨rfl, trivial⟩
      simp [Decl.tokens, braceTokens]
    · have hyields : Yields headerBraces braceTokens :=
        fun _ _ _ h => (headerBraces_eq_ok_iff.mp h).1.eq_append
      refine .bind hyields (refuses_headerBraces.mono ?_) fun _ => refuses_pure _
      rintro xs ⟨braces, more, hbraces⟩
      refine opensMember_of_prefix (.header form name braces) ⟨more, ?_⟩ ⟨rfl, trivial⟩
      simp [Decl.tokens, ← hbraces]

theorem refusesAt_umbrellaDir (n : Nat) (ts : List Token) :
    RefusesAt (OpensMember n) umbrellaDir (Keyword.umbrella.token :: ts) := by
  refine refusesAt_keyword_bind (.bind yields_stringLiteral (refuses_stringLiteral ?_)
    fun _ => refuses_pure _) ts
  exact opensMember_of_prefix (.umbrellaDir "") ⟨[.string ""], rfl⟩ ⟨rfl, trivial⟩

theorem refusesAt_exports (n : Nat) (ts : List Token) :
    RefusesAt (OpensMember n) exports (Keyword.exports.token :: ts) := by
  refine refusesAt_keyword_bind (.bind yields_exportName (refuses_exportName.mono ?_)
    fun _ => refuses_pure _) ts
  rintro xs ⟨name, more, hname⟩
  refine opensMember_of_prefix (.exports name) ⟨more, ?_⟩ ⟨rfl, trivial⟩
  simp [Decl.tokens, hname]

theorem refusesAt_exportAs (n : Nat) (ts : List Token) :
    RefusesAt (OpensMember n) exportAs (Keyword.exportAs.token :: ts) := by
  refine refusesAt_keyword_bind (.bind yields_identifier (refuses_identifier ?_)
    fun _ => refuses_pure _) ts
  exact opensMember_of_prefix (.exportAs "") ⟨[.ident ""], rfl⟩ ⟨rfl, trivial⟩

theorem refusesAt_use (n : Nat) (ts : List Token) :
    RefusesAt (OpensMember n) use (Keyword.use.token :: ts) := by
  refine refusesAt_keyword_bind (.bind yields_identifier (refuses_identifier ?_)
    fun _ => refuses_pure _) ts
  exact opensMember_of_prefix (.use "") ⟨[.ident ""], rfl⟩ ⟨rfl, trivial⟩

theorem refusesAt_link (n : Nat) (ts : List Token) :
    RefusesAt (OpensMember n) link (Keyword.link.token :: ts) := by
  refine refusesAt_keyword_bind (.bind (yields_accept _) (refuses_accept _) fun isFramework =>
    .bind yields_stringLiteral (refuses_stringLiteral ?_) fun _ => refuses_pure _) ts
  refine opensMember_of_prefix (.link isFramework "") ⟨[.string ""], ?_⟩ ⟨rfl, trivial⟩
  simp [Decl.tokens]

theorem refusesAt_configMacros (n : Nat) (ts : List Token) :
    RefusesAt (OpensMember n) configMacros (Keyword.configMacros.token :: ts) := by
  refine refusesAt_keyword_bind
    (.bind yields_attributes (refuses_attributes.mono ?_) fun as => ?_) ts
  · rintro xs ⟨as, more, has⟩
    refine opensMember_of_prefix (.configMacros as []) ⟨more, ?_⟩ ⟨rfl, trivial⟩
    simp [Decl.tokens, macroTokens, has]
  · have hyields : Yields macros macroTokens :=
      fun _ _ _ h => (macros_eq_ok_iff.mp h).1.eq_append
    refine .bind hyields (refuses_macros.mono ?_) fun _ => refuses_pure _
    rintro xs ⟨ms, more, hms⟩
    refine opensMember_of_prefix (.configMacros as ms) ⟨more, ?_⟩ ⟨rfl, trivial⟩
    simp [Decl.tokens, hms]

theorem refusesAt_conflict (n : Nat) (ts : List Token) :
    RefusesAt (OpensMember n) conflict (Keyword.conflict.token :: ts) := by
  refine refusesAt_keyword_bind (.bind yields_dottedName (refuses_dottedName.mono ?_)
    fun name => refuses_expect_bind (by decide) ?_ (.bind yields_stringLiteral
      (refuses_stringLiteral ?_) fun _ => refuses_pure _)) ts
  · rintro xs ⟨name, more, hname⟩
    refine opensMember_of_prefix (.conflict name "") ⟨more ++ [.punc ',', .string ""], ?_⟩
      ⟨rfl, trivial⟩
    simp [Decl.tokens, ← hname]
  · refine opensMember_of_prefix (.conflict name "") ⟨[.punc ',', .string ""], ?_⟩ ⟨rfl, trivial⟩
    simp [Decl.tokens]
  · refine opensMember_of_prefix (.conflict name "") ⟨[.string ""], ?_⟩ ⟨rfl, trivial⟩
    simp [Decl.tokens]

/-! ### Modules -/

/-- Within `n` bodies, the tokens open a module that can stand outside of all others and can be read
back. -/
def OpensModule (n : Nat) (xs : List Token) : Prop :=
  xs.count (.punc '{') < n →
    ∃ d : Decl, xs <+: d.tokens ∧ d.isTopLevel = true ∧ d.nesting ≤ n ∧ d.Legible

/-- Within `n` bodies, the tokens open a body that can be read back. -/
def OpensBody (n : Nat) (xs : List Token) : Prop :=
  xs.count (.punc '{') + 1 < n →
    ∃ ds, xs <+: Decl.tokensList ds ∧ Decl.nestingList ds + 1 ≤ n ∧ Decl.LegibleList ds

theorem OpensModule.opensMember {n : Nat} {xs : List Token} (h : OpensModule n xs) :
    OpensMember n xs := by
  intro hcount
  obtain ⟨d, hxs, -, hd⟩ := h hcount
  exact ⟨d, hxs, hd⟩

/-- A module without members can be read back where one more body may open. -/
theorem opensModule_of_prefix {n : Nat} {xs : List Token} (e f : Bool) (name : DottedName)
    (as : List String) (h : xs <+: (Decl.regular e f name as []).tokens) : OpensModule n xs := by
  intro hcount
  have hn : (Decl.regular e f name as []).nesting ≤ n := by
    simp only [Decl.nesting, Decl.nestingList]
    omega
  exact ⟨_, h, rfl, hn, trivial⟩

/-- The members of a body are derived as they are read, whatever follows them. -/
theorem body_of_read {n : Nat} {ds : List Decl} {ts rest : List Token}
    (h : Rule.body n ts = .ok (ds, rest)) : Body n ds ts rest := by
  cases n with
  | zero => cases h
  | succ n =>
    obtain ⟨mid, hm, hend⟩ := many_eq_ok_iff.mp h
    obtain rfl := eq_of_member_eq_none hend
    exact hm.mono fun _ _ _ => moduleMember_of_member (readsBody n)

theorem yields_moduleHead : Yields moduleHead fun head => headTokens head.1 head.2 :=
  fun _ _ _ h => (moduleHead_iff.mp h).eq_append

theorem refuses_moduleHead : Refuses (fun xs => ∃ e f, xs <+: headTokens e f) moduleHead := by
  refine .bind (yields_accept _) (refuses_accept _) fun e => ?_
  refine .bind (yields_accept _) (refuses_accept _) fun f => ?_
  refine refuses_expect_bind (by decide) ⟨e, f, [Keyword.module.token], ?_⟩ (refuses_pure _)
  simp [headTokens]

theorem opensModule_of_head {n : Nat} {xs : List Token} (h : ∃ e f, xs <+: headTokens e f) :
    OpensModule n xs := by
  obtain ⟨e, f, more, hxs⟩ := h
  refine opensModule_of_prefix e f ⟨"", []⟩ [] ⟨more ++ [.ident "", .punc '{', .punc '}'], ?_⟩
  simp [Decl.tokens, Decl.tokensList, DottedName.tokens, attributeTokens, ← hxs]

theorem refuses_regular {n : Nat} (hbody : Refuses (OpensBody n) (Rule.body n)) (e f : Bool) :
    Refuses (fun xs => OpensModule n (headTokens e f ++ xs)) (regular (Rule.body n) e f) := by
  refine .bind yields_dottedName (refuses_dottedName.mono ?_) fun name => ?_
  · rintro xs ⟨name, more, hname⟩
    refine opensModule_of_prefix e f name [] ⟨more ++ [.punc '{', .punc '}'], ?_⟩
    simp [Decl.tokens, Decl.tokensList, attributeTokens, ← hname]
  refine .bind yields_attributes (refuses_attributes.mono ?_) fun as => ?_
  · rintro xs ⟨as, more, has⟩
    refine opensModule_of_prefix e f name as ⟨more ++ [.punc '{', .punc '}'], ?_⟩
    simp [Decl.tokens, Decl.tokensList, ← has]
  refine refuses_expect_bind (by decide) ?_ ?_
  · refine opensModule_of_prefix e f name as ⟨[.punc '{', .punc '}'], ?_⟩
    simp [Decl.tokens, Decl.tokensList]
  have hyields : Yields (Rule.body n) Decl.tokensList := fun _ _ _ h => (body_of_read h).eq_append
  refine .bind_of_read hyields (hbody.mono ?_) fun ds _ _ hread => ?_
  · intro xs hxs hcount
    simp only [List.count_append, List.count_cons_self] at hcount
    obtain ⟨ds, ⟨more, hds⟩, hn, hl⟩ := hxs (by omega)
    refine ⟨.regular e f name as ds, ⟨more ++ [.punc '}'], ?_⟩, rfl, hn, hl⟩
    simp [Decl.tokens, ← hds]
  · obtain ⟨hn, hl⟩ := (body_of_read hread).formed
    refine refuses_expect_bind (by decide) ?_ (refuses_pure _)
    refine fun _ => ⟨.regular e f name as ds, ⟨[.punc '}'], ?_⟩, rfl, hn, hl⟩
    simp [Decl.tokens]

theorem refuses_inferred (n : Nat) (e f : Bool) :
    Refuses (fun xs => OpensMember n (headTokens e f ++ .punc '*' :: xs)) (inferred e f) := by
  refine .bind yields_attributes (refuses_attributes.mono ?_) fun as => ?_
  · rintro xs ⟨as, more, has⟩
    refine opensMember_of_prefix (.inferred e f as 0) ⟨more ++ [.punc '{', .punc '}'], ?_⟩
      ⟨rfl, trivial⟩
    simp [Decl.tokens, ← has]
  refine refuses_expect_bind (by decide) ?_ ?_
  · refine opensMember_of_prefix (.inferred e f as 0) ⟨[.punc '{', .punc '}'], ?_⟩ ⟨rfl, trivial⟩
    simp [Decl.tokens]
  have hyields : Yields (symbol '*') fun _ => [.punc '*'] := fun _ _ _ => symbol_eq_ok_iff.mp
  have hunits (us : List Unit) : us = List.replicate us.length () :=
    List.eq_replicate_of_mem fun _ _ => rfl
  refine .bind (yields_many_after hyields) (refuses_many_after hyields fun us => ?_) fun us => ?_
  · refine refuses_accept_bind (refuses_pure _) (refuses_refuse (by decide) ?_)
    refine opensMember_of_prefix (.inferred e f as (us.length + 1))
      ⟨[.punc '*', .punc '}'], ?_⟩ ⟨rfl, trivial⟩
    rw [hunits us]
    simp [Decl.tokens, List.replicate_succ']
  · refine refuses_expect_bind (by decide) ?_ (refuses_pure _)
    refine opensMember_of_prefix (.inferred e f as us.length) ⟨[.punc '}'], ?_⟩ ⟨rfl, trivial⟩
    rw [hunits us]
    simp [Decl.tokens]

theorem refuses_topLevel {n : Nat} (hbody : Refuses (OpensBody n) (Rule.body n)) :
    Refuses (OpensModule n) (topLevel (Rule.body n)) :=
  .bind yields_moduleHead (refuses_moduleHead.mono fun _ => opensModule_of_head) fun _ =>
    refuses_regular hbody _ _

theorem refuses_submodule {n : Nat} (hbody : Refuses (OpensBody n) (Rule.body n)) :
    Refuses (OpensMember n) (submodule (Rule.body n)) := by
  refine .bind yields_moduleHead
    (refuses_moduleHead.mono fun _ h => (opensModule_of_head h).opensMember) fun head => ?_
  exact refuses_accept_bind (refuses_inferred n head.1 head.2)
    ((refuses_regular hbody head.1 head.2).mono fun _ => OpensModule.opensMember)

theorem refusesAt_external (n : Nat) (ts : List Token) :
    RefusesAt (OpensModule n) external (Keyword.external.token :: ts) := by
  have hopens {xs : List Token} (name : DottedName) (file : String)
      (h : xs <+: (Decl.external name file).tokens) : OpensModule n xs :=
    fun _ => ⟨_, h, rfl, Nat.zero_le n, trivial⟩
  refine refusesAt_keyword_bind (refuses_expect_bind (by decide) ?_
    (.bind yields_dottedName (refuses_dottedName.mono ?_) fun name =>
      .bind yields_stringLiteral (refuses_stringLiteral ?_) fun _ => refuses_pure _)) ts
  · exact hopens ⟨"", []⟩ "" ⟨[Keyword.module.token, .ident "", .string ""], rfl⟩
  · rintro xs ⟨name, more, hname⟩
    refine hopens name "" ⟨more ++ [.string ""], ?_⟩
    simp [Decl.tokens, ← hname]
  · refine hopens name "" ⟨[.string ""], ?_⟩
    simp [Decl.tokens]

/-! ### Members and declarations -/

theorem refusesAt_moduleDeclaration {n : Nat} (hbody : Refuses (OpensBody n) (Rule.body n))
    {k : Keyword} (hk : k = .explicit ∨ k = .framework ∨ k = .module ∨ k = .external)
    (ts : List Token) :
    RefusesAt (OpensModule n) (moduleDeclaration (Rule.body n)) (k.token :: ts) := by
  intro reason rest h
  rw [moduleDeclaration_of_ofToken? (Keyword.ofToken?_eq_some_iff.mpr rfl)] at h
  split at h
  · subst k
    exact refusesAt_external n ts reason rest h
  · rw [if_pos (by tauto)] at h
    exact refuses_topLevel hbody _ reason rest h

theorem refusesAt_submoduleDeclaration {n : Nat} (hbody : Refuses (OpensBody n) (Rule.body n))
    (k : Keyword) (ts : List Token) :
    RefusesAt (OpensMember n) (submoduleDeclaration (Rule.body n)) (k.token :: ts) := by
  intro reason rest h
  rw [submoduleDeclaration_of_ofToken? (Keyword.ofToken?_eq_some_iff.mpr rfl)] at h
  split at h
  · subst k
    exact (refusesAt_external n ts).mono (fun _ => OpensModule.opensMember) reason rest h
  · exact refuses_submodule hbody _ reason rest h

theorem refusesAt_umbrella (n : Nat) (ts : List Token) :
    RefusesAt (OpensMember n) umbrella (Keyword.umbrella.token :: ts) := by
  intro reason rest h
  unfold umbrella at h
  split at h
  · exact (refusesAt_umbrellaDir n ts).map some reason rest h
  · split at h
    · exact (refuses_header n _).map some reason rest h
    · cases h
  · cases h

theorem refuses_member {n : Nat} (hbody : Refuses (OpensBody n) (Rule.body n)) :
    Refuses (OpensMember n) (member (Rule.body n)) := by
  intro ts
  refine RefusesAt.peek_bind ?_
  cases hk : Keyword.ofToken? (front ts) with
  | none => exact refuses_pure _ ts
  | some k =>
    obtain ⟨ts, rfl⟩ :=
      exists_eq_cons_of_front (keyword_ne_eof k) (Keyword.ofToken?_eq_some_iff.mp hk)
    cases k with
    | size | mtime => exact refuses_pure _ _
    | umbrella => exact refusesAt_umbrella n ts
    | requires => exact (refusesAt_requires n ts).map some
    | header | exclude | privately | textual => exact (refuses_header n _).map some
    | explicit | framework | module | external =>
      exact (refusesAt_submoduleDeclaration hbody _ ts).map some
    | exports => exact (refusesAt_exports n ts).map some
    | exportAs => exact (refusesAt_exportAs n ts).map some
    | use => exact (refusesAt_use n ts).map some
    | link => exact (refusesAt_link n ts).map some
    | configMacros => exact (refusesAt_configMacros n ts).map some
    | conflict => exact (refusesAt_conflict n ts).map some

theorem refuses_declaration {n : Nat} (hbody : Refuses (OpensBody n) (Rule.body n)) :
    Refuses (OpensModule n) (declaration (Rule.body n)) := by
  intro ts
  refine RefusesAt.peek_bind ?_
  cases hk : Keyword.ofToken? (front ts) with
  | none => exact refuses_pure _ ts
  | some k =>
    obtain ⟨ts, rfl⟩ :=
      exists_eq_cons_of_front (keyword_ne_eof k) (Keyword.ofToken?_eq_some_iff.mp hk)
    cases k with
    | explicit | framework | module | external =>
      exact (refusesAt_moduleDeclaration hbody (by decide) ts).map some
    | size | mtime | umbrella | header | exclude | privately | textual | requires | exports |
      exportAs | use | link | configMacros | conflict => exact refuses_pure _ _

end Grammar

end ModuleDeps
