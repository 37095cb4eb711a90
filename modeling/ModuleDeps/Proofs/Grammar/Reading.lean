import Mathlib.Data.List.Basic
import ModuleDeps.Proofs.Grammar.Derivation

/-!
# What rules read

For each rule the phrase that it reads. The rules are greedy and the phrases are not, so where a
phrase may end early a rule reads it only if the tokens that follow do not continue it; `Ends` is
what the end of a member allows, and each phrase inside of a member is followed by a token that does
not continue it.
-/

namespace ModuleDeps.Grammar

open Rule

variable {α β : Type}

/-! ### Single tokens -/

theorem accept_eq_ok_iff {t : Token} {b : Bool} {ts rest : List Token} :
    accept t ts = .ok (b, rest) ↔ Flag t b ts rest ∧ (b = false → ts.head? ≠ some t) := by
  constructor
  · intro h
    cases ts with
    | nil =>
      obtain ⟨rfl, rfl⟩ : false = b ∧ [] = rest := by simpa [accept] using h
      exact ⟨.absent, by simp⟩
    | cons u ts =>
      by_cases hu : u = t
      · obtain ⟨rfl, rfl⟩ : true = b ∧ ts = rest := by simpa [accept, hu] using h
        exact ⟨hu ▸ .present, nofun⟩
      · obtain ⟨rfl, rfl⟩ : false = b ∧ u :: ts = rest := by simpa [accept, hu] using h
        exact ⟨.absent, by simpa using hu⟩
  · rintro ⟨h, hne⟩
    cases h with
    | present => simp [accept]
    | absent =>
      cases ts with
      | nil => rfl
      | cons u ts => simpa [accept] using hne rfl

theorem token_inj {j k : Keyword} : j.token = k.token ↔ j = k := by
  constructor
  · intro h
    have hj := Keyword.ofToken?_eq_some_iff.mpr h
    rw [Keyword.ofToken?_eq_some_iff.mpr rfl] at hj
    exact Option.some.inj hj
  · rintro rfl
    rfl

theorem head_token_ne {j k : Keyword} (h : j ≠ k) (ts : List Token) :
    (j.token :: ts).head? ≠ some k.token := by
  rw [List.head?_cons, Ne, Option.some.injEq, token_inj]
  exact h

theorem Flag.head_ne {j k : Keyword} {b : Bool} {ts rest : List Token} (h : Flag j.token b ts rest)
    (hj : j ≠ k) (hrest : rest.head? ≠ some k.token) : ts.head? ≠ some k.token := by
  cases h with
  | absent => exact hrest
  | present => exact head_token_ne hj rest

theorem accept_cons (t : Token) (ts : List Token) : accept t (t :: ts) = .ok (true, ts) := by
  simp [accept]

theorem accept_of_ne {t : Token} {ts : List Token} (h : ts.head? ≠ some t) :
    accept t ts = .ok (false, ts) :=
  accept_eq_ok_iff.mpr ⟨.absent, fun _ => h⟩

theorem accept_of_flag {t : Token} {b : Bool} {ts rest : List Token} (h : Flag t b ts rest)
    (hne : rest.head? ≠ some t) : accept t ts = .ok (b, rest) := by
  cases h with
  | absent => exact accept_of_ne hne
  | present => exact accept_cons t rest

theorem bind_of_ok {r : Rule α} {f : α → Rule β} {ts mid : List Token} {a : α}
    (h : r ts = .ok (a, mid)) :
    (r >>= f) ts = f a mid := by
  change StateT.bind r f ts = _
  rw [StateT.bind]
  simp only [h]
  rfl

theorem bind_of_error {r : Rule α} {f : α → Rule β} {ts : List Token} {fault : Fault}
    (h : r ts = .error fault) : (r >>= f) ts = .error fault := by
  change StateT.bind r f ts = _
  rw [StateT.bind]
  simp only [h]
  rfl

/-- A rule that asks for a token first goes on behind it, or where it is if the token is not
there. -/
theorem accept_bind_eq_ok_iff {t : Token} {f : Bool → Rule α} {a : α} {ts rest : List Token} :
    (accept t >>= f) ts = .ok (a, rest) ↔
      (∃ ts', ts = t :: ts' ∧ f true ts' = .ok (a, rest)) ∨
      (ts.head? ≠ some t ∧ f false ts = .ok (a, rest)) := by
  constructor
  · intro h
    obtain ⟨b, mid, hb, hf⟩ := bind_eq_ok_iff.mp h
    obtain ⟨hflag, hne⟩ := accept_eq_ok_iff.mp hb
    cases hflag with
    | absent => exact .inr ⟨hne rfl, hf⟩
    | present => exact .inl ⟨mid, rfl, hf⟩
  · rintro (⟨ts', rfl, hf⟩ | ⟨hne, hf⟩)
    · rw [bind_of_ok (accept_cons t ts'), hf]
    · rw [bind_of_ok (accept_of_ne hne), hf]

theorem expect_eq_ok_iff {t : Token} {what : Expected} {u : Unit} {ts rest : List Token} :
    expect t what ts = .ok (u, rest) ↔ ts = t :: rest := by
  unfold expect
  rw [accept_bind_eq_ok_iff]
  constructor
  · rintro (⟨ts', rfl, h⟩ | ⟨-, h⟩)
    · rw [(pure_eq_ok_iff.mp h).2]
    · cases h
  · rintro rfl
    exact .inl ⟨rest, rfl, rfl⟩

theorem keyword_eq_ok_iff {k : Keyword} {u : Unit} {ts rest : List Token} :
    keyword k ts = .ok (u, rest) ↔ ts = k.token :: rest := expect_eq_ok_iff

theorem symbol_eq_ok_iff {c : Char} {u : Unit} {ts rest : List Token} :
    symbol c ts = .ok (u, rest) ↔ ts = .punc c :: rest := expect_eq_ok_iff

theorem identifier_eq_ok_iff {s : String} {ts rest : List Token} :
    identifier ts = .ok (s, rest) ↔ ts = .ident s :: rest := by
  unfold identifier
  split <;> simp_all [refuse]

theorem stringLiteral_eq_ok_iff {s : String} {ts rest : List Token} :
    stringLiteral ts = .ok (s, rest) ↔ ts = .string s :: rest := by
  unfold stringLiteral
  split <;> simp_all [refuse]

theorem integerLiteral_eq_ok_iff {s : String} {ts rest : List Token} :
    integerLiteral ts = .ok (s, rest) ↔ ts = .integer s :: rest := by
  unfold integerLiteral
  split <;> simp_all [refuse]

theorem map_eq_ok_iff {r : Rule α} {f : α → β} {b : β} {ts rest : List Token} :
    (f <$> r) ts = .ok (b, rest) ↔ ∃ a, r ts = .ok (a, rest) ∧ f a = b := by
  rw [map_eq_pure_bind, bind_eq_ok_iff]
  constructor
  · rintro ⟨a, mid, ha, h⟩
    obtain ⟨rfl, rfl⟩ := pure_eq_ok_iff.mp h
    exact ⟨a, ha, rfl⟩
  · rintro ⟨a, ha, rfl⟩
    exact ⟨a, rest, ha, rfl⟩

theorem some_map_eq_ok_iff {r : Rule α} {a : α} {ts rest : List Token} :
    (some <$> r) ts = .ok (some a, rest) ↔ r ts = .ok (a, rest) := by
  rw [map_eq_ok_iff]
  constructor
  · rintro ⟨a', ha, ⟨⟩⟩
    exact ha
  · intro ha
    exact ⟨a, ha, rfl⟩

theorem peek_bind (f : Token → Rule α) (ts : List Token) :
    (peek >>= f) ts = f (Token.front ts) ts := rfl

/-! ### Repetition -/

theorem Many.mono {p q : Phrase α} (h : ∀ a ts rest, p a ts rest → q a ts rest) {as : List α}
    {ts rest : List Token} (hm : Many p as ts rest) : Many q as ts rest := by
  induction hm with
  | nil => exact .nil
  | cons ha _ ih => exact .cons (h _ _ _ ha) ih

theorem manyFrom_eq_ok_iff {item : Rule (Option α)} {hp : Progressing item} {acc as : List α}
    {ts rest : List Token} :
    manyFrom item hp acc ts = .ok (as, rest) ↔ ∃ bs mid, as = acc.reverse ++ bs ∧
      Many (fun a ts rest => item ts = .ok (some a, rest)) bs ts mid ∧
        item mid = .ok (none, rest) := by
  fun_induction manyFrom item hp acc ts with
  | case1 acc ts e hs =>
    constructor
    · intro h
      cases h
    · rintro ⟨bs, mid, -, hm, hend⟩
      cases hm with
      | nil => rw [hs] at hend; cases hend
      | cons ha _ => rw [hs] at ha; cases ha
  | case2 acc ts r hs =>
    constructor
    · intro h
      obtain ⟨rfl, rfl⟩ : acc.reverse = as ∧ r = rest := by simpa using h
      exact ⟨[], ts, (List.append_nil _).symm, .nil, hs⟩
    · rintro ⟨bs, mid, rfl, hm, hend⟩
      cases hm with
      | nil =>
        rw [hs] at hend
        cases hend
        rw [List.append_nil]
      | cons ha _ => rw [hs] at ha; cases ha
  | case3 acc ts a r hs ih =>
    rw [ih]
    constructor
    · rintro ⟨bs, mid, rfl, hm, hend⟩
      exact ⟨a :: bs, mid, by simp, .cons hs hm, hend⟩
    · rintro ⟨bs, mid, rfl, hm, hend⟩
      cases hm with
      | nil => rw [hs] at hend; cases hend
      | cons ha hm =>
        rw [hs] at ha
        cases ha
        exact ⟨_, mid, by simp, hm, hend⟩

/-- A repetition reads items up to the first place where there is none. -/
theorem many_eq_ok_iff {item : Rule (Option α)} {hp : Progressing item} {as : List α}
    {ts rest : List Token} :
    many item hp ts = .ok (as, rest) ↔
      ∃ mid, Many (fun a ts rest => item ts = .ok (some a, rest)) as ts mid ∧
        item mid = .ok (none, rest) := by
  unfold many
  rw [manyFrom_eq_ok_iff]
  simp

theorem after_eq_some_iff {t : Token} {item : Rule α} {a : α} {ts rest : List Token} :
    after t item ts = .ok (some a, rest) ↔
      Behind t (fun a ts rest => item ts = .ok (a, rest)) a ts rest := by
  unfold after
  rw [accept_bind_eq_ok_iff]
  constructor
  · rintro (⟨ts', rfl, h⟩ | ⟨-, h⟩)
    · exact .mk (some_map_eq_ok_iff.mp h)
    · exact nomatch (pure_eq_ok_iff.mp h).1
  · rintro ⟨ha⟩
    exact .inl ⟨_, rfl, some_map_eq_ok_iff.mpr ha⟩

theorem after_eq_none_iff {t : Token} {item : Rule α} {ts rest : List Token} :
    after t item ts = .ok (none, rest) ↔ rest = ts ∧ ts.head? ≠ some t := by
  unfold after
  rw [accept_bind_eq_ok_iff]
  constructor
  · rintro (⟨ts', rfl, h⟩ | ⟨hne, h⟩)
    · obtain ⟨a', -, heq⟩ := map_eq_ok_iff.mp h
      cases heq
    · exact ⟨(pure_eq_ok_iff.mp h).2.symm, hne⟩
  · rintro ⟨rfl, hne⟩
    exact .inr ⟨hne, rfl⟩

/-- Items with a token in front of each are read up to a place where this token is missing. -/
theorem many_after_eq_ok_iff {t : Token} {item : Rule α} {p : Phrase α}
    (h : ∀ a ts rest, item ts = .ok (a, rest) ↔ p a ts rest) {hp : Progressing (after t item)}
    {as : List α} {ts rest : List Token} :
    many (after t item) hp ts = .ok (as, rest) ↔ Many (Behind t p) as ts rest ∧
      rest.head? ≠ some t := by
  obtain rfl : (fun a ts rest => item ts = .ok (a, rest)) = p := by
    funext a ts rest
    exact propext (h a ts rest)
  rw [many_eq_ok_iff]
  constructor
  · rintro ⟨mid, hm, hend⟩
    obtain ⟨rfl, hne⟩ := after_eq_none_iff.mp hend
    exact ⟨hm.mono fun _ _ _ => after_eq_some_iff.mp, hne⟩
  · rintro ⟨hm, hne⟩
    exact ⟨rest, hm.mono fun _ _ _ => after_eq_some_iff.mpr, after_eq_none_iff.mpr ⟨rfl, hne⟩⟩

/-- A list with separators is read up to a place where there is no separator. -/
theorem separated_eq_ok_iff {t : Token} {item : Rule α} {p : Phrase α}
    (h : ∀ a ts rest, item ts = .ok (a, rest) ↔ p a ts rest) {hp : Progressing (after t item)}
    {f : α → List α → β} {b : β} {ts rest : List Token} :
    (do let a ← item; let as ← many (after t item) hp; pure (f a as) : Rule β) ts = .ok (b, rest) ↔
      ∃ a as, f a as = b ∧ Separated t p (a :: as) ts rest ∧ rest.head? ≠ some t := by
  rw [bind_eq_ok_iff]
  constructor
  · rintro ⟨a, mid, ha, hrest⟩
    obtain ⟨as, mid', has, hpure⟩ := bind_eq_ok_iff.mp hrest
    obtain ⟨rfl, rfl⟩ := pure_eq_ok_iff.mp hpure
    obtain ⟨hmany, hne⟩ := (many_after_eq_ok_iff h).mp has
    exact ⟨a, as, rfl, .mk ((h _ _ _).mp ha) hmany, hne⟩
  · rintro ⟨a, as, rfl, ⟨ha, hmany⟩, hne⟩
    exact ⟨a, _, (h _ _ _).mpr ha,
      bind_eq_ok_iff.mpr ⟨as, _, (many_after_eq_ok_iff h).mpr ⟨hmany, hne⟩, rfl⟩⟩

/-! ### Names and lists -/

theorem identifier_iff (s : String) (ts rest : List Token) :
    identifier ts = .ok (s, rest) ↔ Identifier s ts rest := by
  rw [identifier_eq_ok_iff]
  constructor
  · rintro rfl
    exact .mk
  · rintro ⟨⟩
    rfl

theorem dottedName_eq_ok_iff {n : DottedName} {ts rest : List Token} :
    dottedName ts = .ok (n, rest) ↔ ModuleId n ts rest ∧ rest.head? ≠ some (.punc '.') := by
  unfold dottedName
  rw [separated_eq_ok_iff identifier_iff]
  constructor
  · rintro ⟨s, ss, rfl, hs, hne⟩
    exact ⟨.mk hs, hne⟩
  · rintro ⟨⟨hs⟩, hne⟩
    exact ⟨_, _, rfl, hs, hne⟩

theorem feature_iff (f : Feature) (ts rest : List Token) :
    feature ts = .ok (f, rest) ↔ IsFeature f ts rest := by
  unfold feature
  rw [accept_bind_eq_ok_iff]
  constructor
  · rintro (⟨ts', rfl, h⟩ | ⟨-, h⟩)
    · obtain ⟨s, mid, hs, hpure⟩ := bind_eq_ok_iff.mp h
      obtain ⟨rfl, rfl⟩ := pure_eq_ok_iff.mp hpure
      obtain rfl := identifier_eq_ok_iff.mp hs
      exact .negative
    · obtain ⟨s, mid, hs, hpure⟩ := bind_eq_ok_iff.mp h
      obtain ⟨rfl, rfl⟩ := pure_eq_ok_iff.mp hpure
      obtain rfl := identifier_eq_ok_iff.mp hs
      exact .positive
  · intro h
    cases h with
    | positive => exact .inr ⟨by simp, rfl⟩
    | negative => exact .inl ⟨_, rfl, rfl⟩

theorem attributeName_eq_ok_iff {s : String} {ts rest : List Token} :
    attributeName ts = .ok (s, rest) ↔ ts = .ident s :: .punc ']' :: rest := by
  unfold attributeName
  rw [bind_eq_ok_iff]
  constructor
  · rintro ⟨s', mid, hs, h⟩
    obtain ⟨u, mid', hu, hpure⟩ := bind_eq_ok_iff.mp h
    obtain ⟨rfl, rfl⟩ := pure_eq_ok_iff.mp hpure
    rw [identifier_eq_ok_iff.mp hs, symbol_eq_ok_iff.mp hu]
  · rintro rfl
    exact ⟨s, _, rfl, bind_eq_ok_iff.mpr ⟨(), rest, symbol_eq_ok_iff.mpr rfl, rfl⟩⟩

theorem attributes_eq_ok_iff {as : List String} {ts rest : List Token} :
    attributes ts = .ok (as, rest) ↔ Attributes as ts rest ∧ rest.head? ≠ some (.punc '[') := by
  unfold attributes
  rw [many_after_eq_ok_iff fun _ _ _ => attributeName_eq_ok_iff]
  refine and_congr_left fun _ => ⟨fun h => h.mono ?_, fun h => h.mono ?_⟩
  · rintro s ts rest ⟨rfl⟩
    exact .mk
  · rintro s ts rest ⟨⟩
    exact .mk rfl

theorem macros_of_head_ne {ts : List Token} (h : ∀ s, ts.head? ≠ some (.ident s)) :
    macros ts = .ok ([], ts) := by
  unfold macros
  rw [peek_bind]
  cases ts with
  | nil => rfl
  | cons t ts =>
    cases t with
    | ident s => exact absurd rfl (h s)
    | string | integer | punc | eof | invalid => rfl

theorem macros_eq_ok_iff {ms : List String} {ts rest : List Token} :
    macros ts = .ok (ms, rest) ↔ MacroList ms ts rest ∧
      (ms ≠ [] → rest.head? ≠ some (.punc ',')) := by
  by_cases hhead : ∀ s, ts.head? ≠ some (.ident s)
  · rw [macros_of_head_ne hhead]
    constructor
    · rintro ⟨⟩
      exact ⟨.absent hhead, fun h => absurd rfl h⟩
    · rintro ⟨h, -⟩
      cases h with
      | absent => rfl
      | present hs =>
        obtain ⟨⟨⟩, -⟩ := hs
        exact absurd rfl (hhead _)
  · obtain ⟨s, hs⟩ := not_forall_not.mp hhead
    obtain ⟨ts', rfl⟩ := List.head?_eq_some_iff.mp hs
    unfold macros
    rw [peek_bind]
    simp only [Token.front, List.headD_cons]
    rw [separated_eq_ok_iff identifier_iff]
    constructor
    · rintro ⟨a, as, rfl, hs, hne⟩
      exact ⟨.present hs, fun _ => hne⟩
    · rintro ⟨h, hne⟩
      cases h with
      | absent h => exact absurd hs (h s)
      | present h =>
        cases h with
        | mk ha has => exact ⟨_, _, rfl, .mk ha has, hne (by simp)⟩

/-! ### Exported names -/

/-- `'.' identifier`. -/
abbrev Dotted : Phrase String := Behind (.punc '.') Identifier

theorem exportPart_eq_some_iff {s : String} {ts rest : List Token} :
    exportPart ts = .ok (some s, rest) ↔ Dotted s ts rest := by
  unfold exportPart
  split
  · constructor
    · nofun
    · rintro ⟨⟨⟩⟩
  · rw [after_eq_some_iff]
    constructor
    · rintro ⟨h⟩
      exact .mk ((identifier_iff _ _ _).mp h)
    · rintro ⟨h⟩
      exact .mk ((identifier_iff _ _ _).mpr h)

/-- A dotted name ends where no dot follows, or a dot and a star. -/
theorem exportPart_eq_none_iff {ts rest : List Token} :
    exportPart ts = .ok (none, rest) ↔
      rest = ts ∧ (ts.head? ≠ some (.punc '.') ∨ ∃ ts', ts = .punc '.' :: .punc '*' :: ts') := by
  unfold exportPart
  split
  · rename_i ts'
    constructor
    · rintro ⟨⟩
      exact ⟨rfl, .inr ⟨ts', rfl⟩⟩
    · rintro ⟨rfl, -⟩
      rfl
  · rename_i hstar
    rw [after_eq_none_iff]
    refine and_congr_right fun _ => ⟨.inl, ?_⟩
    rintro (h | ⟨ts', rfl⟩)
    · exact h
    · exact absurd rfl (hstar ts')

theorem many_exportPart_eq_ok_iff {ss : List String} {ts rest : List Token} :
    many exportPart progressing_exportPart ts = .ok (ss, rest) ↔ Many Dotted ss ts rest ∧
      (rest.head? ≠ some (.punc '.') ∨ ∃ rest', rest = .punc '.' :: .punc '*' :: rest') := by
  rw [many_eq_ok_iff]
  constructor
  · rintro ⟨mid, hm, hend⟩
    obtain ⟨rfl, hstop⟩ := exportPart_eq_none_iff.mp hend
    exact ⟨hm.mono fun _ _ _ => exportPart_eq_some_iff.mp, hstop⟩
  · rintro ⟨hm, hstop⟩
    exact ⟨rest, hm.mono fun _ _ _ => exportPart_eq_some_iff.mpr,
      exportPart_eq_none_iff.mpr ⟨rfl, hstop⟩⟩

/-- An exported name that is no star: a dotted name, with a dot and a star behind it or not. -/
inductive Exported : Phrase ExportName where
  | one {s : String} {ss : List String} {ts rest : List Token} (h : Many Dotted ss ts rest) :
      Exported (.one ⟨s, ss⟩) (.ident s :: ts) rest
  | below {s : String} {ss : List String} {ts rest : List Token}
      (h : Many Dotted ss ts (.punc '.' :: .punc '*' :: rest)) :
      Exported (.below ⟨s, ss⟩) (.ident s :: ts) rest

theorem Exported.under {name : ExportName} {s : String} {ts rest : List Token}
    (h : Exported name ts rest) :
    Exported (under s name) (.ident s :: .punc '.' :: ts) rest := by
  cases h with
  | one h => exact .one (.cons (.mk .mk) h)
  | below h => exact .below (.cons (.mk .mk) h)

theorem wildcardModuleId_of_many {s : String} {ss : List String} {ts mid : List Token}
    (h : Many Dotted ss ts mid) :
    WildcardModuleId (.one ⟨s, ss⟩) (.ident s :: ts) mid ∧
      ∀ rest, mid = .punc '.' :: .punc '*' :: rest →
        WildcardModuleId (.below ⟨s, ss⟩) (.ident s :: ts) rest := by
  induction h generalizing s with
  | nil =>
    refine ⟨.identifier, ?_⟩
    rintro rest rfl
    exact .under .star
  | cons ha _ ih =>
    obtain ⟨⟨⟩⟩ := ha
    exact ⟨.under ih.1, fun rest hrest => .under (ih.2 rest hrest)⟩

/-- Read from the left, an exported name is a star or a dotted name that may end in one. -/
theorem wildcardModuleId_iff {name : ExportName} {ts rest : List Token} :
    WildcardModuleId name ts rest ↔ name = .all ∧ ts = .punc '*' :: rest ∨
      Exported name ts rest := by
  constructor
  · intro h
    induction h with
    | identifier => exact .inr (.one .nil)
    | star => exact .inl ⟨rfl, rfl⟩
    | under _ ih =>
      rcases ih with ⟨rfl, rfl⟩ | ih
      · exact .inr (.below .nil)
      · exact .inr ih.under
  · rintro (⟨rfl, rfl⟩ | h)
    · exact .star
    · cases h with
      | one h => exact (wildcardModuleId_of_many h).1
      | below h => exact (wildcardModuleId_of_many h).2 _ rfl

theorem exportName_eq_ok_iff {name : ExportName} {ts rest : List Token} :
    exportName ts = .ok (name, rest) ↔
      WildcardModuleId name ts rest ∧ (∀ n, name = .one n → rest.head? ≠ some (.punc '.')) := by
  rw [wildcardModuleId_iff]
  unfold exportName
  rw [accept_bind_eq_ok_iff]
  constructor
  · rintro (⟨ts', rfl, h⟩ | ⟨-, h⟩)
    · obtain ⟨rfl, rfl⟩ := pure_eq_ok_iff.mp h
      exact ⟨.inl ⟨rfl, rfl⟩, nofun⟩
    · obtain ⟨s, mid₁, hs, h₁⟩ := bind_eq_ok_iff.mp h
      obtain ⟨ss, mid₂, hss, h₂⟩ := bind_eq_ok_iff.mp h₁
      obtain rfl := identifier_eq_ok_iff.mp hs
      obtain ⟨hmany, -⟩ := many_exportPart_eq_ok_iff.mp hss
      rcases accept_bind_eq_ok_iff.mp h₂ with ⟨mid₃, rfl, h₃⟩ | ⟨hne, h₃⟩
      · obtain ⟨u, mid₄, hu, h₄⟩ := bind_eq_ok_iff.mp h₃
        obtain rfl := symbol_eq_ok_iff.mp hu
        obtain ⟨rfl, rfl⟩ := pure_eq_ok_iff.mp h₄
        exact ⟨.inr (.below hmany), nofun⟩
      · obtain ⟨rfl, rfl⟩ := pure_eq_ok_iff.mp h₃
        exact ⟨.inr (.one hmany), fun _ _ => hne⟩
  · rintro ⟨⟨rfl, rfl⟩ | h, hne⟩
    · exact .inl ⟨rest, rfl, rfl⟩
    · cases h with
      | one h =>
        refine .inr ⟨by simp, ?_⟩
        rw [if_neg Bool.false_ne_true, bind_of_ok (identifier_eq_ok_iff.mpr rfl),
          bind_of_ok (many_exportPart_eq_ok_iff.mpr ⟨h, .inl (hne _ rfl)⟩),
          bind_of_ok (accept_of_ne (hne _ rfl))]
        rfl
      | below h =>
        refine .inr ⟨by simp, ?_⟩
        rw [if_neg Bool.false_ne_true, bind_of_ok (identifier_eq_ok_iff.mpr rfl),
          bind_of_ok (many_exportPart_eq_ok_iff.mpr ⟨h, .inr ⟨_, rfl⟩⟩),
          bind_of_ok (accept_cons _ _)]
        rfl

end ModuleDeps.Grammar
