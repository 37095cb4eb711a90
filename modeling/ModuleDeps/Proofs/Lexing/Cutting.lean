import ModuleDeps.Proofs.Lexing.Spelling

/-!
# Cuttings of a text

What it means to cut a text into lexemes and gaps, said without the functions that do it: `IsGap`
for the blanks and comments between two lexemes, `LexemeOf` for one lexeme and its token,
`IsCutting` for a whole text. Each of them looks at the characters behind it, as a run of letters is
a lexeme only if no further letter follows, and a line comment without a line feed ends a gap only
at the end of the text. `IsUnclosed` is the one thing that no cutting gets past.

Gaps and lexemes are compared with `skipGap`, `lexeme` and `next?` here, one step of a cutting at a
time; whole texts follow in `ModuleDeps.Proofs.Lexing.Exactness`.
-/

namespace ModuleDeps.Token

/-! ### Gaps, lexemes and cuttings -/

/-- The characters are a gap in front of `rest`. -/
inductive IsGap : List Char → List Char → Prop where
  /-- Nothing. -/
  | nil {rest : List Char} : IsGap [] rest
  /-- A blank. -/
  | blank {c : Char} {g rest : List Char} (hc : isBlank c = true) (h : IsGap g rest) :
      IsGap (c :: g) rest
  /-- A line comment with the line feed that ends it. -/
  | line {body g rest : List Char} (hb : '\n' ∉ body) (h : IsGap g rest) :
      IsGap ('/' :: '/' :: (body ++ '\n' :: g)) rest
  /-- A line comment in the last line of the text. -/
  | lastLine {body : List Char} (hb : '\n' ∉ body) : IsGap ('/' :: '/' :: body) []
  /-- A block comment up to the first `*/` behind its opening. -/
  | block {body g rest : List Char} (hb : ¬ ['*', '/'] <:+: body ++ ['*']) (h : IsGap g rest) :
      IsGap ('/' :: '*' :: (body ++ '*' :: '/' :: g)) rest

/-- A slash that opens no comment in front of `rest`. -/
def IsLoneSlash (rest : List Char) : Prop := ∀ d, rest.head? = some d → d ≠ '/' ∧ d ≠ '*'

/-- `LexemeOf t l rest`: the characters `l`, in front of `rest`, are the lexeme of the token `t`. -/
inductive LexemeOf : Token → List Char → List Char → Prop where
  /-- A run of letters, digits and underscores that no digit starts. -/
  | ident {l rest : List Char} (h : IsWord l)
      (hr : ∀ d, rest.head? = some d → isIdentChar d = false) :
      LexemeOf (.ident (.ofList l)) l rest
  /-- A run of digits. -/
  | integer {l rest : List Char} (h : IsNumber l)
      (hr : ∀ d, rest.head? = some d → d.isDigit = false) :
      LexemeOf (.integer (.ofList l)) l rest
  /-- A string literal; its quotes are no part of the token. -/
  | string {body rest : List Char} (h : isRaw body = true) :
      LexemeOf (.string (.ofList body)) ('"' :: (body ++ ['"'])) rest
  /-- Any other character that is no blank and opens no comment. -/
  | punc {c : Char} {rest : List Char} (h : IsMark c) (hs : c = '/' → IsLoneSlash rest) :
      LexemeOf (.punc c) [c] rest

/-- A lexeme of a text, with the gap in front of it and the token that it is. -/
structure Piece where
  /-- The gap. -/
  gap : List Char
  /-- The lexeme. -/
  lexeme : List Char
  /-- The token. -/
  token : Token

/-- `IsCutting rest ps g cs`: the characters `cs`, in front of `rest`, are the pieces `ps` one after
the other, and the gap `g` behind them. -/
inductive IsCutting (rest : List Char) : List Piece → List Char → List Char → Prop where
  /-- There is no lexeme. -/
  | last {g : List Char} (h : IsGap g rest) : IsCutting rest [] g g
  /-- A gap and a lexeme come first. -/
  | piece {p : Piece} {ps : List Piece} {g cs : List Char}
      (hg : IsGap p.gap (p.lexeme ++ (cs ++ rest))) (hl : LexemeOf p.token p.lexeme (cs ++ rest))
      (h : IsCutting rest ps g cs) : IsCutting rest (p :: ps) g (p.gap ++ (p.lexeme ++ cs))

/-- `IsUnclosed u cs`: the characters `cs` open with a literal or a comment that is not closed, and
`u` says so. -/
inductive IsUnclosed : Unclosed → List Char → Prop where
  /-- A literal without a closing quote. -/
  | string {cs : List Char} (h : ∀ body rest, isRaw body = true → cs ≠ body ++ '"' :: rest) :
      IsUnclosed (.string ('"' :: cs)) ('"' :: cs)
  /-- A block comment without `*/`. -/
  | blockComment {cs : List Char} (h : ¬ ['*', '/'] <:+: cs) :
      IsUnclosed (.blockComment ('/' :: '*' :: cs)) ('/' :: '*' :: cs)

/-! ### The end of a comment -/

theorem afterLine_append {body : List Char} (hb : '\n' ∉ body) (rest : List Char) :
    afterLine (body ++ '\n' :: rest) = rest := by
  have hne : ∀ c ∈ body, (c != '\n') = true := fun c hc => by
    simpa using ne_of_mem_of_not_mem hc hb
  unfold afterLine
  rw [List.dropWhile_append_of_pos hne]
  rfl

theorem afterLine_of_not_mem {body : List Char} (hb : '\n' ∉ body) : afterLine body = [] := by
  have hne : ∀ c ∈ body, (c != '\n') = true := fun c hc => by
    simpa using ne_of_mem_of_not_mem hc hb
  unfold afterLine
  rw [List.dropWhile_eq_nil_iff.mpr hne]
  rfl

/-- `*/` is not at the front, so it comes later or not at all. -/
theorem infix_cons_iff_of_ne {c : Char} {cs : List Char} (h : ∀ r, c = '*' → cs ≠ '/' :: r) :
    ['*', '/'] <:+: c :: cs ↔ ['*', '/'] <:+: cs := by
  rw [List.infix_cons_iff, or_iff_right_iff_imp]
  rintro ⟨r, hr⟩
  obtain ⟨rfl, hcs⟩ := List.cons.inj hr
  exact absurd hcs.symm (h r rfl)

theorem afterBlockComment_cons {c : Char} {cs : List Char} (h : ∀ r, c = '*' → cs ≠ '/' :: r) :
    afterBlockComment (c :: cs) = afterBlockComment cs := by
  rw [afterBlockComment]
  exact h

theorem afterBlockComment_eq_none_iff {cs : List Char} :
    afterBlockComment cs = none ↔ ¬ ['*', '/'] <:+: cs := by
  fun_induction afterBlockComment cs with
  | case1 => simp
  | case2 rest => simpa using ⟨[], rest, rfl⟩
  | case3 c cs hne ih => rw [ih, infix_cons_iff_of_ne hne]

theorem afterBlockComment_append {body : List Char} (hb : ¬ ['*', '/'] <:+: body ++ ['*'])
    (rest : List Char) : afterBlockComment (body ++ '*' :: '/' :: rest) = some rest := by
  induction body with
  | nil => rfl
  | cons c body ih =>
    rw [List.cons_append, afterBlockComment_cons]
    · exact ih fun h => hb (List.infix_cons h)
    · rintro r rfl hr
      cases body with
      | nil => cases hr
      | cons d body =>
        obtain ⟨rfl, -⟩ := List.cons.inj hr
        exact hb ⟨[], body ++ ['*'], rfl⟩

theorem exists_body_of_afterBlockComment {cs rest : List Char}
    (h : afterBlockComment cs = some rest) :
    ∃ body, cs = body ++ '*' :: '/' :: rest ∧ ¬ ['*', '/'] <:+: body ++ ['*'] := by
  fun_induction afterBlockComment cs with
  | case1 => cases h
  | case2 =>
    cases h
    exact ⟨[], rfl, by decide⟩
  | case3 c cs hne ih =>
    obtain ⟨body, rfl, hb⟩ := ih h
    refine ⟨c :: body, rfl, ?_⟩
    rw [List.cons_append, infix_cons_iff_of_ne]
    · exact hb
    · rintro r rfl hr
      cases body with
      | nil => cases hr
      | cons d body =>
        obtain ⟨rfl, -⟩ := List.cons.inj hr
        exact hne _ rfl rfl

/-! ### Gaps -/

/-- Neither a blank nor a comment opens the characters. -/
def NoGap (cs : List Char) : Prop :=
  ∀ c r, cs = c :: r → isBlank c = false ∧ (c = '/' → IsLoneSlash r)

theorem noGap_nil : NoGap [] := by
  intro c r h
  cases h

theorem IsGap.skipGap_append {g rest : List Char} (h : IsGap g rest) :
    skipGap (g ++ rest) = skipGap rest := by
  induction h with
  | nil => rfl
  | @blank c g rest hc _ ih =>
    have hslash : c ≠ '/' := by
      rintro rfl
      simp [isBlank] at hc
    rw [List.cons_append, skipGap_cons hslash, if_pos hc, ih]
  | @line body g rest hb _ ih =>
    rw [List.cons_append, List.cons_append, skipGap, List.append_assoc, List.cons_append,
      afterLine_append hb, ih]
  | lastLine hb => simp [skipGap, afterLine_of_not_mem hb]
  | @block body g rest hb _ ih =>
    rw [List.cons_append, List.cons_append, skipGap, List.append_assoc, List.cons_append,
      List.cons_append]
    split
    · rename_i r hr
      rw [afterBlockComment_append hb, Option.some.injEq] at hr
      rw [← hr, ih]
    · rename_i hr
      rw [afterBlockComment_append hb] at hr
      cases hr

theorem NoGap.skipGap_eq {cs : List Char} (h : NoGap cs) : skipGap cs = .ok cs := by
  cases cs with
  | nil => simp [skipGap]
  | cons c cs =>
    obtain ⟨hblank, hslash⟩ := h c cs rfl
    rw [skipGap]
    · simp [hblank]
    · rintro body rfl rfl
      exact (hslash rfl '/' rfl).1 rfl
    · rintro body rfl rfl
      exact (hslash rfl '*' rfl).2 rfl

theorem skipGap_unclosed {body : List Char} (h : ¬ ['*', '/'] <:+: body) :
    skipGap ('/' :: '*' :: body) = .error (.blockComment ('/' :: '*' :: body)) := by
  rw [skipGap]
  split
  · rename_i r hr
    rw [afterBlockComment_eq_none_iff.mpr h] at hr
    cases hr
  · rfl

/-- Behind a gap comes something that is none, or a comment that is not closed. -/
theorem exists_isGap (cs : List Char) : ∃ g rest, cs = g ++ rest ∧ IsGap g rest ∧
    (NoGap rest ∨ ∃ body, rest = '/' :: '*' :: body ∧ ¬ ['*', '/'] <:+: body) := by
  fun_induction skipGap cs with
  | case1 => exact ⟨[], [], rfl, .nil, .inl noGap_nil⟩
  | case2 body ih =>
    by_cases hb : '\n' ∈ body
    · obtain ⟨line, tail, rfl, hline⟩ := List.eq_append_cons_of_mem hb
      rw [afterLine_append hline] at ih
      obtain ⟨g, rest, rfl, hg, hrest⟩ := ih
      exact ⟨_, rest, by simp, .line hline hg, hrest⟩
    · exact ⟨'/' :: '/' :: body, [], by simp, .lastLine hb, .inl noGap_nil⟩
  | case3 body tail htail ih =>
    obtain ⟨comment, rfl, hc⟩ := exists_body_of_afterBlockComment htail
    obtain ⟨g, rest, rfl, hg, hrest⟩ := ih
    exact ⟨_, rest, by simp, .block hc hg, hrest⟩
  | case4 body hnone =>
    exact ⟨[], _, rfl, .nil, .inr ⟨body, rfl, afterBlockComment_eq_none_iff.mp hnone⟩⟩
  | case5 c cs _ _ hc ih =>
    obtain ⟨g, rest, rfl, hg, hrest⟩ := ih
    exact ⟨c :: g, rest, rfl, .blank hc hg, hrest⟩
  | case6 c cs hline hblock hc =>
    refine ⟨[], c :: cs, rfl, .nil, .inl fun d r h => ?_⟩
    obtain ⟨rfl, rfl⟩ := List.cons.inj h
    refine ⟨by simpa using hc, fun hslash d hd => ?_⟩
    obtain ⟨r, rfl⟩ := List.head?_eq_some_iff.mp hd
    constructor
    · rintro rfl
      exact hline r hslash rfl
    · rintro rfl
      exact hblock r hslash rfl

/-! ### Lexemes -/

theorem NoGap.of_isMark {c : Char} {rest : List Char} (h : IsMark c)
    (hs : c = '/' → IsLoneSlash rest) : NoGap (c :: rest) := by
  intro d r heq
  obtain ⟨rfl, rfl⟩ := List.cons.inj heq
  exact ⟨h.1, hs⟩

theorem NoGap.cons_of_ne {c : Char} {rest : List Char} (hb : isBlank c = false) (hc : c ≠ '/') :
    NoGap (c :: rest) := by
  intro d r heq
  obtain ⟨rfl, rfl⟩ := List.cons.inj heq
  exact ⟨hb, fun h => absurd h hc⟩

/-- What is known of the character that a lexeme opens with. -/
theorem LexemeOf.exists_cons {t : Token} {l rest : List Char} (h : LexemeOf t l rest) :
    ∃ c r, l = c :: r ∧ NoGap (c :: (r ++ rest)) ∧
      lexeme c (r ++ rest) = .ok (t, rest) := by
  cases h with
  | ident h hr =>
    obtain ⟨c, r, rfl, hc, hword⟩ := h
    obtain ⟨hblank, hslash, hquote⟩ := isBlank_of_isIdentChar (isIdentChar_of_isIdentStart hc)
    obtain ⟨htake, hdrop⟩ := takeWhile_append_of_stops hword hr
    refine ⟨c, r, rfl, .cons_of_ne hblank hslash, ?_⟩
    rw [lexeme, if_neg hquote, if_neg (by simp [isDigit_of_isIdentStart hc]), if_pos hc, htake,
      hdrop]
  | integer h hr =>
    obtain ⟨hne, hall⟩ := h
    obtain ⟨c, r, rfl⟩ := List.exists_cons_of_ne_nil hne
    obtain ⟨hc, hdigits⟩ := List.forall_mem_cons.mp hall
    obtain ⟨hblank, hslash, hquote⟩ := isBlank_of_isIdentChar (isIdentChar_of_isDigit hc)
    obtain ⟨htake, hdrop⟩ := takeWhile_append_of_stops hdigits hr
    refine ⟨c, r, rfl, .cons_of_ne hblank hslash, ?_⟩
    rw [lexeme, if_neg hquote, if_pos hc, htake, hdrop]
  | @string body rest h =>
    refine ⟨'"', body ++ ['"'], rfl, .cons_of_ne rfl (by decide), ?_⟩
    have hbody : stringBody [] (body ++ '"' :: rest) = some ([].reverse ++ body, rest) :=
      stringBody_of_raw h
    rw [lexeme, if_pos rfl, List.append_assoc, List.singleton_append, hbody]
    rfl
  | @punc c rest h hs =>
    refine ⟨c, [], rfl, .of_isMark h hs, ?_⟩
    obtain ⟨-, hquote, hdigit, hstart⟩ := h
    rw [lexeme, if_neg hquote, if_neg (by simp [hdigit]), if_neg (by simp [hstart])]
    rfl

/-- Characters that open with no gap are a lexeme and what follows it, or a literal that is not
closed. -/
theorem exists_lexemeOf {c : Char} {cs : List Char} (h : NoGap (c :: cs)) :
    (∃ t l rest, c :: cs = l ++ rest ∧ LexemeOf t l rest) ∨ ∃ u, IsUnclosed u (c :: cs) := by
  obtain ⟨hblank, hslash⟩ := h c cs rfl
  by_cases hquote : c = '"'
  · subst hquote
    by_cases hbody : ∃ body rest, isRaw body = true ∧ cs = body ++ '"' :: rest
    · obtain ⟨body, rest, hraw, rfl⟩ := hbody
      exact .inl ⟨_, _, rest, by simp, .string hraw⟩
    · exact .inr ⟨_, .string fun body rest hraw heq => hbody ⟨body, rest, hraw, heq⟩⟩
  · left
    cases hdigit : c.isDigit with
    | true =>
      refine ⟨_, c :: cs.takeWhile Char.isDigit, cs.dropWhile Char.isDigit, by simp, .integer ?_ ?_⟩
      · refine ⟨by simp, fun x hx => ?_⟩
        rcases List.mem_cons.mp hx with rfl | hx
        · exact hdigit
        · exact List.mem_takeWhile_imp hx
      · intro d hd
        have := List.head?_dropWhile_not Char.isDigit cs
        simpa [hd] using this
    | false =>
      cases hstart : isIdentStart c with
      | true =>
        refine ⟨_, c :: cs.takeWhile isIdentChar, cs.dropWhile isIdentChar, by simp, .ident ?_ ?_⟩
        · exact ⟨c, _, rfl, hstart, fun x hx => List.mem_takeWhile_imp hx⟩
        · intro d hd
          have := List.head?_dropWhile_not isIdentChar cs
          simpa [hd] using this
      | false => exact ⟨_, [c], cs, rfl, .punc ⟨hblank, hquote, hdigit, hstart⟩ hslash⟩

/-! ### One step of a cutting -/

theorem IsGap.next?_append {g rest : List Char} (h : IsGap g rest) :
    next? (g ++ rest) = next? rest := by
  unfold next?
  rw [h.skipGap_append]

theorem LexemeOf.next?_append {t : Token} {l rest : List Char} (h : LexemeOf t l rest) :
    next? (l ++ rest) = .ok (some (t, rest)) := by
  obtain ⟨c, r, rfl, hgap, hlexeme⟩ := h.exists_cons
  rw [List.cons_append, next?, hgap.skipGap_eq]
  simp only [hlexeme]
  rfl

theorem LexemeOf.skipGap_append {t : Token} {l rest : List Char} (h : LexemeOf t l rest) :
    skipGap (l ++ rest) = .ok (l ++ rest) := by
  obtain ⟨c, r, rfl, hgap, -⟩ := h.exists_cons
  exact hgap.skipGap_eq

theorem IsUnclosed.next?_eq {u : Unclosed} {cs : List Char} (h : IsUnclosed u cs) :
    next? cs = .error u := by
  cases h with
  | @string cs h =>
    have hgap : NoGap ('"' :: cs) := .cons_of_ne rfl (by decide)
    rw [next?, hgap.skipGap_eq]
    simp only [lexeme, if_pos, stringBody_eq_none h]
    rfl
  | blockComment h => rw [next?, skipGap_unclosed h]

/-- A text is a gap with nothing behind it, or with a lexeme, or with what is not closed. -/
theorem exists_step (cs : List Char) : ∃ g rest, cs = g ++ rest ∧ IsGap g rest ∧
    (rest = [] ∨ (∃ t l rest', rest = l ++ rest' ∧ LexemeOf t l rest') ∨
      ∃ u, IsUnclosed u rest) := by
  obtain ⟨g, rest, rfl, hg, hrest⟩ := exists_isGap cs
  refine ⟨g, rest, rfl, hg, ?_⟩
  rcases hrest with hgap | ⟨body, rfl, hbody⟩
  · cases rest with
    | nil => exact .inl rfl
    | cons c rest => exact .inr (exists_lexemeOf hgap)
  · exact .inr (.inr ⟨_, .blockComment hbody⟩)

/-! ### Lexemes with blanks between them -/

/-- A lexeme can stand in front of a blank. -/
theorem IsLexeme.exists_lexemeOf {t : Token} (h : t.IsLexeme) (cs : List Char) :
    ∃ l, LexemeOf t l (' ' :: cs) := by
  cases t with
  | ident s =>
    have hl : LexemeOf (.ident (.ofList s.toList)) s.toList (' ' :: cs) :=
      .ident h (by rintro d ⟨⟩; rfl)
    rw [String.ofList_toList] at hl
    exact ⟨_, hl⟩
  | string s =>
    have hl : LexemeOf (.string (.ofList s.toList)) ('"' :: (s.toList ++ ['"'])) (' ' :: cs) :=
      .string h
    rw [String.ofList_toList] at hl
    exact ⟨_, hl⟩
  | integer s =>
    have hl : LexemeOf (.integer (.ofList s.toList)) s.toList (' ' :: cs) :=
      .integer h (by rintro d ⟨⟩; rfl)
    rw [String.ofList_toList] at hl
    exact ⟨_, hl⟩
  | punc c =>
    refine ⟨[c], .punc h fun _ => ?_⟩
    rintro d ⟨⟩
    decide
  | eof | invalid => cases h

/-- Any lexemes are the tokens of some text. -/
theorem exists_cut {ts : List Token} (h : ∀ t ∈ ts, t.IsLexeme) : ∃ cs, Cut cs ts := by
  induction ts with
  | nil => exact ⟨[], .nil (by simp [next?, skipGap])⟩
  | cons t ts ih =>
    obtain ⟨ht, hts⟩ := List.forall_mem_cons.mp h
    obtain ⟨cs, hcs⟩ := ih hts
    obtain ⟨l, hl⟩ := ht.exists_lexemeOf cs
    exact ⟨l ++ ' ' :: cs, .cons hl.next?_append (hcs.blank rfl)⟩

end ModuleDeps.Token
