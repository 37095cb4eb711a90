import ModuleDeps.Proofs.Lexing.Exactness

/-!
# Lexing a text line by line

A line feed closes any gap, a line comment in the last line too, and ends any run of characters. So
a cutting of a text is also a cutting of it in front of a line feed and of whatever follows, and
lexing carries nothing from one side to the other: a text behind another one, in a line of its own,
has the tokens that it has alone (`tokenize_append`), and its errors are reported as far behind as
it stands (`tokenize_append_eq_error`).
-/

namespace ModuleDeps

/-- The error for a text that stands `n` bytes further behind. -/
def LexError.behind (n : Nat) : LexError → LexError
  | unterminatedString m => unterminatedString (m + n)
  | unterminatedBlockComment m => unterminatedBlockComment (m + n)

namespace Token

/-! ### A cutting in front of a line feed -/

/-- A gap at the end of a text is a gap with a line feed behind it, whatever follows. -/
theorem IsGap.lineFeed {g us : List Char} (h : IsGap g us) (hus : us = []) (rest : List Char) :
    IsGap (g ++ ['\n']) rest := by
  induction h with
  | nil => exact .blank rfl .nil
  | blank hc _ ih => exact .blank hc (ih hus)
  | line hb _ ih => simpa using IsGap.line hb (ih hus)
  | lastLine hb => exact .line hb .nil
  | block hb _ ih => simpa using IsGap.block hb (ih hus)

/-- In front of a line feed stands what may stand at the end of the text. -/
theorem LexemeOf.lineFeed {t : Token} {l cs : List Char} (h : LexemeOf t l cs) (rest : List Char) :
    LexemeOf t l (cs ++ '\n' :: rest) := by
  have hhead {d : Char} (hd : (cs ++ '\n' :: rest).head? = some d) :
      cs.head? = some d ∨ d = '\n' := by
    cases cs with
    | nil =>
      cases hd
      exact .inr rfl
    | cons => exact .inl hd
  cases h with
  | ident h hr =>
    refine .ident h fun d hd => ?_
    rcases hhead hd with hd | rfl
    · exact hr d hd
    · decide
  | integer h hr =>
    refine .integer h fun d hd => ?_
    rcases hhead hd with hd | rfl
    · exact hr d hd
    · decide
  | string h => exact .string h
  | punc h hs =>
    refine .punc h fun hc d hd => ?_
    rcases hhead hd with hd | rfl
    · exact hs hc d hd
    · decide

theorem IsCutting.lineFeed {ps : List Piece} {g cs : List Char} (h : IsCutting [] ps g cs)
    (rest : List Char) : IsCutting rest ps (g ++ ['\n']) (cs ++ ['\n']) := by
  induction h with
  | last hg => exact .last (hg.lineFeed rfl rest)
  | @piece p ps g cs hg hl _ ih =>
    have hg' : IsGap p.gap (p.lexeme ++ (cs ++ ['\n'] ++ rest)) :=
      hg.congr fun hnil => absurd (List.append_eq_nil_iff.mp hnil).1 hl.ne_nil
    have hl' : LexemeOf p.token p.lexeme (cs ++ ['\n'] ++ rest) := by
      rw [List.append_nil] at hl
      simpa using hl.lineFeed rest
    have h := IsCutting.piece hg' hl' ih
    simpa using h

/-! ### Lexing on the other side of it -/

/-- The tokens that are already read come in front of the others. -/
theorem lexAll_eq_map (acc : List Token) (cs : List Char) :
    lexAll acc cs = (lexAll [] cs).map (acc.reverse ++ ·) := by
  obtain ⟨cut, rest, ps, g, rfl, hps, hend⟩ := exists_isCutting cs
  rw [hps.lexAll_append acc, hps.lexAll_append []]
  rcases hend with rfl | ⟨u, hu⟩
  · simp [lexAll_nil, Except.map]
  · rw [lexAll_of_isUnclosed hu, lexAll_of_isUnclosed hu]
    rfl

theorem lexAll_lineFeed {cs : List Char} {ts : List Token} (h : lexAll [] cs = .ok ts)
    (ds : List Char) : lexAll [] (cs ++ '\n' :: ds) = (lexAll [] ds).map (ts ++ ·) := by
  obtain ⟨ps, g, hps, rfl⟩ := exists_isCutting_of_lexAll_eq_ok h
  calc lexAll [] (cs ++ '\n' :: ds)
      = lexAll [] (cs ++ ['\n'] ++ ds) := by rw [List.append_assoc]; rfl
    _ = lexAll ((tokensOf ps).reverse ++ []) ds := (hps.lineFeed ds).lexAll_append []
    _ = (lexAll [] ds).map (tokensOf ps ++ ·) := by
        rw [List.append_nil, lexAll_eq_map, List.reverse_reverse]

theorem Unclosed.errorAt_add (m n : Nat) (u : Unclosed) :
    u.errorAt (m + n) = (u.errorAt m).behind n := by
  cases u with
  | string => rfl
  | blockComment => rfl

/-- What is not closed is reported further behind by what stands in front of the text. -/
theorem locate_behind {u : Unclosed} {content : String} (h : lexAll [] content.toList = .error u)
    (before : String) : u.locate (before ++ content).utf8ByteSize =
      (u.locate content.utf8ByteSize).behind before.utf8ByteSize := by
  obtain ⟨front, rest, ps, g, rfl, -, hu⟩ := exists_isCutting_of_lexAll_eq_error h
  rw [← String.append_assoc, hu.locate_eq, hu.locate_eq, String.utf8ByteSize_append, Nat.add_comm,
    Unclosed.errorAt_add]

end Token

open Token

/-! ### Texts -/

theorem tokenize_append {a b : String} {ts us : List Token} (ha : tokenize a = .ok ts)
    (hb : tokenize b = .ok us) : tokenize (a ++ "\n" ++ b) = .ok (ts ++ us) := by
  rw [tokenize_eq_ok_iff] at ha hb ⊢
  have h := lexAll_lineFeed ha b.toList
  rw [hb] at h
  simpa [Except.map] using h

theorem tokenize_append_eq_error {a b : String} {ts : List Token} {e : LexError}
    (ha : tokenize a = .ok ts) (hb : tokenize b = .error e) :
    tokenize (a ++ "\n" ++ b) = .error (e.behind (a.utf8ByteSize + 1)) := by
  rw [tokenize_eq_ok_iff] at ha
  obtain ⟨u, hu, rfl⟩ := tokenize_eq_error_iff.mp hb
  refine tokenize_eq_error_iff.mpr ⟨u, ?_, ?_⟩
  · have h := lexAll_lineFeed ha b.toList
    rw [hu] at h
    simpa [Except.map] using h
  · rw [locate_behind hu, String.utf8ByteSize_append]
    rfl

end ModuleDeps
