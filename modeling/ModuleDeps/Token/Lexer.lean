import ModuleDeps.Token

/-!
# Lexing

A text is cut into tokens and gaps. A gap is a run of blanks, line comments and block comments; a
token is a maximal run of identifier characters, a maximal run of digits, a string literal, or one
other character. Every function takes the characters that are still to be read and gives back
those that are left, so what is left is always an end of the text: `next?_length_lt` says that a
token takes at least one character, and so the text runs out.

A block comment ends at the first `*/` behind its opening and does not nest. In a string literal a
backslash keeps the next character from closing the literal, and both stay in the token's text.
-/

namespace ModuleDeps

/-- What is wrong with a text that cannot be cut into tokens. Offsets count bytes of UTF-8. -/
inductive LexError where
  /-- The string literal that opens at `offset` is not closed. -/
  | unterminatedString (offset : Nat)
  /-- The block comment that opens at `offset` is not closed. -/
  | unterminatedBlockComment (offset : Nat)
  deriving DecidableEq, Repr

namespace LexError

/-- Where the literal or comment opens. -/
def offset : LexError → Nat
  | unterminatedString n | unterminatedBlockComment n => n

/-- The error as it is reported. -/
def message : LexError → String
  | unterminatedString n => "unterminated string literal starting at byte " ++ toString n
  | unterminatedBlockComment n => "unterminated block comment starting at byte " ++ toString n

end LexError

namespace Token

/-- A literal or comment that is not closed, with the text from its opening on. -/
inductive Unclosed where
  /-- A string literal. -/
  | string (text : List Char)
  /-- A block comment. -/
  | blockComment (text : List Char)
  deriving DecidableEq, Repr

/-! ### Character classes -/

/-- The blanks: space, tab, line feed, vertical tab, form feed and carriage return. -/
def isBlank (c : Char) : Bool :=
  c == ' ' || c == '\t' || c == '\n' || c == '\x0b' || c == '\x0c' || c == '\r'

/-- An ASCII letter or an underscore opens an identifier. -/
def isIdentStart (c : Char) : Bool := c.isAlpha || c == '_'

/-- ASCII letters, ASCII digits and underscores continue an identifier. -/
def isIdentChar (c : Char) : Bool := c.isAlphanum || c == '_'

theorem isIdentChar_of_isIdentStart {c : Char} (h : isIdentStart c = true) : isIdentChar c = true := by
  grind [isIdentStart, isIdentChar, Char.isAlphanum]

/-! ### Gaps -/

/-- What follows the current line, its line feed taken too. -/
def afterLine (cs : List Char) : List Char := (cs.dropWhile (· != '\n')).drop 1

/-- What follows the first `*/`, if there is one. -/
def afterBlockComment : List Char → Option (List Char)
  | [] => none
  | '*' :: '/' :: rest => some rest
  | _ :: rest => afterBlockComment rest

theorem length_afterLine_le (cs : List Char) : (afterLine cs).length ≤ cs.length := by
  have h := (List.dropWhile_suffix (l := cs) (· != '\n')).length_le
  simp only [afterLine, List.length_drop]
  omega

theorem length_afterBlockComment_lt {cs rest : List Char} (h : afterBlockComment cs = some rest) :
    rest.length < cs.length := by
  fun_induction afterBlockComment cs with
  | case1 => simp at h
  | case2 =>
    simp only [Option.some.injEq] at h
    rw [← h]
    simp only [List.length_cons]
    omega
  | case3 _ _ _ ih => have := ih h; simp; omega

/-- Drops blanks and comments up to the next token or the end of the text. -/
def skipGap : List Char → Except Unclosed (List Char)
  | [] => .ok []
  | '/' :: '/' :: body => skipGap (afterLine body)
  | '/' :: '*' :: body =>
    match _h : afterBlockComment body with
    | some rest => skipGap rest
    | none => .error (.blockComment ('/' :: '*' :: body))
  | c :: cs => if isBlank c then skipGap cs else .ok (c :: cs)
termination_by cs => cs.length
decreasing_by
  · have := length_afterLine_le body
    simp; omega
  · have := length_afterBlockComment_lt _h
    simp; omega
  · simp

theorem length_skipGap_le {cs rest : List Char} (h : skipGap cs = .ok rest) :
    rest.length ≤ cs.length := by
  fun_induction skipGap cs with
  | case1 => simp_all
  | case2 body ih => have := ih h; have := length_afterLine_le body; simp; omega
  | case3 body r hr ih => have := ih h; have := length_afterBlockComment_lt hr; simp; omega
  | case4 => simp at h
  | case5 c cs _ _ _ ih => have := ih h; simp; omega
  | case6 => simp at h; simp [← h]

/-! ### Tokens -/

/-- Splits the body of a string literal from what follows its closing quote, `acc` being the body
read so far in reverse; `none` if the literal is not closed. -/
def stringBody (acc : List Char) : List Char → Option (List Char × List Char)
  | [] => none
  | '"' :: rest => some (acc.reverse, rest)
  | '\\' :: c :: rest => stringBody (c :: '\\' :: acc) rest
  | c :: rest => stringBody (c :: acc) rest

theorem length_stringBody_lt {acc cs body rest : List Char}
    (h : stringBody acc cs = some (body, rest)) : rest.length < cs.length := by
  fun_induction stringBody acc cs with
  | case1 => simp at h
  | case2 => simp at h; simp [h.2]
  | case3 _ _ _ ih => have := ih h; simp; omega
  | case4 _ _ _ _ _ ih => have := ih h; simp; omega

/-- The token that opens with `c` and goes on in `cs`, with what follows it. -/
def lexeme (c : Char) (cs : List Char) : Except Unclosed (Token × List Char) :=
  if c = '"' then
    match stringBody [] cs with
    | some (body, rest) => .ok (string (.ofList body), rest)
    | none => .error (.string (c :: cs))
  else if c.isDigit then
    .ok (integer (.ofList (c :: cs.takeWhile Char.isDigit)), cs.dropWhile Char.isDigit)
  else if isIdentStart c then
    .ok (ident (.ofList (c :: cs.takeWhile isIdentChar)), cs.dropWhile isIdentChar)
  else
    .ok (punc c, cs)

theorem length_lexeme_le {c : Char} {cs : List Char} {t : Token} {rest : List Char}
    (h : lexeme c cs = .ok (t, rest)) : rest.length ≤ cs.length := by
  unfold lexeme at h
  split at h
  · split at h
    · rename_i hb
      simp at h
      have := length_stringBody_lt hb
      simp [← h.2]; omega
    · simp at h
  · split at h
    · simp at h
      simpa [← h.2] using (List.dropWhile_suffix (l := cs) Char.isDigit).length_le
    · split at h
      · simp at h
        simpa [← h.2] using (List.dropWhile_suffix (l := cs) isIdentChar).length_le
      · simp at h
        simp [h.2]

/-- The first token of a text, behind any gap, with what follows it; `none` at the end. -/
def next? (cs : List Char) : Except Unclosed (Option (Token × List Char)) :=
  match skipGap cs with
  | .error e => .error e
  | .ok [] => .ok none
  | .ok (c :: cs) => (lexeme c cs).map some

/-- A token takes at least one character. -/
theorem next?_length_lt {cs : List Char} {t : Token} {rest : List Char}
    (h : next? cs = .ok (some (t, rest))) : rest.length < cs.length := by
  unfold next? at h
  split at h
  · simp at h
  · simp at h
  · rename_i c cs' hg
    cases hl : lexeme c cs' with
    | error e => simp [hl, Except.map] at h
    | ok r =>
      simp [hl, Except.map] at h
      subst h
      have := length_lexeme_le hl
      have := length_skipGap_le hg
      simp at this
      omega

/-- The tokens of a text, `acc` being those read so far in reverse. -/
def lexAll (acc : List Token) (cs : List Char) : Except Unclosed (List Token) :=
  match _h : next? cs with
  | .error e => .error e
  | .ok none => .ok acc.reverse
  | .ok (some (t, rest)) => lexAll (t :: acc) rest
termination_by cs.length
decreasing_by exact next?_length_lt _h

/-- The bytes of UTF-8 that characters take. -/
def utf8Length (cs : List Char) : Nat := cs.foldl (fun n c => n + c.utf8Size) 0

/-- The error for what is not closed in a text of `size` bytes: it opens where the text from its
opening on leaves off. -/
def Unclosed.locate (size : Nat) : Unclosed → LexError
  | string cs => .unterminatedString (size - utf8Length cs)
  | blockComment cs => .unterminatedBlockComment (size - utf8Length cs)

end Token

/-- The tokens of a text, without a token for its end. -/
def tokenize (content : String) : Except LexError (List Token) :=
  (Token.lexAll [] content.toList).mapError (Token.Unclosed.locate content.utf8ByteSize)

end ModuleDeps
