import ModuleDeps.Text.Slice
import ModuleDeps.Token.Lexer

/-!
# Scanning a text by its bytes

Lexing as it is done on a text that stays where it is: a scanner has come to some byte of the text,
and each token moves it on. The characters that are left, the run of a word and the body of a
literal are parts of the text that it asks for by their bytes, and the search for the end of a
literal looks at single bytes, so that a backslash takes one byte along and not a character. Each
of these accesses may be refused. The error that ends a scan is recorded when it is met, and the
scan gives an invalid token for it.

Every round of the scan that goes on has moved on (`movesTo_of_round`), which is why it ends.
-/

namespace ModuleDeps

open Text

/-- A text that is being cut into tokens. -/
structure Scanner where
  /-- The text. -/
  content : String
  /-- The byte that the scan has come to. -/
  pos : Nat
  /-- The error that it has met. -/
  error : Option LexError
  deriving DecidableEq, Repr

namespace Scanner

/-- A scanner at the front of a text. -/
def ofContent (content : String) : Scanner := ⟨content, 0, none⟩

/-- The scanner `n` bytes further on. -/
def advance (sc : Scanner) (n : Nat) : Scanner := { sc with pos := sc.pos + n }

/-- The scanner at the end of its text. -/
def toEnd (sc : Scanner) : Scanner := { sc with pos := sc.content.utf8ByteSize }

/-- Records an error and gives an invalid token for it. -/
def fail (sc : Scanner) (e : LexError) : Token × Scanner := (.invalid, { sc with error := some e })

/-- The error of a scan that came to an invalid token. Where none was recorded, a literal is said to
be open. -/
def lexError (sc : Scanner) : LexError := sc.error.getD (.unterminatedString sc.pos)

/-- What is left of the text. -/
def rest (sc : Scanner) : Access String := slice sc.content sc.pos sc.content.utf8ByteSize

/-! ### Gaps -/

/-- The bytes of the blanks. -/
def isBlankByte (b : UInt8) : Bool :=
  b == 0x20 || b == 0x09 || b == 0x0a || b == 0x0b || b == 0x0c || b == 0x0d

/-- Moves on to a byte that is no blank. -/
def skipBlanks (sc : Scanner) : Access Scanner := do
  let rest ← sc.rest
  pure (sc.advance ((Utf8.encode rest).takeWhile isBlankByte).length)

/-- Moves on to the next line, or to the end of the last one. -/
def skipLine (sc : Scanner) : Access Scanner := do
  let rest ← sc.rest
  match find? (·.head? == some '\n') rest.toList with
  | some n => pure (sc.advance (n + 1))
  | none => pure sc.toEnd

/-- Moves on behind the `*/` of a comment, if there is one. -/
def skipComment (sc : Scanner) : Access (Option Scanner) := do
  let rest ← sc.rest
  match find? (['*', '/'].isPrefixOf ·) rest.toList with
  | some n => pure (some (sc.advance (n + 2)))
  | none => pure none

/-! ### Literals -/

/-- The byte `"`. -/
def quote : UInt8 := 0x22

/-- The byte `\`. -/
def backslash : UInt8 := 0x5c

/-- The byte of the quote that closes a literal whose body goes on at `pos`, if there is one. A
backslash takes the byte behind it along. -/
def closing (content : String) (pos : Nat) : Access (Option Nat) :=
  if pos < content.utf8ByteSize then
    match byteAt content pos with
    | .error e => .error e
    | .ok b =>
      if b = quote then .ok (some pos)
      else if b = backslash then
        if pos + 1 = content.utf8ByteSize then .ok none else closing content (pos + 2)
      else closing content (pos + 1)
  else .ok none
termination_by content.utf8ByteSize - pos

/-- The literal that opens here. -/
def literal (sc : Scanner) : Access (Token × Scanner) := do
  match ← closing sc.content (sc.pos + 1) with
  | some stop =>
    let body ← slice sc.content (sc.pos + 1) stop
    pure (.string body, { sc with pos := stop + 1 })
  | none => pure (sc.toEnd.fail (.unterminatedString sc.pos))

/-! ### Tokens -/

/-- The token that is spelled by all characters in front of the first one that is not in `p`. -/
def run (sc : Scanner) (kind : String → Token) (p : Char → Bool) (rest : String) :
    Access (Token × Scanner) := do
  let length := (find? (·.head?.any (!p ·)) rest.toList).getD rest.utf8ByteSize
  let text ← slice rest 0 length
  pure (kind text, sc.advance length)

/-- What stands here: a token, or none if it is a comment. -/
def read (sc : Scanner) : Access (Option Token × Scanner) := do
  let rest ← sc.rest
  match rest.toList with
  | [] => pure (some .eof, sc)
  | c :: cs =>
    if c = '"' then Prod.map some id <$> sc.literal
    else if c.isDigit then Prod.map some id <$> sc.run .integer Char.isDigit rest
    else if Token.isIdentStart c then Prod.map some id <$> sc.run .ident Token.isIdentChar rest
    else if ['/', '/'].isPrefixOf (c :: cs) then
      let line ← (sc.advance 2).skipLine
      pure (none, line)
    else if ['/', '*'].isPrefixOf (c :: cs) then
      match ← (sc.advance 2).skipComment with
      | some behind => pure (none, behind)
      | none => pure (Prod.map some id ((sc.advance 2).fail (.unterminatedBlockComment sc.pos)))
    else pure (some (.punc c), sc.advance c.utf8Size)

/-- One round of the scan: what stands behind the blanks. -/
def round (sc : Scanner) : Access (Option Token × Scanner) := sc.skipBlanks >>= read

/-! ### Rounds move on -/

/-- The scan of a text has moved on from a byte in front of its end. -/
structure MovesTo (sc sc' : Scanner) : Prop where
  content : sc'.content = sc.content
  pos_lt : sc.pos < sc'.pos
  lt_size : sc.pos < sc.content.utf8ByteSize

theorem MovesTo.left_lt {sc sc' : Scanner} (h : sc.MovesTo sc') :
    sc'.content.utf8ByteSize - sc'.pos < sc.content.utf8ByteSize - sc.pos := by
  have := h.pos_lt
  have := h.lt_size
  rw [h.content]
  omega

theorem skipBlanks_eq_ok {sc sc' : Scanner} (h : sc.skipBlanks = .ok sc') :
    sc'.content = sc.content ∧ sc.pos ≤ sc'.pos := by
  obtain ⟨rest, -, h⟩ := Access.bind_eq_ok_iff.mp h
  cases h
  exact ⟨rfl, Nat.le_add_right _ _⟩

theorem skipLine_eq_ok {sc sc' : Scanner} (h : sc.skipLine = .ok sc') :
    sc'.content = sc.content ∧ sc.pos ≤ sc'.pos := by
  obtain ⟨rest, hrest, h⟩ := Access.bind_eq_ok_iff.mp h
  have hsize := (utf8ByteSize_of_slice hrest).1
  split at h
  · cases h
    exact ⟨rfl, Nat.le_add_right _ _⟩
  · cases h
    exact ⟨rfl, by simp only [toEnd]; omega⟩

theorem skipComment_eq_some {sc sc' : Scanner} (h : sc.skipComment = .ok (some sc')) :
    sc'.content = sc.content ∧ sc.pos ≤ sc'.pos := by
  obtain ⟨rest, -, h⟩ := Access.bind_eq_ok_iff.mp h
  split at h <;> cases h
  exact ⟨rfl, Nat.le_add_right _ _⟩

theorem literal_eq_ok {sc sc' : Scanner} {t : Token} (h : sc.literal = .ok (t, sc'))
    (ht : t ≠ .invalid) : sc'.content = sc.content ∧ sc.pos < sc'.pos := by
  obtain ⟨stop?, -, h⟩ := Access.bind_eq_ok_iff.mp h
  cases stop? with
  | none =>
    cases h
    exact absurd rfl ht
  | some stop =>
    obtain ⟨body, hbody, h⟩ := Access.bind_eq_ok_iff.mp h
    have hsize := (utf8ByteSize_of_slice hbody).1
    cases h
    exact ⟨rfl, by dsimp only; omega⟩

theorem run_eq_ok {sc sc' : Scanner} {kind : String → Token} {p : Char → Bool} {rest : String}
    {t : Token} {c : Char} {cs : List Char} (h : sc.run kind p rest = .ok (t, sc'))
    (hrest : rest.toList = c :: cs) (hc : p c = true) :
    sc'.content = sc.content ∧ sc.pos < sc'.pos := by
  obtain ⟨text, -, h⟩ := Access.bind_eq_ok_iff.mp h
  have hpos : 0 < (find? (·.head?.any (!p ·)) rest.toList).getD rest.utf8ByteSize := by
    cases hfind : find? (·.head?.any (!p ·)) rest.toList with
    | none => exact utf8ByteSize_pos_of_toList hrest
    | some n =>
      rw [hrest] at hfind
      exact find?_pos (by simp [hc]) hfind
  cases h
  exact ⟨rfl, Nat.lt_add_of_pos_right hpos⟩

/-- What is read is behind the byte that it is read from, unless it is the end or the scan failed. -/
theorem movesTo_of_read {sc sc' : Scanner} {t? : Option Token} (h : sc.read = .ok (t?, sc'))
    (heof : t? ≠ some .eof) (hinvalid : t? ≠ some .invalid) : sc.MovesTo sc' := by
  obtain ⟨rest, hrest, h⟩ := Access.bind_eq_ok_iff.mp h
  obtain ⟨hsize, -⟩ := utf8ByteSize_of_slice hrest
  cases hcs : rest.toList with
  | nil =>
    rw [hcs] at h
    cases h
    exact absurd rfl heof
  | cons c cs =>
    have hpos := utf8ByteSize_pos_of_toList hcs
    suffices sc'.content = sc.content ∧ sc.pos < sc'.pos from ⟨this.1, this.2, by omega⟩
    simp only [hcs] at h
    split at h
    · obtain ⟨⟨t, _⟩, ht, h⟩ := Access.map_eq_ok_iff.mp h
      cases h
      exact literal_eq_ok ht fun hi => hinvalid (congrArg some hi)
    split at h
    · next hdigit =>
      obtain ⟨⟨t, _⟩, ht, h⟩ := Access.map_eq_ok_iff.mp h
      cases h
      exact run_eq_ok ht hcs hdigit
    split at h
    · next hstart =>
      obtain ⟨⟨t, _⟩, ht, h⟩ := Access.map_eq_ok_iff.mp h
      cases h
      exact run_eq_ok ht hcs (Token.isIdentChar_of_isIdentStart hstart)
    split at h
    · obtain ⟨line, hline, h⟩ := Access.bind_eq_ok_iff.mp h
      obtain ⟨hcontent, hle⟩ := skipLine_eq_ok hline
      cases h
      exact ⟨hcontent, Nat.lt_of_lt_of_le (Nat.lt_add_of_pos_right Nat.two_pos) hle⟩
    split at h
    · obtain ⟨behind?, hbehind, h⟩ := Access.bind_eq_ok_iff.mp h
      cases behind? with
      | none =>
        cases h
        exact absurd rfl hinvalid
      | some behind =>
        obtain ⟨hcontent, hle⟩ := skipComment_eq_some hbehind
        cases h
        exact ⟨hcontent, Nat.lt_of_lt_of_le (Nat.lt_add_of_pos_right Nat.two_pos) hle⟩
    · cases h
      exact ⟨rfl, Nat.lt_add_of_pos_right c.utf8Size_pos⟩

theorem movesTo_of_round {sc sc' : Scanner} {t? : Option Token} (h : sc.round = .ok (t?, sc'))
    (heof : t? ≠ some .eof) (hinvalid : t? ≠ some .invalid) : sc.MovesTo sc' := by
  obtain ⟨mid, hblanks, h⟩ := Access.bind_eq_ok_iff.mp h
  obtain ⟨hcontent, hle⟩ := skipBlanks_eq_ok hblanks
  have hmid := movesTo_of_read h heof hinvalid
  exact ⟨hmid.content.trans hcontent, Nat.lt_of_le_of_lt hle hmid.pos_lt,
    Nat.lt_of_le_of_lt hle (hcontent ▸ hmid.lt_size)⟩

/-! ### Whole scans -/

/-- The next token, with the scanner behind it. -/
def next (sc : Scanner) : Access (Token × Scanner) :=
  match _h : sc.round with
  | .error e => .error e
  | .ok (some t, sc') => .ok (t, sc')
  | .ok (none, sc') => next sc'
termination_by sc.content.utf8ByteSize - sc.pos
decreasing_by exact (movesTo_of_round _h nofun nofun).left_lt

/-- A token other than the end of the text and an invalid one moves the scan on. -/
theorem movesTo_of_next {sc sc' : Scanner} {t : Token} (h : sc.next = .ok (t, sc'))
    (heof : t ≠ .eof) (hinvalid : t ≠ .invalid) : sc.MovesTo sc' := by
  fun_induction next sc with
  | case1 => cases h
  | case2 sc u mid hround =>
    cases h
    exact movesTo_of_round hround (fun he => heof (Option.some.inj he))
      fun hi => hinvalid (Option.some.inj hi)
  | case3 sc mid hround ih =>
    have hmid := movesTo_of_round hround nofun nofun
    have hnext := ih h
    exact ⟨hnext.content.trans hmid.content, Nat.lt_trans hmid.pos_lt hnext.pos_lt, hmid.lt_size⟩

/-- The tokens up to the end of the text, `acc` being those read so far in reverse, or the error
that the scan met. -/
def scanFrom (acc : List Token) (sc : Scanner) : Access (Except LexError (List Token)) :=
  match _h : sc.next with
  | .error e => .error e
  | .ok (t, sc') =>
    if t = .eof then .ok (.ok acc.reverse)
    else if t = .invalid then .ok (.error sc'.lexError)
    else scanFrom (t :: acc) sc'
termination_by sc.content.utf8ByteSize - sc.pos
decreasing_by exact (movesTo_of_next _h ‹_› ‹_›).left_lt

/-- The tokens of a text, or the error of a text that cannot be cut into tokens. -/
def scan (content : String) : Access (Except LexError (List Token)) :=
  scanFrom [] (ofContent content)

end Scanner

end ModuleDeps
