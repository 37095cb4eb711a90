import ModuleDeps.Toml.Scalar

/-!
# TOML texts

The characters between quotes. A text between double quotes has escapes, one between single quotes
has none; between three quotes a text may go over several lines, and one or two quotes may stand in
it, also at its end. Control characters other than the tab are not allowed anywhere.
-/

namespace ModuleDeps.Toml

/-- The character may stand in a comment or a text: a tab, or no control character. -/
def isTextChar (c : Char) : Bool := c == '\t' || (' ' ≤ c && c != '\x7f')

/-- The character is a space or a tab. -/
def isBlank (c : Char) : Bool := c == ' ' || c == '\t'

/-- What follows the line end at the front. -/
def afterLineEnd? : List Char → Option (List Char)
  | '\n' :: rest => some rest
  | '\r' :: '\n' :: rest => some rest
  | _ => none

theorem length_afterLineEnd?_lt {cs rest : List Char} (h : afterLineEnd? cs = some rest) :
    rest.length < cs.length := by
  unfold afterLineEnd? at h
  split at h <;> simp only [Option.some.injEq, reduceCtorEq] at h <;> rw [← h] <;>
    simp only [List.length_cons] <;> omega

/-! ### Finding the end -/

/-- Splits what a quote closes from what follows it, `acc` being the part read so far in reverse. If
there are escapes, a backslash keeps the next character from closing the text. -/
def untilQuote (quote : Char) (hasEscapes : Bool) (acc : List Char) : List Char → Option (List Char × List Char)
  | [] => none
  | c :: rest =>
    if c = quote then some (acc.reverse, rest)
    else if c = '\\' && hasEscapes then
      match rest with
      | [] => none
      | d :: rest => untilQuote quote hasEscapes (d :: c :: acc) rest
    else untilQuote quote hasEscapes (c :: acc) rest

/-- Splits what three quotes close from what follows them. Of four or five quotes the last three
close the text. -/
def untilThreeQuotes (quote : Char) (hasEscapes : Bool) (acc : List Char) :
    List Char → Option (List Char × List Char)
  | [] => none
  | c :: rest =>
    if c = quote then
      match rest.takeWhile (· == quote) with
      | [_, _] => some (acc.reverse, rest.drop 2)
      | [_, _, _] => some ((c :: acc).reverse, rest.drop 3)
      | _ :: _ :: _ :: _ :: _ => some ((c :: c :: acc).reverse, rest.drop 4)
      | _ => untilThreeQuotes quote hasEscapes (c :: acc) rest
    else if c = '\\' && hasEscapes then
      match rest with
      | [] => none
      | d :: rest => untilThreeQuotes quote hasEscapes (d :: c :: acc) rest
    else untilThreeQuotes quote hasEscapes (c :: acc) rest

/-! ### Escapes -/

/-- The character whose number is written in hexadecimal digits. -/
def charOfHex? (digits : List Char) : Option Char :=
  let n := valueOf 16 digits
  if digits.all (isDigitOf 16) ∧ n.isValidChar then some (Char.ofNat n) else none

/-- What a backslash and one character stand for. -/
def escape? : Char → Option Char
  | 'b' => some '\x08'
  | 't' => some '\t'
  | 'n' => some '\n'
  | 'f' => some '\x0c'
  | 'r' => some '\r'
  | '"' => some '"'
  | '\\' => some '\\'
  | _ => none

/-- Drops the blanks and line ends at the front. A carriage return belongs to a line end only in
front of a line feed, so one that stands alone is kept. -/
def skipBlankLines : List Char → List Char
  | [] => []
  | '\n' :: rest => skipBlankLines rest
  | '\r' :: '\n' :: rest => skipBlankLines rest
  | c :: rest => if isBlank c then skipBlankLines rest else c :: rest

theorem length_skipBlankLines_le (cs : List Char) : (skipBlankLines cs).length ≤ cs.length := by
  fun_induction skipBlankLines cs with
  | case1 => exact Nat.le_refl _
  | case2 rest ih => exact Nat.le_succ_of_le ih
  | case3 rest ih => exact Nat.le_succ_of_le (Nat.le_succ_of_le ih)
  | case4 c rest _ _ _ ih => exact Nat.le_succ_of_le ih
  | case5 => exact Nat.le_refl _

/-- What follows the blanks and line ends at the front, when a line end is among them. -/
def afterLineEnds? (cs : List Char) : Option (List Char) :=
  (afterLineEnd? (cs.dropWhile isBlank)).map skipBlankLines

theorem length_afterLineEnds?_lt {cs rest : List Char} (h : afterLineEnds? cs = some rest) :
    rest.length < cs.length := by
  obtain ⟨mid, hm, rfl⟩ := Option.map_eq_some_iff.mp h
  exact Nat.lt_of_le_of_lt (length_skipBlankLines_le mid)
    (Nat.lt_of_lt_of_le (length_afterLineEnd?_lt hm) (List.dropWhile_suffix _).length_le)

/-- The text that is written without escapes, over several lines or not. -/
def plain? (isMultiline : Bool) : List Char → Option (List Char)
  | [] => some []
  | '\n' :: rest => if isMultiline then (plain? isMultiline rest).map ('\n' :: ·) else none
  | '\r' :: '\n' :: rest => if isMultiline then (plain? isMultiline rest).map ('\n' :: ·) else none
  | c :: rest => if isTextChar c then (plain? isMultiline rest).map (c :: ·) else none

/-- The text that is written with escapes, over several lines or not. -/
def unescape? (isMultiline : Bool) : List Char → Option (List Char)
  | [] => some []
  | '\\' :: 'u' :: a :: b :: c :: d :: rest => do
    let x ← charOfHex? [a, b, c, d]
    (unescape? isMultiline rest).map (x :: ·)
  | '\\' :: 'U' :: a :: b :: c :: d :: e :: f :: g :: h :: rest => do
    let x ← charOfHex? [a, b, c, d, e, f, g, h]
    (unescape? isMultiline rest).map (x :: ·)
  | '\\' :: c :: rest =>
    match escape? c with
    | some x => (unescape? isMultiline rest).map (x :: ·)
    | none =>
      match _h : afterLineEnds? (c :: rest) with
      | some after => if isMultiline then unescape? isMultiline after else none
      | none => none
  | '\n' :: rest => if isMultiline then (unescape? isMultiline rest).map ('\n' :: ·) else none
  | '\r' :: '\n' :: rest => if isMultiline then (unescape? isMultiline rest).map ('\n' :: ·) else none
  | c :: rest => if c ≠ '\\' ∧ isTextChar c then (unescape? isMultiline rest).map (c :: ·) else none
termination_by cs => cs.length
decreasing_by
  all_goals simp only [List.length_cons]
  any_goals omega
  have := length_afterLineEnds?_lt _h
  simp only [List.length_cons] at this
  omega

/-! ### Texts -/

/-- The text at the front of `cs`, on one line, with what follows it. -/
def lineText? : List Char → Option (String × List Char)
  | '"' :: cs => do
    let (raw, rest) ← untilQuote '"' true [] cs
    some (.ofList (← unescape? false raw), rest)
  | '\'' :: cs => do
    let (raw, rest) ← untilQuote '\'' false [] cs
    some (.ofList (← plain? false raw), rest)
  | _ => none

/-- The text at the front of `cs`, on one line or on several, with what follows it. -/
def text? : List Char → Option (String × List Char)
  | '"' :: '"' :: '"' :: cs => do
    let (raw, rest) ← untilThreeQuotes '"' true [] ((afterLineEnd? cs).getD cs)
    some (.ofList (← unescape? true raw), rest)
  | '\'' :: '\'' :: '\'' :: cs => do
    let (raw, rest) ← untilThreeQuotes '\'' false [] ((afterLineEnd? cs).getD cs)
    some (.ofList (← plain? true raw), rest)
  | cs => lineText? cs

end ModuleDeps.Toml
