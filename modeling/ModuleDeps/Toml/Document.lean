import ModuleDeps.Toml.Text

/-!
# TOML documents

Reads a document into statements, a line at a time, and the statements into a table. A value may go
over several lines only inside three quotes or inside the brackets of an array; an inline table
stands on one line.

Keys of `maxDepth` parts or more are refused, and so are values with `maxDepth` brackets or more
inside one another. The reader of a value is defined by recursion on how many more may open.
-/

namespace ModuleDeps.Toml

/-- As many parts of a key, or brackets inside one another, are too many. -/
def maxDepth : Nat := 80

/-- A reader reads a value off the front of a list of characters and gives back those behind it. -/
abbrev Reader (α : Type) := StateT (List Char) Option α

namespace Reader

variable {α : Type}

/-- The next character, which is not taken. -/
def front : Reader (Option Char) := fun cs => some (cs.head?, cs)

/-- Takes the next character if it is `c`, and says whether it was. -/
def accept (c : Char) : Reader Bool := fun cs =>
  match cs with
  | [] => some (false, [])
  | d :: rest => if d = c then some (true, rest) else some (false, d :: rest)

/-- Takes the character `c`. -/
def symbol (c : Char) : Reader Unit := do
  if ← accept c then pure () else failure

/-- Takes the characters of a class. -/
def taking (p : Char → Bool) : Reader (List Char) := fun cs => some (cs.takeWhile p, cs.dropWhile p)

/-- Skips spaces and tabs. -/
def blanks : Reader Unit := fun cs => some ((), cs.dropWhile isBlank)

/-- Reads items as long as `item` finds one, `acc` being those found so far in reverse. An item that
takes no character is refused. -/
def manyFrom (item : Reader (Option α)) (acc : List α) (cs : List Char) : Option (List α × List Char) :=
  match item cs with
  | none => none
  | some (none, rest) => some (acc.reverse, rest)
  | some (some a, rest) => if rest.length < cs.length then manyFrom item (a :: acc) rest else none
termination_by cs.length

/-- Reads items as long as `item` finds one. -/
def many (item : Reader (Option α)) : Reader (List α) := manyFrom item []

/-- An item with the character `c` in front of it, if `c` comes next. -/
def after (c : Char) (item : Reader α) : Reader (Option α) := do
  if ← accept c then some <$> item else pure none

/-! ### Keys -/

/-- The character can stand in a key without quotes. -/
def isBareKeyChar (c : Char) : Bool := c.isAlphanum || c == '_' || c == '-'

/-- A part of a key: a text on one line, or a word without quotes. -/
def keyPart : Reader String := do
  blanks
  let part ← match ← front with
    | some '"' | some '\'' => lineText?
    | _ => do
      let word ← taking isBareKeyChar
      if word.isEmpty then failure else pure (.ofList word)
  blanks
  pure part

/-- `part ('.' part)*`. -/
def key : Reader (List String) := do
  let keys := (← keyPart) :: (← many (after '.' keyPart))
  if keys.length < maxDepth then pure keys else failure

/-! ### Values -/

/-- What follows the blanks, line ends and comments at the front. -/
def skipGap (inComment : Bool) : List Char → List Char
  | [] => []
  | '\n' :: rest => skipGap false rest
  | '\r' :: '\n' :: rest => skipGap false rest
  | c :: rest =>
    if inComment && isTextChar c then skipGap true rest
    else if !inComment && isBlank c then skipGap false rest
    else if !inComment && c == '#' then skipGap true rest
    else c :: rest

/-- Skips blanks, line ends and comments. -/
def gap : Reader Unit := fun cs => some ((), skipGap false cs)

/-- A value without quotes and brackets. A space instead of the letter may separate a date from a
time. -/
def scalar : Reader Item := do
  let word ← taking isWordChar
  match afterDate? word, ← get with
  | some [], ' ' :: c :: _ =>
    if c.isDigit then
      symbol ' '
      let time ← taking isWordChar
      if isTimeWithOffset time then pure (.datetime (.ofList (word ++ ' ' :: time))) else failure
    else
      pure (.datetime (.ofList word))
  | _, _ => liftM (scalar? word)

/-- A value in an array and the comma behind it, which is not needed before the end. -/
def element (value : Reader Item) : Reader (Option Item) := do
  gap
  if (← front) = some ']' then
    pure none
  else
    let item ← value
    gap
    let isSeparated ← accept ','
    if isSeparated ∨ (← front) = some ']' then pure (some item) else failure

/-- `key '=' value`. -/
def assignment (value : Reader Item) : Reader (List String × Item) := do
  let keys ← key
  symbol '='
  blanks
  let item ← value
  blanks
  pure (keys, item)

/-- The rest of an inline table. -/
def entries (value : Reader Item) : Reader (List (List String × Item)) := do
  blanks
  if (← front) = some '\x7d' then
    pure []
  else
    pure ((← assignment value) :: (← many (after ',' (assignment value))))

/-- A value without brackets. -/
def leaf : Reader Item := do
  match ← front with
  | some '"' | some '\'' => .string <$> text?
  | _ => scalar

/-- A value in which brackets may be `depth` deep. -/
def valueWithin : (depth : Nat) → Reader Item
  | 0 => leaf
  | depth + 1 => do
    match ← front with
    | some '[' =>
      symbol '['
      let items ← many (element (valueWithin depth))
      symbol ']'
      pure (.array items)
    | some '\x7b' =>
      symbol '\x7b'
      let pairs ← entries (valueWithin depth)
      symbol '\x7d'
      .inlineTable <$> liftM (pairs.foldlM (fun (t : Table) p => t.assign p.1 p.2 .header) [])
    | _ => leaf

/-- A value. -/
def value : Reader Item := valueWithin (maxDepth - 1)

/-! ### Lines -/

/-- Takes the rest of a line on which nothing more is said. -/
def lineEnd : Reader Unit := fun cs =>
  let cs := cs.dropWhile isBlank
  let cs := if cs.head? = some '#' then cs.dropWhile isTextChar else cs
  if cs.isEmpty then some ((), []) else (afterLineEnd? cs).map ((), ·)

/-- What a line says. -/
def statement : Reader Statement := do
  if ← accept '[' then
    if ← accept '[' then
      let keys ← key
      symbol ']'
      symbol ']'
      pure (.element keys)
    else
      let keys ← key
      symbol ']'
      pure (.table keys)
  else
    let (keys, item) ← assignment value
    pure (.assign keys item)

/-- A line, if there is one more, with what it says, if it says anything. -/
def line : Reader (Option (Option Statement)) := do
  blanks
  match ← front with
  | none => pure none
  | some c =>
    let said ← if c = '#' ∨ c = '\n' ∨ c = '\r' then pure none else some <$> statement
    lineEnd
    pure (some said)

end Reader

/-! ### Documents -/

/-- The statements of a document, which may begin with a byte order mark. -/
def statements? (text : String) : Option (List Statement) := do
  let cs := text.toList
  let cs := if cs.head? = some '\uFEFF' then cs.tail else cs
  let (lines, _) ← Reader.many Reader.line cs
  some (lines.filterMap id)

/-- The table that a document says. -/
def Table.ofText? (text : String) : Option Table := do
  Table.build [] [] (← statements? text)

end ModuleDeps.Toml
