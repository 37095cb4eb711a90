/-!
# Tokens

The tokens of a module map: identifiers, string literals, runs of digits and single characters of
punctuation, with two tokens that no lexed text holds, the end of the input and a place where
nothing can be read. A token is shown as its kind and its text, and nothing in the text is escaped.
-/

namespace ModuleDeps

/-- A token of a module map. -/
inductive Token where
  /-- An identifier; the keywords are identifiers too. -/
  | ident (text : String)
  /-- A string literal, with the text between its quotes as it is written. -/
  | string (text : String)
  /-- A run of digits. -/
  | integer (text : String)
  /-- One character of punctuation. -/
  | punc (char : Char)
  /-- The end of the input. -/
  | eof
  /-- A place where no token can be read. -/
  | invalid
  deriving DecidableEq, Repr, Inhabited

namespace Token

/-- The text of a token; the end of the input and an invalid token have none. -/
def text : Token → String
  | ident s | string s | integer s => s
  | punc c => String.singleton c
  | eof | invalid => ""

/-- The kind and the text of a token, as messages show it. -/
def describe : Token → String
  | ident s => "IDENT(" ++ s ++ ")"
  | string s => "STRING(\"" ++ s ++ "\")"
  | integer s => "INTEGER(" ++ s ++ ")"
  | punc c => "PUNC(" ++ String.singleton c ++ ")"
  | eof => "END"
  | invalid => "INVALID"

instance : ToString Token := ⟨describe⟩

/-! ### What a token is compared with -/

/-- The token is the identifier `name`. -/
def isIdent (t : Token) (name : String) : Bool := t == ident name

/-- The token is one of the identifiers `names`. -/
def isIdentOf (t : Token) (names : List String) : Bool := names.any t.isIdent

/-- The token is the string literal with the text `s`. -/
def isString (t : Token) (s : String) : Bool := t == string s

/-- The token is the run of digits `s`. -/
def isInteger (t : Token) (s : String) : Bool := t == integer s

/-- The token is the punctuation `c`. -/
def isPunc (t : Token) (c : Char) : Bool := t == punc c

@[simp] theorem isIdent_iff {t : Token} {name : String} : t.isIdent name = true ↔ t = ident name := by
  simp [isIdent]

@[simp] theorem isIdentOf_iff {t : Token} {names : List String} :
    t.isIdentOf names = true ↔ ∃ name ∈ names, t = ident name := by
  simp [isIdentOf]

@[simp] theorem isString_iff {t : Token} {s : String} : t.isString s = true ↔ t = string s := by
  simp [isString]

@[simp] theorem isInteger_iff {t : Token} {s : String} : t.isInteger s = true ↔ t = integer s := by
  simp [isInteger]

@[simp] theorem isPunc_iff {t : Token} {c : Char} : t.isPunc c = true ↔ t = punc c := by
  simp [isPunc]

end Token

end ModuleDeps
