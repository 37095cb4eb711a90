import ModuleDeps.Toml.Item

/-!
# TOML numbers, dates and times

The values that are written without quotes and brackets. Each is one word of letters, digits and
signs, and the word as a whole has to be of one of the forms. Integers take 64 bits with a sign, in
every base. A float may not be too large for 64 bits, unless it is negative; one that is too small
is zero. Dates are those of the calendar, and a minute may have 61 seconds.
-/

namespace ModuleDeps.Toml

/-! ### Integers -/

/-- The value of a digit. -/
def digitValue (c : Char) : Nat :=
  if c.isDigit then c.toNat - '0'.toNat
  else if c.isUpper then c.toNat - 'A'.toNat + 10
  else c.toNat - 'a'.toNat + 10

/-- The character is a digit in a base up to 16. -/
def isDigitOf (base : Nat) (c : Char) : Bool :=
  (c.isDigit || ('a' ≤ c && c ≤ 'f') || ('A' ≤ c && c ≤ 'F')) && digitValue c < base

/-- The digits of a number in which underscores may stand between digits. -/
def digitsOf? (base : Nat) (cs : List Char) : Option (List Char) :=
  let groups := cs.splitOn '_'
  if groups.all fun g => !g.isEmpty && g.all (isDigitOf base) then some groups.flatten else none

/-- The number that digits denote. -/
def valueOf (base : Nat) (digits : List Char) : Nat :=
  digits.foldl (fun n c => n * base + digitValue c) 0

/-- The digits of a decimal number without needless zeros in front. -/
def decimalDigits? (cs : List Char) : Option (List Char) := do
  let digits ← digitsOf? 10 cs
  if digits.head? = some '0' ∧ digits.length > 1 then none else some digits

/-- The sign of a number, and the number without it. -/
def splitSign : List Char → Bool × List Char
  | '-' :: cs => (true, cs)
  | '+' :: cs => (false, cs)
  | cs => (false, cs)

/-- The greatest integer of 64 bits with a sign. -/
def maxInteger : Int := 9223372036854775807

/-- The integer that a word denotes. -/
def integer? (word : List Char) : Option Int := do
  let n : Int ← match word with
    | '0' :: 'x' :: cs => (digitsOf? 16 cs).map fun ds => (valueOf 16 ds : Int)
    | '0' :: 'o' :: cs => (digitsOf? 8 cs).map fun ds => (valueOf 8 ds : Int)
    | '0' :: 'b' :: cs => (digitsOf? 2 cs).map fun ds => (valueOf 2 ds : Int)
    | _ =>
      let (isNegative, cs) := splitSign word
      (decimalDigits? cs).map fun ds => if isNegative then -(valueOf 10 ds : Int) else valueOf 10 ds
  if -maxInteger - 1 ≤ n ∧ n ≤ maxInteger then some n else none

/-! ### Floats -/

/-- The least magnitude that is rounded to infinity. -/
def infinityBound : Nat := Nat.pow 2 1024 - Nat.pow 2 970

/-- A number of `digits` times a power of ten is rounded to infinity. -/
def isTooLarge (digits : List Char) (exponent : Int) : Bool :=
  let m := valueOf 10 digits
  let size : Int := (Nat.repr m).length + exponent
  if m = 0 || size ≤ 308 then false
  else if size > 310 then true
  else if 0 ≤ exponent then infinityBound ≤ m * Nat.pow 10 exponent.toNat
  else infinityBound * Nat.pow 10 (-exponent).toNat ≤ m

/-- The character belongs to the digits of a number. -/
def isDigitOrUnderscore (c : Char) : Bool := c.isDigit || c == '_'

/-- The word is a number with a fraction or an exponent, or with both, in range. -/
def isFiniteFloat (word : List Char) : Bool := Option.isSome do
  let (isNegative, cs) := splitSign word
  let whole ← decimalDigits? (cs.takeWhile isDigitOrUnderscore)
  let rest := cs.dropWhile isDigitOrUnderscore
  let (fraction, rest) ← match rest with
    | '.' :: cs => do
      let digits ← digitsOf? 10 (cs.takeWhile isDigitOrUnderscore)
      some (digits, cs.dropWhile isDigitOrUnderscore)
    | _ => some ([], rest)
  let exponent : Int ← match rest with
    | [] => if fraction.isEmpty then none else some 0
    | e :: cs =>
      if e = 'e' ∨ e = 'E' then
        let (isNegative, cs) := splitSign cs
        (digitsOf? 10 cs).map fun ds => if isNegative then -(valueOf 10 ds : Int) else valueOf 10 ds
      else none
  if !isNegative && isTooLarge (whole ++ fraction) (exponent - fraction.length) then none else some ()

/-- The word is a float. -/
def isFloat (word : List Char) : Bool :=
  let unsigned := String.ofList (splitSign word).2
  unsigned = "inf" || unsigned = "nan" || isFiniteFloat word

/-! ### Dates and times -/

/-- The number that decimal digits denote. -/
def decimal? (cs : List Char) : Option Nat :=
  if cs.all Char.isDigit then some (valueOf 10 cs) else none

/-- The number of days of a month. -/
def daysIn (year month : Nat) : Nat :=
  if month = 2 then
    if year % 4 = 0 ∧ (year % 100 ≠ 0 ∨ year % 400 = 0) then 29 else 28
  else if month = 4 ∨ month = 6 ∨ month = 9 ∨ month = 11 then 30
  else 31

/-- What follows a date at the front of a word. -/
def afterDate? : List Char → Option (List Char)
  | y₁ :: y₂ :: y₃ :: y₄ :: '-' :: m₁ :: m₂ :: '-' :: d₁ :: d₂ :: rest => do
    let year ← decimal? [y₁, y₂, y₃, y₄]
    let month ← decimal? [m₁, m₂]
    let day ← decimal? [d₁, d₂]
    if 1 ≤ month ∧ month ≤ 12 ∧ 1 ≤ day ∧ day ≤ daysIn year month then some rest else none
  | _ => none

/-- What follows a time of day at the front of a word. -/
def afterTime? : List Char → Option (List Char)
  | h₁ :: h₂ :: ':' :: m₁ :: m₂ :: ':' :: s₁ :: s₂ :: rest => do
    let hour ← decimal? [h₁, h₂]
    let minute ← decimal? [m₁, m₂]
    let second ← decimal? [s₁, s₂]
    if 24 ≤ hour ∨ 60 ≤ minute ∨ 61 ≤ second then none
    else
      match rest with
      | '.' :: c :: cs => if c.isDigit then some (cs.dropWhile Char.isDigit) else none
      | '.' :: [] => none
      | _ => some rest
  | _ => none

/-- The word is an offset from universal time, or empty. -/
def isOffset : List Char → Bool
  | [] => true
  | ['Z'] | ['z'] => true
  | [sign, h₁, h₂, ':', m₁, m₂] =>
    (sign == '+' || sign == '-') &&
      (decimal? [h₁, h₂]).any (· < 24) && (decimal? [m₁, m₂]).any (· < 60)
  | _ => false

/-- The word is a time of day with an offset or without. -/
def isTimeWithOffset (word : List Char) : Bool := (afterTime? word).any isOffset

/-- The word is a date, a time, or both with a letter between them. -/
def isDatetime (word : List Char) : Bool :=
  match afterDate? word with
  | some [] => true
  | some (c :: rest) => (c == 'T' || c == 't') && isTimeWithOffset rest
  | none => afterTime? word == some []

/-! ### Words -/

/-- The character can be part of a word. -/
def isWordChar (c : Char) : Bool := c.isAlphanum || "_+-.:".toList.contains c

/-- The value that a word denotes. -/
def scalar? (word : List Char) : Option Item :=
  if word = "true".toList then some (.boolean true)
  else if word = "false".toList then some (.boolean false)
  else if isDatetime word then some (.datetime (.ofList word))
  else if isFloat word then some (.float (.ofList word))
  else (integer? word).map .integer

end ModuleDeps.Toml
