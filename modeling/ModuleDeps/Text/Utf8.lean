/-!
# UTF-8

The bytes of a text, and the characters that bytes show. Bytes that are not UTF-8 are shown with a
replacement character for each maximal part of a character that breaks off, and for each byte that
no character starts with.
-/

namespace ModuleDeps.Utf8

/-- The bytes of a text. -/
def encode (s : String) : List UInt8 := s.toByteArray.data.toList

/-- The text that bytes encode, if they are valid. -/
def decode? (bs : List UInt8) : Option String := String.fromUTF8? ⟨bs.toArray⟩

@[simp] theorem decode?_encode (s : String) : decode? (encode s) = some s := by
  simp [decode?, encode, String.fromUTF8?, s.isValidUTF8, String.fromUTF8]

/-- What is shown for bytes that are no character. -/
def replacement : Char := '\ufffd'

/-- What the first byte of a character says of it. -/
structure Lead where
  /-- The number of bytes that follow. -/
  count : Nat
  /-- The least value of the next byte. -/
  low : UInt8
  /-- The greatest value of the next byte. -/
  high : UInt8
  /-- The bits that the first byte gives. -/
  bits : Nat

/-- What a byte says of the character it starts. The bounds on the next byte leave out overlong
forms, surrogates and numbers above the last character. -/
def Lead.ofByte? (b : UInt8) : Option Lead :=
  let n := b.toNat
  if n < 0x80 then some ⟨0, 0x80, 0xbf, n⟩
  else if n < 0xc2 then none
  else if n < 0xe0 then some ⟨1, 0x80, 0xbf, n % 0x20⟩
  else if n = 0xe0 then some ⟨2, 0xa0, 0xbf, 0⟩
  else if n = 0xed then some ⟨2, 0x80, 0x9f, 0xd⟩
  else if n < 0xf0 then some ⟨2, 0x80, 0xbf, n % 0x10⟩
  else if n = 0xf0 then some ⟨3, 0x90, 0xbf, 0⟩
  else if n < 0xf4 then some ⟨3, 0x80, 0xbf, n % 0x8⟩
  else if n = 0xf4 then some ⟨3, 0x80, 0x8f, 4⟩
  else none

/-- Takes `count` further bytes of a character, the next one between `low` and `high`: the number
of the character, or `none` where it breaks off, and the bytes that are left. -/
def continued : (count : Nat) → (low high : UInt8) → (bits : Nat) → List UInt8 → Option Nat × List UInt8
  | 0, _, _, bits, bs => (some bits, bs)
  | _ + 1, _, _, _, [] => (none, [])
  | count + 1, low, high, bits, b :: bs =>
    if low ≤ b ∧ b ≤ high then continued count 0x80 0xbf (bits * 64 + b.toNat % 64) bs
    else (none, b :: bs)

theorem length_continued_le (count : Nat) (low high : UInt8) (bits : Nat) (bs : List UInt8) :
    (continued count low high bits bs).2.length ≤ bs.length := by
  fun_induction continued count low high bits bs with
  | case1 => simp
  | case2 => simp
  | case3 => simp; omega
  | case4 => simp

/-- The characters that bytes show. -/
def decodeLossy : List UInt8 → List Char
  | [] => []
  | b :: bs =>
    match Lead.ofByte? b with
    | none => replacement :: decodeLossy bs
    | some lead =>
      let r := continued lead.count lead.low lead.high lead.bits bs
      (r.1.elim replacement Char.ofNat) :: decodeLossy r.2
termination_by bs => bs.length
decreasing_by
  · simp
  · have := length_continued_le lead.count lead.low lead.high lead.bits bs
    simp; omega

/-- The text that bytes show: the text they encode, if they are valid. -/
def display (bs : List UInt8) : String := (decode? bs).getD (.ofList (decodeLossy bs))

end ModuleDeps.Utf8
