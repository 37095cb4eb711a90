import Mathlib.Tactic.SplitIfs
import ModuleDeps.Token.Lexer
import ModuleDeps.Text.Utf8

/-!
# The bytes of characters

The bytes of a text are those of its characters, one after the other. A byte of ASCII is a character
of its own and stands in no other one (`eq_ofUInt8_of_mem`), so a search for such a byte finds such
a character.
-/

namespace ModuleDeps

namespace Utf8

theorem encode_eq_flatMap (s : String) : encode s = s.toList.flatMap String.utf8EncodeChar := by
  rw [encode, ← String.utf8Encode_toList, List.utf8Encode, List.data_toByteArray]

theorem encode_ofList (cs : List Char) :
    encode (.ofList cs) = cs.flatMap String.utf8EncodeChar := by
  rw [encode_eq_flatMap, String.toList_ofList]

theorem encode_ofList_append (cs ds : List Char) :
    encode (.ofList (cs ++ ds)) = encode (.ofList cs) ++ encode (.ofList ds) := by
  rw [encode_ofList, encode_ofList, encode_ofList, List.flatMap_append]

theorem encode_ofList_cons (c : Char) (cs : List Char) :
    encode (.ofList (c :: cs)) = String.utf8EncodeChar c ++ encode (.ofList cs) := by
  rw [encode_ofList, encode_ofList, List.flatMap_cons]

theorem encode_ofList_nil : encode (.ofList []) = [] := by rw [encode_ofList, List.flatMap_nil]

theorem length_encode (s : String) : (encode s).length = s.utf8ByteSize := by
  rw [encode, Array.length_toList]
  exact String.size_toByteArray

/-! ### Bytes of ASCII -/

theorem not_ofNat_lt {n : Nat} (h : 0x80 ≤ n) (h' : n < 0x100) : ¬ UInt8.ofNat n < 0x80 := by
  rw [UInt8.lt_iff_toNat_lt, UInt8.toNat_ofNat', show (0x80 : UInt8).toNat = 0x80 from rfl]
  omega

theorem ofUInt8_ofNat {c : Char} (h : c.val.toNat < 0x100) :
    Char.ofUInt8 (UInt8.ofNat c.val.toNat) = c := by
  refine Char.ext (UInt32.toNat_inj.mp ?_)
  rw [show (Char.ofUInt8 (UInt8.ofNat c.val.toNat)).val = (UInt8.ofNat c.val.toNat).toUInt32 from rfl,
    UInt8.toNat_toUInt32, UInt8.toNat_ofNat']
  omega

/-- A byte of ASCII is all of the character that it stands in. The bytes of longer characters are
all above it. -/
theorem eq_ofUInt8_of_mem {b : UInt8} {c : Char} (h : b ∈ String.utf8EncodeChar c) (hb : b < 0x80) :
    c = Char.ofUInt8 b ∧ String.utf8EncodeChar c = [b] := by
  simp only [String.utf8EncodeChar] at h ⊢
  split_ifs at h ⊢ <;> simp only [List.mem_cons, List.not_mem_nil, or_false] at h
  · subst h
    exact ⟨(ofUInt8_ofNat (by omega)).symm, rfl⟩
  · rcases h with rfl | rfl <;> exact absurd hb (not_ofNat_lt (by omega) (by omega))
  · rcases h with rfl | rfl | rfl <;> exact absurd hb (not_ofNat_lt (by omega) (by omega))
  · rcases h with rfl | rfl | rfl | rfl <;> exact absurd hb (not_ofNat_lt (by omega) (by omega))

end Utf8

/-! ### The number of bytes -/

namespace Token

theorem foldl_utf8Size (n : Nat) (cs : List Char) :
    cs.foldl (fun n c => n + c.utf8Size) n = n + (String.ofList cs).utf8ByteSize := by
  induction cs generalizing n with
  | nil => simp
  | cons c cs ih =>
    have hcons : String.ofList (c :: cs) = String.singleton c ++ String.ofList cs := by
      rw [String.singleton_eq_ofList, ← String.ofList_append]
      rfl
    rw [List.foldl_cons, ih, hcons, String.utf8ByteSize_append, String.utf8ByteSize_singleton,
      Nat.add_assoc]

theorem utf8Length_eq (cs : List Char) : utf8Length cs = (String.ofList cs).utf8ByteSize := by
  rw [utf8Length, foldl_utf8Size, Nat.zero_add]

theorem utf8Length_toList (s : String) : utf8Length s.toList = s.utf8ByteSize := by
  rw [utf8Length_eq, String.ofList_toList]

theorem length_encode_ofList (cs : List Char) :
    (Utf8.encode (.ofList cs)).length = utf8Length cs := by
  rw [Utf8.length_encode, utf8Length_eq]

@[simp] theorem utf8Length_nil : utf8Length [] = 0 := rfl

@[simp] theorem utf8Length_append (cs ds : List Char) :
    utf8Length (cs ++ ds) = utf8Length cs + utf8Length ds := by
  rw [utf8Length_eq, utf8Length_eq, utf8Length_eq, String.ofList_append, String.utf8ByteSize_append]

@[simp] theorem utf8Length_cons (c : Char) (cs : List Char) :
    utf8Length (c :: cs) = c.utf8Size + utf8Length cs := by
  rw [show c :: cs = [c] ++ cs from rfl, utf8Length_append]
  congr 1
  exact Nat.zero_add _

end Token

end ModuleDeps
