import ModuleDeps.Proofs.Text.Utf8
import ModuleDeps.Text.Slice
import Mathlib.Data.List.Infix

/-!
# Parts of a text that are there

Where the characters on both sides of a byte are known, the byte is a boundary, and so the part
between two such bytes is handed out (`slice_ofList`). A search comes to the place that is asked for
if the characters in front of it hold no other one (`find?_append`).
-/

namespace ModuleDeps.Text

open Token (utf8Length)

theorem isBoundary_iff {s : String} {index : Nat} :
    IsBoundary s index ↔ ∃ xs ys, s = .ofList (xs ++ ys) ∧ index = utf8Length xs := by
  rw [IsBoundary, String.Pos.Raw.isValid_iff_exists_append]
  constructor
  · rintro ⟨t, u, rfl, h⟩
    refine ⟨t.toList, u.toList, ?_, ?_⟩
    · rw [String.ofList_append, String.ofList_toList, String.ofList_toList]
    · rw [Token.utf8Length_toList]
      exact congrArg String.Pos.Raw.byteIdx h
  · rintro ⟨xs, ys, rfl, rfl⟩
    refine ⟨.ofList xs, .ofList ys, String.ofList_append, ?_⟩
    rw [Token.utf8Length_eq]
    rfl

theorem isBoundary_ofList (xs ys : List Char) : IsBoundary (.ofList (xs ++ ys)) (utf8Length xs) :=
  isBoundary_iff.mpr ⟨xs, ys, rfl, rfl⟩

/-- The part of a text behind some characters and in front of others. -/
theorem slice_ofList (xs ys zs : List Char) :
    slice (.ofList (xs ++ (ys ++ zs))) (utf8Length xs) (utf8Length xs + utf8Length ys) =
      .ok (.ofList ys) := by
  have hstop : IsBoundary (.ofList (xs ++ (ys ++ zs))) (utf8Length xs + utf8Length ys) := by
    rw [← List.append_assoc, ← Token.utf8Length_append]
    exact isBoundary_ofList (xs ++ ys) zs
  have hbounds := And.intro (Nat.le_add_right (utf8Length xs) (utf8Length ys))
    (And.intro (isBoundary_ofList xs (ys ++ zs)) hstop)
  have hsize (cs : List Char) : utf8Length cs = (String.ofList cs).toByteArray.size := by
    rw [Token.utf8Length_eq, String.size_toByteArray]
  rw [slice, dif_pos hbounds, Except.ok.injEq, ← String.toByteArray_inj, String.toByteArray_extract]
  calc (String.ofList (xs ++ (ys ++ zs))).toByteArray.extract (utf8Length xs)
        (utf8Length xs + utf8Length ys)
      = ((String.ofList xs).toByteArray ++ (String.ofList (ys ++ zs)).toByteArray).extract
          (utf8Length xs + 0) (utf8Length xs + utf8Length ys) := by
        rw [String.ofList_append, String.toByteArray_append, Nat.add_zero]
    _ = (String.ofList (ys ++ zs)).toByteArray.extract 0 (utf8Length ys) :=
        ByteArray.extract_append_size_add' (hsize xs)
    _ = (String.ofList ys).toByteArray := by
        rw [String.ofList_append, String.toByteArray_append]
        exact ByteArray.extract_append_eq_left (hsize ys)

/-- What is behind some characters. -/
theorem slice_ofList_end (xs ys : List Char) :
    slice (.ofList (xs ++ ys)) (utf8Length xs) (String.ofList (xs ++ ys)).utf8ByteSize =
      .ok (.ofList ys) := by
  have h := slice_ofList xs ys []
  rwa [List.append_nil, ← Token.utf8Length_append, Token.utf8Length_eq (xs ++ ys)] at h

theorem byteAt_of_encode {s : String} {bs cs : List UInt8} {b : UInt8}
    (h : Utf8.encode s = bs ++ b :: cs) : byteAt s bs.length = .ok b := by
  rw [byteAt, h, List.getElem?_append_right (Nat.le_refl _), Nat.sub_self]
  rfl

/-- A byte is handed out exactly in front of the end. -/
theorem exists_byteAt_eq_ok_iff {s : String} {index : Nat} :
    (∃ b, byteAt s index = .ok b) ↔ index < s.utf8ByteSize := by
  rw [byteAt, ← Utf8.length_encode]
  cases hget : (Utf8.encode s)[index]? with
  | none => simpa using hget
  | some b => simpa using (List.getElem?_eq_some_iff.mp hget).1

/-! ### Searching -/

/-- The place that is searched for is the first one where it is found. -/
theorem find?_append {p : List Char → Bool} {xs ys : List Char}
    (hxs : ∀ x zs, x :: zs <:+ xs → p (x :: zs ++ ys) = false) (hys : ys ≠ []) (h : p ys = true) :
    find? p (xs ++ ys) = some (utf8Length xs) := by
  induction xs with
  | nil =>
    obtain ⟨y, ys, rfl⟩ := List.exists_cons_of_ne_nil hys
    rw [List.nil_append, find?, if_pos h]
    rfl
  | cons x xs ih =>
    have hx : p (x :: (xs ++ ys)) = false := hxs x xs List.suffix_rfl
    have ih := ih fun z zs hz => hxs z zs (hz.trans (List.suffix_cons x xs))
    rw [List.cons_append, find?, hx, if_neg Bool.false_ne_true, ih, Token.utf8Length_cons]
    rfl

theorem find?_eq_none {p : List Char → Bool} {xs : List Char}
    (hxs : ∀ x zs, x :: zs <:+ xs → p (x :: zs) = false) : find? p xs = none := by
  induction xs with
  | nil => rfl
  | cons x xs ih =>
    have ih := ih fun z zs hz => hxs z zs (hz.trans (List.suffix_cons x xs))
    rw [find?, hxs x xs List.suffix_rfl, if_neg Bool.false_ne_true, ih]
    rfl

end ModuleDeps.Text
