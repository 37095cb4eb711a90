import ModuleDeps.Text.Utf8

/-!
# Parts of a text

A text can be addressed by its bytes. The part between two of them is a text again only if both are
boundaries between characters and in order, so access to a text is checked: `slice` hands out the
part between two boundaries and refuses all else, and `byteAt` refuses what is no byte of the text.
The search for a place in a text gives the bytes in front of it.
-/

namespace ModuleDeps.Text

/-- An access that a text cannot answer. -/
inductive AccessError where
  /-- The part between two bytes that are not in order, or not both boundaries of the text. -/
  | slice (start stop : Nat)
  /-- A byte behind the end of the text. -/
  | byte (index : Nat)
  deriving DecidableEq, Repr

/-- What is read off a text, or the access that was refused. -/
abbrev Access (α : Type) := Except AccessError α

theorem Access.ok_bind {α β : Type} (a : α) (f : α → Access β) :
    ((.ok a : Access α) >>= f) = f a := rfl

theorem Access.bind_eq_ok_iff {α β : Type} {x : Access α} {f : α → Access β} {b : β} :
    (x >>= f) = .ok b ↔ ∃ a, x = .ok a ∧ f a = .ok b := by
  cases x with
  | error e => simp [bind, Except.bind]
  | ok a => simp [bind, Except.bind]

theorem Access.map_eq_ok_iff {α β : Type} {x : Access α} {f : α → β} {b : β} :
    f <$> x = .ok b ↔ ∃ a, x = .ok a ∧ f a = b := by
  cases x with
  | error e => simp [Functor.map, Except.map]
  | ok a => simp [Functor.map, Except.map]

/-- A character starts at the byte, or the text ends there. -/
def IsBoundary (s : String) (index : Nat) : Prop := String.Pos.Raw.IsValid s ⟨index⟩

instance (s : String) (index : Nat) : Decidable (IsBoundary s index) :=
  inferInstanceAs (Decidable (String.Pos.Raw.IsValid s ⟨index⟩))

/-- The part of a text from the byte `start` up to the byte `stop`. -/
def slice (s : String) (start stop : Nat) : Access String :=
  if h : start ≤ stop ∧ IsBoundary s start ∧ IsBoundary s stop then
    .ok (String.extract (s := s) ⟨⟨start⟩, h.2.1⟩ ⟨⟨stop⟩, h.2.2⟩)
  else
    .error (.slice start stop)

/-- The byte of a text at `index`. -/
def byteAt (s : String) (index : Nat) : Access UInt8 :=
  match (Utf8.encode s)[index]? with
  | some b => .ok b
  | none => .error (.byte index)

/-- The number of bytes in front of the first character from which on a text is as `p` asks. -/
def find? (p : List Char → Bool) : List Char → Option Nat
  | [] => none
  | c :: cs => if p (c :: cs) then some 0 else (find? p cs).map (c.utf8Size + ·)

/-! ### What is handed out -/

theorem IsBoundary.le {s : String} {index : Nat} (h : IsBoundary s index) :
    index ≤ s.utf8ByteSize := h.le_utf8ByteSize

/-- A part is handed out exactly between two boundaries in order. -/
theorem exists_slice_eq_ok_iff {s : String} {start stop : Nat} :
    (∃ t, slice s start stop = .ok t) ↔
      start ≤ stop ∧ stop ≤ s.utf8ByteSize ∧ IsBoundary s start ∧ IsBoundary s stop := by
  by_cases h : start ≤ stop ∧ IsBoundary s start ∧ IsBoundary s stop
  · rw [slice, dif_pos h]
    exact ⟨fun _ => ⟨h.1, h.2.2.le, h.2⟩, fun _ => ⟨_, rfl⟩⟩
  · rw [slice, dif_neg h]
    exact ⟨fun ⟨_, ht⟩ => (nomatch ht), fun ⟨horder, _, hb⟩ => absurd ⟨horder, hb⟩ h⟩

/-- The part has the bytes between its ends. -/
theorem utf8ByteSize_of_slice {s t : String} {start stop : Nat} (h : slice s start stop = .ok t) :
    start + t.utf8ByteSize = stop ∧ stop ≤ s.utf8ByteSize := by
  by_cases hb : start ≤ stop ∧ IsBoundary s start ∧ IsBoundary s stop
  · rw [slice, dif_pos hb, Except.ok.injEq] at h
    have horder := hb.1
    have hle := hb.2.2.le
    rw [← h, ← String.size_toByteArray, String.toByteArray_extract, ByteArray.size_extract,
      String.size_toByteArray]
    dsimp only
    omega
  · rw [slice, dif_neg hb] at h
    cases h

theorem utf8ByteSize_pos_of_toList {s : String} {c : Char} {cs : List Char}
    (h : s.toList = c :: cs) : 0 < s.utf8ByteSize := by
  refine Nat.pos_of_ne_zero fun hzero => ?_
  rw [String.utf8ByteSize_eq_zero_iff.mp hzero] at h
  cases h

/-- A place that is not the first is found behind at least one byte. -/
theorem find?_pos {p : List Char → Bool} {c : Char} {cs : List Char} {n : Nat}
    (hp : p (c :: cs) = false) (h : find? p (c :: cs) = some n) : 0 < n := by
  simp only [find?, hp, Bool.false_eq_true, if_false, Option.map_eq_some_iff] at h
  obtain ⟨m, -, rfl⟩ := h
  have := c.utf8Size_pos
  omega

end ModuleDeps.Text
