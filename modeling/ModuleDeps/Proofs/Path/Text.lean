import ModuleDeps.Proofs.Path.Parts
import ModuleDeps.Proofs.Text.Utf8

/-!
# Paths that are text

The bytes of a path may be anything. In UTF-8 a slash is a byte of its own and part of no other
character, so cutting a text at slashes gives texts. It follows that a path that a text refers to
is text again (`isText_reference`), whatever the path that refers to it looks like.
-/

namespace ModuleDeps

/-- The bytes are the UTF-8 of some text. -/
def Utf8.IsText (bs : List UInt8) : Prop := ∃ s : String, encode s = bs

namespace Utf8

theorem isText_iff {bs : List UInt8} :
    IsText bs ↔ ∃ cs : List Char, cs.flatMap String.utf8EncodeChar = bs :=
  ⟨fun ⟨s, h⟩ => ⟨s.toList, by rw [← encode_eq_flatMap, h]⟩, fun ⟨cs, h⟩ =>
    ⟨.ofList cs, by rw [encode_ofList, h]⟩⟩

theorem encode_of_decode? {bs : List UInt8} {s : String} (h : decode? bs = some s) :
    encode s = bs := by
  simp only [decode?, String.fromUTF8?] at h
  split at h
  · simp only [Option.some.injEq] at h
    rw [← h]
    rfl
  · simp at h

theorem decode?_eq_some_iff {bs : List UInt8} {s : String} : decode? bs = some s ↔ encode s = bs :=
  ⟨encode_of_decode?, fun h => h ▸ decode?_encode s⟩

theorem isText_encode (s : String) : IsText (encode s) := ⟨s, rfl⟩

theorem isText_nil : IsText [] := isText_encode ""

theorem IsText.append {xs ys : List UInt8} (hx : IsText xs) (hy : IsText ys) :
    IsText (xs ++ ys) := by
  obtain ⟨cs, rfl⟩ := isText_iff.mp hx
  obtain ⟨ds, rfl⟩ := isText_iff.mp hy
  exact isText_iff.mpr ⟨cs ++ ds, List.flatMap_append⟩

/-! ### Cutting at a slash -/

theorem utf8EncodeChar_slash : String.utf8EncodeChar '/' = [Path.slash] := by decide

theorem eq_slash_of_mem {c : Char} (h : Path.slash ∈ String.utf8EncodeChar c) : c = '/' :=
  (eq_ofUInt8_of_mem h (by decide)).1

theorem isText_of_append_slash {xs ys : List UInt8} (h : IsText (xs ++ Path.slash :: ys)) :
    IsText xs ∧ IsText ys := by
  obtain ⟨cs, hcs⟩ := isText_iff.mp h
  clear h
  -- the slash is the first character, or lies behind it
  induction cs generalizing xs with
  | nil => simp at hcs
  | cons c cs ih =>
    have hc : IsText (String.utf8EncodeChar c) := isText_iff.mpr ⟨[c], by simp⟩
    rw [List.flatMap_cons] at hcs
    rcases List.append_eq_append_iff.mp hcs with ⟨zs, rfl, hzs⟩ | ⟨zs, hxs, hzs⟩
    · obtain ⟨hz, hy⟩ := ih hzs
      exact ⟨hc.append hz, hy⟩
    · cases zs with
      | nil =>
        obtain ⟨-, hy⟩ := ih (show cs.flatMap _ = [] ++ Path.slash :: ys from hzs.symm)
        rw [List.append_nil] at hxs
        exact ⟨hxs ▸ hc, hy⟩
      | cons z zs =>
        obtain ⟨rfl, rfl⟩ : Path.slash = z ∧ ys = zs ++ cs.flatMap String.utf8EncodeChar := by
          simpa using hzs
        obtain rfl := eq_slash_of_mem (hxs ▸ List.mem_append_right xs List.mem_cons_self)
        rw [utf8EncodeChar_slash] at hxs
        obtain ⟨rfl, rfl⟩ : xs = [] ∧ zs = [] := by
          cases xs with
          | nil => exact ⟨rfl, (List.cons.inj hxs).2.symm⟩
          | cons x xs => simp at hxs
        exact ⟨isText_nil, isText_iff.mpr ⟨cs, rfl⟩⟩

end Utf8

namespace Path

open Utf8

/-- The path is text. -/
def IsText (p : Path) : Prop := Utf8.IsText p.bytes

theorem text?_eq_some_iff {p : Path} {s : String} : p.text? = some s ↔ ofString s = p := by
  obtain ⟨bs⟩ := p
  simp [text?, ofString, decode?_eq_some_iff]

theorem isText_iff_exists {p : Path} : p.IsText ↔ ∃ s, p.text? = some s := by
  obtain ⟨bs⟩ := p
  simp [IsText, Utf8.IsText, text?, decode?_eq_some_iff]

theorem isText_ofString (s : String) : (ofString s).IsText := isText_encode s

theorem cuttable_isText : Cuttable Utf8.IsText where
  slash := ⟨"/", by decide⟩
  dot := ⟨".", by decide⟩
  append hx hy := hx.append hy
  cut h := isText_of_append_slash h

/-- A module map that is named by a text is text, seen from a module map that is. -/
theorem isText_reference {p : Path} (h : p.IsText) (filename : String) :
    (p.reference filename).IsText :=
  cuttable_isText.reference h (isText_ofString filename)

end Path

end ModuleDeps
