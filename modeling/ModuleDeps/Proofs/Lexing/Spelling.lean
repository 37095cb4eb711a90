import ModuleDeps.Proofs.Lexing.Lexeme

/-!
# Spelling tokens

A text spells some tokens if it is cut into them whatever follows. A word or a number at its end may
go on in what follows, so a text is said to spell its tokens only in front of something that does
not continue it (`Spells`), or in front of anything (`Seals`). Texts are put together by
`Seals.append` and its companions; a word is sealed by a character behind it that no word holds.
-/

namespace ModuleDeps.Token

/-- The characters do not go on with a word or a number. -/
def Breaks (cs : List Char) : Prop := ∀ c, cs.head? = some c → isIdentChar c = false

/-- The text is cut into the tokens, in front of whatever does not continue the last of them. -/
def Spells (s : String) (ts : List Token) : Prop :=
  ∀ rest us, Breaks rest → Cut rest us → Cut (s.toList ++ rest) (ts ++ us)

/-- The text is cut into the tokens, whatever follows. -/
def Seals (s : String) (ts : List Token) : Prop :=
  ∀ rest us, Cut rest us → Cut (s.toList ++ rest) (ts ++ us)

/-- The text opens with a character that ends any word in front of it. -/
def Parts (s : String) : Prop := ∃ c cs, s.toList = c :: cs ∧ isIdentChar c = false

/-! ### Putting texts together -/

theorem Seals.spells {s : String} {ts : List Token} (h : Seals s ts) : Spells s ts :=
  fun rest us _ hus => h rest us hus

theorem seals_empty : Seals "" [] := fun _ _ h => h

theorem Seals.append {s t : String} {ts us : List Token} (hs : Seals s ts) (ht : Seals t us) :
    Seals (s ++ t) (ts ++ us) := by
  intro rest vs h
  rw [String.toList_append, List.append_assoc, List.append_assoc]
  exact hs _ _ (ht rest vs h)

theorem Seals.append_spells {s t : String} {ts us : List Token} (hs : Seals s ts)
    (ht : Spells t us) :
    Spells (s ++ t) (ts ++ us) := by
  intro rest vs hb h
  rw [String.toList_append, List.append_assoc, List.append_assoc]
  exact hs _ _ (ht rest vs hb h)

theorem Parts.breaks {s : String} (h : Parts s) (rest : List Char) : Breaks (s.toList ++ rest) := by
  obtain ⟨c, cs, hs, hc⟩ := h
  intro d hd
  rw [hs] at hd
  obtain rfl : c = d := by simpa using hd
  exact hc

/-- A text that ends a word seals what stands in front of it. -/
theorem Spells.append {s t : String} {ts us : List Token} (hs : Spells s ts) (ht : Seals t us)
    (hp : Parts t) :
    Seals (s ++ t) (ts ++ us) := by
  intro rest vs h
  rw [String.toList_append, List.append_assoc, List.append_assoc]
  exact hs _ _ (hp.breaks rest) (ht rest vs h)

/-- A text that spells tokens is cut into them when nothing follows. -/
theorem Seals.cut {s : String} {ts : List Token} (h : Seals s ts) : Cut s.toList ts := by
  have hnil : Cut [] [] := .nil (by simp [next?, skipGap])
  simpa using h [] [] hnil

/-! ### Single tokens and blanks -/

theorem skipGap_cons {c : Char} {cs : List Char} (hc : c ≠ '/') :
    skipGap (c :: cs) = if isBlank c then skipGap cs else .ok (c :: cs) := by
  rw [skipGap] <;> simp [hc]

theorem Cut.blank {c : Char} {cs : List Char} {ts : List Token} (hc : isBlank c = true)
    (h : Cut cs ts) :
    Cut (c :: cs) ts := by
  have hnext : next? (c :: cs) = next? cs := by
    have hslash : c ≠ '/' := by
      rintro rfl
      simp [isBlank] at hc
    unfold next?
    rw [skipGap_cons hslash, if_pos hc]
  cases h with
  | nil h => exact .nil (hnext ▸ h)
  | cons h hs => exact .cons (hnext ▸ h) hs

theorem Cut.lexeme {c : Char} {cs rest : List Char} {t : Token} {ts : List Token}
    (hb : isBlank c = false)
    (hc : c ≠ '/') (h : Token.lexeme c cs = .ok (t, rest)) (hs : Cut rest ts) :
    Cut (c :: cs) (t :: ts) := by
  refine .cons ?_ hs
  unfold next?
  rw [skipGap_cons hc, if_neg (by simp [hb])]
  simp only [h]
  rfl

theorem isBlank_of_isIdentChar {c : Char} (h : isIdentChar c = true) :
    isBlank c = false ∧ c ≠ '/' ∧ c ≠ '"' := by
  refine ⟨?_, ?_, ?_⟩
  · by_contra hblank
    simp only [isBlank, Bool.not_eq_false, Bool.or_eq_true, beq_iff_eq] at hblank
    rcases hblank with ((((rfl | rfl) | rfl) | rfl) | rfl) | rfl <;> exact absurd h (by decide)
  · rintro rfl
    exact absurd h (by decide)
  · rintro rfl
    exact absurd h (by decide)

theorem isDigit_of_isIdentStart {c : Char} (h : isIdentStart c = true) : c.isDigit = false := by
  by_contra hd
  have hdigit : 48 ≤ c.toNat ∧ c.toNat ≤ 57 := Char.isDigit_iff_toNat.mp (Bool.not_eq_false _ ▸ hd)
  have hletter : (decide (65 ≤ c.val ∧ c.val ≤ 90) || (decide (97 ≤ c.val) && decide (c.val ≤ 122)) ||
      c == '_') = true := h
  simp only [Bool.or_eq_true, Bool.and_eq_true, decide_eq_true_eq, beq_iff_eq,
    UInt32.le_iff_toNat_le] at hletter
  rcases hletter with (⟨hlow, -⟩ | ⟨hlow, -⟩) | rfl
  · have : 65 ≤ c.toNat := hlow
    omega
  · have : 97 ≤ c.toNat := hlow
    omega
  · exact absurd hdigit (by decide)

/-- A run ends in front of a character that does not belong to it. -/
theorem takeWhile_append_of_stops {p : Char → Bool} {r rest : List Char}
    (hr : ∀ x ∈ r, p x = true) (hs : ∀ d, rest.head? = some d → p d = false) :
    (r ++ rest).takeWhile p = r ∧ (r ++ rest).dropWhile p = rest := by
  have hrest : rest.takeWhile p = [] ∧ rest.dropWhile p = rest := by
    cases rest with
    | nil => exact ⟨rfl, rfl⟩
    | cons c cs =>
      have hc : ¬ p c = true := by simp [hs c rfl]
      exact ⟨List.takeWhile_cons_of_neg hc, List.dropWhile_cons_of_neg hc⟩
  rw [List.takeWhile_append_of_pos hr, List.dropWhile_append_of_pos hr, hrest.1, hrest.2,
    List.append_nil]
  exact ⟨rfl, rfl⟩

theorem Breaks.stops {p : Char → Bool} {rest : List Char} (h : Breaks rest)
    (hp : ∀ x, p x = true → isIdentChar x = true) : ∀ d, rest.head? = some d → p d = false := by
  intro d hd
  by_contra hpd
  have hchar := hp d (Bool.not_eq_false _ ▸ hpd)
  rw [h d hd] at hchar
  cases hchar

theorem isIdentChar_of_isDigit {c : Char} (h : c.isDigit = true) : isIdentChar c = true := by
  simp [isIdentChar, Char.isAlphanum, h]

/-- An identifier spells itself. -/
theorem spells_ident {s : String} (h : IsWord s.toList) : Spells s [.ident s] := by
  obtain ⟨c, r, hs, hc, hr⟩ := h
  intro rest us hb hus
  have hchar := isIdentChar_of_isIdentStart hc
  obtain ⟨hblank, hslash, hquote⟩ := isBlank_of_isIdentChar hchar
  have hdigit := isDigit_of_isIdentStart hc
  obtain ⟨htake, hdrop⟩ := takeWhile_append_of_stops hr hb
  rw [hs, List.cons_append]
  refine .lexeme hblank hslash ?_ hus
  rw [Token.lexeme, if_neg hquote, if_neg (by simp [hdigit]), if_pos hc, htake, hdrop, ← hs,
    String.ofList_toList]

/-- A run of digits spells itself. -/
theorem spells_integer {s : String} (h : IsNumber s.toList) : Spells s [.integer s] := by
  obtain ⟨hne, hall⟩ := h
  obtain ⟨c, r, hs⟩ := List.exists_cons_of_ne_nil hne
  have hc : c.isDigit = true := hall c (by simp [hs])
  have hr : ∀ x ∈ r, x.isDigit = true := fun x hx => hall x (by simp [hs, hx])
  intro rest us hb hus
  obtain ⟨hblank, hslash, hquote⟩ := isBlank_of_isIdentChar (isIdentChar_of_isDigit hc)
  obtain ⟨htake, hdrop⟩ := takeWhile_append_of_stops hr (hb.stops fun _ => isIdentChar_of_isDigit)
  rw [hs, List.cons_append]
  refine .lexeme hblank hslash ?_ hus
  rw [Token.lexeme, if_neg hquote, if_pos hc, htake, hdrop, ← hs, String.ofList_toList]

theorem cut_punc {c : Char} {cs : List Char} {ts : List Token} (hc : IsMark c) (hslash : c ≠ '/')
    (h : Cut cs ts) : Cut (c :: cs) (.punc c :: ts) := by
  obtain ⟨hblank, hquote, hdigit, hstart⟩ := hc
  refine .lexeme hblank hslash ?_ h
  rw [Token.lexeme, if_neg hquote, if_neg (by simp [hdigit]), if_neg (by simp [hstart])]

theorem cut_string {body cs : List Char} {ts : List Token} (hbody : isRaw body = true)
    (h : Cut cs ts) :
    Cut ('"' :: (body ++ '"' :: cs)) (.string (.ofList body) :: ts) := by
  refine .lexeme rfl (by decide) ?_ h
  rw [Token.lexeme, if_pos rfl, stringBody_of_raw hbody]
  rfl

end ModuleDeps.Token
