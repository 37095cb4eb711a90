import ModuleDeps.Proofs.Lexing.Cutting
import ModuleDeps.Proofs.Text.Utf8

/-!
# Lexing is exact

A text is cut into tokens if there is a cutting of it, and then the tokens are those of its pieces;
there is never more than one (`IsCutting.unique`). If there is none, the text can be cut up to a
literal or comment that is not closed, and lexing says where that one opens. `tokenize_exact` puts
the three together.

Both outcomes come from one fact: whatever stands behind a cutting, lexing gets past it and comes to
what stands there (`IsCutting.lexAll_append`).
-/

namespace ModuleDeps

namespace Token

/-- The tokens of pieces. -/
def tokensOf (ps : List Piece) : List Token := ps.map (·.token)

/-! ### Lexing gets past a cutting -/

theorem lexAll_congr {acc : List Token} {cs ds : List Char} (h : next? cs = next? ds) :
    lexAll acc cs = lexAll acc ds := by
  rw [lexAll.eq_def acc cs, lexAll.eq_def acc ds]
  split <;> split <;> simp_all

theorem lexAll_of_next? {acc : List Token} {t : Token} {cs rest : List Char}
    (h : next? cs = .ok (some (t, rest))) : lexAll acc cs = lexAll (t :: acc) rest := by
  rw [lexAll]
  split <;> simp_all

theorem lexAll_of_isUnclosed {acc : List Token} {u : Unclosed} {cs : List Char}
    (h : IsUnclosed u cs) : lexAll acc cs = .error u := by
  have := h.next?_eq
  rw [lexAll]
  split <;> simp_all

theorem lexAll_nil (acc : List Token) : lexAll acc [] = .ok acc.reverse := by
  have : next? [] = .ok none := by simp [next?, skipGap]
  rw [lexAll]
  split <;> simp_all

/-- Lexing comes to what stands behind a cutting, with the tokens of the cutting. -/
theorem IsCutting.lexAll_append {rest g cs : List Char} {ps : List Piece}
    (h : IsCutting rest ps g cs) (acc : List Token) :
    lexAll acc (cs ++ rest) = lexAll ((tokensOf ps).reverse ++ acc) rest := by
  induction h generalizing acc with
  | last hg => exact lexAll_congr hg.next?_append
  | @piece p ps g cs hg hl _ ih =>
    calc lexAll acc (p.gap ++ (p.lexeme ++ cs) ++ rest)
        = lexAll acc (p.lexeme ++ (cs ++ rest)) := by
          rw [List.append_assoc, List.append_assoc]
          exact lexAll_congr hg.next?_append
      _ = lexAll (p.token :: acc) (cs ++ rest) := lexAll_of_next? hl.next?_append
      _ = lexAll ((tokensOf (p :: ps)).reverse ++ acc) rest := by
          rw [ih]
          simp [tokensOf]

theorem IsCutting.lexAll_eq_ok {g cs : List Char} {ps : List Piece} (h : IsCutting [] ps g cs) :
    lexAll [] cs = .ok (tokensOf ps) := by
  have := h.lexAll_append []
  rwa [List.append_nil, List.append_nil, lexAll_nil, List.reverse_reverse] at this

theorem IsCutting.lexAll_eq_error {u : Unclosed} {rest g cs : List Char} {ps : List Piece}
    (h : IsCutting rest ps g cs) (hu : IsUnclosed u rest) : lexAll [] (cs ++ rest) = .error u := by
  rw [h.lexAll_append, lexAll_of_isUnclosed hu]

/-- Every text is cut up to its end, or up to what is not closed. -/
theorem exists_isCutting (cs : List Char) : ∃ cut rest ps g, cs = cut ++ rest ∧
    IsCutting rest ps g cut ∧ (rest = [] ∨ ∃ u, IsUnclosed u rest) := by
  obtain ⟨g, rest, rfl, hg, hrest⟩ := exists_step cs
  rcases hrest with rfl | ⟨t, l, rest, rfl, hl⟩ | hu
  · exact ⟨g, [], [], g, rfl, .last hg, .inl rfl⟩
  · -- the lexeme has a character, so what follows it is shorter
    have hlt : rest.length < (g ++ (l ++ rest)).length := by
      obtain ⟨c, r, rfl, -, -⟩ := hl.exists_cons
      simp
      omega
    obtain ⟨cut, rest', ps, g', rfl, hcut, hend⟩ := exists_isCutting rest
    exact ⟨g ++ (l ++ cut), rest', ⟨g, l, t⟩ :: ps, g', by simp, .piece hg hl hcut, hend⟩
  · exact ⟨g, rest, [], g, rfl, .last hg, .inr hu⟩
termination_by cs.length

theorem exists_isCutting_of_lexAll_eq_ok {cs : List Char} {ts : List Token}
    (h : lexAll [] cs = .ok ts) : ∃ ps g, IsCutting [] ps g cs ∧ ts = tokensOf ps := by
  obtain ⟨cut, rest, ps, g, rfl, hps, hend⟩ := exists_isCutting cs
  rcases hend with rfl | ⟨u, hu⟩
  · rw [List.append_nil] at h ⊢
    rw [hps.lexAll_eq_ok, Except.ok.injEq] at h
    exact ⟨ps, g, hps, h.symm⟩
  · rw [hps.lexAll_eq_error hu] at h
    cases h

/-- Where lexing fails, the text is cut up to what is not closed. -/
theorem exists_isCutting_of_lexAll_eq_error {content : String} {u : Unclosed}
    (h : lexAll [] content.toList = .error u) : ∃ before rest : String, ∃ ps g,
      content = before ++ rest ∧ IsCutting rest.toList ps g before.toList ∧
        IsUnclosed u rest.toList := by
  obtain ⟨cut, rest, ps, g, hcut, hps, hend⟩ := exists_isCutting content.toList
  rw [hcut] at h
  rcases hend with rfl | ⟨u', hu⟩
  · rw [List.append_nil, hps.lexAll_eq_ok] at h
    cases h
  · rw [hps.lexAll_eq_error hu, Except.error.injEq] at h
    subst h
    have hcontent : content = String.ofList cut ++ String.ofList rest := by
      rw [← String.ofList_append, ← hcut, String.ofList_toList]
    rw [← String.toList_ofList (l := rest)] at hu hps
    rw [← String.toList_ofList (l := cut)] at hps
    exact ⟨.ofList cut, .ofList rest, ps, g, hcontent, hps, hu⟩

/-! ### There is one cutting -/

theorem IsCutting.next?_eq_none {g cs : List Char} (h : IsCutting [] [] g cs) :
    next? cs = .ok none := by
  cases h with
  | last hg =>
    have := hg.next?_append
    rw [List.append_nil] at this
    rw [this]
    simp [next?, skipGap]

/-- A text has one cutting at most. -/
theorem IsCutting.unique {ps ps' : List Piece} {g g' cs : List Char} (h : IsCutting [] ps g cs)
    (h' : IsCutting [] ps' g' cs) : ps = ps' ∧ g = g' := by
  generalize hcs : cs = ds at h'
  induction h generalizing ps' ds with
  | @last g hg =>
    subst hcs
    cases h' with
    | last => exact ⟨rfl, rfl⟩
    | @piece p ps _ cs hg' hl' _ =>
      have hnone := (IsCutting.last hg).next?_eq_none
      rw [List.append_nil] at hg' hl'
      rw [hg'.next?_append, hl'.next?_append] at hnone
      cases hnone
  | @piece p ps g cs hg hl _ ih =>
    simp only [List.append_nil] at hg hl
    cases h' with
    | last hg' =>
      have hnone := (IsCutting.last hg').next?_eq_none
      rw [← hcs, hg.next?_append, hl.next?_append] at hnone
      cases hnone
    | @piece p' ps' _ cs' hg' hl' h' =>
      simp only [List.append_nil] at hg' hl'
      -- the gap ends and the token is read at the same place in both
      have hstep : next? (p.gap ++ (p.lexeme ++ cs)) = next? (p'.gap ++ (p'.lexeme ++ cs')) := by
        rw [hcs]
      have hskip : skipGap (p.gap ++ (p.lexeme ++ cs)) =
          skipGap (p'.gap ++ (p'.lexeme ++ cs')) := by
        rw [hcs]
      rw [hg.next?_append, hg'.next?_append, hl.next?_append, hl'.next?_append] at hstep
      rw [hg.skipGap_append, hg'.skipGap_append, hl.skipGap_append, hl'.skipGap_append] at hskip
      obtain ⟨htoken, rfl⟩ : p.token = p'.token ∧ cs = cs' := by simpa using hstep
      have hlexeme : p.lexeme = p'.lexeme := by simpa using hskip
      have hgap : p.gap = p'.gap := by
        rw [hlexeme] at hcs
        exact List.append_cancel_right hcs
      obtain ⟨rfl, rfl⟩ := ih _ rfl h'
      refine ⟨?_, rfl⟩
      rw [show p = p' by cases p; cases p'; simp_all]

/-! ### What is cut in front of something is cut on its own -/

/-- A gap does not depend on what follows, unless nothing does. -/
theorem IsGap.congr {g rest rest' : List Char} (h : IsGap g rest) (hr : rest = [] → rest' = []) :
    IsGap g rest' := by
  induction h with
  | nil => exact .nil
  | blank hc _ ih => exact .blank hc (ih hr)
  | line hb _ ih => exact .line hb (ih hr)
  | lastLine hb =>
    rw [hr rfl]
    exact .lastLine hb
  | block hb _ ih => exact .block hb (ih hr)

theorem head?_append_of_head? {cs rest : List Char} {d : Char} (h : cs.head? = some d) :
    (cs ++ rest).head? = some d := by
  rw [List.head?_append, h]
  rfl

theorem LexemeOf.of_append {t : Token} {l cs rest : List Char} (h : LexemeOf t l (cs ++ rest)) :
    LexemeOf t l cs := by
  cases h with
  | ident h hr => exact .ident h fun d hd => hr d (head?_append_of_head? hd)
  | integer h hr => exact .integer h fun d hd => hr d (head?_append_of_head? hd)
  | string h => exact .string h
  | punc h hs => exact .punc h fun hc d hd => hs hc d (head?_append_of_head? hd)

theorem LexemeOf.ne_nil {t : Token} {l rest : List Char} (h : LexemeOf t l rest) : l ≠ [] := by
  obtain ⟨c, r, rfl, -, -⟩ := h.exists_cons
  exact List.cons_ne_nil c r

theorem IsCutting.alone {rest g cs : List Char} {ps : List Piece} (h : IsCutting rest ps g cs) :
    IsCutting [] ps g cs := by
  induction h with
  | last hg => exact .last (hg.congr fun _ => rfl)
  | @piece p ps g cs hg hl _ ih =>
    have hl' : LexemeOf p.token p.lexeme (cs ++ []) := by
      rw [List.append_nil]
      exact hl.of_append
    exact .piece (hg.congr fun hnil => absurd (List.append_eq_nil_iff.mp hnil).1 hl.ne_nil) hl' ih

/-! ### Texts -/

theorem tokenize_eq_ok_iff {content : String} {ts : List Token} :
    tokenize content = .ok ts ↔ lexAll [] content.toList = .ok ts := by
  rw [tokenize]
  cases lexAll [] content.toList <;> simp [Except.mapError]

theorem tokenize_eq_error_iff {content : String} {e : LexError} :
    tokenize content = .error e ↔
      ∃ u, lexAll [] content.toList = .error u ∧ u.locate content.utf8ByteSize = e := by
  rw [tokenize]
  cases lexAll [] content.toList <;> simp [Except.mapError]

/-- The error that reports what is not closed behind `n` bytes. -/
def Unclosed.errorAt (n : Nat) : Unclosed → LexError
  | string _ => .unterminatedString n
  | blockComment _ => .unterminatedBlockComment n

/-- What is not closed is reported where it opens. -/
theorem IsUnclosed.locate_eq {u : Unclosed} {before rest : String} (h : IsUnclosed u rest.toList) :
    u.locate (before ++ rest).utf8ByteSize = u.errorAt before.utf8ByteSize := by
  have hsize : (before ++ rest).utf8ByteSize - utf8Length rest.toList = before.utf8ByteSize := by
    rw [utf8Length_toList, String.utf8ByteSize_append, Nat.add_sub_cancel]
  generalize rest.toList = cs at h hsize
  cases h with
  | string => rw [Unclosed.locate, hsize, Unclosed.errorAt]
  | blockComment => rw [Unclosed.locate, hsize, Unclosed.errorAt]

end Token

open Token

/-- **Lexing is exact.** A text is cut into the tokens of a cutting of it, and has one cutting at
most. It is refused where it can be cut up to a literal or a comment that is not closed: the error
says which of the two it is, and at which byte it opens. -/
theorem tokenize_exact (content : String) :
    (∀ ts, tokenize content = .ok ts ↔
      ∃ ps g, IsCutting [] ps g content.toList ∧ ts = tokensOf ps) ∧
    (∀ ps ps' g g', IsCutting [] ps g content.toList → IsCutting [] ps' g' content.toList →
      ps = ps' ∧ g = g') ∧
    ∀ e, tokenize content = .error e ↔ ∃ before rest ps g u, content = before ++ rest ∧
      IsCutting rest.toList ps g before.toList ∧ tokenize before = .ok (tokensOf ps) ∧
      IsUnclosed u rest.toList ∧ e = u.errorAt before.utf8ByteSize := by
  refine ⟨fun ts => ?_, fun ps ps' g g' h h' => h.unique h', fun e => ?_⟩
  · rw [tokenize_eq_ok_iff]
    constructor
    · exact exists_isCutting_of_lexAll_eq_ok
    · rintro ⟨ps, g, hps, rfl⟩
      exact hps.lexAll_eq_ok
  · rw [tokenize_eq_error_iff]
    constructor
    · rintro ⟨u, hu, rfl⟩
      obtain ⟨before, rest, ps, g, rfl, hps, hu⟩ := exists_isCutting_of_lexAll_eq_error hu
      refine ⟨before, rest, ps, g, u, rfl, hps, ?_, hu, hu.locate_eq⟩
      exact tokenize_eq_ok_iff.mpr hps.alone.lexAll_eq_ok
    · rintro ⟨before, rest, ps, g, u, rfl, hps, -, hu, rfl⟩
      refine ⟨u, ?_, hu.locate_eq⟩
      rw [String.toList_append]
      exact hps.lexAll_eq_error hu

end ModuleDeps
