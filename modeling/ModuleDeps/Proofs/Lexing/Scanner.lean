import ModuleDeps.Proofs.Lexing.Exactness
import ModuleDeps.Proofs.Text.Slice
import ModuleDeps.Token.Scanner

/-!
# Scanning by bytes is lexing

A scanner that stands between two characters (`Leaves`) is refused no access to its text. All parts
of the text that it asks for lie between characters: a run stops in front of a character, comments
are left behind characters of ASCII, and the search for the end of a literal, which goes by single
bytes and may come to a stop inside a character behind a backslash, only stops at a quote, and a
quote is no byte of any other character (`closing_ofList`).

So a scan goes from one lexeme of a text to the next as any cutting of the text does
(`IsGap.next_eq`, `LexemeOf.next_eq`), and ends where the cutting ends, or where it comes to what is
not closed (`IsUnclosed.next_eq`): `scan` is `tokenize`, and it ends (`scan_safe`).
-/

namespace ModuleDeps

open Text Token

namespace Scanner

/-! ### Where a scanner stands -/

/-- The scanner stands between two characters, and the characters `cs` are left. -/
def Leaves (sc : Scanner) (cs : List Char) : Prop :=
  ∃ before, sc.content = .ofList (before ++ cs) ∧ sc.pos = utf8Length before

theorem exists_leaves_iff {sc : Scanner} : (∃ cs, sc.Leaves cs) ↔ IsBoundary sc.content sc.pos := by
  rw [isBoundary_iff]
  constructor
  · rintro ⟨cs, before, h⟩
    exact ⟨before, cs, h⟩
  · rintro ⟨before, cs, h⟩
    exact ⟨cs, before, h⟩

theorem leaves_ofContent (content : String) : (ofContent content).Leaves content.toList :=
  ⟨[], String.ofList_toList.symm, rfl⟩

theorem advance_advance (sc : Scanner) (m n : Nat) :
    (sc.advance m).advance n = sc.advance (m + n) := by
  rw [advance, advance, advance]
  dsimp only
  rw [Nat.add_assoc]

theorem advance_append (sc : Scanner) (l m : List Char) :
    sc.advance (utf8Length (l ++ m)) = (sc.advance (utf8Length l)).advance (utf8Length m) := by
  rw [advance_advance, utf8Length_append]

theorem Leaves.advance {sc : Scanner} {l cs : List Char} (h : sc.Leaves (l ++ cs)) :
    (sc.advance (utf8Length l)).Leaves cs := by
  obtain ⟨before, hcontent, hpos⟩ := h
  refine ⟨before ++ l, ?_, ?_⟩
  · rw [List.append_assoc]
    exact hcontent
  · rw [utf8Length_append, ← hpos]
    rfl

theorem Leaves.advance_char {sc : Scanner} {c : Char} {cs : List Char} (h : sc.Leaves (c :: cs)) :
    (sc.advance c.utf8Size).Leaves cs := by
  have hone : utf8Length [c] = c.utf8Size := by simp
  exact hone ▸ Leaves.advance (l := [c]) h

theorem Leaves.toEnd_eq {sc : Scanner} {cs : List Char} (h : sc.Leaves cs) :
    sc.toEnd = sc.advance (utf8Length cs) := by
  obtain ⟨before, hcontent, hpos⟩ := h
  rw [toEnd, Scanner.advance, hpos, hcontent, ← utf8Length_append, utf8Length_eq]

theorem Leaves.slice_eq {sc : Scanner} {l cs : List Char} (h : sc.Leaves (l ++ cs)) :
    slice sc.content sc.pos (sc.pos + utf8Length l) = .ok (.ofList l) := by
  obtain ⟨before, hcontent, hpos⟩ := h
  rw [hcontent, hpos, slice_ofList]

theorem Leaves.rest_eq {sc : Scanner} {cs : List Char} (h : sc.Leaves cs) :
    sc.rest = .ok (.ofList cs) := by
  obtain ⟨before, hcontent, hpos⟩ := h
  rw [rest, hcontent, hpos, slice_ofList_end]

/-! ### Blanks -/

theorem isBlankByte_of_isBlank {c : Char} (h : isBlank c = true) :
    ∃ b, String.utf8EncodeChar c = [b] ∧ isBlankByte b = true := by
  simp only [isBlank, Bool.or_eq_true, beq_iff_eq] at h
  rcases h with ((((rfl | rfl) | rfl) | rfl) | rfl) | rfl <;> exact ⟨_, rfl, rfl⟩

/-- The first byte of a character that is no blank is none either. -/
theorem isBlank_of_isBlankByte {b : UInt8} {c : Char} (h : isBlankByte b = true)
    (hb : b ∈ String.utf8EncodeChar c) : isBlank c = true := by
  simp only [isBlankByte, Bool.or_eq_true, beq_iff_eq] at h
  rcases h with ((((rfl | rfl) | rfl) | rfl) | rfl) | rfl <;>
    (rw [(Utf8.eq_ofUInt8_of_mem hb (by decide)).1]; decide)

theorem Leaves.skipBlanks_of_blank {sc : Scanner} {c : Char} {cs : List Char}
    (h : sc.Leaves (c :: cs)) (hc : isBlank c = true) :
    sc.skipBlanks = (sc.advance c.utf8Size).skipBlanks := by
  obtain ⟨b, hb, hblank⟩ := isBlankByte_of_isBlank hc
  have hsize : c.utf8Size = 1 := by rw [← String.length_utf8EncodeChar, hb]; rfl
  rw [skipBlanks, skipBlanks, h.rest_eq, h.advance_char.rest_eq, Access.ok_bind, Access.ok_bind,
    advance_advance]
  rw [Utf8.encode_ofList, Utf8.encode_ofList, List.flatMap_cons, hb, List.singleton_append,
    List.takeWhile_cons_of_pos hblank, List.length_cons, hsize, Nat.add_comm]

theorem Leaves.skipBlanks_eq {sc : Scanner} {cs : List Char} (h : sc.Leaves cs)
    (hcs : ∀ c, cs.head? = some c → isBlank c = false) : sc.skipBlanks = .ok sc := by
  have hnone : (Utf8.encode (.ofList cs)).takeWhile isBlankByte = [] := by
    rw [Utf8.encode_ofList]
    cases cs with
    | nil => rfl
    | cons c cs =>
      obtain ⟨b, bs, hb⟩ := List.exists_cons_of_ne_nil (String.utf8EncodeChar_ne_nil (c := c))
      have hblank : ¬ isBlankByte b = true := fun hblank => by
        have := isBlank_of_isBlankByte hblank (hb ▸ List.mem_cons_self)
        rw [hcs c rfl] at this
        cases this
      rw [List.flatMap_cons, hb, List.cons_append, List.takeWhile_cons_of_neg hblank]
  rw [skipBlanks, h.rest_eq, Access.ok_bind, hnone]
  rfl

/-! ### Comments -/

theorem Leaves.skipLine_eq {sc : Scanner} {body cs : List Char}
    (h : sc.Leaves (body ++ '\n' :: cs)) (hbody : '\n' ∉ body) :
    sc.skipLine = .ok (sc.advance (utf8Length (body ++ ['\n']))) := by
  have hfind : find? (·.head? == some '\n') (body ++ '\n' :: cs) = some (utf8Length body) := by
    refine find?_append (fun x zs hz => ?_) (List.cons_ne_nil _ _) rfl
    have hx := ne_of_mem_of_not_mem (hz.subset List.mem_cons_self) hbody
    simpa using hx
  rw [skipLine, h.rest_eq, Access.ok_bind, String.toList_ofList, hfind, utf8Length_append]
  rfl

theorem Leaves.skipLine_last {sc : Scanner} {body : List Char} (h : sc.Leaves body)
    (hbody : '\n' ∉ body) : sc.skipLine = .ok sc.toEnd := by
  have hfind : find? (·.head? == some '\n') body = none := by
    refine find?_eq_none fun x zs hz => ?_
    have hx := ne_of_mem_of_not_mem (hz.subset List.mem_cons_self) hbody
    simpa using hx
  rw [skipLine, h.rest_eq, Access.ok_bind, String.toList_ofList, hfind]
  rfl

theorem Leaves.skipComment_eq {sc : Scanner} {body cs : List Char}
    (h : sc.Leaves (body ++ '*' :: '/' :: cs)) (hbody : ¬ ['*', '/'] <:+: body ++ ['*']) :
    sc.skipComment = .ok (some (sc.advance (utf8Length (body ++ ['*', '/'])))) := by
  have hfind : find? (['*', '/'].isPrefixOf ·) (body ++ '*' :: '/' :: cs) =
      some (utf8Length body) := by
    refine find?_append (fun x zs hz => ?_) (List.cons_ne_nil _ _) rfl
    by_contra hmark
    rw [Bool.not_eq_false, List.isPrefixOf_iff_prefix] at hmark
    -- the mark would lie within the body and the character behind it
    have hin : ['*', '/'] <+: x :: zs ++ ['*'] := by
      refine List.prefix_of_prefix_length_le hmark ⟨'/' :: cs, by simp⟩ ?_
      simp
    obtain ⟨ws, hws⟩ := hz
    exact hbody (hin.isInfix.trans ⟨ws, [], by rw [← hws]; simp⟩)
  rw [skipComment, h.rest_eq, Access.ok_bind, String.toList_ofList, hfind, utf8Length_append]
  rfl

theorem Leaves.skipComment_eq_none {sc : Scanner} {body : List Char} (h : sc.Leaves body)
    (hbody : ¬ ['*', '/'] <:+: body) : sc.skipComment = .ok none := by
  have hfind : find? (['*', '/'].isPrefixOf ·) body = none := by
    refine find?_eq_none fun x zs hz => ?_
    by_contra hmark
    rw [Bool.not_eq_false, List.isPrefixOf_iff_prefix] at hmark
    exact hbody (hmark.isInfix.trans hz.isInfix)
  rw [skipComment, h.rest_eq, Access.ok_bind, String.toList_ofList, hfind]
  rfl

/-! ### The end of a literal -/

/-- The byte has no say in where a literal ends. -/
def IsPlain (b : UInt8) : Prop := b ≠ quote ∧ b ≠ backslash

theorem isPlain_of_mem {c : Char} (hquote : c ≠ '"') (hslash : c ≠ '\\') :
    ∀ b ∈ String.utf8EncodeChar c, IsPlain b := by
  intro b hb
  constructor
  · rintro rfl
    exact hquote (Utf8.eq_ofUInt8_of_mem hb (by decide)).1
  · rintro rfl
    exact hslash (Utf8.eq_ofUInt8_of_mem hb (by decide)).1

/-- Only the first byte of a character can be other than plain. -/
theorem isPlain_of_mem_tail {c : Char} {a : UInt8} {bs : List UInt8}
    (hc : String.utf8EncodeChar c = a :: bs) : ∀ b ∈ bs, IsPlain b := by
  intro b hb
  have hmem : b ∈ String.utf8EncodeChar c := hc ▸ List.mem_cons_of_mem a hb
  have hlong (h : b < 0x80) : False := by
    have hone := (Utf8.eq_ofUInt8_of_mem hmem h).2
    rw [hc] at hone
    rw [(List.cons.inj hone).2] at hb
    cases hb
  constructor
  · rintro rfl
    exact hlong (by decide)
  · rintro rfl
    exact hlong (by decide)

theorem closing_of_encode {s : String} {pre post : List UInt8} {b : UInt8}
    (h : Utf8.encode s = pre ++ b :: post) :
    closing s pre.length = if b = quote then .ok (some pre.length)
      else if b = backslash then if post = [] then .ok none else closing s (pre.length + 2)
      else closing s (pre.length + 1) := by
  have hsize : s.utf8ByteSize = pre.length + (post.length + 1) := by
    rw [← Utf8.length_encode, h, List.length_append, List.length_cons]
  have hlast : pre.length + 1 = s.utf8ByteSize ↔ post = [] := by
    rw [hsize, ← List.length_eq_zero_iff]
    omega
  rw [closing, if_pos (by omega), byteAt_of_encode h]
  simp only [hlast]

/-- Plain bytes are passed over, whether or not characters start at them. -/
theorem closing_of_isPlain {s : String} {pre bs post : List UInt8}
    (h : Utf8.encode s = pre ++ (bs ++ post)) (hbs : ∀ b ∈ bs, IsPlain b) :
    closing s pre.length = closing s (pre ++ bs).length := by
  induction bs generalizing pre with
  | nil => rw [List.append_nil]
  | cons b bs ih =>
    obtain ⟨⟨hquote, hslash⟩, hbs⟩ := List.forall_mem_cons.mp hbs
    have hpre : Utf8.encode s = (pre ++ [b]) ++ (bs ++ post) := by rw [h]; simp
    have ih := ih hpre hbs
    rw [closing_of_encode h, if_neg hquote, if_neg hslash]
    simpa using ih

theorem closing_char {before cs : List Char} {c : Char} (hquote : c ≠ '"') (hslash : c ≠ '\\') :
    closing (.ofList (before ++ c :: cs)) (utf8Length before) =
      closing (.ofList (before ++ c :: cs)) (utf8Length (before ++ [c])) := by
  have h : Utf8.encode (.ofList (before ++ c :: cs)) = Utf8.encode (.ofList before) ++
      (String.utf8EncodeChar c ++ Utf8.encode (.ofList cs)) := by
    rw [Utf8.encode_ofList_append, Utf8.encode_ofList_cons]
  rw [← length_encode_ofList, closing_of_isPlain h (isPlain_of_mem hquote hslash),
    ← length_encode_ofList, Utf8.encode_ofList_append, Utf8.encode_ofList_cons,
    Utf8.encode_ofList_nil, List.append_nil]

theorem utf8EncodeChar_quote : String.utf8EncodeChar '"' = [quote] := by decide

theorem utf8EncodeChar_backslash : String.utf8EncodeChar '\\' = [backslash] := by decide

/-- A backslash takes along the first byte of the character behind it, and the others are plain. -/
theorem closing_escape {before cs : List Char} {c : Char} :
    closing (.ofList (before ++ '\\' :: c :: cs)) (utf8Length before) =
      closing (.ofList (before ++ '\\' :: c :: cs)) (utf8Length (before ++ ['\\', c])) := by
  obtain ⟨a, bs, hc⟩ := List.exists_cons_of_ne_nil (String.utf8EncodeChar_ne_nil (c := c))
  have h : Utf8.encode (.ofList (before ++ '\\' :: c :: cs)) = Utf8.encode (.ofList before) ++
      backslash :: a :: (bs ++ Utf8.encode (.ofList cs)) := by
    rw [Utf8.encode_ofList_append, Utf8.encode_ofList_cons, Utf8.encode_ofList_cons,
      utf8EncodeChar_backslash, hc]
    rfl
  have htail : Utf8.encode (.ofList (before ++ '\\' :: c :: cs)) =
      (Utf8.encode (.ofList before) ++ [backslash, a]) ++ (bs ++ Utf8.encode (.ofList cs)) := by
    rw [h, List.append_assoc]
    rfl
  have hbehind : Utf8.encode (.ofList (before ++ ['\\', c])) =
      Utf8.encode (.ofList before) ++ [backslash, a] ++ bs := by
    rw [Utf8.encode_ofList_append, Utf8.encode_ofList_cons, Utf8.encode_ofList_cons,
      Utf8.encode_ofList_nil, utf8EncodeChar_backslash, hc, List.append_nil, List.append_assoc]
    rfl
  rw [← length_encode_ofList, closing_of_encode h, if_neg (by decide), if_pos rfl,
    if_neg (List.cons_ne_nil _ _), ← length_encode_ofList, hbehind,
    ← closing_of_isPlain htail (isPlain_of_mem_tail hc), List.length_append]
  rfl

/-- **The search by bytes finds the quote that closes the literal**, or that there is none. -/
theorem closing_ofList (before acc cs : List Char) :
    closing (.ofList (before ++ cs)) (utf8Length before) =
      .ok ((stringBody acc cs).map fun out =>
        utf8Length (before ++ cs) - utf8Length ('"' :: out.2)) := by
  fun_induction stringBody acc cs generalizing before with
  | case1 acc =>
    rw [closing, if_neg]
    · rfl
    · rw [List.append_nil, utf8Length_eq]
      exact Nat.lt_irrefl _
  | case2 acc rest =>
    have h : Utf8.encode (.ofList (before ++ '"' :: rest)) = Utf8.encode (.ofList before) ++
        quote :: Utf8.encode (.ofList rest) := by
      rw [Utf8.encode_ofList_append, Utf8.encode_ofList_cons, utf8EncodeChar_quote]
      rfl
    rw [← length_encode_ofList, closing_of_encode h, if_pos rfl, length_encode_ofList,
      utf8Length_append, Option.map_some, Nat.add_sub_cancel]
  | case3 acc c rest ih =>
    have ih := ih (before ++ ['\\', c])
    rw [List.append_assoc] at ih
    rw [closing_escape]
    exact ih
  | case4 acc c rest hquote hslash ih =>
    by_cases hc : c = '\\'
    · -- nothing is left for the backslash to take along
      subst hc
      cases rest with
      | cons d rest => exact absurd rfl (hslash d rest rfl)
      | nil =>
        have h : Utf8.encode (.ofList (before ++ ['\\'])) = Utf8.encode (.ofList before) ++
            backslash :: [] := by
          rw [Utf8.encode_ofList_append, Utf8.encode_ofList_cons, utf8EncodeChar_backslash,
            Utf8.encode_ofList_nil]
          rfl
        rw [← length_encode_ofList, closing_of_encode h, if_neg (by decide), if_pos rfl, if_pos rfl]
        rfl
    · have ih := ih (before ++ [c])
      rw [List.append_assoc] at ih
      rw [closing_char hquote hc]
      exact ih

theorem Leaves.closing_eq_of_isRaw {sc : Scanner} {body rest : List Char}
    (h : sc.Leaves (body ++ '"' :: rest)) (hbody : isRaw body = true) :
    closing sc.content sc.pos = .ok (some (sc.pos + utf8Length body)) := by
  obtain ⟨before, hcontent, hpos⟩ := h
  rw [hcontent, hpos, closing_ofList before [], stringBody_of_raw hbody, Option.map_some,
    utf8Length_append, utf8Length_append body, ← Nat.add_assoc, Nat.add_sub_cancel]

theorem Leaves.closing_eq_none {sc : Scanner} {cs : List Char} (h : sc.Leaves cs)
    (hcs : stringBody [] cs = none) : closing sc.content sc.pos = .ok none := by
  obtain ⟨before, hcontent, hpos⟩ := h
  rw [hcontent, hpos, closing_ofList before [], hcs]
  rfl

/-! ### Tokens -/

theorem Leaves.literal_eq {sc : Scanner} {body rest : List Char}
    (h : sc.Leaves ('"' :: (body ++ '"' :: rest))) (hbody : isRaw body = true) :
    sc.literal = .ok (.string (.ofList body), sc.advance (utf8Length ('"' :: (body ++ ['"'])))) := by
  have hopen : (sc.advance 1).Leaves (body ++ '"' :: rest) := h.advance_char
  have hclosing : closing sc.content (sc.pos + 1) = .ok (some (sc.pos + 1 + utf8Length body)) :=
    hopen.closing_eq_of_isRaw hbody
  have hslice : slice sc.content (sc.pos + 1) (sc.pos + 1 + utf8Length body) =
      .ok (.ofList body) := hopen.slice_eq
  have hend : sc.pos + 1 + utf8Length body + 1 =
      sc.pos + utf8Length ('"' :: (body ++ ['"'])) := by
    rw [utf8Length_cons, utf8Length_append, ← Nat.add_assoc, ← Nat.add_assoc]
    rfl
  rw [literal, hclosing, Access.ok_bind]
  dsimp only
  rw [hslice, Access.ok_bind, hend]
  rfl

theorem Leaves.literal_eq_fail {sc : Scanner} {cs : List Char} (h : sc.Leaves ('"' :: cs))
    (hcs : stringBody [] cs = none) :
    sc.literal = .ok (sc.toEnd.fail (.unterminatedString sc.pos)) := by
  have hopen : (sc.advance 1).Leaves cs := h.advance_char
  have hclosing : closing sc.content (sc.pos + 1) = .ok none := hopen.closing_eq_none hcs
  rw [literal, hclosing, Access.ok_bind]
  rfl

/-- A run stops in front of a character, or at the end of the text. -/
theorem run_eq (sc : Scanner) (kind : String → Token) {p : Char → Bool} {l rest : List Char}
    (hl : ∀ x ∈ l, p x = true) (hrest : ∀ d, rest.head? = some d → p d = false) :
    sc.run kind p (.ofList (l ++ rest)) = .ok (kind (.ofList l), sc.advance (utf8Length l)) := by
  have hin {x : Char} {zs : List Char} (hz : x :: zs <:+ l) : p x = true :=
    hl x (hz.subset List.mem_cons_self)
  have hlength : (find? (·.head?.any (!p ·)) (l ++ rest)).getD
      (String.ofList (l ++ rest)).utf8ByteSize = utf8Length l := by
    cases rest with
    | nil =>
      rw [List.append_nil, find?_eq_none fun x zs hz => by simp [hin hz], utf8Length_eq]
      rfl
    | cons d rest =>
      rw [find?_append (fun x zs hz => by simp [hin hz]) (List.cons_ne_nil _ _)
        (by simp [hrest d rfl])]
      rfl
  have hslice := slice_ofList [] l rest
  rw [utf8Length_nil, Nat.zero_add] at hslice
  rw [run, String.toList_ofList]
  simp only [hlength]
  rw [show slice (.ofList (l ++ rest)) 0 (utf8Length l) = .ok (.ofList l) from hslice,
    Access.ok_bind]
  rfl

/-! ### Rounds -/

theorem Leaves.round_eq_read {sc : Scanner} {cs : List Char} (h : sc.Leaves cs)
    (hcs : ∀ c, cs.head? = some c → isBlank c = false) : sc.round = sc.read := by
  rw [round, h.skipBlanks_eq hcs, Access.ok_bind]

theorem next_congr {sc sc' : Scanner} (h : sc.round = sc'.round) : sc.next = sc'.next := by
  rw [next.eq_def sc, next.eq_def sc', h]

theorem next_of_round_some {sc sc' : Scanner} {t : Token} (h : sc.round = .ok (some t, sc')) :
    sc.next = .ok (t, sc') := by
  rw [next]
  split <;> simp_all

theorem next_of_round_none {sc sc' : Scanner} (h : sc.round = .ok (none, sc')) :
    sc.next = sc'.next := by
  rw [next]
  split <;> simp_all

/-- The slashes of a line comment are taken, and the rest of the line with them. -/
theorem Leaves.next_lineComment {sc line : Scanner} {cs : List Char}
    (h : sc.Leaves ('/' :: '/' :: cs)) (hline : (sc.advance 2).skipLine = .ok line) :
    sc.next = line.next := by
  have hopen : ['/', '/'].isPrefixOf ('/' :: '/' :: cs) = true := rfl
  refine next_of_round_none ?_
  rw [h.round_eq_read (by rintro c ⟨⟩; decide), read, h.rest_eq, Access.ok_bind,
    String.toList_ofList]
  dsimp only
  rw [if_neg (by decide), if_neg (by decide), if_neg (by decide), if_pos hopen, hline,
    Access.ok_bind]
  rfl

/-- What is read of a block comment. -/
theorem Leaves.round_blockComment {sc : Scanner} {cs : List Char}
    (h : sc.Leaves ('/' :: '*' :: cs)) {behind? : Option Scanner}
    (hbehind : (sc.advance 2).skipComment = .ok behind?) :
    sc.round = .ok (behind?.elim
      (Prod.map some id ((sc.advance 2).fail (.unterminatedBlockComment sc.pos)))
      fun behind => (none, behind)) := by
  have hopen : ['/', '*'].isPrefixOf ('/' :: '*' :: cs) = true := rfl
  rw [h.round_eq_read (by rintro c ⟨⟩; decide), read, h.rest_eq, Access.ok_bind,
    String.toList_ofList]
  dsimp only
  rw [if_neg (by decide), if_neg (by decide), if_neg (by decide), if_neg (by simp), if_pos hopen,
    hbehind, Access.ok_bind]
  cases behind? with
  | none => rfl
  | some => rfl

end Scanner

/-! ### Gaps, lexemes and what is not closed -/

namespace Token

open Scanner

/-- The next token of a text stands behind the gap. -/
theorem IsGap.next_eq {sc : Scanner} {g rest : List Char} (h : IsGap g rest)
    (hsc : sc.Leaves (g ++ rest)) : sc.next = (sc.advance (utf8Length g)).next := by
  induction h generalizing sc with
  | nil => rfl
  | @blank c g rest hc _ ih =>
    have hround : sc.round = (sc.advance c.utf8Size).round := by
      rw [Scanner.round, hsc.skipBlanks_of_blank hc]
      rfl
    rw [next_congr hround, ih hsc.advance_char, advance_advance, utf8Length_cons]
  | @line body g rest hb _ ih =>
    have hsplit : '/' :: '/' :: (body ++ '\n' :: g) = ['/', '/'] ++ (body ++ ['\n'] ++ g) := by simp
    rw [hsplit, List.append_assoc, List.append_assoc (body ++ _)] at hsc
    have hbody : (sc.advance 2).Leaves (body ++ ['\n'] ++ (g ++ rest)) := hsc.advance
    have hnewline : (sc.advance 2).Leaves (body ++ '\n' :: (g ++ rest)) := by simpa using hbody
    have hline := hnewline.skipLine_eq hb
    rw [hsc.next_lineComment hline, ih hbody.advance, hsplit,
      advance_append sc ['/', '/'] (body ++ ['\n'] ++ g), advance_append _ (body ++ ['\n']) g]
    rfl
  | @lastLine body hb =>
    have hbody : (sc.advance 2).Leaves body := Leaves.advance (l := ['/', '/']) (by simpa using hsc)
    rw [List.append_nil] at hsc
    rw [hsc.next_lineComment (hbody.skipLine_last hb), hbody.toEnd_eq,
      show '/' :: '/' :: body = ['/', '/'] ++ body from rfl, advance_append sc ['/', '/'] body]
    rfl
  | @block body g rest hb _ ih =>
    have hsplit : '/' :: '*' :: (body ++ '*' :: '/' :: g) =
        ['/', '*'] ++ (body ++ ['*', '/'] ++ g) := by simp
    rw [hsplit, List.append_assoc, List.append_assoc (body ++ _)] at hsc
    have hbody : (sc.advance 2).Leaves (body ++ ['*', '/'] ++ (g ++ rest)) := hsc.advance
    have hmark : (sc.advance 2).Leaves (body ++ '*' :: '/' :: (g ++ rest)) := by
      simpa using hbody
    have hbehind := hmark.skipComment_eq hb
    rw [next_of_round_none (hsc.round_blockComment hbehind), ih hbody.advance, hsplit,
      advance_append sc ['/', '*'] (body ++ ['*', '/'] ++ g),
      advance_append _ (body ++ ['*', '/']) g]
    rfl

/-- A slash that opens no comment is followed by none of the characters that would open one. -/
theorem not_isPrefixOf_of_isLoneSlash {c d : Char} {rest : List Char}
    (hs : c = '/' → IsLoneSlash rest) (hd : d = '/' ∨ d = '*') :
    ¬ ['/', d].isPrefixOf (c :: rest) = true := by
  rw [List.isPrefixOf_iff_prefix]
  rintro ⟨r, hr⟩
  obtain ⟨rfl, rfl⟩ := List.cons.inj hr
  obtain ⟨hslash, hstar⟩ := hs rfl d rfl
  rcases hd with rfl | rfl
  · exact hslash rfl
  · exact hstar rfl

/-- A lexeme is read as its token. -/
theorem LexemeOf.next_eq {sc : Scanner} {t : Token} {l rest : List Char} (h : LexemeOf t l rest)
    (hsc : sc.Leaves (l ++ rest)) : sc.next = .ok (t, sc.advance (utf8Length l)) := by
  have hblank : ∀ c, (l ++ rest).head? = some c → isBlank c = false := by
    obtain ⟨c, r, rfl, hgap, -⟩ := h.exists_cons
    rintro d ⟨⟩
    exact (hgap c _ rfl).1
  refine next_of_round_some ?_
  rw [hsc.round_eq_read hblank, Scanner.read, hsc.rest_eq, Access.ok_bind, String.toList_ofList]
  cases h with
  | @ident l _ h hr =>
    obtain ⟨c, r, rfl, hc, hword⟩ := h
    obtain ⟨-, -, hquote⟩ := isBlank_of_isIdentChar (isIdentChar_of_isIdentStart hc)
    have hall : ∀ x ∈ c :: r, isIdentChar x = true :=
      List.forall_mem_cons.mpr ⟨isIdentChar_of_isIdentStart hc, hword⟩
    dsimp only [List.cons_append]
    rw [if_neg hquote, if_neg (by simp [isDigit_of_isIdentStart hc]), if_pos hc]
    rw [show c :: (r ++ rest) = c :: r ++ rest from rfl, run_eq sc _ hall hr]
    rfl
  | @integer l _ h hr =>
    obtain ⟨hne, hall⟩ := h
    obtain ⟨c, r, rfl⟩ := List.exists_cons_of_ne_nil hne
    have hc : c.isDigit = true := hall c List.mem_cons_self
    obtain ⟨-, -, hquote⟩ := isBlank_of_isIdentChar (isIdentChar_of_isDigit hc)
    dsimp only [List.cons_append]
    rw [if_neg hquote, if_pos hc]
    rw [show c :: (r ++ rest) = c :: r ++ rest from rfl, run_eq sc _ hall hr]
    rfl
  | @string body rest h =>
    have hopen : sc.Leaves ('"' :: (body ++ '"' :: rest)) := by simpa using hsc
    dsimp only [List.cons_append]
    rw [if_pos rfl, hopen.literal_eq h]
    rfl
  | @punc c rest h hs =>
    obtain ⟨-, hquote, hdigit, hstart⟩ := h
    dsimp only [List.cons_append, List.nil_append]
    rw [if_neg hquote, if_neg (by simp [hdigit]), if_neg (by simp [hstart]),
      if_neg (not_isPrefixOf_of_isLoneSlash hs (.inl rfl)),
      if_neg (not_isPrefixOf_of_isLoneSlash hs (.inr rfl)), utf8Length_cons, utf8Length_nil,
      Nat.add_zero]
    rfl

/-- What is not closed ends the scan, and the error for the place where it opens is recorded. -/
theorem IsUnclosed.next_eq {sc : Scanner} {u : Unclosed} {cs : List Char} (h : IsUnclosed u cs)
    (hsc : sc.Leaves cs) : ∃ sc', sc.next = .ok (.invalid, sc') ∧ sc'.content = sc.content ∧
      sc.pos ≤ sc'.pos ∧ IsBoundary sc.content sc'.pos ∧ sc'.error = some (u.errorAt sc.pos) := by
  cases h with
  | @string cs h =>
    have hround : sc.round = .ok (some .invalid,
        { sc.toEnd with error := some (.unterminatedString sc.pos) }) := by
      rw [hsc.round_eq_read (by rintro c ⟨⟩; decide), Scanner.read, hsc.rest_eq, Access.ok_bind,
        String.toList_ofList]
      dsimp only
      rw [if_pos rfl, hsc.literal_eq_fail (stringBody_eq_none h)]
      rfl
    have hend : IsBoundary sc.content sc.content.utf8ByteSize := String.Pos.Raw.isValid_rawEndPos
    exact ⟨_, next_of_round_some hround, rfl, (exists_leaves_iff.mp ⟨_, hsc⟩).le, hend, rfl⟩
  | @blockComment cs h =>
    have hbody : (sc.advance 2).Leaves cs := Leaves.advance (l := ['/', '*']) hsc
    have hround := hsc.round_blockComment (hbody.skipComment_eq_none h)
    exact ⟨_, next_of_round_some hround, rfl, Nat.le_add_right _ _,
      exists_leaves_iff.mp ⟨cs, hbody⟩, rfl⟩

theorem next_of_leaves_nil {sc : Scanner} (h : sc.Leaves []) : sc.next = .ok (.eof, sc) := by
  refine next_of_round_some ?_
  rw [h.round_eq_read (by rintro c ⟨⟩), Scanner.read, h.rest_eq, Access.ok_bind,
    String.toList_ofList]
  rfl

/-! ### Whole scans -/

theorem scanFrom_congr {sc sc' : Scanner} (acc : List Token) (h : sc.next = sc'.next) :
    scanFrom acc sc = scanFrom acc sc' := by
  rw [scanFrom.eq_def acc sc, scanFrom.eq_def acc sc', h]

theorem scanFrom_of_next {sc sc' : Scanner} {acc : List Token} {t : Token}
    (h : sc.next = .ok (t, sc')) : scanFrom acc sc = if t = .eof then .ok (.ok acc.reverse)
      else if t = .invalid then .ok (.error sc'.lexError) else scanFrom (t :: acc) sc' := by
  rw [scanFrom]
  split
  · rename_i h'
    rw [h] at h'
    cases h'
  · rename_i h'
    rw [h] at h'
    cases h'
    rfl

theorem LexemeOf.ne_end {t : Token} {l rest : List Char} (h : LexemeOf t l rest) :
    t ≠ .eof ∧ t ≠ .invalid := by
  cases h <;> exact ⟨nofun, nofun⟩

/-- A scan comes to what stands behind a cutting, with the tokens of the cutting. -/
theorem IsCutting.scanFrom_append {rest g cs : List Char} {ps : List Piece} {sc : Scanner}
    (h : IsCutting rest ps g cs) (hsc : sc.Leaves (cs ++ rest)) (acc : List Token) :
    scanFrom acc sc = scanFrom ((tokensOf ps).reverse ++ acc) (sc.advance (utf8Length cs)) := by
  induction h generalizing sc acc with
  | last hg => exact scanFrom_congr acc (hg.next_eq hsc)
  | @piece p ps g cs hg hl _ ih =>
    rw [List.append_assoc, List.append_assoc] at hsc
    have hlexeme := hsc.advance
    obtain ⟨heof, hinvalid⟩ := hl.ne_end
    calc scanFrom acc sc
        = scanFrom acc (sc.advance (utf8Length p.gap)) := scanFrom_congr acc (hg.next_eq hsc)
      _ = scanFrom (p.token :: acc)
            ((sc.advance (utf8Length p.gap)).advance (utf8Length p.lexeme)) := by
          rw [scanFrom_of_next (hl.next_eq hlexeme), if_neg heof, if_neg hinvalid]
      _ = scanFrom ((tokensOf (p :: ps)).reverse ++ acc)
            (sc.advance (utf8Length (p.gap ++ (p.lexeme ++ cs)))) := by
          rw [ih hlexeme.advance, advance_append, advance_append]
          simp [tokensOf]

end Token

namespace Scanner

open Token

/-- **A scan is refused nothing, and gives what lexing gives.** -/
theorem scan_eq_tokenize (content : String) : scan content = .ok (tokenize content) := by
  cases hlex : lexAll [] content.toList with
  | ok ts =>
    obtain ⟨ps, g, hps, rfl⟩ := exists_isCutting_of_lexAll_eq_ok hlex
    have hsc : (ofContent content).Leaves (content.toList ++ []) := by
      rw [List.append_nil]
      exact leaves_ofContent content
    rw [tokenize_eq_ok_iff.mpr hlex, scan, hps.scanFrom_append hsc,
      scanFrom_of_next (next_of_leaves_nil hsc.advance), if_pos rfl, List.append_nil,
      List.reverse_reverse]
  | error u =>
    obtain ⟨before, rest, ps, g, rfl, hps, hu⟩ := exists_isCutting_of_lexAll_eq_error hlex
    have hsc : (ofContent (before ++ rest)).Leaves (before.toList ++ rest.toList) := by
      rw [← String.toList_append]
      exact leaves_ofContent _
    obtain ⟨sc', hnext, -, -, -, herror⟩ := hu.next_eq hsc.advance
    have hpos : ((ofContent (before ++ rest)).advance (utf8Length before.toList)).pos =
        before.utf8ByteSize := by
      rw [utf8Length_toList]
      exact Nat.zero_add _
    have htokenize : tokenize (before ++ rest) = .error (u.errorAt before.utf8ByteSize) :=
      tokenize_eq_error_iff.mpr ⟨u, hlex, hu.locate_eq⟩
    rw [htokenize, scan, hps.scanFrom_append hsc, scanFrom_of_next hnext, if_neg nofun, if_pos rfl,
      lexError, herror, hpos, Option.getD_some]

/-- What is known of the scanner `sc'` behind the token `t` that comes next for `sc`. -/
structure StepsTo (sc : Scanner) (t : Token) (sc' : Scanner) : Prop where
  content : sc'.content = sc.content
  /-- It stands between two characters of the text again. -/
  isBoundary : IsBoundary sc'.content sc'.pos
  le : sc.pos ≤ sc'.pos
  /-- A token other than the end of the text and an invalid one is behind some byte. -/
  lt : t ≠ .eof → t ≠ .invalid → sc.pos < sc'.pos
  /-- Behind an invalid token the error that it stands for is recorded. -/
  recorded : t = .invalid → ∃ e, sc'.error = some e ∧ sc'.lexError = e
  /-- No other token changes what is recorded. -/
  kept : t ≠ .invalid → sc'.error = sc.error

/-- Between two characters, the next token is there. -/
theorem exists_next {sc : Scanner} (h : IsBoundary sc.content sc.pos) :
    ∃ t sc', sc.next = .ok (t, sc') ∧ sc.StepsTo t sc' := by
  obtain ⟨cs, hsc⟩ := exists_leaves_iff.mpr h
  obtain ⟨g, rest, rfl, hg, hrest⟩ := exists_step cs
  have hmid := hsc.advance
  rw [hg.next_eq hsc]
  have hle : sc.pos ≤ (sc.advance (utf8Length g)).pos := Nat.le_add_right _ _
  rcases hrest with rfl | ⟨t, l, rest, rfl, hl⟩ | ⟨u, hu⟩
  · exact ⟨_, _, next_of_leaves_nil hmid, rfl, exists_leaves_iff.mp ⟨_, hmid⟩, hle,
      fun h => absurd rfl h, nofun, fun _ => rfl⟩
  · have hnext := hl.next_eq hmid
    obtain ⟨heof, hinvalid⟩ := hl.ne_end
    have hlt := (movesTo_of_next hnext heof hinvalid).pos_lt
    exact ⟨_, _, hnext, rfl, exists_leaves_iff.mp ⟨_, hmid.advance⟩,
      Nat.le_of_lt (Nat.lt_of_le_of_lt hle hlt), fun _ _ => Nat.lt_of_le_of_lt hle hlt,
      fun h => absurd h hinvalid, fun _ => rfl⟩
  · obtain ⟨sc', hnext, hcontent, hle', hboundary, herror⟩ := hu.next_eq hmid
    refine ⟨_, _, hnext, hcontent, ?_, Nat.le_trans hle hle', fun _ h => absurd rfl h,
      fun _ => ⟨_, herror, by rw [lexError, herror]; rfl⟩, fun h => absurd rfl h⟩
    rw [hcontent]
    exact hboundary

/-- **Scanning by bytes is safe.** A part of a text is handed out only between two boundaries in
order, and a byte only in front of the end, but a scan is refused none of those that it asks for, so
it ends, with what lexing gives. Wherever it stands on the way, which is always between two
characters, the next token is there and moves it on, and the error of an invalid token is
recorded. -/
theorem scan_safe (content : String) :
    (∀ (s : String) (start stop : Nat), (∃ part, slice s start stop = .ok part) ↔
      start ≤ stop ∧ stop ≤ s.utf8ByteSize ∧ IsBoundary s start ∧ IsBoundary s stop) ∧
    (∀ (s : String) (index : Nat), (∃ b, byteAt s index = .ok b) ↔ index < s.utf8ByteSize) ∧
    scan content = .ok (tokenize content) ∧
    IsBoundary content (ofContent content).pos ∧
    ∀ sc : Scanner, sc.content = content → IsBoundary content sc.pos →
      ∃ t sc', sc.next = .ok (t, sc') ∧ sc.StepsTo t sc' := by
  refine ⟨fun _ _ _ => exists_slice_eq_ok_iff, fun _ _ => exists_byteAt_eq_ok_iff,
    scan_eq_tokenize content, String.Pos.Raw.isValid_zero, ?_⟩
  rintro sc rfl h
  exact exists_next h

/-- The backslash takes one of the two bytes of `é` along, and the scan gets to the comment that is
not closed, behind the literal. -/
theorem scan_safe_escape :
    IsBoundary "\"\\é\" /*" 0 ∧ ¬ IsBoundary "\"\\é\" /*" 3 ∧
    scan "\"\\é\" /*" = .ok (.error (.unterminatedBlockComment 6)) ∧
    (ofContent "\"\\é\" /*").StepsTo (.string "\\é") ⟨"\"\\é\" /*", 5, none⟩ := by
  have hfirst : (ofContent "\"\\é\" /*").next = .ok (.string "\\é", ⟨"\"\\é\" /*", 5, none⟩) := by
    decide +kernel
  obtain ⟨-, -, -, hstart, hnext⟩ := scan_safe "\"\\é\" /*"
  obtain ⟨t, sc', h, hstep⟩ := hnext (ofContent "\"\\é\" /*") rfl hstart
  rw [hfirst] at h
  cases h
  exact ⟨hstart, by decide, by decide +kernel, hstep⟩

end Scanner

end ModuleDeps
