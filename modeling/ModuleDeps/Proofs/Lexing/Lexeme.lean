import Mathlib.Data.List.TakeWhile
import ModuleDeps.Token.Lexer

/-!
# What texts are cut into

`Cut` is the cutting of a text token by token, without the list of those read so far, and `IsLexeme`
says which tokens it can hold: identifiers, runs of digits, string bodies in which each quote is
protected by a backslash, and single characters that open none of these (`Cut.isLexeme`).
-/

namespace ModuleDeps.Token

/-- The characters are cut into the tokens. -/
inductive Cut : List Char → List Token → Prop where
  /-- Nothing but gaps is left. -/
  | nil {cs : List Char} (h : next? cs = .ok none) : Cut cs []
  /-- A token comes next. -/
  | cons {cs rest : List Char} {t : Token} {ts : List Token} (h : next? cs = .ok (some (t, rest)))
      (hs : Cut rest ts) : Cut cs (t :: ts)

theorem lexAll_eq_ok_iff {acc ts : List Token} {cs : List Char} :
    lexAll acc cs = .ok ts ↔ ∃ us, ts = acc.reverse ++ us ∧ Cut cs us := by
  fun_induction lexAll acc cs with
  | case1 acc cs e h =>
    constructor
    · nofun
    · rintro ⟨us, -, hus⟩
      cases hus with
      | nil h' => rw [h] at h'; cases h'
      | cons h' => rw [h] at h'; cases h'
  | case2 acc cs h =>
    constructor
    · rintro ⟨⟩
      exact ⟨[], (List.append_nil _).symm, .nil h⟩
    · rintro ⟨us, rfl, hus⟩
      cases hus with
      | nil => rw [List.append_nil]
      | cons h' => rw [h] at h'; cases h'
  | case3 acc cs t rest h ih =>
    rw [ih]
    constructor
    · rintro ⟨us, rfl, hus⟩
      exact ⟨t :: us, by simp, .cons h hus⟩
    · rintro ⟨us, rfl, hus⟩
      cases hus with
      | nil h' => rw [h] at h'; cases h'
      | cons h' hus =>
        rw [h] at h'
        cases h'
        exact ⟨_, by simp, hus⟩

theorem cut_iff {content : String} {ts : List Token} :
    tokenize content = .ok ts ↔ Cut content.toList ts := by
  have hlex : lexAll [] content.toList = .ok ts ↔ Cut content.toList ts := by
    rw [lexAll_eq_ok_iff]
    constructor
    · rintro ⟨us, rfl, hus⟩
      exact hus
    · intro h
      exact ⟨ts, rfl, h⟩
  rw [← hlex, tokenize]
  cases lexAll [] content.toList with
  | error e => exact ⟨nofun, nofun⟩
  | ok us => simp [Except.mapError]

/-! ### Lexemes -/

/-- The characters are an identifier. -/
def IsWord (cs : List Char) : Prop :=
  ∃ c r, cs = c :: r ∧ isIdentStart c = true ∧ ∀ x ∈ r, isIdentChar x = true

/-- The characters are a run of digits. -/
def IsNumber (cs : List Char) : Prop := cs ≠ [] ∧ ∀ x ∈ cs, x.isDigit = true

/-- The characters can stand between quotes: each quote is protected by a backslash, and no
backslash at the end is left without a character to protect. -/
def isRaw : List Char → Bool
  | [] => true
  | '"' :: _ => false
  | ['\\'] => false
  | '\\' :: _ :: cs => isRaw cs
  | _ :: cs => isRaw cs

/-- The character is a token of its own. -/
def IsMark (c : Char) : Prop :=
  isBlank c = false ∧ c ≠ '"' ∧ c.isDigit = false ∧ isIdentStart c = false

/-- The token can be cut from a text. -/
def IsLexeme : Token → Prop
  | ident s => IsWord s.toList
  | string s => isRaw s.toList = true
  | integer s => IsNumber s.toList
  | punc c => IsMark c
  | eof | invalid => False

theorem isRaw_cons {c : Char} {cs : List Char} (hq : c ≠ '"') (hb : c ≠ '\\') :
    isRaw (c :: cs) = isRaw cs := by
  rw [isRaw] <;> simp_all

/-- A string body ends at the first quote that is not protected. -/
theorem raw_of_stringBody {acc cs body rest : List Char}
    (h : stringBody acc cs = some (body, rest)) :
    ∃ b, body = acc.reverse ++ b ∧ isRaw b = true ∧ cs = b ++ '"' :: rest := by
  fun_induction stringBody acc cs with
  | case1 => cases h
  | case2 acc r =>
    obtain ⟨rfl, rfl⟩ : acc.reverse = body ∧ r = rest := by simpa using h
    exact ⟨[], (List.append_nil _).symm, rfl, rfl⟩
  | case3 acc c r ih =>
    obtain ⟨b, rfl, hb, rfl⟩ := ih h
    exact ⟨'\\' :: c :: b, by simp, by rw [isRaw]; exact hb, rfl⟩
  | case4 acc c r hquote hslash ih =>
    obtain ⟨b, rfl, hb, rfl⟩ := ih h
    have hc : c ≠ '\\' := by
      rintro rfl
      cases b with
      | nil => exact hslash '"' rest rfl rfl
      | cons x b => exact hslash x (b ++ '"' :: rest) rfl rfl
    refine ⟨c :: b, by simp, ?_, rfl⟩
    rw [isRaw_cons hquote hc]
    exact hb

/-- A literal without a quote that closes it has no body. -/
theorem stringBody_eq_none {cs : List Char}
    (h : ∀ body rest, isRaw body = true → cs ≠ body ++ '"' :: rest) : stringBody [] cs = none := by
  by_contra hsome
  obtain ⟨⟨body, rest⟩, hb⟩ := Option.ne_none_iff_exists'.mp hsome
  obtain ⟨b, -, hraw, heq⟩ := raw_of_stringBody hb
  exact h b rest hraw heq

theorem stringBody_of_raw {acc b rest : List Char} (h : isRaw b = true) :
    stringBody acc (b ++ '"' :: rest) = some (acc.reverse ++ b, rest) := by
  fun_induction isRaw b generalizing acc with
  | case1 => simp [stringBody]
  | case2 => cases h
  | case3 => cases h
  | case4 c cs ih =>
    rw [List.cons_append, List.cons_append, stringBody, ih h]
    simp
  | case5 c cs hquote hlone hslash ih =>
    rw [List.cons_append, stringBody, ih h]
    · simp
    · exact hquote
    · rintro x r rfl hr
      cases cs with
      | nil => exact hlone rfl rfl
      | cons y cs => exact hslash y cs rfl rfl

/-! ### Every token is a lexeme -/

/-- A token opens with a character that is no blank. -/
theorem isBlank_of_skipGap {cs r : List Char} {c : Char} (h : skipGap cs = .ok (c :: r)) :
    isBlank c = false := by
  fun_induction skipGap cs with
  | case1 => cases h
  | case2 body ih => exact ih h
  | case3 body rest hrest ih => exact ih h
  | case4 => cases h
  | case5 d ds _ _ _ ih => exact ih h
  | case6 d ds _ _ hblank =>
    obtain ⟨rfl, -⟩ : d = c ∧ ds = r := by simpa using h
    simpa using hblank

theorem isLexeme_of_lexeme {c : Char} {cs rest : List Char} {t : Token} (hc : isBlank c = false)
    (h : lexeme c cs = .ok (t, rest)) : t.IsLexeme := by
  unfold lexeme at h
  split_ifs at h with hquote hdigit hstart
  · cases hb : stringBody [] cs with
    | none => simp [hb] at h
    | some out =>
      obtain ⟨body, rest'⟩ := out
      obtain ⟨b, hbody, hraw, -⟩ := raw_of_stringBody hb
      obtain ⟨rfl, -⟩ : Token.string (.ofList body) = t ∧ rest' = rest := by simpa [hb] using h
      simpa [IsLexeme, hbody] using hraw
  · cases h
    refine ⟨by simp, fun x hx => ?_⟩
    rw [String.toList_ofList] at hx
    rcases List.mem_cons.mp hx with rfl | hx
    · exact hdigit
    · exact List.mem_takeWhile_imp hx
  · cases h
    exact ⟨c, _, String.toList_ofList, hstart, fun x hx => List.mem_takeWhile_imp hx⟩
  · cases h
    exact ⟨hc, hquote, by simpa using hdigit, by simpa using hstart⟩

/-- All tokens of a text are lexemes. -/
theorem Cut.isLexeme {cs : List Char} {ts : List Token} (h : Cut cs ts) : ∀ t ∈ ts, t.IsLexeme := by
  induction h with
  | nil => nofun
  | @cons cs rest t ts h _ ih =>
    intro u hu
    rcases List.mem_cons.mp hu with rfl | hu
    · unfold next? at h
      split at h
      · cases h
      · cases h
      · rename_i c cs' hgap
        cases hl : lexeme c cs' with
        | error e => simp [hl, Except.map] at h
        | ok out =>
          obtain rfl : out = (u, rest) := by simpa [hl, Except.map] using h
          exact isLexeme_of_lexeme (isBlank_of_skipGap hgap) hl
    · exact ih u hu

end ModuleDeps.Token
