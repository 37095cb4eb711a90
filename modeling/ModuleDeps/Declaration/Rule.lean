import ModuleDeps.Declaration

/-!
# Grammar rules

A rule reads a value off the front of a token list and gives back the tokens that follow it, or
says where the list cannot be read. A fault holds the tokens from that place on, so a rule needs
no positions; the place is counted once, at the end, by `Fault.locate`.

`Rule.many` reads as many items as there are. It ends because each item takes a token: rules that
never give back more than they got are `NonGrowing`, and rules that take at least one token are
`Consuming`, and both properties pass through sequences of rules.
-/

namespace ModuleDeps

/-! ### Errors -/

/-- What a grammar rule asks for. -/
inductive Expected where
  /-- A keyword. -/
  | keyword (k : Keyword)
  /-- Any identifier. -/
  | identifier
  /-- Any string literal. -/
  | stringLiteral
  /-- Any run of digits. -/
  | integerLiteral
  /-- A character of punctuation. -/
  | symbol (c : Char)
  /-- An expected property of a header. -/
  | headerAttribute
  /-- A module. -/
  | moduleDeclaration
  deriving DecidableEq, Repr

namespace Expected

/-- The punctuation of the grammar. Other characters have no name in messages. -/
def symbols : List Char := ['{', '}', '[', ']', ',', '*', '.', '!']

/-- What is asked for, as messages show it. -/
def text : Expected → String
  | keyword k => k.text
  | identifier => "identifier"
  | stringLiteral => "string literal"
  | integerLiteral => "integer literal"
  | symbol c => if c ∈ symbols then "`" ++ String.singleton c ++ "`" else "punctuation"
  | headerAttribute => "header attribute"
  | moduleDeclaration => "module declaration"

end Expected

/-- What is wrong with a token list that is no module map. Positions count tokens. -/
inductive ParseError where
  /-- A token stands where another one is asked for. -/
  | unexpected (expected : Expected) (found : Token) (position : Nat)
  /-- Tokens follow the last module. -/
  | trailingTokens (found : Token) (position : Nat)
  /-- A body opens inside too many others. -/
  | nestingTooDeep (position : Nat)
  deriving DecidableEq, Repr

namespace ParseError

/-- Where the list cannot be read on. -/
def position : ParseError → Nat
  | unexpected _ _ n | trailingTokens _ n | nestingTooDeep n => n

/-- The error as it is reported. -/
def message : ParseError → String
  | unexpected e t n => "expected " ++ e.text ++ ", found " ++ t.describe ++ " at token " ++ toString n
  | trailingTokens t n => "unexpected trailing " ++ t.describe ++ " at token " ++ toString n
  | nestingTooDeep n => "modules nested too deeply at token " ++ toString n

end ParseError

/-- Why a rule cannot go on. -/
inductive Refusal where
  /-- Something else is asked for. -/
  | expected (what : Expected)
  /-- Nothing may follow. -/
  | trailing
  /-- No more bodies may open. -/
  | nesting
  deriving DecidableEq, Repr

/-- A refusal with the tokens that are left at that place. -/
structure Fault where
  /-- Why the rule cannot go on. -/
  reason : Refusal
  /-- The tokens from the refused one on. -/
  rest : List Token
  deriving DecidableEq, Repr

/-- The token at the front, or the end of the input. -/
def Token.front (ts : List Token) : Token := ts.headD .eof

/-- The error for a fault in a list of `size` tokens. -/
def Fault.locate (size : Nat) (f : Fault) : ParseError :=
  let position := size - f.rest.length
  match f.reason with
  | .expected what => .unexpected what (Token.front f.rest) position
  | .trailing => .trailingTokens (Token.front f.rest) position
  | .nesting => .nestingTooDeep position

/-! ### Rules -/

/-- A rule reads a value off the front of a token list. -/
abbrev Rule (α : Type) := StateT (List Token) (Except Fault) α

namespace Rule

variable {α β : Type}

/-- Refuses to go on. -/
def refuse (reason : Refusal) : Rule α := fun ts => .error ⟨reason, ts⟩

/-- The next token, which is not taken. -/
def peek : Rule Token := fun ts => .ok (Token.front ts, ts)

/-- Takes the next token if it is `t`, and says whether it was. -/
def accept (t : Token) : Rule Bool := fun ts =>
  match ts with
  | [] => .ok (false, [])
  | u :: rest => if u = t then .ok (true, rest) else .ok (false, u :: rest)

/-- Takes the token `t`. -/
def expect (t : Token) (what : Expected) : Rule Unit := do
  if ← accept t then pure () else refuse (.expected what)

/-- Takes the keyword `k`. -/
def keyword (k : Keyword) : Rule Unit := expect k.token (.keyword k)

/-- Takes the punctuation `c`. -/
def symbol (c : Char) : Rule Unit := expect (.punc c) (.symbol c)

/-- Takes an identifier. -/
def identifier : Rule String := fun ts =>
  match ts with
  | .ident s :: rest => .ok (s, rest)
  | ts => refuse (.expected .identifier) ts

/-- Takes a string literal. -/
def stringLiteral : Rule String := fun ts =>
  match ts with
  | .string s :: rest => .ok (s, rest)
  | ts => refuse (.expected .stringLiteral) ts

/-- Takes a run of digits. -/
def integerLiteral : Rule String := fun ts =>
  match ts with
  | .integer s :: rest => .ok (s, rest)
  | ts => refuse (.expected .integerLiteral) ts

/-! ### Rules that run out -/

/-- The rule never leaves more tokens than it is given. -/
def NonGrowing (r : Rule α) : Prop := ∀ ts a rest, r ts = .ok (a, rest) → rest.length ≤ ts.length

/-- The rule takes at least one token. -/
def Consuming (r : Rule α) : Prop := ∀ ts a rest, r ts = .ok (a, rest) → rest.length < ts.length

/-- The rule takes at least one token whenever it finds an item. -/
def Progressing (r : Rule (Option α)) : Prop :=
  NonGrowing r ∧ ∀ ts a rest, r ts = .ok (some a, rest) → rest.length < ts.length

theorem bind_eq_ok_iff {r : Rule α} {f : α → Rule β} {ts : List Token} {b : β} {rest : List Token} :
    (r >>= f) ts = .ok (b, rest) ↔ ∃ a mid, r ts = .ok (a, mid) ∧ f a mid = .ok (b, rest) := by
  simp only [bind, StateT.bind, Except.bind]
  cases r ts with
  | error e => simp
  | ok p =>
    constructor
    · exact fun h => ⟨p.1, p.2, rfl, h⟩
    · rintro ⟨a, mid, ⟨⟩, h⟩
      exact h

theorem pure_eq_ok_iff {a b : α} {ts rest : List Token} :
    (pure a : Rule α) ts = .ok (b, rest) ↔ a = b ∧ ts = rest := by
  change (Except.ok (a, ts) : Except Fault (α × List Token)) = .ok (b, rest) ↔ _
  rw [Except.ok.injEq, Prod.mk.injEq]

theorem Consuming.nonGrowing {r : Rule α} (h : Consuming r) : NonGrowing r :=
  fun ts a rest hr => Nat.le_of_lt (h ts a rest hr)

theorem nonGrowing_pure (a : α) : NonGrowing (pure a : Rule α) := by
  intro ts b rest h
  exact Nat.le_of_eq (congrArg List.length (pure_eq_ok_iff.mp h).2.symm)

theorem NonGrowing.bind {r : Rule α} {f : α → Rule β} (hr : NonGrowing r) (hf : ∀ a, NonGrowing (f a)) :
    NonGrowing (r >>= f) := by
  intro ts b rest h
  obtain ⟨a, mid, h₁, h₂⟩ := bind_eq_ok_iff.mp h
  exact Nat.le_trans (hf a _ _ _ h₂) (hr _ _ _ h₁)

theorem Consuming.bind {r : Rule α} {f : α → Rule β} (hr : Consuming r) (hf : ∀ a, NonGrowing (f a)) :
    Consuming (r >>= f) := by
  intro ts b rest h
  obtain ⟨a, mid, h₁, h₂⟩ := bind_eq_ok_iff.mp h
  exact Nat.lt_of_le_of_lt (hf a _ _ _ h₂) (hr _ _ _ h₁)

theorem NonGrowing.bind_consuming {r : Rule α} {f : α → Rule β} (hr : NonGrowing r)
    (hf : ∀ a, Consuming (f a)) : Consuming (r >>= f) := by
  intro ts b rest h
  obtain ⟨a, mid, h₁, h₂⟩ := bind_eq_ok_iff.mp h
  exact Nat.lt_of_lt_of_le (hf a _ _ _ h₂) (hr _ _ _ h₁)

theorem Progressing.of_consuming {r : Rule (Option α)} (h : Consuming r) : Progressing r :=
  ⟨h.nonGrowing, fun ts a rest => h ts (some a) rest⟩

theorem progressing_none : Progressing (pure none : Rule (Option α)) :=
  ⟨nonGrowing_pure _, fun _ _ _ h => nomatch (pure_eq_ok_iff.mp h).1⟩

theorem Consuming.map {r : Rule α} (f : α → β) (h : Consuming r) : Consuming (f <$> r) := by
  rw [map_eq_pure_bind]
  exact h.bind fun _ => nonGrowing_pure _

theorem consuming_refuse (reason : Refusal) : Consuming (refuse reason : Rule α) := nofun

theorem nonGrowing_refuse (reason : Refusal) : NonGrowing (refuse reason : Rule α) :=
  (consuming_refuse reason).nonGrowing

theorem nonGrowing_peek : NonGrowing peek := by
  intro ts t rest h
  simp only [peek, Except.ok.injEq, Prod.mk.injEq] at h
  simp [h.2]

theorem nonGrowing_accept (t : Token) : NonGrowing (accept t) := by
  intro ts b rest h
  unfold accept at h
  split at h
  · simp_all
  · split at h <;> (simp only [Except.ok.injEq, Prod.mk.injEq] at h; simp [← h.2])

theorem length_lt_of_accept {t : Token} {ts rest : List Token} (h : accept t ts = .ok (true, rest)) :
    rest.length < ts.length := by
  unfold accept at h
  split at h
  · simp at h
  · split at h <;> simp at h
    simp [h]

theorem consuming_expect (t : Token) (what : Expected) : Consuming (expect t what) := by
  intro ts a rest h
  obtain ⟨b, mid, h₁, h₂⟩ := bind_eq_ok_iff.mp h
  cases b with
  | false => simp [refuse] at h₂
  | true =>
    have := length_lt_of_accept h₁
    have := nonGrowing_pure () mid a rest h₂
    omega

theorem consuming_keyword (k : Keyword) : Consuming (keyword k) := consuming_expect _ _

theorem consuming_symbol (c : Char) : Consuming (symbol c) := consuming_expect _ _

theorem consuming_identifier : Consuming identifier := by
  intro ts a rest h
  unfold identifier at h
  split at h
  · simp at h; simp [h.2]
  · simp [refuse] at h

theorem consuming_stringLiteral : Consuming stringLiteral := by
  intro ts a rest h
  unfold stringLiteral at h
  split at h
  · simp at h; simp [h.2]
  · simp [refuse] at h

theorem consuming_integerLiteral : Consuming integerLiteral := by
  intro ts a rest h
  unfold integerLiteral at h
  split at h
  · simp at h; simp [h.2]
  · simp [refuse] at h

/-! ### Repetition -/

/-- Reads items as long as `item` finds one, `acc` being those found so far in reverse. -/
def manyFrom (item : Rule (Option α)) (h : Progressing item) (acc : List α) (ts : List Token) :
    Except Fault (List α × List Token) :=
  match _step : item ts with
  | .error e => .error e
  | .ok (none, rest) => .ok (acc.reverse, rest)
  | .ok (some a, rest) => manyFrom item h (a :: acc) rest
termination_by ts.length
decreasing_by exact h.2 _ _ _ _step

theorem manyFrom_of_error {item : Rule (Option α)} {h : Progressing item} {acc : List α}
    {ts : List Token} {fault : Fault} (hr : item ts = .error fault) :
    manyFrom item h acc ts = .error fault := by
  rw [manyFrom]
  split <;> simp_all

theorem manyFrom_of_none {item : Rule (Option α)} {h : Progressing item} {acc : List α}
    {ts rest : List Token} (hr : item ts = .ok (none, rest)) :
    manyFrom item h acc ts = .ok (acc.reverse, rest) := by
  rw [manyFrom]
  split <;> simp_all

theorem manyFrom_of_some {item : Rule (Option α)} {h : Progressing item} {acc : List α} {a : α}
    {ts rest : List Token} (hr : item ts = .ok (some a, rest)) :
    manyFrom item h acc ts = manyFrom item h (a :: acc) rest := by
  rw [manyFrom]
  split <;> simp_all

/-- Reads items as long as `item` finds one. -/
def many (item : Rule (Option α)) (h : Progressing item) : Rule (List α) := manyFrom item h []

theorem length_manyFrom_le {item : Rule (Option α)} {h : Progressing item} {acc as : List α}
    {ts rest : List Token} (hr : manyFrom item h acc ts = .ok (as, rest)) : rest.length ≤ ts.length := by
  fun_induction manyFrom item h acc ts with
  | case1 => simp at hr
  | case2 acc ts r hs =>
    simp only [Except.ok.injEq, Prod.mk.injEq] at hr
    rw [← hr.2]
    exact h.1 _ _ _ hs
  | case3 acc ts a r hs ih => exact Nat.le_trans (ih hr) (Nat.le_of_lt (h.2 _ _ _ hs))

theorem nonGrowing_many (item : Rule (Option α)) (h : Progressing item) : NonGrowing (many item h) :=
  fun _ _ _ => length_manyFrom_le

/-- An item with the token `t` in front of it, if `t` comes next. -/
def after (t : Token) (item : Rule α) : Rule (Option α) := do
  if ← accept t then some <$> item else pure none

theorem progressing_after (t : Token) {item : Rule α} (h : NonGrowing item) :
    Progressing (after t item) := by
  have hm : NonGrowing (some <$> item) := by
    rw [map_eq_pure_bind]
    exact h.bind fun _ => nonGrowing_pure _
  constructor
  · refine (nonGrowing_accept t).bind fun b => ?_
    cases b
    · exact nonGrowing_pure _
    · exact hm
  · intro ts a rest hr
    obtain ⟨b, mid, h₁, h₂⟩ := bind_eq_ok_iff.mp hr
    cases b with
    | false => exact nomatch (pure_eq_ok_iff.mp h₂).1
    | true =>
      have := length_lt_of_accept h₁
      have := hm _ _ _ h₂
      omega

end Rule

end ModuleDeps
