import ModuleDeps.Declaration.Grammar

/-!
# How far the rules look

A rule takes tokens up to some place and stops there, with a value or with a refusal. It never looks
further than the next two tokens from that place on, and never past the end of the input, which it
does not take either: with other tokens that open with the same two it stops in the same way
(`Local`). The property passes through sequences and repetitions, so it holds of the rule for whole
files (`local_file`).
-/

namespace ModuleDeps

/-! ### Looking ahead -/

namespace Token

/-- The next two tokens. Behind the end of the input there are no others. -/
def ahead (ts : List Token) : Token × Token :=
  (front ts, if front ts = .eof then .eof else front ts.tail)

theorem front_eq_of_ahead {ts us : List Token} (h : ahead ts = ahead us) : front ts = front us :=
  congrArg Prod.fst h

theorem ahead_append {xs ts us : List Token} (h : ahead ts = ahead us) :
    ahead (xs ++ ts) = ahead (xs ++ us) := by
  cases xs with
  | nil => exact h
  | cons x xs =>
    have hfront : front (xs ++ ts) = front (xs ++ us) := by
      cases xs with
      | nil => exact front_eq_of_ahead h
      | cons => rfl
    simp only [ahead, List.cons_append, List.tail_cons, hfront]
    rfl

theorem punc_ne_eof (c : Char) : punc c ≠ .eof := nofun

theorem keyword_ne_eof (k : Keyword) : k.token ≠ .eof := nofun

theorem exists_eq_cons_of_front {ts : List Token} {t : Token} (ht : t ≠ .eof) (h : front ts = t) :
    ∃ rest, ts = t :: rest := by
  cases ts with
  | nil => exact absurd h.symm ht
  | cons u rest => exact ⟨rest, by rw [← h]; rfl⟩

/-- Where the next token is not the end of the input, the second one is seen as well. -/
theorem front_tail_of_ahead {ts us : List Token} {t : Token} (ht : t ≠ .eof)
    (h : ahead us = ahead (t :: ts)) : ∃ rest, us = t :: rest ∧ front rest = front ts := by
  obtain ⟨rest, rfl⟩ := exists_eq_cons_of_front ht (front_eq_of_ahead h)
  have hfront (ts : List Token) : (ahead (t :: ts)).2 = front ts := if_neg ht
  refine ⟨rest, rfl, ?_⟩
  rw [← hfront, h, hfront]

end Token

namespace Rule

open Token

variable {α β : Type}

/-! ### Rules that look no further -/

/-- What a rule gives back when it stops in front of `rest`. -/
def stop (out : Except Refusal α) (rest : List Token) : Except Fault (α × List Token) :=
  match out with
  | .ok a => .ok (a, rest)
  | .error reason => .error ⟨reason, rest⟩

/-- There is a place in `ts` where the rule stops, whatever follows the next two tokens. -/
def LocalAt (r : Rule α) (ts : List Token) : Prop :=
  ∃ pre rest out, ts = pre ++ rest ∧ .eof ∉ pre ∧
    ∀ rest', ahead rest' = ahead rest → r (pre ++ rest') = stop out rest'

/-- The rule looks at the next two tokens only, wherever it stops. -/
def Local (r : Rule α) : Prop := ∀ ts, LocalAt r ts

theorem LocalAt.eq_error {r : Rule α} {ts rest : List Token} {reason : Refusal}
    (h : LocalAt r ts) (hr : r ts = .error ⟨reason, rest⟩) : ∃ pre, ts = pre ++ rest ∧ .eof ∉ pre ∧
      ∀ rest', ahead rest' = ahead rest → r (pre ++ rest') = .error ⟨reason, rest'⟩ := by
  obtain ⟨pre, rest₁, out, rfl, heof, hstop⟩ := h
  rw [hstop rest₁ rfl] at hr
  cases out with
  | ok => cases hr
  | error => cases hr; exact ⟨pre, rfl, heof, hstop⟩

/-- A rule that stops at once, for what it sees. -/
theorem localAt_of_stop {r : Rule α} {ts : List Token} (out : Except Refusal α)
    (h : ∀ us, ahead us = ahead ts → r us = stop out us) : LocalAt r ts :=
  ⟨[], ts, out, rfl, List.not_mem_nil, h⟩

/-- A rule that takes one token. -/
theorem localAt_of_take {r : Rule α} {t : Token} (ts : List Token) (a : α) (ht : t ≠ .eof)
    (h : ∀ us, r (t :: us) = .ok (a, us)) : LocalAt r (t :: ts) :=
  ⟨[t], ts, .ok a, rfl, by simpa using ht.symm, fun us _ => h us⟩

/-- It is enough to know what the rule does where the next two tokens are the same. -/
theorem LocalAt.congr {r r' : Rule α} {ts : List Token} (hr : LocalAt r' ts)
    (h : ∀ us, ahead us = ahead ts → r us = r' us) : LocalAt r ts := by
  obtain ⟨pre, rest, out, rfl, heof, hstop⟩ := hr
  refine ⟨pre, rest, out, rfl, heof, fun rest' hahead => ?_⟩
  rw [h _ (ahead_append hahead), hstop rest' hahead]

/-! ### Sequences and repetitions -/

theorem local_pure (a : α) : Local (pure a : Rule α) :=
  fun _ => localAt_of_stop (.ok a) fun _ _ => rfl

theorem local_refuse (reason : Refusal) : Local (refuse reason : Rule α) :=
  fun _ => localAt_of_stop (.error reason) fun _ _ => rfl

theorem Local.bind {r : Rule α} {f : α → Rule β} (hr : Local r) (hf : ∀ a, Local (f a)) :
    Local (r >>= f) := by
  intro ts
  obtain ⟨pre, rest, out, rfl, heof, hstop⟩ := hr ts
  cases out with
  | error reason =>
    refine ⟨pre, rest, .error reason, rfl, heof, fun rest' hahead => ?_⟩
    simp only [Bind.bind, StateT.bind, hstop rest' hahead]
    rfl
  | ok a =>
    obtain ⟨pre', rest', out', rfl, heof', hstop'⟩ := hf a rest
    refine ⟨pre ++ pre', rest', out', (List.append_assoc _ _ _).symm, ?_, fun us hahead => ?_⟩
    · simpa using ⟨heof, heof'⟩
    · simp only [Bind.bind, StateT.bind]
      rw [List.append_assoc, hstop (pre' ++ us) (ahead_append hahead)]
      exact hstop' us hahead

theorem Local.map {r : Rule α} (f : α → β) (hr : Local r) : Local (f <$> r) := by
  rw [map_eq_pure_bind]
  exact hr.bind fun _ => local_pure _

/-- A rule that looks at the next token and goes on as `f` says. -/
theorem LocalAt.peek_bind {f : Token → Rule α} {ts : List Token} (h : LocalAt (f (front ts)) ts) :
    LocalAt (peek >>= f) ts := by
  refine h.congr fun us hahead => ?_
  rw [← front_eq_of_ahead hahead]
  rfl

theorem localAt_manyFrom {item : Rule (Option α)} (hp : Progressing item) (hi : Local item)
    (acc : List α) (ts : List Token) : LocalAt (manyFrom item hp acc) ts := by
  obtain ⟨pre, rest, out, rfl, heof, hstop⟩ := hi ts
  cases out with
  | error reason =>
    exact ⟨pre, rest, .error reason, rfl, heof, fun rest' hahead =>
      manyFrom_of_error (hstop rest' hahead)⟩
  | ok a? =>
    cases a? with
    | none =>
      exact ⟨pre, rest, .ok acc.reverse, rfl, heof, fun rest' hahead =>
        manyFrom_of_none (hstop rest' hahead)⟩
    | some a =>
      have hlt : rest.length < (pre ++ rest).length := hp.2 _ _ _ (hstop rest rfl)
      obtain ⟨pre', rest', out', rfl, heof', hstop'⟩ := localAt_manyFrom hp hi (a :: acc) rest
      refine ⟨pre ++ pre', rest', out', (List.append_assoc _ _ _).symm, ?_, fun us hahead => ?_⟩
      · simpa using ⟨heof, heof'⟩
      · rw [List.append_assoc, manyFrom_of_some (hstop (pre' ++ us) (ahead_append hahead))]
        exact hstop' us hahead
termination_by ts.length

theorem Local.many {item : Rule (Option α)} (hi : Local item) (hp : Progressing item) :
    Local (many item hp) := localAt_manyFrom hp hi []

/-! ### Single tokens -/

theorem local_accept {t : Token} (ht : t ≠ .eof) : Local (accept t) := by
  intro ts
  by_cases hfront : front ts = t
  · obtain ⟨rest, rfl⟩ := exists_eq_cons_of_front ht hfront
    exact localAt_of_take rest true ht fun us => by simp [accept]
  · refine localAt_of_stop (.ok false) fun us hahead => ?_
    rw [← front_eq_of_ahead hahead] at hfront
    cases us with
    | nil => rfl
    | cons u us =>
      have hu : u ≠ t := hfront
      simp [accept, hu, stop]

theorem local_expect {t : Token} (ht : t ≠ .eof) (what : Expected) : Local (expect t what) := by
  refine (local_accept ht).bind fun b => ?_
  cases b
  · exact local_refuse _
  · exact local_pure _

theorem local_keyword (k : Keyword) : Local (keyword k) := local_expect (keyword_ne_eof k) _

theorem local_symbol (c : Char) : Local (symbol c) := local_expect (punc_ne_eof c) _

theorem local_acceptKeyword (k : Keyword) : Local (accept k.token) :=
  local_accept (keyword_ne_eof k)

theorem local_acceptPunc (c : Char) : Local (accept (.punc c)) := local_accept (punc_ne_eof c)

/-- A rule that takes one kind of token and refuses all others. -/
theorem local_of_kind {r : Rule String} (kind : String → Token) (what : Expected)
    (hkind : ∀ s, kind s ≠ .eof) (htake : ∀ s us, r (kind s :: us) = .ok (s, us))
    (hrefuse : ∀ us, (∀ s, front us ≠ kind s) → r us = refuse (.expected what) us) : Local r := by
  intro ts
  by_cases h : ∃ s, front ts = kind s
  · obtain ⟨s, hs⟩ := h
    obtain ⟨rest, rfl⟩ := exists_eq_cons_of_front (hkind s) hs
    exact localAt_of_take rest s (hkind s) (htake s)
  · refine localAt_of_stop (.error (.expected what)) fun us hahead => ?_
    rw [← front_eq_of_ahead hahead] at h
    exact hrefuse us fun s hs => h ⟨s, hs⟩

theorem local_identifier : Local identifier := by
  refine local_of_kind .ident .identifier nofun (fun _ _ => rfl) fun us h => ?_
  unfold identifier
  split
  · exact absurd rfl (h _)
  · rfl

theorem local_stringLiteral : Local stringLiteral := by
  refine local_of_kind .string .stringLiteral nofun (fun _ _ => rfl)
    fun us h => ?_
  unfold stringLiteral
  split
  · exact absurd rfl (h _)
  · rfl

theorem local_integerLiteral : Local integerLiteral := by
  refine local_of_kind .integer .integerLiteral nofun (fun _ _ => rfl)
    fun us h => ?_
  unfold integerLiteral
  split
  · exact absurd rfl (h _)
  · rfl

theorem local_after {t : Token} (ht : t ≠ .eof) {item : Rule α} (hi : Local item) :
    Local (after t item) := by
  refine (local_accept ht).bind fun b => ?_
  cases b
  · exact local_pure _
  · exact hi.map _

/-! ### Names and lists -/

theorem local_dottedName : Local dottedName :=
  local_identifier.bind fun _ =>
    ((local_after (punc_ne_eof _) local_identifier).many _).bind fun _ => local_pure _

theorem local_exportPart : Local exportPart := by
  have hitem : Local (after (.punc '.') identifier) :=
    local_after (punc_ne_eof _) local_identifier
  intro ts
  by_cases hstar : ahead ts = (.punc '.', .punc '*')
  · refine localAt_of_stop (.ok none) fun us hahead => ?_
    obtain ⟨us, rfl⟩ := exists_eq_cons_of_front (punc_ne_eof _)
      (congrArg Prod.fst (hahead.trans hstar))
    obtain ⟨us, rfl⟩ := exists_eq_cons_of_front (punc_ne_eof _)
      (congrArg Prod.snd (hahead.trans hstar))
    rfl
  · refine (hitem ts).congr fun us hahead => ?_
    unfold exportPart
    split
    · exact absurd hahead.symm hstar
    · rfl

theorem local_exportName : Local exportName := by
  refine (local_acceptPunc _).bind fun b => ?_
  cases b
  · refine local_identifier.bind fun _ => (local_exportPart.many _).bind fun _ =>
      (local_acceptPunc _).bind fun b => ?_
    cases b
    · exact local_pure _
    · exact (local_symbol _).bind fun _ => local_pure _
  · exact local_pure _

theorem local_feature : Local feature :=
  (local_acceptPunc _).bind fun _ => local_identifier.bind fun _ => local_pure _

theorem local_attributes : Local attributes :=
  (local_after (punc_ne_eof _)
    (local_identifier.bind fun _ => (local_symbol _).bind fun _ => local_pure _)).many _

theorem local_macros : Local macros := by
  intro ts
  refine LocalAt.peek_bind ?_
  cases front ts with
  | ident =>
    exact (local_identifier.bind fun _ =>
      ((local_after (punc_ne_eof _) local_identifier).many _).bind fun _ => local_pure _) ts
  | string | integer | punc | eof | invalid => exact local_pure _ ts

/-! ### Members -/

theorem local_requires : Local requires :=
  (local_keyword _).bind fun _ => local_feature.bind fun _ =>
    ((local_after (punc_ne_eof _) local_feature).many _).bind fun _ => local_pure _

theorem local_headerForm : Local headerForm := by
  refine (local_acceptKeyword _).bind fun b => ?_
  cases b
  · refine (local_acceptKeyword _).bind fun b => ?_
    cases b
    · exact (local_acceptKeyword _).bind fun _ => (local_acceptKeyword _).bind fun _ =>
        local_pure _
    · exact local_pure _
  · exact local_pure _

theorem local_headerProperty : Local headerProperty := by
  refine (local_acceptKeyword _).bind fun b => ?_
  cases b
  · refine (local_acceptKeyword _).bind fun b => ?_
    cases b
    · exact local_refuse _
    · exact local_integerLiteral.bind fun _ => local_pure _
  · exact local_integerLiteral.bind fun _ => local_pure _

theorem local_headerProperty? : Local headerProperty? := by
  intro ts
  refine LocalAt.peek_bind ?_
  split
  · exact local_headerProperty.map _ ts
  · exact local_headerProperty.map _ ts
  · exact local_pure _ ts

theorem local_headerBraces : Local headerBraces := by
  refine (local_acceptPunc _).bind fun b => ?_
  cases b
  · exact local_pure _
  · exact local_headerProperty?.bind fun _ => (local_symbol _).bind fun _ => local_pure _

theorem local_header : Local header :=
  local_headerForm.bind fun _ => (local_keyword _).bind fun _ =>
    local_stringLiteral.bind fun _ => local_headerBraces.bind fun _ => local_pure _

theorem local_umbrellaDir : Local umbrellaDir :=
  (local_keyword _).bind fun _ => local_stringLiteral.bind fun _ => local_pure _

theorem local_exports : Local exports :=
  (local_keyword _).bind fun _ => local_exportName.bind fun _ => local_pure _

theorem local_exportAs : Local exportAs :=
  (local_keyword _).bind fun _ => local_identifier.bind fun _ => local_pure _

theorem local_use : Local use :=
  (local_keyword _).bind fun _ => local_identifier.bind fun _ => local_pure _

theorem local_link : Local link :=
  (local_keyword _).bind fun _ => (local_acceptKeyword _).bind fun _ =>
    local_stringLiteral.bind fun _ => local_pure _

theorem local_configMacros : Local configMacros :=
  (local_keyword _).bind fun _ => local_attributes.bind fun _ => local_macros.bind fun _ =>
    local_pure _

theorem local_conflict : Local conflict :=
  (local_keyword _).bind fun _ => local_dottedName.bind fun _ => (local_symbol _).bind fun _ =>
    local_stringLiteral.bind fun _ => local_pure _

/-! ### Modules -/

theorem local_moduleHead : Local moduleHead :=
  (local_acceptKeyword _).bind fun _ => (local_acceptKeyword _).bind fun _ =>
    (local_keyword _).bind fun _ => local_pure _

theorem local_external : Local external :=
  (local_keyword _).bind fun _ => (local_keyword _).bind fun _ => local_dottedName.bind fun _ =>
    local_stringLiteral.bind fun _ => local_pure _

theorem local_regular {body : Rule (List Decl)} (h : Local body) (isExplicit isFramework : Bool) :
    Local (regular body isExplicit isFramework) :=
  local_dottedName.bind fun _ => local_attributes.bind fun _ => (local_symbol _).bind fun _ =>
    h.bind fun _ => (local_symbol _).bind fun _ => local_pure _

theorem local_inferred (isExplicit isFramework : Bool) : Local (inferred isExplicit isFramework) :=
  local_attributes.bind fun _ => (local_symbol _).bind fun _ =>
    ((local_after (keyword_ne_eof _) (local_symbol _)).many _).bind fun _ =>
      (local_symbol _).bind fun _ => local_pure _

theorem local_topLevel {body : Rule (List Decl)} (h : Local body) : Local (topLevel body) :=
  local_moduleHead.bind fun _ => local_regular h _ _

theorem local_submodule {body : Rule (List Decl)} (h : Local body) : Local (submodule body) := by
  refine local_moduleHead.bind fun _ => (local_acceptPunc _).bind fun b => ?_
  cases b
  · exact local_regular h _ _
  · exact local_inferred _ _

theorem local_moduleDeclaration {body : Rule (List Decl)} (h : Local body) :
    Local (moduleDeclaration body) := by
  intro ts
  refine LocalAt.peek_bind ?_
  split
  · exact local_topLevel h ts
  · exact local_topLevel h ts
  · exact local_topLevel h ts
  · exact local_external ts
  · exact local_refuse _ ts

theorem local_submoduleDeclaration {body : Rule (List Decl)} (h : Local body) :
    Local (submoduleDeclaration body) := by
  intro ts
  refine LocalAt.peek_bind ?_
  split
  · exact local_moduleDeclaration h ts
  · exact local_submodule h ts

/-- Behind `umbrella` the second token decides. -/
theorem localAt_umbrella {ts : List Token} (h : front ts = Keyword.umbrella.token) :
    LocalAt umbrella ts := by
  obtain ⟨ts, rfl⟩ := exists_eq_cons_of_front (keyword_ne_eof _) h
  have hnext (us : List Token) (hahead : ahead us = ahead (Keyword.umbrella.token :: ts)) :
      ∃ rest, us = Keyword.umbrella.token :: rest ∧ front rest = front ts :=
    front_tail_of_ahead (keyword_ne_eof _) hahead
  by_cases hstring : ∃ s, front ts = .string s
  · obtain ⟨s, hs⟩ := hstring
    refine ((local_umbrellaDir.map some) _).congr fun us hahead => ?_
    obtain ⟨rest, rfl, hrest⟩ := hnext us hahead
    obtain ⟨rest, rfl⟩ := exists_eq_cons_of_front (t := .string s) nofun (hrest.trans hs)
    rfl
  · by_cases hheader : front ts = Keyword.header.token
    · refine ((local_header.map some) _).congr fun us hahead => ?_
      obtain ⟨rest, rfl, hrest⟩ := hnext us hahead
      obtain ⟨rest, rfl⟩ := exists_eq_cons_of_front (keyword_ne_eof _) (hrest.trans hheader)
      exact umbrella_header rest
    · refine localAt_of_stop (.ok none) fun us hahead => ?_
      obtain ⟨rest, rfl, hrest⟩ := hnext us hahead
      rw [← hrest] at hstring hheader
      unfold umbrella
      split
      · rename_i heq
        obtain ⟨rfl, rfl⟩ := List.cons.inj heq
        exact absurd ⟨_, rfl⟩ hstring
      · rename_i heq
        obtain ⟨rfl, rfl⟩ := List.cons.inj heq
        exact if_neg hheader
      · rfl

theorem local_member {body : Rule (List Decl)} (h : Local body) : Local (member body) := by
  intro ts
  refine LocalAt.peek_bind ?_
  cases hk : Keyword.ofToken? (front ts) with
  | none => exact local_pure _ ts
  | some k =>
    cases k with
    | umbrella => exact localAt_umbrella (Keyword.ofToken?_eq_some_iff.mp hk)
    | size | mtime => exact local_pure _ ts
    | requires => exact local_requires.map _ ts
    | header | exclude | privately | textual => exact local_header.map _ ts
    | explicit | framework | module | external =>
      exact (local_submoduleDeclaration h).map _ ts
    | exports => exact local_exports.map _ ts
    | exportAs => exact local_exportAs.map _ ts
    | use => exact local_use.map _ ts
    | link => exact local_link.map _ ts
    | configMacros => exact local_configMacros.map _ ts
    | conflict => exact local_conflict.map _ ts

theorem local_declaration {body : Rule (List Decl)} (h : Local body) :
    Local (declaration body) := by
  intro ts
  refine LocalAt.peek_bind ?_
  split
  · exact (local_moduleDeclaration h).map _ ts
  · exact (local_moduleDeclaration h).map _ ts
  · exact (local_moduleDeclaration h).map _ ts
  · exact (local_moduleDeclaration h).map _ ts
  · exact local_pure _ ts

/-! ### Bodies and files -/

theorem local_body (n : Nat) : Local (body n) := by
  induction n with
  | zero => exact local_refuse _
  | succ n ih => exact (local_member ih).many _

/-- **The rule for files looks at the next two tokens only**, wherever it stops. -/
theorem local_file : Local file := by
  refine ((local_declaration (local_body _)).many _).bind fun decls ts => LocalAt.peek_bind ?_
  split
  · exact local_pure _ ts
  · exact local_refuse _ ts

end Rule

end ModuleDeps
