import ModuleDeps.Proofs.Grammar.Refusal

/-!
# Errors stand at the first wrong token

A token list is refused at the earliest place. The tokens in front of it can be completed to a
module map: the member that is refused is completed behind the members in front of it, in each of
the bodies that are open (`refuses_body`), and so the file is (`exists_file_of_file_eq_error`). No
token behind the next two has any part in the error, as rules look no further. `ofTokens_eq_error`
puts this together.
-/

namespace ModuleDeps

open Token

namespace Grammar

open Rule

variable {ts : List Token}

/-! ### Bodies and files -/

/-- Where a member is refused, it has opened with a keyword. -/
theorem exists_ident_of_member_eq_error {body : Rule (List Decl)} {fault : Fault}
    (h : member body ts = .error fault) : ∃ s us, ts = .ident s :: us := by
  rw [member, peek_bind] at h
  cases hk : Keyword.ofToken? (front ts) with
  | none =>
    rw [hk] at h
    cases h
  | some k =>
    obtain ⟨ts, rfl⟩ :=
      exists_eq_cons_of_front (keyword_ne_eof k) (Keyword.ofToken?_eq_some_iff.mp hk)
    exact ⟨k.text, ts, rfl⟩

/-- No macros are left out in members that are followed by an identifier. -/
theorem isBare_eq_false_of_many {body : Phrase (List Decl)} {ds : List Decl} {mid : List Token}
    (h : Many (ModuleMember body) ds ts mid) (hmid : ∃ s us, mid = .ident s :: us) :
    (∀ d ∈ ds, d.isBare = false) ∧ ∃ s us, ts = .ident s :: us := by
  induction h with
  | nil => exact ⟨List.forall_mem_nil _, hmid⟩
  | cons hd _ ih =>
    obtain ⟨hds, s, us, rfl⟩ := ih hmid
    refine ⟨List.forall_mem_cons.mpr ⟨?_, hds⟩, hd.front⟩
    exact Bool.eq_false_iff.mpr fun hbare => hd.head_ne_of_isBare hbare s rfl

theorem refuses_body (n : Nat) : Refuses (OpensBody n) (Rule.body n) := by
  induction n with
  | zero =>
    rintro ts reason rest ⟨⟩ hne
    exact absurd rfl hne
  | succ n ih =>
    intro ts reason rest h hne
    obtain ⟨ds, mid, hm, hmid⟩ := exists_many_of_manyFrom_eq_error h
    obtain ⟨hreason, pre, rfl, hopens⟩ := refuses_member ih mid reason rest hmid hne
    have hds : Body (n + 1) ds ts (pre ++ rest) :=
      hm.mono fun _ _ _ => moduleMember_of_member (readsBody n)
    refine ⟨hreason, Decl.tokensList ds ++ pre, ?_, fun hcount => ?_⟩
    · rw [hds.eq_append, List.append_assoc]
    -- the member that is refused is completed behind the members in front of it
    rw [List.count_append] at hcount
    obtain ⟨d, ⟨more, hd⟩, hn, hl⟩ := hopens (by omega)
    obtain ⟨hns, hls⟩ := hds.formed
    obtain ⟨hpair, hlegible⟩ := Decl.legibleList_iff.mp hls
    obtain ⟨hbare, -⟩ := isBare_eq_false_of_many hds (exists_ident_of_member_eq_error hmid)
    refine ⟨ds ++ [d], ⟨more, ?_⟩, Nat.succ_le_succ (Decl.nestingList_le_iff.mpr ?_),
      Decl.legibleList_iff.mpr ⟨?_, ?_⟩⟩
    · simp [Decl.tokensList_append, Decl.tokensList, hd]
    · rw [List.forall_mem_append, List.forall_mem_singleton]
      exact ⟨Decl.nestingList_le_iff.mp (Nat.le_of_succ_le_succ hns), hn⟩
    · rw [List.pairwise_append]
      exact ⟨hpair, List.pairwise_singleton _ _, fun d' hd' _ _ => hbare d' hd'⟩
    · rw [List.forall_mem_append, List.forall_mem_singleton]
      exact ⟨hlegible, hl⟩

/-- What is taken where a file is refused opens a file, unless too many bodies are open. -/
theorem exists_file_of_file_eq_error {reason : Refusal} {rest : List Token}
    (h : Rule.file ts = .error ⟨reason, rest⟩) (hne : reason ≠ .nesting) :
    (reason = .trailing ∨ ∃ what ∈ Expected.asked, reason = .expected what) ∧
      ∃ pre, ts = pre ++ rest ∧
        (pre.count (.punc '{') < maxNesting → ∃ more ds, File ds (pre ++ more)) := by
  cases hout : many (declaration (body maxNesting)) (progressing_declaration (nonGrowing_body _)) ts
    with
  | error fault =>
    rw [Rule.file, bind_of_error hout] at h
    cases h
    obtain ⟨ds, mid, hm, hmid⟩ := exists_many_of_manyFrom_eq_error hout
    obtain ⟨hreason, pre, rfl, hopens⟩ :=
      refuses_declaration (refuses_body _) mid reason rest hmid hne
    have hds := derived_of_many_declaration hm
    refine ⟨.inr hreason, Decl.tokensList ds ++ pre, ?_, fun hcount => ?_⟩
    · rw [eq_append_of_many hds, List.append_assoc]
    rw [List.count_append] at hcount
    obtain ⟨d, ⟨more, hd⟩, hformed⟩ := hopens (by omega)
    refine ⟨more, ds ++ [d], file_iff.mpr ⟨?_, ?_⟩⟩
    · simp [Decl.tokensList_append, Decl.tokensList, hd]
    · rw [List.forall_mem_append, List.forall_mem_singleton]
      exact ⟨forall_formed_of_many hds, hformed⟩
  | ok out =>
    obtain ⟨ds, mid⟩ := out
    rw [Rule.file, bind_of_ok hout, peek_bind] at h
    obtain ⟨mid', hm, hend⟩ := many_eq_ok_iff.mp hout
    obtain rfl := eq_of_declaration_eq_none hend
    have hds := derived_of_many_declaration hm
    split at h
    · cases h
    · cases h
      refine ⟨.inl rfl, Decl.tokensList ds, eq_append_of_many hds, fun _ => ⟨[], ds, ?_⟩⟩
      exact file_iff.mpr ⟨List.append_nil _, forall_formed_of_many hds⟩

end Grammar

open Grammar

/-! ### Errors -/

/-- The token that an error is about. An error about the depth of bodies is about none. -/
def ParseError.found? : ParseError → Option Token
  | unexpected _ found _ | trailingTokens found _ => some found
  | nestingTooDeep _ => none

namespace Fault

theorem position_locate (reason : Refusal) (pre rest : List Token) :
    (locate (pre ++ rest).length ⟨reason, rest⟩).position = pre.length := by
  cases reason <;> simp [locate, ParseError.position]

theorem found?_locate (reason : Refusal) (size : Nat) (rest : List Token) :
    (locate size ⟨reason, rest⟩).found? =
      if reason = .nesting then none else some (front rest) := by
  cases reason <;> rfl

/-- An error says nothing of the tokens behind the one that it is about. -/
theorem locate_congr (reason : Refusal) (pre : List Token) {rest rest' : List Token}
    (h : front rest' = front rest) :
    locate (pre ++ rest').length ⟨reason, rest'⟩ = locate (pre ++ rest).length ⟨reason, rest⟩ := by
  cases reason <;> simp [locate, h]

end Fault

theorem Token.ahead_eq_of_take_eq {ts us : List Token} (h : us.take 2 = ts.take 2) :
    ahead us = ahead ts := by
  match ts, us with
  | [], [] => rfl
  | [t], [u] => simp_all
  | t :: t' :: ts, u :: u' :: us => simp_all [ahead, front]
  | [], _ :: _ | [_], [] | [_], _ :: _ :: _ | _ :: _ :: _, [] | _ :: _ :: _, [_] => simp at h

theorem ofTokens_eq_error_iff {ts : List Token} {e : ParseError} :
    ModuleMap.ofTokens ts = .error e ↔
      ∃ fault, Rule.file ts = .error fault ∧ e = fault.locate ts.length := by
  unfold ModuleMap.ofTokens Decl.ofTokens
  cases Rule.file ts with
  | ok out => simp [Except.map]
  | error fault => simp [Except.map, eq_comm]

/-- Lists that agree up to the second token behind `pre` see the same two tokens there. -/
theorem exists_eq_append_of_take_eq {pre rest us : List Token}
    (h : us.take (pre.length + 2) = (pre ++ rest).take (pre.length + 2)) :
    ∃ rest', us = pre ++ rest' ∧ ahead rest' = ahead rest := by
  have hpre : us.take pre.length = pre := by
    have htake := congrArg (List.take pre.length) h
    rw [List.take_take, List.take_take, Nat.min_eq_left (Nat.le_add_right _ _)] at htake
    rw [htake, List.take_left]
  have hrest : (us.drop pre.length).take 2 = rest.take 2 := by
    have hdrop := congrArg (List.drop pre.length) h
    rw [List.drop_take, List.drop_take, Nat.add_sub_cancel_left, List.drop_left] at hdrop
    exact hdrop
  have hus := List.take_append_drop pre.length us
  rw [hpre] at hus
  exact ⟨us.drop pre.length, hus.symm, ahead_eq_of_take_eq hrest⟩

theorem text_of_mem_asked : ∀ what ∈ Expected.asked,
    what.text ∉ ["module declaration", "header attribute", "punctuation"] := by
  decide

/-- **Errors stand at the first wrong token.** An error is about the token at its position, or about
the end of the list. It depends on no tokens behind the second one from there on. Unless it is about
the depth of bodies, or more than 255 braces stand in front of it, the tokens in front of it can be
completed to a module map. What is asked for is one of ten things. -/
theorem ofTokens_eq_error {ts : List Token} {e : ParseError}
    (h : ModuleMap.ofTokens ts = .error e) :
    e.position ≤ ts.length ∧
    (∀ found, e.found? = some found → found = ts[e.position]?.getD .eof) ∧
    (∀ us, us.take (e.position + 2) = ts.take (e.position + 2) →
      ModuleMap.ofTokens us = .error e) ∧
    (e.found? ≠ none → (ts.take e.position).count (.punc '{') ≤ 255 →
      ∃ more m, ModuleMap.ofTokens (ts.take e.position ++ more) = .ok m) ∧
    ∀ what found n, e = .unexpected what found n → what ∈ Expected.asked ∧
      what.text ∉ ["module declaration", "header attribute", "punctuation"] := by
  obtain ⟨⟨reason, rest⟩, hfile, rfl⟩ := ofTokens_eq_error_iff.mp h
  obtain ⟨pre, rfl, -, hstop⟩ := (Rule.local_file ts).eq_error hfile
  rw [Fault.position_locate, Fault.found?_locate, List.take_left]
  have hcomplete := exists_file_of_file_eq_error hfile
  refine ⟨by simp, fun found hfound => ?_, fun us hus => ?_, fun hfound hcount => ?_, ?_⟩
  · split at hfound
    · cases hfound
    · cases hfound
      rw [List.getElem?_append_right (Nat.le_refl _), Nat.sub_self, ← List.head?_eq_getElem?]
      exact List.headD_eq_head?_getD
  · obtain ⟨rest', rfl, hahead⟩ := exists_eq_append_of_take_eq hus
    rw [← Fault.locate_congr reason pre (front_eq_of_ahead hahead)]
    exact ofTokens_eq_error_iff.mpr ⟨_, hstop rest' hahead, rfl⟩
  · have hreason : reason ≠ .nesting := fun hreason => hfound (if_pos hreason)
    obtain ⟨-, pre', heq, hopens⟩ := hcomplete hreason
    obtain rfl := List.append_cancel_right heq
    obtain ⟨more, ds, hds⟩ := hopens (Nat.lt_succ_of_le hcount)
    refine ⟨more, ⟨Module.ofDecls ds⟩, ?_⟩
    rw [ModuleMap.ofTokens_eq, ofTokens_of_derived hds]
    rfl
  · intro what found n he
    cases reason with
    | trailing | nesting => cases he
    | expected what' =>
      cases he
      obtain ⟨heq | ⟨what', hwhat, heq⟩, -⟩ := hcomplete nofun
      · cases heq
      · cases heq
        exact ⟨hwhat, text_of_mem_asked what hwhat⟩

/-- Behind `umbrella` the second token decides, so the error stands in front of both. -/
theorem ofTokens_eq_error_umbrella :
    let ts : List Token :=
      [.ident "module", .ident "a", .punc '{', .ident "umbrella", .ident "use", .ident "b"]
    let e : ParseError := .unexpected (.symbol '}') (.ident "umbrella") 3
    ModuleMap.ofTokens ts = .error e ∧
      (∀ us, us.take 5 = ts.take 5 → ModuleMap.ofTokens us = .error e) ∧
      (∃ more m, ModuleMap.ofTokens ([.ident "module", .ident "a", .punc '{'] ++ more) = .ok m) ∧
      .symbol '}' ∈ Expected.asked := by
  intro ts e
  have h : ModuleMap.ofTokens ts = .error e := by decide +kernel
  obtain ⟨-, -, hsame, hcomplete, hasked⟩ := ofTokens_eq_error h
  exact ⟨h, hsame, hcomplete (by decide) (by decide), (hasked _ _ _ rfl).1⟩

end ModuleDeps
