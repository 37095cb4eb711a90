import ModuleDeps.ModuleMap
import ModuleDeps.Proofs.Grammar.Lookahead

/-!
# The end of the input

A token list may hold a token for the end of the input, with more tokens behind it. To the rules it
is as if the list ended in front of that token: they see the same there (`ahead_append_eof`), and
what they see decides where they stop and with what. So a list denotes the same map as the part of
it in front of such a token, or is refused at the same place for the same reason
(`ofTokens_append_eof`).
-/

namespace ModuleDeps

namespace Token

/-- At the end of the input there is the same to see whether a token stands there or not. -/
theorem ahead_append_eof (ts us : List Token) : ahead (ts ++ eof :: us) = ahead ts := by
  have hend : ahead (eof :: us) = ahead [] := rfl
  rw [ahead_append hend, List.append_nil]

end Token

namespace Rule

open Token

variable {α : Type}

/-- A rule that looks no further than two tokens stops in front of the end of the input, whatever
stands behind it. -/
theorem Local.append_eof {r : Rule α} (h : Local r) (ts : List Token) :
    ∃ pre rest out, ts = pre ++ rest ∧ eof ∉ pre ∧ r ts = stop out rest ∧
      ∀ us, r (ts ++ eof :: us) = stop out (rest ++ eof :: us) := by
  obtain ⟨pre, rest, out, rfl, heof, hstop⟩ := h ts
  refine ⟨pre, rest, out, rfl, heof, hstop rest rfl, fun us => ?_⟩
  rw [List.append_assoc]
  exact hstop _ (ahead_append_eof rest us)

end Rule

/-- A refusal is reported alike with and without what stands behind the end of the input. -/
theorem Fault.locate_append_eof (reason : Refusal) (pre rest us : List Token) :
    (⟨reason, rest ++ .eof :: us⟩ : Fault).locate (pre ++ rest ++ .eof :: us).length =
      (⟨reason, rest⟩ : Fault).locate (pre ++ rest).length := by
  have hfront : Token.front (rest ++ .eof :: us) = Token.front rest :=
    Token.front_eq_of_ahead (Token.ahead_append_eof rest us)
  have hposition : (pre ++ rest ++ .eof :: us).length - (rest ++ .eof :: us).length =
      (pre ++ rest).length - rest.length := by
    simp only [List.length_append]
    omega
  simp only [Fault.locate, hfront, hposition]

theorem Decl.ofTokens_append_eof (ts us : List Token) :
    ofTokens (ts ++ .eof :: us) = ofTokens ts := by
  obtain ⟨pre, rest, out, rfl, -, hstop, hend⟩ := Rule.local_file.append_eof ts
  rw [ofTokens, ofTokens, hstop, hend us]
  cases out with
  | ok decls => rfl
  | error reason => exact congrArg Except.error (Fault.locate_append_eof reason pre rest us)

/-- **The end of the input ends it.** What stands behind a token for the end of the input has no
say in what a list denotes, or in where and why it is refused. The tokens that are taken stand in
front of the first such token, and reading stops at the same place with the same outcome if nothing
stands there at all. -/
theorem ModuleMap.ofTokens_endOfInput (ts : List Token) :
    (∀ us, ofTokens (ts ++ .eof :: us) = ofTokens ts) ∧
    ∃ pre rest out, ts = pre ++ rest ∧ .eof ∉ pre ∧ Rule.file ts = Rule.stop out rest ∧
      ∀ us, Rule.file (ts ++ .eof :: us) = Rule.stop out (rest ++ .eof :: us) := by
  refine ⟨fun us => ?_, Rule.local_file.append_eof ts⟩
  rw [ofTokens, ofTokens, Decl.ofTokens_append_eof]

end ModuleDeps
