import SumLang.Proofs.Separation

/-!
# Recovery from failures

A lenient run skips the rest of a statement that it cannot read.  What it collects from tokens
with a semicolon between them is therefore what it collects from the parts, each taken for
itself: a violation of the grammar costs no expression of another statement.

What a lenient run cannot go on behind is a violation that it cannot word, because of a number that
is too long.  Of the parts, the one in front of the semicolon is then all that counts.

## Main statements

* `lenient_run_separates`: the trees and failures collected on both sides of a semicolon.
* `not_lenient_run_answers`: not every lenient run answers.
-/
namespace SumLang

namespace Finding

theorem errors_map_stoppedBy (stop : Token) (fs : List Finding) :
    errors (fs.map (stoppedBy stop)) = (errors fs).map (ParseError.stoppedBy stop) := by
  induction fs with
  | nil => rfl
  | cons f fs ih => cases f <;> simp [stoppedBy, ih]

/-! ## Failures that cannot be worded -/

theorem firstUnwritable_eq_none_iff {fs : List Finding} :
    firstUnwritable fs = none ↔ ∀ f ∈ fs, f.isWritable = true := by
  induction fs with
  | nil => simp
  | cons f fs ih =>
    cases f with
    | sum start chain => simp [ih, isWritable]
    | fault start error =>
      cases h : error.isWritable with
      | true => simp [firstUnwritable_of_writable start fs h, ih, isWritable, h]
      | false => simp [firstUnwritable_of_unwritable start fs h, isWritable, h]

theorem firstUnwritable_append (fs gs : List Finding) :
    firstUnwritable (fs ++ gs) = (firstUnwritable fs).or (firstUnwritable gs) := by
  rw [firstUnwritable, errors_append, List.find?_append]
  rfl

theorem kept_append_of_none {fs : List Finding} (h : firstUnwritable fs = none)
    (gs : List Finding) : kept (fs ++ gs) = fs ++ kept gs :=
  List.takeWhile_append_of_pos (firstUnwritable_eq_none_iff.mp h)

theorem kept_of_none {fs : List Finding} (h : firstUnwritable fs = none) : kept fs = fs := by
  simpa using kept_append_of_none h []

/-- Behind a failure that cannot be worded nothing counts. -/
theorem kept_append_of_some {fs : List Finding} {e : ParseError} (h : firstUnwritable fs = some e)
    (gs : List Finding) : kept (fs ++ gs) = kept fs := by
  induction fs with
  | nil => simp at h
  | cons f fs ih =>
    cases f with
    | sum start chain => rw [List.cons_append, kept_sum, kept_sum, ih h]
    | fault start error =>
      rw [List.cons_append]
      cases herror : error.isWritable with
      | true =>
        rw [firstUnwritable_of_writable start fs herror] at h
        rw [kept_of_writable start _ herror, kept_of_writable start _ herror, ih h]
      | false => rw [kept_of_unwritable start _ herror, kept_of_unwritable start _ herror]

theorem kept_map_shift (d : Nat) (fs : List Finding) :
    kept (fs.map (shift d)) = (kept fs).map (shift d) := by
  have hsame : isWritable ∘ shift d = isWritable := by
    funext f
    cases f <;> rfl
  rw [kept, List.takeWhile_map, hsame, kept]

theorem firstUnwritable_map_shift (d : Nat) (fs : List Finding) :
    firstUnwritable (fs.map (shift d)) = (firstUnwritable fs).map (ParseError.shift d) := by
  rw [firstUnwritable, errors_map_shift, List.find?_map]
  rfl

/-- The end of the tokens can be worded, whatever a stop would be. -/
theorem firstUnwritable_of_stoppedBy {stop : Token} {fs : List Finding}
    (h : firstUnwritable (fs.map (stoppedBy stop)) = none) : firstUnwritable fs = none := by
  rw [firstUnwritable_eq_none_iff] at h ⊢
  intro f hf
  have hstopped := h _ (List.mem_map_of_mem hf)
  cases f with
  | sum start chain => rfl
  | fault start error =>
    obtain ⟨expected, actual, position⟩ := error
    cases actual with
    | none => rfl
    | some t => exact hstopped

end Finding

namespace Grammar

open Finding

/-- What is found on both sides of a semicolon. -/
theorem findings_append_semicolon {s : Token} (hs : s.isSemicolon = true) {front : List Token}
    (hfront : ∀ t ∈ front, t.isEof = false) (behind : List Token) :
    findings 0 (front ++ s :: behind) =
      (findings 0 front).map (stoppedBy s) ++
        (findings 0 behind).map (shift (front.length + 1)) := by
  have hstop := Token.isStop_of_isSemicolon hs
  have hshift := findings_shift (front.length + 1) 0 behind
  rw [Nat.zero_add] at hshift
  rw [findings_append behind hstop 0 hfront, Nat.zero_add, findings_of_semicolon _ hs, hshift]

/-- A statement has at most one failure: the rest of it is skipped. -/
theorem length_errors_le_one (i : Nat) {ts : List Token} (heof : ∀ t ∈ ts, t.isEof = false)
    (hts : ts.any Token.isSemicolon = false) : (errors (findings i ts)).length ≤ 1 := by
  induction i, ts using findings_induction with
  | nil i =>
    rw [findings_nil]
    exact Nat.zero_le 1
  | semicolon i t ts ht ih => simp [ht] at hts
  | eof i t ts ht => exact absurd ht (by simp [heof t List.mem_cons_self])
  | sum i c rest hrest ih =>
    rw [List.any_append, Bool.or_eq_false_iff] at hts
    rw [findings_tokens_append i c hrest, errors_sum]
    exact ih (List.forall_mem_append.mp heof).2 hts.2
  | fault i t ts k hsemicolon hend hread ih =>
    rw [findings_of_fault i hsemicolon hend hread, statementLength_of_none hts heof,
      List.drop_length, findings_nil]
    exact Nat.le_refl 1

end Grammar

namespace Parser

open Grammar

/-- The trees that a lenient run over tokens collects. -/
def lenientTrees (tokens : List Token) : List Tree := (freshRun .lenient tokens).2.trees.toList

/-- The failures that a lenient run over tokens records. -/
def lenientErrors (tokens : List Token) : List ParseError :=
  (freshRun .lenient tokens).2.errors.toList

/-- Whether a lenient run over tokens answers. -/
def lenientAnswers (tokens : List Token) : Bool := (freshRun .lenient tokens).1.isOk

open Finding in
theorem freshRun_lenient_eq (tokens : List Token) :
    freshRun .lenient tokens =
      match firstUnwritable (findings 0 tokens) with
      | none => (.ok (Finding.trees (findings 0 tokens)).toArray,
          ⟨tokens.toArray, (overAt 0 tokens : Nat), (Finding.trees (findings 0 tokens)).toArray,
            (Finding.errors (findings 0 tokens)).toArray⟩)
      | some e => (.error (.unwritable .numberTooLong),
          ⟨tokens.toArray, e.position + 1, (Finding.trees (kept (findings 0 tokens))).toArray,
            (Finding.errors (kept (findings 0 tokens))).toArray⟩) := by
  have hrun := parseProgram_lenient_eq tokens.toArray 0 #[] #[]
  simp only [List.drop_zero, Array.empty_append] at hrun
  exact hrun

theorem lenientTrees_eq (tokens : List Token) :
    lenientTrees tokens = Finding.trees (Finding.kept (findings 0 tokens)) := by
  rw [lenientTrees, freshRun_lenient_eq]
  split
  · next hnone => rw [Finding.kept_of_none hnone]
  · rfl

theorem lenientErrors_eq (tokens : List Token) :
    lenientErrors tokens = Finding.errors (Finding.kept (findings 0 tokens)) := by
  rw [lenientErrors, freshRun_lenient_eq]
  split
  · next hnone => rw [Finding.kept_of_none hnone]
  · rfl

theorem lenientAnswers_eq (tokens : List Token) :
    lenientAnswers tokens = (Finding.firstUnwritable (findings 0 tokens)).isNone := by
  rw [lenientAnswers, freshRun_lenient_eq]
  split
  · next hnone => rw [hnone]; rfl
  · next hsome => rw [hsome]; rfl

/-- A lenient run answers with all that it has collected, and ends where the tokens are over; or it
fails behind a token that should be an operand and cannot be written. -/
theorem lenient_run_cases (tokens : List Token) :
    (freshRun .lenient tokens).1 = .ok (freshRun .lenient tokens).2.trees ∧
        (freshRun .lenient tokens).2.index = (tokens.takeWhile (!·.isEof)).length ∨
      (freshRun .lenient tokens).1 = .error (.unwritable .numberTooLong) ∧
        (freshRun .lenient tokens).2.IsBehindUnwritable := by
  rw [freshRun_lenient_eq]
  cases hfirst : Finding.firstUnwritable (findings 0 tokens) with
  | none =>
    rw [overAt, Nat.zero_add]
    exact .inl ⟨rfl, rfl⟩
  | some e => exact .inr ⟨rfl, isBehindUnwritable_of_firstUnwritable hfirst _ _⟩

/-- Recovery is local to a statement.  A lenient run answers with what it has collected, and ends at
the first token that ends a text, or behind all tokens; it fails only behind a token that should be
an operand and cannot be written.

Take two lists of tokens with a semicolon between them, of which the first does not end the text.
If the run over the first and the semicolon answers, the run over all collects the trees of both.
It records the failures of the first with its semicolon, and then those of the second, as many
places further on as there are tokens in front, and it answers if the run over the second does.
Else it fails where the first fails, with the same trees and failures.  A single statement has at
most one failure. -/
theorem lenient_run_separates (front : List Token) (s : Token) (behind : List Token)
    (hfront : ∀ t ∈ front, t.isEof = false) (hs : s.isSemicolon = true) :
    (∀ tokens : List Token,
      (freshRun .lenient tokens).1 = .ok (freshRun .lenient tokens).2.trees ∧
          (freshRun .lenient tokens).2.index = (tokens.takeWhile (!·.isEof)).length ∨
        (freshRun .lenient tokens).1 = .error (.unwritable .numberTooLong) ∧
          (freshRun .lenient tokens).2.IsBehindUnwritable) ∧
    (lenientAnswers (front ++ [s]) = true →
      lenientTrees (front ++ [s] ++ behind) = lenientTrees front ++ lenientTrees behind ∧
      lenientErrors (front ++ [s] ++ behind) =
        lenientErrors (front ++ [s]) ++
          (lenientErrors behind).map (ParseError.shift (front.length + 1)) ∧
      lenientAnswers (front ++ [s] ++ behind) = lenientAnswers behind) ∧
    (lenientAnswers (front ++ [s]) = false →
      lenientTrees (front ++ [s] ++ behind) = lenientTrees (front ++ [s]) ∧
      lenientErrors (front ++ [s] ++ behind) = lenientErrors (front ++ [s]) ∧
      (freshRun .lenient (front ++ [s] ++ behind)).1 = (freshRun .lenient (front ++ [s])).1 ∧
      (freshRun .lenient (front ++ [s] ++ behind)).2.index =
        (freshRun .lenient (front ++ [s])).2.index) ∧
    (front.any Token.isSemicolon = false → (lenientErrors (front ++ [s])).length ≤ 1) := by
  have hboth := findings_append_semicolon hs hfront behind
  have hsingle := findings_append_semicolon hs hfront []
  rw [findings_nil, List.map_nil, List.append_nil] at hsingle
  rw [List.append_assoc, List.singleton_append]
  simp only [lenientTrees_eq, lenientErrors_eq, lenientAnswers_eq, hboth, hsingle]
  refine ⟨lenient_run_cases, ?_, ?_, ?_⟩
  · intro hanswers
    rw [Option.isNone_iff_eq_none] at hanswers
    have hfrontWritable := Finding.firstUnwritable_of_stoppedBy hanswers
    rw [Finding.kept_append_of_none hanswers, Finding.kept_map_shift,
      Finding.kept_of_none hanswers, Finding.kept_of_none hfrontWritable,
      Finding.firstUnwritable_append, hanswers, Option.none_or, Finding.firstUnwritable_map_shift,
      Finding.trees_append, Finding.trees_map_stoppedBy, Finding.trees_map_shift,
      Finding.errors_append, Finding.errors_map_shift, Option.isNone_map]
    exact ⟨rfl, rfl, rfl⟩
  · intro hfails
    obtain ⟨e, he⟩ := Option.isSome_iff_exists.mp (by simpa using hfails)
    rw [Finding.kept_append_of_some he]
    refine ⟨rfl, rfl, ?_, ?_⟩
    · simp only [freshRun_lenient_eq, hboth, hsingle, Finding.firstUnwritable_append, he,
        Option.some_or]
    · simp only [freshRun_lenient_eq, hboth, hsingle, Finding.firstUnwritable_append, he,
        Option.some_or]
  · intro hone
    have hkept : (Finding.errors (Finding.kept ((findings 0 front).map
        (Finding.stoppedBy s)))).Sublist (Finding.errors ((findings 0 front).map
        (Finding.stoppedBy s))) := (List.takeWhile_sublist _).filterMap _
    apply Nat.le_trans hkept.length_le
    rw [Finding.errors_map_stoppedBy, List.length_map]
    exact length_errors_le_one 0 hfront hone

/-- In `1 + ; x` the unfinished sum costs a failure, and no expression of the next statement. -/
theorem lenient_run_separates_unfinished_sum :
    let front : List Token :=
      [⟨TokenType.int, .int 1, ⟨1, 1⟩⟩, ⟨TokenType.plus, .text "+", ⟨1, 3⟩⟩]
    let s : Token := ⟨TokenType.semicolon, .text ";", ⟨1, 5⟩⟩
    let behind : List Token := [⟨TokenType.ident, .text "x", ⟨1, 7⟩⟩]
    (∀ t ∈ front, t.isEof = false) ∧ s.isSemicolon = true ∧
      lenientAnswers (front ++ [s]) = true ∧
      lenientTrees (front ++ [s] ++ behind) = lenientTrees front ++ lenientTrees behind ∧
      (lenientTrees behind).length = 1 ∧ (lenientErrors (front ++ [s])).length = 1 := by
  intro front s behind
  have hfront : ∀ t ∈ front, t.isEof = false := by decide
  have hs : s.isSemicolon = true := by decide
  have hanswers : lenientAnswers (front ++ [s]) = true := by decide +kernel
  obtain ⟨-, hseparates, -⟩ := lenient_run_separates front s behind hfront hs
  exact ⟨hfront, hs, hanswers, (hseparates hanswers).1, by decide +kernel, by decide +kernel⟩

/-- Not every lenient run answers: behind a plus whose value is a number that is too long it
fails. -/
theorem not_lenient_run_answers :
    ¬ ∀ tokens : List Token, lenientAnswers tokens = true := by
  intro hall
  have hrun := freshRun_of_unwritable .lenient (Token.isOperand_overlong (by decide))
    (Token.isWritable_overlong TokenType.plus) rfl rfl []
  have hanswers := hall [.overlong TokenType.plus]
  rw [lenientAnswers, hrun] at hanswers
  cases hanswers

end Parser
end SumLang
