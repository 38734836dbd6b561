import SumLang.Proofs.StrictRuns

/-!
# Strict and lenient runs

Up to the first sum that cannot be read, the modes do the same: both go over semicolons and
collect sums.  There a strict run stops, in front of the sum, and reports the failure; a lenient
run records it and goes on.  So a lenient run may take over where a strict one has stopped, and
nothing is lost or collected twice.  A failure that cannot be worded is recorded by neither: it
ends both runs.

## Main statements

* `Passed.exists_end_or_fault`: tokens are passed up to where they are over, or up to a sum that
  cannot be read.
* `parseProgram_of_passed`: what is passed is collected, whatever the mode.
* `parseProgram_modes_agree`: how a strict and a lenient run from the same state compare.
* `not_lenient_run_survives`: a lenient run may fail behind a failure that it has recorded.
-/
namespace SumLang

/-- Tokens that a run passes with `behind` behind them: semicolons, and the tokens of these chains,
each as long as it can be. -/
inductive Passed (behind : List Token) : List Token → List Chain → Prop where
  | done : Passed behind [] []
  | semicolon {t : Token} {front : List Token} {chains : List Chain} (ht : t.isSemicolon = true)
      (h : Passed behind front chains) : Passed behind (t :: front) chains
  | sum (c : Chain) {front : List Token} {chains : List Chain}
      (hplus : (front ++ behind).head?.any Token.isPlus = false)
      (h : Passed behind front chains) : Passed behind (c.tokens ++ front) (c :: chains)

/-- A run passes all tokens up to where they are over, or up to a sum that cannot be read. -/
theorem Passed.exists_end_or_fault (tokens : List Token) :
    (∃ front chains behind, tokens = front ++ behind ∧ Passed behind front chains ∧
        behind.head?.all Token.isEof = true) ∨
      ∃ front chains t rest k, tokens = front ++ t :: rest ∧ Passed (t :: rest) front chains ∧
        t.isSemicolon = false ∧ t.isEof = false ∧ Chain.read (t :: rest) = .error k := by
  -- The index plays no part: only the recursion of the findings is used.
  induction 0, tokens using Grammar.findings_induction with
  | nil i => exact .inl ⟨[], [], [], rfl, .done, rfl⟩
  | semicolon i t ts ht ih =>
    rcases ih with ⟨front, chains, behind, rfl, hpassed, hend⟩ |
      ⟨front, chains, u, rest, k, rfl, hpassed, hfault⟩
    · exact .inl ⟨t :: front, chains, behind, rfl, hpassed.semicolon ht, hend⟩
    · exact .inr ⟨t :: front, chains, u, rest, k, rfl, hpassed.semicolon ht, hfault⟩
  | eof i t ts ht => exact .inl ⟨[], [], t :: ts, rfl, .done, ht⟩
  | sum i c rest hrest ih =>
    rcases ih with ⟨front, chains, behind, rfl, hpassed, hend⟩ |
      ⟨front, chains, u, rest, k, rfl, hpassed, hfault⟩
    · refine .inl ⟨c.tokens ++ front, c :: chains, behind, ?_, .sum c hrest hpassed, hend⟩
      rw [List.append_assoc]
    · refine .inr ⟨c.tokens ++ front, c :: chains, u, rest, k, ?_, .sum c hrest hpassed, hfault⟩
      rw [List.append_assoc]
  | fault i t ts k hsemicolon heof hread ih =>
    exact .inr ⟨[], [], t, ts, k, rfl, .done, hsemicolon, heof, hread⟩

namespace Parser

open Grammar

/-- The tokens that are left. -/
def ahead (p : Parser) : List Token := p.tokens.toList.drop p.index.toNat

variable {tokens : Array Token} {i : Nat} {trees : Array Tree} {errors : Array ParseError}

/-- A run collects the chains that it passes, and goes on behind them. -/
theorem parseProgram_of_passed (mode : Mode) {front behind : List Token} {chains : List Chain}
    (h : Passed behind front chains) (hts : tokens.toList.drop i = front ++ behind) :
    (Parser.mk tokens i trees errors).parseProgram mode =
      (Parser.mk tokens ((i + front.length : Nat) : Int)
        (trees ++ (chains.map Chain.tree).toArray) errors).parseProgram mode := by
  induction h generalizing i trees with
  | done => simp
  | @semicolon t front chains ht h ih =>
    have hindex : i + 1 + front.length = i + (t :: front).length := by
      rw [List.length_cons]
      omega
    rw [parseProgram_of_semicolon mode hts ht, ih (drop_succ_of_drop hts), hindex]
  | @sum c front chains hplus h ih =>
    have hsplit : tokens.toList.drop i = c.tokens ++ (front ++ behind) := by
      rw [hts, List.append_assoc]
    have hdrop : tokens.toList.drop (i + c.tokens.length) = front ++ behind := by
      rw [← List.drop_drop, hsplit, List.drop_left]
    have hindex : i + c.tokens.length + front.length = i + (c.tokens ++ front).length := by
      rw [List.length_append]
      omega
    rw [parseProgram_of_sum mode hsplit hplus, ih hdrop, hindex]
    simp

/-- Where the tokens are over, there are none, or the next one ends the text. -/
theorem head?_drop_overAt (tokens : List Token) (i : Nat) :
    (tokens.drop (overAt i (tokens.drop i))).head?.all Token.isEof = true := by
  rw [overAt, ← List.drop_drop]
  generalize tokens.drop i = ts
  show (ts.drop (upToEnd ts).length).head?.all Token.isEof = true
  rcases upToEnd_cases ts with heq | ⟨stop, behind, heq, hstop⟩
  · rw [← heq, List.drop_length]
    rfl
  · have hdrop := congrArg (List.drop (upToEnd ts).length) heq
    rw [List.drop_left] at hdrop
    rw [hdrop]
    exact hstop

/-- A lenient run only adds trees and failures.  It answers with all trees collected so far, and
behind it there is nothing left to do; or it fails behind a token that cannot be written. -/
theorem parseProgram_lenient_cases (tokens : Array Token) (i : Nat) (trees : Array Tree)
    (errors : Array ParseError) :
    let n := (Parser.mk tokens i trees errors).parseProgram .lenient
    trees.toList <+: n.2.trees.toList ∧ errors.toList <+: n.2.errors.toList ∧
      (n.1 = .ok n.2.trees ∧ (∀ mode, n.2.parseProgram mode = (.ok n.2.trees, n.2)) ∨
        n.1 = .error (.unwritable .numberTooLong) ∧ n.2.IsBehindUnwritable) := by
  intro n
  have hn : n = _ := parseProgram_lenient_eq tokens i trees errors
  rw [hn]
  cases hfirst : Finding.firstUnwritable (findings i (tokens.toList.drop i)) with
  | none =>
    refine ⟨?_, ?_, .inl ⟨rfl, fun mode => ?_⟩⟩
    · rw [Array.toList_append]
      exact List.prefix_append _ _
    · rw [Array.toList_append]
      exact List.prefix_append _ _
    · exact parseProgram_of_end mode (head?_drop_overAt tokens.toList i)
  | some e =>
    refine ⟨?_, ?_, .inr ⟨rfl, isBehindUnwritable_of_firstUnwritable hfirst _ _⟩⟩
    · rw [Array.toList_append]
      exact List.prefix_append _ _
    · rw [Array.toList_append]
      exact List.prefix_append _ _

/-- A strict run from `p` that has reported `e` has come to `q`: it has collected the sums in
front of one that cannot be read, and stands at the first token of that one. -/
structure StopsAt (p q : Parser) (e : ParseError) : Prop where
  tokens : q.tokens = p.tokens
  errors : q.errors = p.errors
  passed : ∃ front chains t rest, p.ahead = front ++ t :: rest ∧
    Passed (t :: rest) front chains ∧ t.isSemicolon = false ∧ t.isEof = false ∧
    q.index = p.index + front.length ∧ q.trees = p.trees ++ (chains.map Chain.tree).toArray
  fails : q.parse .strict = (.error (.violation e), q)

/-- A run passes all tokens, whatever the mode, or comes in both modes to a sum that cannot be
read.  There both fail if they cannot word the failure; else a strict run stops, and a lenient one
records the failure. -/
theorem parseProgram_passes_or_stops (tokens : Array Token) (i : Nat) (trees : Array Tree)
    (errors : Array ParseError) :
    let p := Parser.mk tokens i trees errors
    (∃ q answer, q.errors = errors ∧ (∀ e, answer ≠ .error (.violation e)) ∧
        ∀ mode, p.parseProgram mode = (answer, q)) ∨
      ∃ q e, StopsAt p q e ∧ (∀ mode, q.parseProgram mode = p.parseProgram mode) ∧
        p.parseProgram .strict = (.error (.violation e), q) ∧
        q.trees.toList <+: (p.parseProgram .lenient).2.trees.toList ∧
        (errors.push e).toList <+: (p.parseProgram .lenient).2.errors.toList := by
  intro p
  rcases Passed.exists_end_or_fault (tokens.toList.drop i) with
    ⟨front, chains, behind, hts, hpassed, hend⟩ |
    ⟨front, chains, t, rest, k, hts, hpassed, hsemicolon, heof, hread⟩
  · have hdrop : tokens.toList.drop (i + front.length) = behind := by
      rw [← List.drop_drop, hts, List.drop_left]
    refine .inl ⟨⟨tokens, (i + front.length : Nat), trees ++ (chains.map Chain.tree).toArray,
      errors⟩, .ok (trees ++ (chains.map Chain.tree).toArray), rfl, by simp, fun mode => ?_⟩
    rw [parseProgram_of_passed mode hpassed hts]
    exact parseProgram_of_end mode (hdrop ▸ hend)
  · have hdrop : tokens.toList.drop (i + front.length) = t :: rest := by
      rw [← List.drop_drop, hts, List.drop_left]
    have hget : tokens[i + front.length + k]? = (t :: rest)[k]? := by
      rw [← hdrop, List.getElem?_drop, Array.getElem?_toList]
    let q : Parser := ⟨tokens, ((i + front.length : Nat) : Int),
      trees ++ (chains.map Chain.tree).toArray, errors⟩
    let e : ParseError :=
      ⟨TokenType.operands, (t :: rest)[k]?, ((i + front.length + k : Nat) : Int)⟩
    have hpass : ∀ mode, p.parseProgram mode = q.parseProgram mode := fun mode =>
      parseProgram_of_passed mode hpassed hts
    have hrun : ∀ mode, q.parseProgram mode = _ := fun mode =>
      parseProgram_of_fault hdrop hsemicolon heof hread mode rfl
    cases hwritable : e.isWritable with
    | false =>
      simp only [show ParseError.isWritable ⟨TokenType.operands, (t :: rest)[k]?,
        ((i + front.length + k : Nat) : Int)⟩ = false from hwritable] at hrun
      exact .inl ⟨_, _, rfl, by simp, fun mode => (hpass mode).trans (hrun mode)⟩
    | true =>
      simp only [show ParseError.isWritable ⟨TokenType.operands, (t :: rest)[k]?,
        ((i + front.length + k : Nat) : Int)⟩ = true from hwritable] at hrun
      have hfails : q.parse .strict = (.error (.violation e), q) :=
        (parse_of_fault .strict (hdrop ▸ hread) (by rw [hget])).trans (if_pos hwritable)
      refine .inr ⟨q, e, ⟨rfl, rfl, ?_, hfails⟩, fun mode => (hpass mode).symm,
        (hpass .strict).trans (hrun .strict), ?_⟩
      · exact ⟨front, chains, t, rest, hts, hpassed, hsemicolon, heof, rfl, rfl⟩
      · -- The lenient run goes on with the failure recorded, and keeps what it has.
        rw [hpass .lenient, hrun .lenient]
        obtain ⟨htrees, herrors, -⟩ := parseProgram_lenient_cases tokens
          (i + front.length + statementLength (t :: rest)) q.trees (errors.push e)
        exact ⟨htrees, herrors⟩

/-- Strict and lenient runs agree.  Unless a strict run from a state reports a violation, a lenient
one from there does the same, and records nothing.  If it reports one, it has come to the first
token of the sum that cannot be read, with all sums before it collected and nothing recorded; it
fails there again with the same failure and without moving, and a lenient run does from there what
it does from the first state: it keeps what has been collected, and records this failure first.
A lenient run answers, and behind it neither mode does anything; or it fails behind a token that
should be an operand and cannot be written. -/
theorem parseProgram_modes_agree (p : Parser) (h : 0 ≤ p.index) :
    ((∀ e, (p.parseProgram .strict).1 ≠ .error (.violation e)) →
      p.parseProgram .lenient = p.parseProgram .strict ∧
      (p.parseProgram .lenient).2.errors = p.errors) ∧
    (∀ e, (p.parseProgram .strict).1 = .error (.violation e) →
      StopsAt p (p.parseProgram .strict).2 e ∧
      (p.parseProgram .strict).2.parseProgram .strict =
        (.error (.violation e), (p.parseProgram .strict).2) ∧
      (p.parseProgram .strict).2.parseProgram .lenient = p.parseProgram .lenient ∧
      (p.parseProgram .strict).2.trees.toList <+: (p.parseProgram .lenient).2.trees.toList ∧
      (p.errors.push e).toList <+: (p.parseProgram .lenient).2.errors.toList) ∧
    ((p.parseProgram .lenient).1 = .ok (p.parseProgram .lenient).2.trees ∧
        (∀ mode, (p.parseProgram .lenient).2.parseProgram mode =
          (.ok (p.parseProgram .lenient).2.trees, (p.parseProgram .lenient).2)) ∨
      (p.parseProgram .lenient).1 = .error (.unwritable .numberTooLong) ∧
        (p.parseProgram .lenient).2.IsBehindUnwritable) := by
  obtain ⟨tokens, index, trees, errors⟩ := p
  obtain ⟨i, rfl⟩ : ∃ i : Nat, index = i := Int.eq_ofNat_of_zero_le h
  obtain ⟨-, -, hlenient⟩ := parseProgram_lenient_cases tokens i trees errors
  refine ⟨?_, ?_, hlenient⟩
  · intro hnone
    rcases parseProgram_passes_or_stops tokens i trees errors with
      ⟨q, answer, herrors, -, hrun⟩ | ⟨q, e, -, -, hstrict, -⟩
    · rw [hrun .strict, hrun .lenient]
      exact ⟨rfl, herrors⟩
    · exact absurd (congrArg Prod.fst hstrict) (hnone e)
  · intro e herror
    rcases parseProgram_passes_or_stops tokens i trees errors with
      ⟨q, answer, -, hanswer, hrun⟩ | ⟨q, e', hstops, hsame, hstrict, htrees, herrors⟩
    · rw [hrun .strict] at herror
      exact absurd herror (hanswer e)
    · rw [hstrict] at herror ⊢
      obtain rfl : e' = e := ParseFailure.violation.inj (Except.error.inj herror)
      exact ⟨hstops, (hsame .strict).trans hstrict, hsame .lenient, htrees, herrors⟩

/-- From the third token of `9; 1 + x 2 + ; y`, with a tree and a failure from before, a strict run
stops at the `2`, because of the semicolon that stands for an operand. -/
theorem parseProgram_modes_agree_unfinished_sum :
    let semicolon : Token := ⟨TokenType.semicolon, .text ";", ⟨1, 13⟩⟩
    let p : Parser :=
      ⟨#[⟨TokenType.int, .int 9, ⟨1, 1⟩⟩, ⟨TokenType.semicolon, .text ";", ⟨1, 2⟩⟩,
          ⟨TokenType.int, .int 1, ⟨1, 4⟩⟩, ⟨TokenType.plus, .text "+", ⟨1, 6⟩⟩,
          ⟨TokenType.ident, .text "x", ⟨1, 8⟩⟩, ⟨TokenType.int, .int 2, ⟨1, 10⟩⟩,
          ⟨TokenType.plus, .text "+", ⟨1, 12⟩⟩, semicolon,
          ⟨TokenType.ident, .text "y", ⟨1, 15⟩⟩, .eof ⟨1, 16⟩],
        2, #[.integer (.int 9) ⟨1, 1⟩], #[⟨TokenType.operands, none, 0⟩]⟩
    let e : ParseError := ⟨TokenType.operands, some semicolon, 7⟩
    0 ≤ p.index ∧ (p.parseProgram .strict).1 = .error (.violation e) ∧
      StopsAt p (p.parseProgram .strict).2 e ∧ (p.parseProgram .strict).2.index = 5 ∧
      (p.parseProgram .strict).2.parseProgram .lenient = p.parseProgram .lenient ∧
      (p.errors.push e).toList <+: (p.parseProgram .lenient).2.errors.toList ∧
      (p.parseProgram .lenient).2.trees.size = 3 := by
  intro semicolon p e
  have hindex : 0 ≤ p.index := by decide
  have herror : (p.parseProgram .strict).1 = .error (.violation e) := by
    have hforget : (p.parseProgram .strict).1.map (fun _ => ()) = .error (.violation e) := by
      decide +kernel
    cases hanswer : (p.parseProgram .strict).1 with
    | error failure =>
      rw [hanswer] at hforget
      exact congrArg Except.error (Except.error.inj hforget)
    | ok trees => simp [hanswer, Except.map] at hforget
  obtain ⟨-, hfails, -⟩ := parseProgram_modes_agree p hindex
  obtain ⟨hstops, -, hresume, -, hfirst⟩ := hfails e herror
  exact ⟨hindex, herror, hstops, by decide +kernel, hresume, hfirst, by decide +kernel⟩

/-- Where a strict run reports a violation, a lenient one need not answer.  Take a plus, a semicolon
and a name whose value is a number that is too long: the plus is a violation, but the lenient run
goes on to the name. -/
theorem not_lenient_run_survives :
    ¬ ∀ p : Parser, 0 ≤ p.index →
      (∃ e, (p.parseProgram .strict).1 = .error (.violation e)) →
      ∃ trees, (p.parseProgram .lenient).1 = .ok trees := by
  intro hall
  let plus : Token := ⟨TokenType.plus, .text "+", .start⟩
  let tokens : Array Token :=
    #[plus, ⟨TokenType.semicolon, .text ";", .start⟩, .overlong TokenType.ident]
  let e : ParseError := ⟨TokenType.operands, some plus, 0⟩
  have hname : (Token.overlong TokenType.ident).isOperand = false :=
    Token.isOperand_overlong (by decide)
  have hstrict : (Parser.mk tokens ((0 : Nat) : Int) #[] #[]).parseProgram .strict =
      (.error (.violation e), ⟨tokens, ((0 : Nat) : Int), #[], #[]⟩) :=
    (parseProgram_of_fault rfl rfl rfl (Chain.read_of_fault rfl) .strict rfl).trans
      (if_pos (by decide))
  have hlenient : (Parser.mk tokens ((0 : Nat) : Int) #[] #[]).parseProgram .lenient =
      (Parser.mk tokens ((2 : Nat) : Int) #[] #[e]).parseProgram .lenient :=
    (parseProgram_of_fault rfl rfl rfl (Chain.read_of_fault rfl) .lenient rfl).trans
      (if_pos (by decide))
  have hfails : (Parser.mk tokens ((2 : Nat) : Int) #[] #[e]).parseProgram .lenient =
      (.error (.unwritable .numberTooLong), ⟨tokens, 3, #[], #[e]⟩) :=
    (parseProgram_of_fault rfl rfl rfl (Chain.read_of_fault hname) .lenient rfl).trans
      (if_neg (by simp [ParseError.isWritable, Token.isWritable_overlong]))
  obtain ⟨trees, htrees⟩ := hall _ (Int.le_refl 0) ⟨e, congrArg Prod.fst hstrict⟩
  rw [hlenient, hfails] at htrees
  cases htrees

end Parser
end SumLang
