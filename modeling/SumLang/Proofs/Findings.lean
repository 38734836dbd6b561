import SumLang.Proofs.Reading

/-!
# What is found in a program

Behind the semicolons, a parser finds a sum or a failure.  `findings` lists what it would find if
it went on behind the next semicolon after each failure, from the tokens alone.  A lenient run
collects all of it, up to the first failure that cannot be worded; a strict run collects the sums
before the first failure and stops there.

## Main statements

* `Grammar.findings_induction`: induction along what is found.
* `Parser.parseProgram_eq_collect`: what a run from any index does, by the findings.
* `Finding.collect_lenient`, `Finding.collect_strict`: what is collected in both modes.
-/
namespace SumLang

/-- What is found where a statement begins: a chain, or a failure. -/
inductive Finding where
  | sum (start : Nat) (chain : Chain)
  | fault (start : Nat) (error : ParseError)

namespace Finding

/-- The tree of a finding that is a sum. -/
def tree? : Finding → Option Tree
  | sum _ chain => some chain.tree
  | fault _ _ => none

/-- The failure of a finding that is one. -/
def error? : Finding → Option ParseError
  | sum _ _ => none
  | fault _ error => some error

/-- The trees of all sums among findings. -/
def trees (fs : List Finding) : List Tree := fs.filterMap tree?

/-- All failures among findings. -/
def errors (fs : List Finding) : List ParseError := fs.filterMap error?

/-- The trees of the sums before the first failure. -/
def treesBeforeFault : List Finding → List Tree
  | sum _ chain :: fs => chain.tree :: treesBeforeFault fs
  | fault _ _ :: _ | [] => []

/-- The first failure among findings, with the index of its statement. -/
def firstFault : List Finding → Option (Nat × ParseError)
  | sum _ _ :: fs => firstFault fs
  | fault start error :: _ => some (start, error)
  | [] => none

/-- The first failure among findings that cannot be worded. -/
def firstUnwritable (fs : List Finding) : Option ParseError :=
  (errors fs).find? (!·.isWritable)

/-- Whether a finding is no failure without a wording. -/
def isWritable : Finding → Bool
  | sum _ _ => true
  | fault _ error => error.isWritable

/-- What is found before the first failure that cannot be worded. -/
def kept (fs : List Finding) : List Finding := fs.takeWhile isWritable

@[simp] theorem trees_nil : trees [] = [] := rfl

@[simp] theorem trees_sum (start : Nat) (chain : Chain) (fs : List Finding) :
    trees (sum start chain :: fs) = chain.tree :: trees fs := rfl

@[simp] theorem trees_fault (start : Nat) (error : ParseError) (fs : List Finding) :
    trees (fault start error :: fs) = trees fs := rfl

@[simp] theorem errors_nil : errors [] = [] := rfl

@[simp] theorem errors_sum (start : Nat) (chain : Chain) (fs : List Finding) :
    errors (sum start chain :: fs) = errors fs := rfl

@[simp] theorem errors_fault (start : Nat) (error : ParseError) (fs : List Finding) :
    errors (fault start error :: fs) = error :: errors fs := rfl

section Wording

variable (start : Nat) (chain : Chain) {error : ParseError} (fs : List Finding)

@[simp] theorem firstUnwritable_nil : firstUnwritable [] = none := rfl

@[simp] theorem firstUnwritable_sum :
    firstUnwritable (sum start chain :: fs) = firstUnwritable fs := rfl

theorem firstUnwritable_of_writable (h : error.isWritable = true) :
    firstUnwritable (fault start error :: fs) = firstUnwritable fs := by
  rw [firstUnwritable, errors_fault, List.find?_cons_of_neg (by simp [h]), firstUnwritable]

theorem firstUnwritable_of_unwritable (h : error.isWritable = false) :
    firstUnwritable (fault start error :: fs) = some error := by
  rw [firstUnwritable, errors_fault, List.find?_cons_of_pos (by simp [h])]

@[simp] theorem kept_nil : kept [] = [] := rfl

theorem kept_sum : kept (sum start chain :: fs) = sum start chain :: kept fs :=
  List.takeWhile_cons_of_pos rfl

theorem kept_of_writable (h : error.isWritable = true) :
    kept (fault start error :: fs) = fault start error :: kept fs :=
  List.takeWhile_cons_of_pos h

theorem kept_of_unwritable (h : error.isWritable = false) :
    kept (fault start error :: fs) = [] :=
  List.takeWhile_cons_of_neg (by simp [isWritable, h])

end Wording

/-- How a run goes on that meets these findings, where `finish` is the index at which the tokens
are over: it collects the sums, and stops at a failure or records it.  If it cannot word the
failure, it stops in either case, behind the token at fault. -/
def collect (mode : Mode) (tokens : Array Token) (finish : Nat) :
    List Finding → Array Tree → Array ParseError → Outcome Parser ParseFailure (Array Tree)
  | [], trees, errors => (.ok trees, ⟨tokens, finish, trees, errors⟩)
  | sum _ chain :: fs, trees, errors => collect mode tokens finish fs (trees.push chain.tree) errors
  | fault start error :: fs, trees, errors =>
    if error.isWritable then
      match mode with
      | .strict => (.error (.violation error), ⟨tokens, start, trees, errors⟩)
      | .lenient => collect mode tokens finish fs trees (errors.push error)
    else (.error (.unwritable .numberTooLong), ⟨tokens, error.position + 1, trees, errors⟩)

theorem collect_fault (mode : Mode) (tokens : Array Token) (finish start : Nat) (error : ParseError)
    (fs : List Finding) (trees : Array Tree) (errors : Array ParseError) :
    collect mode tokens finish (fault start error :: fs) trees errors =
      if error.isWritable then
        match mode with
        | .strict => (.error (.violation error), ⟨tokens, start, trees, errors⟩)
        | .lenient => collect .lenient tokens finish fs trees (errors.push error)
      else (.error (.unwritable .numberTooLong), ⟨tokens, error.position + 1, trees, errors⟩) := by
  cases mode <;> simp [collect]

/-- A failure that cannot be worded ends the run, whatever the mode. -/
theorem collect_of_unwritable (mode : Mode) (tokens : Array Token) (finish : Nat) (start : Nat)
    {error : ParseError} (h : error.isWritable = false) (fs : List Finding) (trees : Array Tree)
    (errors : Array ParseError) :
    collect mode tokens finish (fault start error :: fs) trees errors =
      (.error (.unwritable .numberTooLong), ⟨tokens, error.position + 1, trees, errors⟩) := by
  rw [collect_fault, if_neg (by simp [h])]

/-- A lenient run collects everything, or what is found before the first failure that cannot be
worded; then it stops behind the token at fault. -/
theorem collect_lenient (tokens : Array Token) (finish : Nat) (fs : List Finding)
    (trees : Array Tree) (errors : Array ParseError) :
    collect .lenient tokens finish fs trees errors =
      match firstUnwritable fs with
      | none => (.ok (trees ++ (Finding.trees fs).toArray),
          ⟨tokens, finish, trees ++ (Finding.trees fs).toArray,
            errors ++ (Finding.errors fs).toArray⟩)
      | some error => (.error (.unwritable .numberTooLong),
          ⟨tokens, error.position + 1, trees ++ (Finding.trees (kept fs)).toArray,
            errors ++ (Finding.errors (kept fs)).toArray⟩) := by
  induction fs generalizing trees errors with
  | nil => simp [collect]
  | cons f fs ih =>
    cases f with
    | sum start chain =>
      rw [collect, ih, firstUnwritable_sum, kept_sum]
      split <;> simp
    | fault start error =>
      cases hwritable : error.isWritable with
      | true =>
        rw [collect_fault, if_pos hwritable, firstUnwritable_of_writable _ _ hwritable,
          kept_of_writable _ _ hwritable]
        simp only [ih]
        split <;> simp
      | false =>
        rw [collect_of_unwritable _ _ _ _ hwritable, firstUnwritable_of_unwritable _ _ hwritable,
          kept_of_unwritable _ _ hwritable]
        simp

/-- A strict run collects the sums before the first failure, and stops at its statement, or behind
the token at fault if that cannot be worded. -/
theorem collect_strict (tokens : Array Token) (finish : Nat) (fs : List Finding)
    (trees : Array Tree) (errors : Array ParseError) :
    collect .strict tokens finish fs trees errors =
      match firstFault fs with
      | none => (.ok (trees ++ (Finding.trees fs).toArray),
          ⟨tokens, finish, trees ++ (Finding.trees fs).toArray, errors⟩)
      | some (start, error) => (.error error.raise,
          ⟨tokens, if error.isWritable then (start : Int) else error.position + 1,
            trees ++ (treesBeforeFault fs).toArray, errors⟩) := by
  induction fs generalizing trees with
  | nil => simp [collect, firstFault]
  | cons f fs ih =>
    cases f with
    | sum start chain =>
      rw [collect, ih, firstFault]
      split <;> simp [treesBeforeFault]
    | fault start error =>
      simp only [collect, firstFault, ParseError.raise_eq, treesBeforeFault]
      split <;> simp

/-- If a run answers, it has collected all sums. -/
theorem collect_eq_ok {mode : Mode} {tokens : Array Token} {finish : Nat} {fs : List Finding}
    {trees answer : Array Tree} {errors : Array ParseError}
    (h : (collect mode tokens finish fs trees errors).1 = .ok answer) :
    answer = trees ++ (Finding.trees fs).toArray := by
  induction fs generalizing trees errors with
  | nil =>
    rw [collect] at h
    simpa using (Except.ok.inj h).symm
  | cons f fs ih =>
    cases f with
    | sum start chain =>
      rw [collect] at h
      simpa using ih h
    | fault start error =>
      cases hwritable : error.isWritable with
      | true =>
        cases mode with
        | strict => simp [collect, hwritable] at h
        | lenient =>
          simp only [collect, hwritable, if_true] at h
          exact ih h
      | false => simp [collect_of_unwritable mode tokens finish start hwritable] at h

end Finding

namespace Grammar

/-- A statement has tokens, unless they are over. -/
theorem statementLength_pos {t : Token} (ts : List Token) (h : t.isEof = false) :
    0 < statementLength (t :: ts) := by
  rw [statementLength, h]
  simp only [Bool.false_eq_true, if_false]
  split <;> omega

/-- The index at which tokens are over of which the first has the index `i`. -/
def overAt (i : Nat) (ts : List Token) : Nat := i + (ts.takeWhile (!·.isEof)).length

theorem overAt_of_end (i : Nat) {ts : List Token} (h : ts.head?.all Token.isEof = true) :
    overAt i ts = i := by
  cases ts with
  | nil => rfl
  | cons t ts =>
    have ht : t.isEof = true := by simpa using h
    simp [overAt, ht]

/-- Tokens that do not end a text only move the index at which the tokens are over. -/
theorem overAt_append (i : Nat) {ts rest : List Token} (h : ∀ t ∈ ts, t.isEof = false) :
    overAt i (ts ++ rest) = overAt (i + ts.length) rest := by
  have hall : ∀ t ∈ ts, (!t.isEof) = true := fun t ht => by simp [h t ht]
  rw [overAt, overAt, List.takeWhile_append_of_pos hall, List.length_append]
  omega

theorem overAt_cons (i : Nat) {t : Token} (ts : List Token) (h : t.isEof = false) :
    overAt i (t :: ts) = overAt (i + 1) ts := by
  have hsingle : ∀ u ∈ [t], u.isEof = false := by simpa using h
  exact overAt_append i hsingle

theorem overAt_statement (i : Nat) (ts : List Token) :
    overAt (i + statementLength ts) (ts.drop (statementLength ts)) = overAt i ts := by
  induction ts generalizing i with
  | nil => rfl
  | cons t ts ih =>
    rw [statementLength]
    split
    · rfl
    · next heof =>
      have hcons := overAt_cons i ts (by simpa using heof)
      split
      · exact hcons.symm
      · rw [hcons, ← ih (i + 1), List.drop_succ_cons]
        congr 1
        omega

/-- What is found among tokens of which the first has the index `i`. -/
def findings (i : Nat) (ts : List Token) : List Finding :=
  match ts with
  | [] => []
  | t :: rest =>
    if t.isSemicolon then findings (i + 1) rest
    else if _hend : t.isEof then []
    else match _hread : Chain.read (t :: rest) with
      | .ok (chain, behind) => .sum i chain :: findings (i + chain.tokens.length) behind
      | .error k =>
        .fault i ⟨TokenType.operands, (t :: rest)[k]?, ((i + k : Nat) : Int)⟩ ::
          findings (i + statementLength (t :: rest))
            ((t :: rest).drop (statementLength (t :: rest)))
termination_by ts.length
decreasing_by
  · simp
  · have happend := congrArg List.length (Chain.read_eq_ok _hread).1
    rw [List.length_append, Chain.length_tokens] at happend
    omega
  · have hpos := statementLength_pos rest (by simpa using _hend)
    rw [List.length_drop, List.length_cons]
    omega

@[simp] theorem findings_nil (i : Nat) : findings i [] = [] := by
  rw [findings]

theorem findings_of_semicolon (i : Nat) {t : Token} (ht : t.isSemicolon = true)
    (ts : List Token) : findings i (t :: ts) = findings (i + 1) ts := by
  rw [findings, if_pos ht]

theorem findings_of_eof (i : Nat) {t : Token} (ht : t.isEof = true) (ts : List Token) :
    findings i (t :: ts) = [] := by
  have hsemicolon : t.isSemicolon = false := Token.Part.excludes .eof .semicolon (by decide) ht
  rw [findings, if_neg (by simp [hsemicolon]), dif_pos ht]

theorem findings_of_sum (i : Nat) {t : Token} {ts behind : List Token} {chain : Chain}
    (hsemicolon : t.isSemicolon = false) (heof : t.isEof = false)
    (hread : Chain.read (t :: ts) = .ok (chain, behind)) :
    findings i (t :: ts) = .sum i chain :: findings (i + chain.tokens.length) behind := by
  rw [findings, if_neg (by simp [hsemicolon]), dif_neg (by simp [heof])]
  split
  · next chain' behind' hread' =>
    obtain ⟨rfl, rfl⟩ : chain = chain' ∧ behind = behind' := by simpa [hread] using hread'
    rfl
  · next k hread' => simp [hread] at hread'

/-- A chain without a plus behind it is found as one sum. -/
theorem findings_tokens_append (i : Nat) (c : Chain) {rest : List Token}
    (hrest : rest.head?.any Token.isPlus = false) :
    findings i (c.tokens ++ rest) = .sum i c :: findings (i + c.tokens.length) rest := by
  have hread := Chain.read_tokens_append c hrest
  rw [Chain.tokens, List.cons_append] at hread ⊢
  exact findings_of_sum i c.isSemicolon_first c.isEof_first hread

theorem findings_of_fault (i : Nat) {t : Token} {ts : List Token} {k : Nat}
    (hsemicolon : t.isSemicolon = false) (heof : t.isEof = false)
    (hread : Chain.read (t :: ts) = .error k) :
    findings i (t :: ts) =
      .fault i ⟨TokenType.operands, (t :: ts)[k]?, ((i + k : Nat) : Int)⟩ ::
        findings (i + statementLength (t :: ts))
          ((t :: ts).drop (statementLength (t :: ts))) := by
  rw [findings, if_neg (by simp [hsemicolon]), dif_neg (by simp [heof])]
  split
  · next chain' behind' hread' => simp [hread] at hread'
  · next k' hread' =>
    obtain rfl : k = k' := by simpa [hread] using hread'
    rfl

/-- Induction along what is found: behind the semicolons there is nothing more, or a sum and what
is found behind it, or a failure and what is found behind its statement. -/
@[elab_as_elim]
theorem findings_induction {motive : Nat → List Token → Prop} (nil : ∀ i, motive i [])
    (semicolon : ∀ i t ts, t.isSemicolon = true → motive (i + 1) ts → motive i (t :: ts))
    (eof : ∀ i t ts, t.isEof = true → motive i (t :: ts))
    (sum : ∀ i (c : Chain) rest, rest.head?.any Token.isPlus = false →
      motive (i + c.tokens.length) rest → motive i (c.tokens ++ rest))
    (fault : ∀ i t ts k, t.isSemicolon = false → t.isEof = false →
      Chain.read (t :: ts) = .error k →
      motive (i + statementLength (t :: ts)) ((t :: ts).drop (statementLength (t :: ts))) →
      motive i (t :: ts))
    (i : Nat) (ts : List Token) : motive i ts := by
  fun_induction findings i ts with
  | case1 i => exact nil i
  | case2 i t ts ht ih => exact semicolon i t ts ht ih
  | case3 i t ts _ ht => exact eof i t ts ht
  | case4 i t ts _ _ chain rest hread ih =>
    obtain ⟨hsplit, hrest⟩ := Chain.read_eq_ok hread
    rw [hsplit]
    exact sum i chain rest hrest ih
  | case5 i t ts hsemicolon heof k hread ih =>
    exact fault i t ts k (by simpa using hsemicolon) (by simpa using heof) hread ih

end Grammar

/-! ## Runs of a parser -/

namespace Parser

open Grammar

/-- One round of a run: behind the semicolons the run is over, or one statement is read. -/
theorem parseProgram_eq (mode : Mode) (p : Parser) :
    p.parseProgram mode =
      if p.skipSemicolons.atEnd then (.ok p.skipSemicolons.trees, p.skipSemicolons)
      else match p.skipSemicolons.parse mode with
        | (.error e, q) => (.error e, q)
        | (.ok (some _), q) => parseProgram mode q
        | (.ok none, q) => parseProgram mode q.synchronize := by
  rw [parseProgram]
  split
  · rfl
  · split
    · next hparse => simp [hparse]
    · next hparse => simp [hparse]
    · next hparse => simp [hparse]

variable {tokens : Array Token} {i : Nat} {trees : Array Tree} {errors : Array ParseError}
variable {t : Token} {ts : List Token}

theorem sum_of_chain {chain : Chain} {behind : List Token}
    (hread : Chain.read (tokens.toList.drop i) = .ok (chain, behind)) :
    (Parser.mk tokens i trees errors).sum =
      (.ok chain.tree, ⟨tokens, ((i + chain.tokens.length : Nat) : Int), trees, errors⟩) := by
  simp only [sum, sumAt_eq, hread]

theorem sum_of_fault {k : Nat} (hread : Chain.read (tokens.toList.drop i) = .error k) :
    (Parser.mk tokens i trees errors).sum =
      (.error (ParseError.raise ⟨TokenType.operands, tokens[i + k]?, ((i + k : Nat) : Int)⟩),
        ⟨tokens, ((if i + k < tokens.size then i + k + 1 else i + k : Nat) : Int), trees,
          errors⟩) := by
  simp only [sum, sumAt_eq, hread, faultAt]

theorem parse_of_sum (mode : Mode) {chain : Chain} {behind : List Token}
    (hread : Chain.read (tokens.toList.drop i) = .ok (chain, behind)) :
    (Parser.mk tokens i trees errors).parse mode =
      (.ok (some chain.tree),
        ⟨tokens, ((i + chain.tokens.length : Nat) : Int), trees.push chain.tree, errors⟩) := by
  simp only [parse, sum_of_chain hread]

/-- Where a token cannot be written, there is one. -/
theorem lt_size_of_unwritable {tokens : Array Token} {n : Nat}
    (h : tokens[n]?.all Token.isWritable = false) : n < tokens.size := by
  cases hget : tokens[n]? with
  | none => simp [hget] at h
  | some t => exact (Array.getElem?_eq_some_iff.mp hget).1

/-- Where no sum can be read, the violation is reported or recorded; if it cannot be worded, that
is the failure, behind the token at fault. -/
theorem parse_of_fault (mode : Mode) {k : Nat}
    (hread : Chain.read (tokens.toList.drop i) = .error k) {e : ParseError}
    (he : e = ⟨TokenType.operands, tokens[i + k]?, ((i + k : Nat) : Int)⟩) :
    (Parser.mk tokens i trees errors).parse mode =
      if e.isWritable then
        match mode with
        | .strict => (.error (.violation e), ⟨tokens, i, trees, errors⟩)
        | .lenient => (.ok none, ⟨tokens, i, trees, errors.push e⟩)
      else (.error (.unwritable .numberTooLong), ⟨tokens, e.position + 1, trees, errors⟩) := by
  have hsum : (Parser.mk tokens i trees errors).sum = _ := sum_of_fault hread
  rw [← he, ParseError.raise_eq] at hsum
  cases hwritable : e.isWritable with
  | true =>
    simp only [hwritable, if_true] at hsum
    cases mode with
    | strict => simp only [parse, hsum, if_true]
    | lenient => simp only [parse, hsum, if_true]
  | false =>
    have hlt : i + k < tokens.size := by
      rw [he] at hwritable
      exact lt_size_of_unwritable hwritable
    simp only [hwritable, Bool.false_eq_true, if_false, if_pos hlt] at hsum
    simp only [parse, hsum, Bool.false_eq_true, if_false, he]
    rfl

theorem parseProgram_of_semicolon (mode : Mode) (hts : tokens.toList.drop i = t :: ts)
    (ht : t.isSemicolon = true) :
    (Parser.mk tokens i trees errors).parseProgram mode =
      (Parser.mk tokens ((i + 1 : Nat) : Int) trees errors).parseProgram mode := by
  have hskip : (Parser.mk tokens i trees errors).skipSemicolons =
      (Parser.mk tokens ((i + 1 : Nat) : Int) trees errors).skipSemicolons := by
    simp only [skipSemicolons, skipSemicolons_of_semicolon hts ht]
  rw [parseProgram_eq, hskip, ← parseProgram_eq]

theorem skipSemicolons_of_none (h : (tokens.toList.drop i).head?.any Token.isSemicolon = false) :
    (Parser.mk tokens i trees errors).skipSemicolons = ⟨tokens, i, trees, errors⟩ := by
  simp only [skipSemicolons, skipSemicolons_of_other h]

theorem parseProgram_of_end (mode : Mode)
    (hend : (tokens.toList.drop i).head?.all Token.isEof = true) :
    (Parser.mk tokens i trees errors).parseProgram mode =
      (.ok trees, ⟨tokens, i, trees, errors⟩) := by
  have hsemicolon : (tokens.toList.drop i).head?.any Token.isSemicolon = false := by
    match hts : tokens.toList.drop i with
    | [] => rfl
    | t :: ts =>
      have ht : t.isEof = true := by simpa [hts] using hend
      exact Token.Part.excludes .eof .semicolon (by decide) ht
  have hatEnd : (Parser.mk tokens i trees errors).atEnd = true := by
    rw [atEnd, endsAt_eq, hend]
  rw [parseProgram_eq, skipSemicolons_of_none hsemicolon, if_pos hatEnd]

variable (hts : tokens.toList.drop i = t :: ts) (hsemicolon : t.isSemicolon = false)
  (heof : t.isEof = false)

include hts hsemicolon heof in
/-- Where a statement begins, a round reads it. -/
theorem parseProgram_of_statement (mode : Mode) :
    (Parser.mk tokens i trees errors).parseProgram mode =
      match (Parser.mk tokens i trees errors).parse mode with
      | (.error e, q) => (.error e, q)
      | (.ok (some _), q) => parseProgram mode q
      | (.ok none, q) => parseProgram mode q.synchronize := by
  have hhead : (tokens.toList.drop i).head?.any Token.isSemicolon = false := by
    rw [hts]
    exact hsemicolon
  have hatEnd : ¬ (Parser.mk tokens i trees errors).atEnd = true := by
    rw [atEnd, endsAt_eq, hts]
    simpa using heof
  rw [parseProgram_eq, skipSemicolons_of_none hhead, if_neg hatEnd]

theorem parseProgram_of_sum (mode : Mode) {c : Chain} {rest : List Token}
    (hts : tokens.toList.drop i = c.tokens ++ rest)
    (hrest : rest.head?.any Token.isPlus = false) :
    (Parser.mk tokens i trees errors).parseProgram mode =
      (Parser.mk tokens ((i + c.tokens.length : Nat) : Int) (trees.push c.tree)
        errors).parseProgram mode := by
  have hread : Chain.read (tokens.toList.drop i) = .ok (c, rest) := by
    rw [hts, Chain.read_tokens_append c hrest]
  rw [parseProgram_of_statement hts c.isSemicolon_first c.isEof_first, parse_of_sum mode hread]

include hts hsemicolon heof in
theorem parseProgram_of_fault {k : Nat} (hread : Chain.read (t :: ts) = .error k) (mode : Mode)
    {e : ParseError} (he : e = ⟨TokenType.operands, (t :: ts)[k]?, ((i + k : Nat) : Int)⟩) :
    (Parser.mk tokens i trees errors).parseProgram mode =
      if e.isWritable then
        match mode with
        | .strict => (.error (.violation e), ⟨tokens, i, trees, errors⟩)
        | .lenient =>
          (Parser.mk tokens ((i + statementLength (t :: ts) : Nat) : Int) trees
            (errors.push e)).parseProgram .lenient
      else (.error (.unwritable .numberTooLong), ⟨tokens, e.position + 1, trees, errors⟩) := by
  have hget : tokens[i + k]? = (t :: ts)[k]? := by
    rw [← hts, List.getElem?_drop, Array.getElem?_toList]
  rw [← hget] at he
  rw [parseProgram_of_statement hts hsemicolon heof, parse_of_fault mode (hts ▸ hread) he]
  cases e.isWritable with
  | true =>
    cases mode with
    | strict => rfl
    | lenient => simp only [synchronize, nextStatement_eq, hts, if_true]
  | false => rfl

/-- A run from an index meets what is found from there on. -/
theorem parseProgram_eq_collect (mode : Mode) (tokens : Array Token) (i : Nat)
    (trees : Array Tree) (errors : Array ParseError) :
    (Parser.mk tokens i trees errors).parseProgram mode =
      Finding.collect mode tokens (overAt i (tokens.toList.drop i))
        (findings i (tokens.toList.drop i)) trees errors := by
  generalize hts : tokens.toList.drop i = ts
  induction i, ts using findings_induction generalizing trees errors with
  | nil i =>
    rw [parseProgram_of_end _ (by rw [hts]; rfl), overAt_of_end i rfl, findings_nil]
    rfl
  | semicolon i t ts ht ih =>
    rw [parseProgram_of_semicolon _ hts ht, ih _ _ (drop_succ_of_drop hts),
      overAt_cons i ts (Token.Part.excludes .semicolon .eof (by decide) ht),
      findings_of_semicolon i ht]
  | eof i t ts ht =>
    have hend : (t :: ts).head?.all Token.isEof = true := ht
    rw [parseProgram_of_end _ (by rw [hts]; exact hend), overAt_of_end i hend,
      findings_of_eof i ht]
    rfl
  | sum i c rest hrest ih =>
    have hdrop : tokens.toList.drop (i + c.tokens.length) = rest := by
      rw [← List.drop_drop, hts, List.drop_left]
    rw [parseProgram_of_sum mode hts hrest, ih _ _ hdrop,
      overAt_append i fun t ht => c.isEof_of_mem ht, findings_tokens_append i c hrest]
    rfl
  | fault i t ts k hsemicolon heof hread ih =>
    have hdrop : tokens.toList.drop (i + statementLength (t :: ts)) =
        (t :: ts).drop (statementLength (t :: ts)) := by
      rw [← List.drop_drop, hts]
    rw [parseProgram_of_fault hts hsemicolon heof hread mode rfl,
      findings_of_fault i hsemicolon heof hread, Finding.collect_fault]
    cases mode with
    | strict => rfl
    | lenient => simp only [ih _ _ hdrop, overAt_statement]

/-- A lenient run collects everything that is found, and ends where the tokens are over, or stops
behind the first token at fault that it cannot word. -/
theorem parseProgram_lenient_eq (tokens : Array Token) (i : Nat) (trees : Array Tree)
    (errors : Array ParseError) :
    (Parser.mk tokens i trees errors).parseProgram .lenient =
      match Finding.firstUnwritable (findings i (tokens.toList.drop i)) with
      | none => (.ok (trees ++ (Finding.trees (findings i (tokens.toList.drop i))).toArray),
          ⟨tokens, overAt i (tokens.toList.drop i),
            trees ++ (Finding.trees (findings i (tokens.toList.drop i))).toArray,
            errors ++ (Finding.errors (findings i (tokens.toList.drop i))).toArray⟩)
      | some error => (.error (.unwritable .numberTooLong),
          ⟨tokens, error.position + 1,
            trees ++ (Finding.trees
              (Finding.kept (findings i (tokens.toList.drop i)))).toArray,
            errors ++ (Finding.errors
              (Finding.kept (findings i (tokens.toList.drop i)))).toArray⟩) := by
  rw [parseProgram_eq_collect, Finding.collect_lenient]

/-- A run over tokens, from the first on. -/
def freshRun (mode : Mode) (tokens : List Token) : Outcome Parser ParseFailure (Array Tree) :=
  (ofTokens tokens.toArray).parseProgram mode

section Unwritable

variable (mode : Mode) {t : Token} (hoperand : t.isOperand = false)
  (hwritable : t.isWritable = false)

include hoperand hwritable in
/-- No sum begins with a token that is no operand, and if it cannot be written, it is lost. -/
theorem parse_of_unwritable (ts : List Token) :
    (ofTokens (t :: ts).toArray).parse mode =
      (.error (.unwritable .numberTooLong), ⟨(t :: ts).toArray, 1, #[], #[]⟩) := by
  have hread : Chain.read ((t :: ts).toArray.toList.drop 0) = .error 0 :=
    Chain.read_cons_of_fault hoperand ts
  have hparse : (Parser.mk (t :: ts).toArray ((0 : Nat) : Int) #[] #[]).parse mode = _ :=
    parse_of_fault mode hread rfl
  exact hparse.trans (if_neg (by simp [hwritable, ParseError.isWritable]))

include hoperand hwritable in
/-- A token that is no operand and cannot be written ends a run that it begins. -/
theorem freshRun_of_unwritable (hsemicolon : t.isSemicolon = false)
    (heof : t.isEof = false) (ts : List Token) :
    freshRun mode (t :: ts) =
      (.error (.unwritable .numberTooLong), ⟨(t :: ts).toArray, 1, #[], #[]⟩) := by
  have hread := Chain.read_cons_of_fault hoperand ts
  have hrun : (Parser.mk (t :: ts).toArray ((0 : Nat) : Int) #[] #[]).parseProgram mode = _ :=
    parseProgram_of_fault rfl hsemicolon heof hread mode rfl
  exact hrun.trans (if_neg (by simp [hwritable, ParseError.isWritable]))

end Unwritable

theorem freshRun_eq (mode : Mode) (tokens : List Token) :
    freshRun mode tokens =
      Finding.collect mode tokens.toArray (overAt 0 tokens) (findings 0 tokens) #[] #[] :=
  parseProgram_eq_collect mode tokens.toArray 0 #[] #[]

end Parser
end SumLang
