import SumLang.Session
import SumLang.SignedIndex
import SumLang.ParseError
import SumLang.Tree.Basic

/-!
# The grammar of sums

Over a sequence of tokens, addressed by signed index:

* an *operand* is a name, or a number whose value is a number or a truth value; a name is taken
  as it is written;
* a *sum* is an operand followed by any number of additions, each a plus and an operand.

A sum is read as far as it goes, and leans to the left: each addition takes what has been read
so far as its left operand.  An addition has the place of its plus, a leaf that of its token.

Reading an operand takes its token even where that is no operand, and says so in the index it
leaves; a failed read of a sum therefore leaves the index behind the token at fault.

Indexes only grow.  From a negative one, which counts from the end, reading goes on with the
first token when the last one has been read.  At an index without a token there is nothing to
read; one before all tokens is like one behind them here, and callers have to tell them apart.
-/
namespace SumLang

/-- The leaf of a token that is an operand.  A name that cannot be written is a failure. -/
def Token.operand? (t : Token) : Except WriteError (Option Tree) :=
  if t.type = TokenType.int then
    match t.value with
    | .int _ | .bool _ => return some (.integer t.value t.pos)
    | .text _ | .null => return none
  else if t.type = TokenType.ident then do
    let name ← t.value.written
    return some (.identifier (.text name) t.pos)
  else return none

namespace Grammar

/-- Whether the token at an index has a given type. -/
def isAt (tokens : Array Token) (type : TokenType) (i : Int) : Bool :=
  (signedGet? tokens i).any (·.type == type)

/-- Whether the tokens are over at an index: there are no more, or the next one says so. -/
def endsAt (tokens : Array Token) (i : Int) : Bool :=
  (signedGet? tokens i).all Token.isEof

/-- Reads an operand. -/
def operandAt (tokens : Array Token) (i : Int) : Outcome Int ParseFailure Tree :=
  match signedGet? tokens i with
  | none => (.error (ParseError.raise ⟨TokenType.operands, none, i⟩), i)
  | some t =>
    match t.operand? with
    | .ok (some leaf) => (.ok leaf, i + 1)
    | .ok none => (.error (ParseError.raise ⟨TokenType.operands, some t, i⟩), i + 1)
    | .error e => (.error (.unwritable e), i + 1)

theorem operandAt_eq_ok {tokens : Array Token} {i j : Int} {leaf : Tree}
    (h : operandAt tokens i = (.ok leaf, j)) : i < tokens.size ∧ j = i + 1 := by
  unfold operandAt at h
  split at h
  · simp at h
  · next t ht =>
    have hlt := lt_size_of_signedGet? ht
    split at h <;> simp at h
    exact ⟨hlt, h.2.symm⟩

/-- Reads the additions that follow what has been read of a sum. -/
def extendSum (tokens : Array Token) (left : Tree) (i : Int) : Outcome Int ParseFailure Tree :=
  match signedGet? tokens i with
  | none => (.ok left, i)
  | some op =>
    if op.type = TokenType.plus then
      match _h : operandAt tokens (i + 1) with
      | (.ok right, j) => extendSum tokens (.add left right op.pos) j
      | (.error e, j) => (.error e, j)
    else (.ok left, i)
termination_by (tokens.size - i).toNat
decreasing_by
  have := operandAt_eq_ok _h
  omega

/-- Reads a sum. -/
def sumAt (tokens : Array Token) (i : Int) : Outcome Int ParseFailure Tree :=
  match operandAt tokens i with
  | (.ok left, j) => extendSum tokens left j
  | (.error e, j) => (.error e, j)

theorem extendSum_eq_ok {tokens : Array Token} {left t : Tree} {i j : Int}
    (hi : i ≤ tokens.size) (h : extendSum tokens left i = (.ok t, j)) :
    i ≤ j ∧ j ≤ tokens.size := by
  fun_induction extendSum tokens left i with
  | case1 => simp_all
  | case2 left i op hop hplus right k hright ih =>
    have := operandAt_eq_ok hright
    have := ih (by omega) h
    omega
  | case3 => simp_all
  | case4 => simp_all

/-- A sum takes at least one token, and no more than there are. -/
theorem sumAt_eq_ok {tokens : Array Token} {t : Tree} {i j : Int}
    (h : sumAt tokens i = (.ok t, j)) : i < j ∧ j ≤ tokens.size := by
  unfold sumAt at h
  split at h
  · next left k hleft =>
    have := operandAt_eq_ok hleft
    have := extendSum_eq_ok (by omega) h
    omega
  · simp at h

/-! ## Between statements -/

theorem lt_size_of_isAt {tokens : Array Token} {type : TokenType} {i : Int}
    (h : isAt tokens type i = true) : i < tokens.size := by
  unfold isAt at h
  cases ht : signedGet? tokens i with
  | none => simp [ht] at h
  | some t => exact lt_size_of_signedGet? ht

theorem lt_size_of_endsAt {tokens : Array Token} {i : Int} (h : endsAt tokens i = false) :
    i < tokens.size := by
  unfold endsAt at h
  cases ht : signedGet? tokens i with
  | none => simp [ht] at h
  | some t => exact lt_size_of_signedGet? ht

/-- The index behind a run of semicolons. -/
def skipSemicolons (tokens : Array Token) (i : Int) : Int :=
  if _h : isAt tokens TokenType.semicolon i then skipSemicolons tokens (i + 1) else i
termination_by (tokens.size - i).toNat
decreasing_by
  have := lt_size_of_isAt _h
  omega

/-- The index behind the next semicolon, or the one at which the tokens are over. -/
def nextStatement (tokens : Array Token) (i : Int) : Int :=
  if _h : endsAt tokens i then i
  else if isAt tokens TokenType.semicolon i then i + 1
  else nextStatement tokens (i + 1)
termination_by (tokens.size - i).toNat
decreasing_by
  have := lt_size_of_endsAt (by simpa using _h)
  omega

theorem le_skipSemicolons (tokens : Array Token) (i : Int) : i ≤ skipSemicolons tokens i := by
  fun_induction skipSemicolons tokens i with
  | case1 i _ ih => omega
  | case2 => omega

theorem le_nextStatement (tokens : Array Token) (i : Int) : i ≤ nextStatement tokens i := by
  fun_induction nextStatement tokens i with
  | case1 => omega
  | case2 => omega
  | case3 i _ _ ih => omega

theorem skipSemicolons_le_size {tokens : Array Token} {i : Int} (hi : i ≤ tokens.size) :
    skipSemicolons tokens i ≤ tokens.size := by
  fun_induction skipSemicolons tokens i with
  | case1 i hsemicolon ih =>
    have := lt_size_of_isAt hsemicolon
    exact ih (by omega)
  | case2 => exact hi

theorem nextStatement_le_size {tokens : Array Token} {i : Int} (hi : i ≤ tokens.size) :
    nextStatement tokens i ≤ tokens.size := by
  fun_induction nextStatement tokens i with
  | case1 => exact hi
  | case2 i _ hsemicolon =>
    have := lt_size_of_isAt hsemicolon
    omega
  | case3 i hend _ ih =>
    have := lt_size_of_endsAt (by simpa using hend)
    exact ih (by omega)

/-- Going to the next statement takes a token unless the tokens are over. -/
theorem lt_nextStatement {tokens : Array Token} {i : Int} (h : endsAt tokens i = false) :
    i < nextStatement tokens i := by
  unfold nextStatement
  have := le_nextStatement tokens (i + 1)
  simp only [h, Bool.false_eq_true, dite_false]
  split <;> omega

end Grammar
end SumLang
