import SumLang.Proofs.Chain
import SumLang.Parser.Basic

/-!
# Reading sums from an index

From an index that is not negative, the grammar sees the tokens behind it as a list.  It reads
a chain from the front of that list, and answers with its tree; where there is none, it answers
with the token at fault.

## Main statements

* `sumAt_eq`: a sum is read as `Chain.read` says.
* `skipSemicolons_eq`, `nextStatement_eq`: where the next statement is looked for.
-/
namespace SumLang

namespace Grammar

theorem signedGet?_eq_head? (tokens : Array Token) (i : Nat) :
    signedGet? tokens i = (tokens.toList.drop i).head? := by
  rw [signedGet?_natCast, List.head?_drop, Array.getElem?_toList]

theorem drop_succ_of_drop {tokens : List Token} {i : Nat} {t : Token} {ts : List Token}
    (h : tokens.drop i = t :: ts) : tokens.drop (i + 1) = ts := by
  rw [← List.drop_drop, h]
  rfl

/-- There is a token at an index exactly if there are tokens from there on. -/
theorem lt_size_iff_drop (tokens : Array Token) (i : Nat) :
    i < tokens.size ↔ tokens.toList.drop i ≠ [] := by
  rw [Ne, List.drop_eq_nil_iff, Array.length_toList, Nat.not_le]

theorem operandAt_of_isOperand {tokens : Array Token} {i : Nat} {t : Token} {ts : List Token}
    (hts : tokens.toList.drop i = t :: ts) (h : t.isOperand = true) :
    operandAt tokens i = (.ok t.leaf, ((i + 1 : Nat) : Int)) := by
  rw [operandAt, signedGet?_eq_head?, hts]
  simp [Token.operand?_of_isOperand h]

/-- The answer where an operand should be at an index.  The token there is taken, if any. -/
def faultAt (tokens : Array Token) (i : Nat) : Outcome Int ParseFailure Tree :=
  (.error (ParseError.raise ⟨TokenType.operands, tokens[i]?, i⟩),
    ((if i < tokens.size then i + 1 else i : Nat) : Int))

/-- A name that cannot be written is a fault like any other token: neither can the violation be
worded that it would be. -/
theorem raise_of_unwritable_name {t : Token} (h : t.isOperand = false)
    (htype : t.type = TokenType.ident) (expected : List TokenType) (i : Int) :
    ParseError.raise ⟨expected, some t, i⟩ = .unwritable .numberTooLong := by
  rw [Token.isOperand_of_ident htype] at h
  rw [ParseError.raise_eq, ParseError.isWritable, Option.all_some, Token.isWritable, h]
  rfl

theorem operandAt_of_fault {tokens : Array Token} {i : Nat}
    (h : (tokens.toList.drop i).head?.any Token.isOperand = false) :
    operandAt tokens i = faultAt tokens i := by
  have hget : tokens[i]? = (tokens.toList.drop i).head? := by
    rw [← signedGet?_eq_head?, signedGet?_natCast]
  have hsize := lt_size_iff_drop tokens i
  rw [operandAt, faultAt, signedGet?_eq_head?, hget]
  match hts : tokens.toList.drop i with
  | [] => simp [hsize, hts]
  | t :: ts =>
    have hother : t.isOperand = false := by simpa [hts] using h
    have hlt : i < tokens.size := by simp [hsize, hts]
    simp only [List.head?_cons, Token.operand?_of_not_isOperand hother, if_pos hlt]
    by_cases htype : t.type = TokenType.ident
    · rw [raise_of_unwritable_name hother htype, if_pos htype]
      rfl
    · rw [if_neg htype]
      rfl

theorem extendSum_stop {tokens : Array Token} {left : Tree} {i : Int}
    (h : (signedGet? tokens i).any Token.isPlus = false) :
    extendSum tokens left i = (.ok left, i) := by
  rw [extendSum]
  split
  · rfl
  · next op hop =>
    have hplus : ¬ op.type = TokenType.plus := by simpa [hop, Token.isPlus] using h
    rw [if_neg hplus]

theorem extendSum_of_plus {tokens : Array Token} {left : Tree} {i : Int} {op : Token}
    (hop : signedGet? tokens i = some op) (hplus : op.isPlus = true) :
    extendSum tokens left i =
      match operandAt tokens (i + 1) with
      | (.ok right, j) => extendSum tokens (.add left right op.pos) j
      | (.error e, j) => (.error e, j) := by
  have htype : op.type = TokenType.plus := by simpa [Token.isPlus] using hplus
  rw [extendSum]
  split
  · next hnone => simp [hop] at hnone
  · next op' hop' =>
    obtain rfl : op = op' := Option.some.inj (hop.symm.trans hop')
    rw [if_pos htype]
    split
    · next right j hright => rw [hright]
    · next e j hright => rw [hright]

/-- Without an operand behind it, a token ends a sum unless it is a plus. -/
theorem extendSum_of_fault {tokens : Array Token} {left : Tree} {i : Nat} {op : Token}
    {ts : List Token} (hts : tokens.toList.drop i = op :: ts)
    (hfault : ts.head?.any Token.isOperand = false) :
    extendSum tokens left i =
      if op.isPlus then faultAt tokens (i + 1) else (.ok left, (i : Int)) := by
  have hhead := signedGet?_eq_head? tokens i
  rw [hts] at hhead
  by_cases hplus : op.isPlus = true
  · rw [← drop_succ_of_drop hts] at hfault
    rw [extendSum_of_plus hhead hplus, ← Int.natCast_succ, operandAt_of_fault hfault, if_pos hplus]
    rfl
  · rw [extendSum_stop (by simpa [hhead] using hplus), if_neg hplus]

/-- The additions behind a sum are read as far as they go; a plus without an operand behind it
is a fault. -/
theorem extendSum_eq (tokens : Array Token) (left : Tree) (i : Nat) {ts : List Token}
    (hts : tokens.toList.drop i = ts) :
    extendSum tokens left i =
      if (additions ts).2.head?.any Token.isPlus then
        faultAt tokens (i + 2 * (additions ts).1.length + 1)
      else (.ok (Addition.enlarge left (additions ts).1),
        ((i + 2 * (additions ts).1.length : Nat) : Int)) := by
  have hhead := signedGet?_eq_head? tokens i
  rw [hts] at hhead
  fun_induction additions ts generalizing left i with
  | case1 op t ts h ih =>
    have hoperand := drop_succ_of_drop hts
    have hrest := drop_succ_of_drop hoperand
    have hindex : i + 2 + 2 * (additions ts).1.length =
        i + 2 * (additions ts).1.length.succ := by omega
    rw [extendSum_of_plus hhead h.1, ← Int.natCast_succ, operandAt_of_isOperand hoperand h.2]
    simp only [ih _ (i + 2) hrest (hrest ▸ signedGet?_eq_head? tokens (i + 2)), hindex,
      Addition.enlarge_cons, List.length_cons]
    rfl
  | case2 op t ts h =>
    by_cases hplus : op.isPlus = true
    · have hfault : (t :: ts).head?.any Token.isOperand = false := by simpa [hplus] using h
      rw [extendSum_of_fault hts hfault]
      rfl
    · rw [extendSum_stop (by simpa [hhead] using hplus)]
      simp [hplus]
  | case3 op =>
    rw [extendSum_of_fault hts rfl]
    rfl
  | case4 =>
    rw [extendSum_stop (by simp [hhead])]
    simp

/-- A sum is read from an index as its chain is from the tokens there. -/
theorem sumAt_eq (tokens : Array Token) (i : Nat) :
    sumAt tokens i =
      match Chain.read (tokens.toList.drop i) with
      | .ok (chain, _) => (.ok chain.tree, ((i + chain.tokens.length : Nat) : Int))
      | .error k => faultAt tokens (i + k) := by
  rcases Chain.fault_or_operand (tokens.toList.drop i) with hfault | ⟨t, ts, hts, hoperand⟩
  · rw [sumAt, operandAt_of_fault hfault, Chain.read_of_fault hfault]
    rfl
  · rw [sumAt, operandAt_of_isOperand hts hoperand, hts, Chain.read_of_operand hoperand]
    simp only [extendSum_eq tokens t.leaf (i + 1) (drop_succ_of_drop hts)]
    split
    · have hindex : i + 1 + 2 * (additions ts).1.length + 1 =
          i + (2 * (additions ts).1.length + 2) := by omega
      rw [hindex]
    · have hindex : i + 1 + 2 * (additions ts).1.length =
          i + (2 * (additions ts).1.length + 1) := by omega
      simp only [hindex, Chain.length_tokens]
      rfl

/-! ## Between statements -/

theorem isAt_eq (tokens : Array Token) (type : TokenType) (i : Nat) :
    isAt tokens type i = (tokens.toList.drop i).head?.any (·.type == type) := by
  rw [isAt, signedGet?_eq_head?]

theorem endsAt_eq (tokens : Array Token) (i : Nat) :
    endsAt tokens i = (tokens.toList.drop i).head?.all Token.isEof := by
  rw [endsAt, signedGet?_eq_head?]

theorem skipSemicolons_of_semicolon {tokens : Array Token} {i : Nat} {t : Token}
    {ts : List Token} (hts : tokens.toList.drop i = t :: ts) (ht : t.isSemicolon = true) :
    Grammar.skipSemicolons tokens i = Grammar.skipSemicolons tokens ((i + 1 : Nat) : Int) := by
  have hat : isAt tokens TokenType.semicolon i = true := by
    rw [isAt_eq, hts]
    exact ht
  rw [Grammar.skipSemicolons, dif_pos hat]
  rfl

theorem skipSemicolons_of_other {tokens : Array Token} {i : Nat}
    (h : (tokens.toList.drop i).head?.any Token.isSemicolon = false) :
    Grammar.skipSemicolons tokens i = i := by
  have hat : ¬ isAt tokens TokenType.semicolon i = true := by
    rw [isAt_eq, Bool.not_eq_true]
    exact h
  rw [Grammar.skipSemicolons, dif_neg hat]

/-- The number of tokens up to the next semicolon and with it, or up to where the tokens are
over. -/
def statementLength : List Token → Nat
  | [] => 0
  | t :: ts => if t.isEof then 0 else if t.isSemicolon then 1 else statementLength ts + 1

/-- Going to the next statement takes the tokens of this one. -/
theorem nextStatement_eq (tokens : Array Token) (i : Nat) :
    nextStatement tokens i = ((i + statementLength (tokens.toList.drop i) : Nat) : Int) := by
  induction hts : tokens.toList.drop i generalizing i with
  | nil =>
    have hends : endsAt tokens i = true := by rw [endsAt_eq, hts]; rfl
    rw [nextStatement, dif_pos hends]
    rfl
  | cons t ts ih =>
    have hends : endsAt tokens i = t.isEof := by rw [endsAt_eq, hts]; rfl
    have hat : isAt tokens TokenType.semicolon i = t.isSemicolon := by rw [isAt_eq, hts]; rfl
    rw [nextStatement, hends, hat, statementLength, ← Int.natCast_succ,
      ih (i + 1) (drop_succ_of_drop hts)]
    split
    · rfl
    · split
      · rfl
      · congr 1
        omega

end Grammar
end SumLang
