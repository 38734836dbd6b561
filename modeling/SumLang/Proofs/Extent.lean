import SumLang.Proofs.Blocks
import Mathlib.Order.Bounds.Basic

/-!
# How far a sum goes

From any index on, operands with a plus behind them are counted off two tokens at a time.  The sum
that is read there ends with the token behind the last of these pairs, if that is an operand, and
whatever follows; and if it is none, no sum is read, because of it.  The index may be behind all
tokens, where there are no pairs and no operand.

## Main definitions

* `PairsFrom`: a number of pairs of an operand and a plus.
* `SumOver`: the tree of a sum, addition by addition, with the tokens named by their indexes.

## Main statements

* `isGreatest_pairsFrom_of_read_eq_ok`, `isGreatest_pairsFrom_of_read_eq_error`: the number of pairs
  and the token behind them say what is read.
* `sumOver_chain`: the tree of a chain is that of the sum over its tokens.
* `Parser.sum_from_index`: what a parser does about the sum at its index.
-/
namespace SumLang

/-! ## Pairs -/

/-- There are `k` pairs of an operand and a plus one behind the other from the index `p` on. -/
def PairsFrom (tokens : List Token) (p k : Nat) : Prop :=
  ∀ i < k, tokens[p + 2 * i]?.any Token.isOperand = true ∧
    tokens[p + 2 * i + 1]?.any Token.isPlus = true

theorem pairsFrom_zero (tokens : List Token) (p : Nat) : PairsFrom tokens p 0 := by
  intro i hi
  exact absurd hi (Nat.not_lt_zero i)

/-- One more pair behind the others. -/
theorem PairsFrom.succ {tokens : List Token} {p k : Nat} (h : PairsFrom tokens p k)
    (hoperand : tokens[p + 2 * k]?.any Token.isOperand = true)
    (hplus : tokens[p + 2 * k + 1]?.any Token.isPlus = true) : PairsFrom tokens p (k + 1) := by
  intro i hi
  by_cases hlast : i = k
  · subst hlast
    exact ⟨hoperand, hplus⟩
  · exact h i (by omega)

/-- Pairs that are not followed by one more are as many as there are. -/
theorem PairsFrom.isGreatest {tokens : List Token} {p k : Nat} (h : PairsFrom tokens p k)
    (hend : ¬ PairsFrom tokens p (k + 1)) : IsGreatest {k | PairsFrom tokens p k} k := by
  refine ⟨h, ?_⟩
  intro n hn
  by_contra hlt
  apply hend
  intro i hi
  exact hn i (by omega)

/-- All operands of a chain but the last have a plus behind them. -/
theorem Block.StandsIn.pairsFrom {tokens : List Token} {b : Block} (h : b.StandsIn tokens) :
    PairsFrom tokens b.start b.chain.more.length ∧
      tokens[b.start + 2 * b.chain.more.length]?.any Token.isOperand = true := by
  have hlength := b.chain.length_tokens
  refine ⟨?_, ?_⟩
  · intro i hi
    rw [Nat.add_assoc, h.getElem? (by omega), h.getElem? (by omega)]
    exact ⟨b.chain.isOperand_of_even (by omega) (by omega),
      b.chain.isPlus_of_odd (by omega) (by omega)⟩
  · rw [h.getElem? (by omega)]
    exact b.chain.isOperand_of_even (by omega) (by omega)

/-- The tokens behind a chain by their indexes. -/
theorem getElem?_behind_chain {tokens rest : List Token} {p : Nat} {c : Chain}
    (h : tokens.drop p = c.tokens ++ rest) (n : Nat) :
    tokens[p + 2 * c.more.length + 1 + n]? = rest[n]? := by
  have hindex : p + 2 * c.more.length + 1 + n = p + (c.tokens.length + n) := by
    rw [c.length_tokens]
    omega
  rw [hindex, ← List.getElem?_drop, h, List.getElem?_append_right (Nat.le_add_right _ _),
    Nat.add_sub_cancel_left]

/-- A chain that is read has as many additions as there are pairs, and an operand behind them. -/
theorem isGreatest_pairsFrom_of_read_eq_ok {tokens rest : List Token} {p : Nat} {c : Chain}
    (h : Chain.read (tokens.drop p) = .ok (c, rest)) :
    IsGreatest {k | PairsFrom tokens p k} c.more.length ∧
      tokens[p + 2 * c.more.length]?.any Token.isOperand = true := by
  obtain ⟨hsplit, hrest⟩ := Chain.read_eq_ok h
  have hstands : (Block.mk p c).StandsIn tokens := ⟨rest, hsplit.symm⟩
  obtain ⟨hpairs, hoperand⟩ := hstands.pairsFrom
  refine ⟨hpairs.isGreatest ?_, hoperand⟩
  -- One more pair would have a plus behind the chain.
  intro hmore
  have hplus := (hmore c.more.length (Nat.lt_succ_self _)).2
  have hnext : tokens[p + 2 * c.more.length + 1]? = rest.head? := by
    rw [List.head?_eq_getElem?]
    exact getElem?_behind_chain hsplit 0
  rw [hnext, hrest] at hplus
  exact absurd hplus (by decide)

/-- What keeps a chain from being read is that there is no operand behind the pairs. -/
theorem isGreatest_pairsFrom_of_read_eq_error {tokens : List Token} {p n : Nat}
    (h : Chain.read (tokens.drop p) = .error n) :
    ∃ k, n = 2 * k ∧ IsGreatest {k | PairsFrom tokens p k} k ∧
      tokens[p + 2 * k]?.any Token.isOperand = false := by
  suffices hpairs : ∃ k, n = 2 * k ∧ PairsFrom tokens p k ∧
      tokens[p + 2 * k]?.any Token.isOperand = false by
    -- One more pair would begin with the operand that is missing.
    obtain ⟨k, hn, hk, hnone⟩ := hpairs
    refine ⟨k, hn, hk.isGreatest ?_, hnone⟩
    intro hmore
    rw [(hmore k (Nat.lt_succ_self _)).1] at hnone
    exact absurd hnone (by decide)
  rcases Chain.read_eq_error h with ⟨rfl, hhead⟩ | ⟨c, plus, rest, hsplit, hplus, rfl, hrest⟩
  · refine ⟨0, rfl, pairsFrom_zero tokens p, ?_⟩
    rw [← List.getElem?_drop, ← List.head?_eq_getElem?, hhead]
  · have hstands : (Block.mk p c).StandsIn tokens := ⟨plus :: rest, hsplit.symm⟩
    obtain ⟨hpairs, hoperand⟩ := hstands.pairsFrom
    have hfirst : tokens[p + 2 * c.more.length + 1]? = some plus :=
      getElem?_behind_chain hsplit 0
    have hnext : tokens[p + 2 * c.more.length + 1 + 1]? = rest.head? := by
      rw [getElem?_behind_chain hsplit 1, List.getElem?_cons_succ, List.head?_eq_getElem?]
    refine ⟨c.more.length + 1, ?_, hpairs.succ hoperand ?_, ?_⟩
    · rw [c.length_tokens]
      omega
    · rwa [hfirst]
    · rwa [Nat.mul_succ, ← Nat.add_assoc, hnext]

/-! ## Trees -/

/-- The tree of the sum of `k` additions over the tokens from the index `p` on: at even distances
from there stand its operands, and at odd ones the plus signs whose places its additions have. -/
inductive SumOver (tokens : List Token) (p : Nat) : Nat → Tree → Prop where
  | first {t : Token} (ht : tokens[p]? = some t) : SumOver tokens p 0 t.leaf
  | add {k : Nat} {left : Tree} {op t : Token} (hleft : SumOver tokens p k left)
      (hop : tokens[p + 2 * k + 1]? = some op) (ht : tokens[p + 2 * (k + 1)]? = some t) :
      SumOver tokens p (k + 1) (.add left t.leaf op.pos)

/-- Additions go on with a sum. -/
theorem SumOver.enlarge {tokens : List Token} {p k : Nat} {left : Tree}
    (h : SumOver tokens p k left) {more : List Addition}
    (hmore : Addition.allTokens more <+: tokens.drop (p + 2 * k + 1)) :
    SumOver tokens p (k + more.length) (Addition.enlarge left more) := by
  induction more generalizing k left with
  | nil => exact h
  | cons a more ih =>
    obtain ⟨rest, hrest⟩ := hmore
    have hget : ∀ n, tokens[p + 2 * k + 1 + n]? =
        (a.plus :: a.operand.token :: (Addition.allTokens more ++ rest))[n]? := by
      intro n
      rw [← List.getElem?_drop, ← hrest]
      rfl
    have hbehind : tokens.drop (p + 2 * (k + 1) + 1) = Addition.allTokens more ++ rest := by
      have hindex : p + 2 * (k + 1) + 1 = p + 2 * k + 1 + 2 := by omega
      rw [hindex, ← List.drop_drop, ← hrest]
      rfl
    have hadd : SumOver tokens p (k + 1) (.add left a.operand.leaf a.plus.pos) :=
      h.add (hget 0) (hget 1)
    have hcount : k + (a :: more).length = k + 1 + more.length := by
      rw [List.length_cons]
      omega
    rw [hcount, Addition.enlarge_cons]
    exact ih hadd ⟨rest, hbehind.symm⟩

/-- The tree of a chain is that of the sum over its tokens. -/
theorem sumOver_chain {tokens : List Token} {p : Nat} {c : Chain}
    (h : c.tokens <+: tokens.drop p) : SumOver tokens p c.more.length c.tree := by
  obtain ⟨rest, hrest⟩ := h
  have hfirst : tokens[p]? = some c.first.token := by
    rw [← Nat.add_zero p, ← List.getElem?_drop, ← hrest]
    rfl
  have hbehind : tokens.drop (p + 2 * 0 + 1) = Addition.allTokens c.more ++ rest := by
    rw [← List.drop_drop, Nat.mul_zero, Nat.add_zero, ← hrest]
    rfl
  have hsum : SumOver tokens p 0 c.first.leaf := .first hfirst
  have henlarge := hsum.enlarge ⟨rest, hbehind.symm⟩
  rwa [Nat.zero_add] at henlarge

/-! ## Parsers -/

namespace Parser

section Missing

variable {tokens : List Token} {p k : Nat} (trees : Array Tree) (errors : Array ParseError)
  (hread : Chain.read (tokens.drop p) = .error (2 * k))

/-- The failure for want of the operand behind `k` pairs, on the list of tokens. -/
theorem missing_eq (tokens : List Token) (p k : Nat) :
    ParseError.mk TokenType.operands tokens[p + 2 * k]? (p + 2 * k) =
      ⟨TokenType.operands, tokens.toArray[p + 2 * k]?, ((p + 2 * k : Nat) : Int)⟩ := by
  rw [List.getElem?_toArray]
  push_cast
  rfl

include hread in
theorem sum_of_missing :
    (Parser.mk tokens.toArray p trees errors).sum =
      (.error (if tokens[p + 2 * k]?.all Token.isWritable then
          .violation ⟨TokenType.operands, tokens[p + 2 * k]?, p + 2 * k⟩
          else .unwritable .numberTooLong),
        ⟨tokens.toArray, if p + 2 * k < tokens.length then p + 2 * k + 1 else p + 2 * k, trees,
          errors⟩) := by
  have hsum : (Parser.mk tokens.toArray p trees errors).sum = _ := sum_of_fault hread
  rw [hsum, ← missing_eq, ParseError.raise_eq, List.size_toArray, apply_ite Nat.cast]
  push_cast
  rfl

include hread in
theorem parse_of_missing (mode : Mode) :
    (Parser.mk tokens.toArray p trees errors).parse mode =
      if tokens[p + 2 * k]?.all Token.isWritable then
        match mode with
        | .strict =>
          (.error (.violation ⟨TokenType.operands, tokens[p + 2 * k]?, p + 2 * k⟩),
            ⟨tokens.toArray, p, trees, errors⟩)
        | .lenient =>
          (.ok none, ⟨tokens.toArray, p, trees,
            errors.push ⟨TokenType.operands, tokens[p + 2 * k]?, p + 2 * k⟩⟩)
      else (.error (.unwritable .numberTooLong),
        ⟨tokens.toArray, p + 2 * k + 1, trees, errors⟩) :=
  parse_of_fault mode hread (missing_eq tokens p k)

end Missing

/-- From any index on, let `k` be the number of operands with a plus behind them.  If an operand
follows, the sum of all `k + 1` is read, leaning to the left, and the parser stands behind it,
whatever follows; collecting the sum does the same in both modes.  If none follows, that is the
failure, at the token that stands there, if one does.  That token has been read, unless the sum was
to be collected: then nothing is changed, but that lenient parsing records the failure.  If the
token cannot be written, the failure is another one, the token has been read in any case, and
nothing is recorded. -/
theorem sum_from_index (tokens : List Token) (p : Nat) (trees : Array Tree)
    (errors : Array ParseError) :
    let parser : Parser := ⟨tokens.toArray, p, trees, errors⟩
    ∃ k, IsGreatest {k | PairsFrom tokens p k} k ∧
      (tokens[p + 2 * k]?.any Token.isOperand = true →
        ∃ tree, SumOver tokens p k tree ∧
          parser.sum = (.ok tree, { parser with index := p + 2 * k + 1 }) ∧
          ∀ mode, parser.parse mode = (.ok (some tree),
            { parser with index := p + 2 * k + 1, trees := trees.push tree })) ∧
      (tokens[p + 2 * k]?.any Token.isOperand = false →
        let e : ParseError := ⟨TokenType.operands, tokens[p + 2 * k]?, p + 2 * k⟩
        (tokens[p + 2 * k]?.all Token.isWritable = true →
          parser.sum = (.error (.violation e), { parser with
            index := if p + 2 * k < tokens.length then p + 2 * k + 1 else p + 2 * k }) ∧
          parser.parse .strict = (.error (.violation e), parser) ∧
          parser.parse .lenient = (.ok none, { parser with errors := errors.push e })) ∧
        (tokens[p + 2 * k]?.all Token.isWritable = false →
          parser.sum = (.error (.unwritable .numberTooLong),
            { parser with index := p + 2 * k + 1 }) ∧
          ∀ mode, parser.parse mode = (.error (.unwritable .numberTooLong),
            { parser with index := p + 2 * k + 1 }))) := by
  intro parser
  cases hread : Chain.read (tokens.drop p) with
  | ok result =>
    obtain ⟨chain, rest⟩ := result
    obtain ⟨hgreatest, hoperand⟩ := isGreatest_pairsFrom_of_read_eq_ok hread
    obtain ⟨hsplit, -⟩ := Chain.read_eq_ok hread
    have hindex : ((p + chain.tokens.length : Nat) : Int) = p + 2 * chain.more.length + 1 := by
      rw [chain.length_tokens]
      omega
    refine ⟨chain.more.length, hgreatest, fun _ => ?_, ?_⟩
    · refine ⟨chain.tree, sumOver_chain ⟨rest, hsplit.symm⟩, ?_, fun mode => ?_⟩
      · rw [sum_of_chain hread, hindex]
      · rw [parse_of_sum mode hread, hindex]
    · intro hnone
      rw [hoperand] at hnone
      exact absurd hnone (by decide)
  | error n =>
    obtain ⟨k, rfl, hgreatest, hnone⟩ := isGreatest_pairsFrom_of_read_eq_error hread
    have hsum := sum_of_missing trees errors hread
    have hparse := parse_of_missing trees errors hread
    refine ⟨k, hgreatest, ?_, fun _ => ⟨?_, ?_⟩⟩
    · intro hoperand
      rw [hnone] at hoperand
      exact absurd hoperand (by decide)
    · intro hwritable
      refine ⟨hsum.trans ?_, (hparse .strict).trans (if_pos hwritable),
        (hparse .lenient).trans (if_pos hwritable)⟩
      rw [if_pos hwritable]
    · intro hunwritable
      have hneg : ¬ tokens[p + 2 * k]?.all Token.isWritable = true := by simp [hunwritable]
      have hlt : p + 2 * k < tokens.length :=
        lt_size_of_unwritable (List.getElem?_toArray ▸ hunwritable)
      refine ⟨hsum.trans ?_, fun mode => (hparse mode).trans (if_neg hneg)⟩
      rw [if_neg hneg, if_pos hlt]

/-- A name is not always read, and a strict failure neither has to be a violation nor leaves the
parser where it was: not if a number is too long to be written. -/
theorem not_parse_restores :
    (¬ ∀ t : Token, t.type = TokenType.ident →
      ∃ tree, ((ofTokens #[t]).parse .strict).1 = .ok tree) ∧
    ¬ ∀ (p : Parser) (failure : ParseFailure), (p.parse .strict).1 = .error failure →
      (∃ e, failure = .violation e) ∨ (p.parse .strict).2 = p := by
  have hparse : ∀ type, type ≠ TokenType.int →
      (ofTokens #[.overlong type]).parse .strict =
        (.error (.unwritable .numberTooLong), ⟨#[.overlong type], 1, #[], #[]⟩) :=
    fun type h => parse_of_unwritable .strict (Token.isOperand_overlong h)
      (Token.isWritable_overlong type) []
  refine ⟨?_, ?_⟩
  · intro hall
    obtain ⟨tree, htree⟩ := hall (.overlong TokenType.ident) rfl
    rw [hparse _ (by decide)] at htree
    cases htree
  · intro hall
    have hplus := hparse TokenType.plus (by decide)
    rcases hall _ _ (congrArg Prod.fst hplus) with ⟨e, he⟩ | hsame
    · cases he
    · rw [hplus] at hsame
      exact absurd (congrArg Parser.index hsame) (by decide)

end Parser
end SumLang
