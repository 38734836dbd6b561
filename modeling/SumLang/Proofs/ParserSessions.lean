import SumLang.Proofs.Blocks
import SumLang.Proofs.Separation
import SumLang.Parser.Calls
import Mathlib.Logic.Relation

/-!
# Sessions with a parser

A caller may drive a parser in any order, and go on after a call has failed.  Whatever it calls,
short of putting the parser elsewhere, the parser makes moves of three kinds: it goes forward, it
collects the sum in front of it, or it records that an operand is missing somewhere.  So its place
never goes back and never leaves the tokens, nothing that was collected or recorded is lost, and
no token belongs to two of the sums.  A call that cannot word its failure has gone forward.

## Main statements

* `Moves.sound`, `Moves.extends`: what moves keep, and what they add.
* `Sound.perform_moves`: each call comes down to moves.
* `session_sound`: what holds after any calls, and what the next call does if it fails.
* `not_session_restores`: a strict failure does not always leave the parser where it was.
-/
namespace SumLang

/-- The failure for want of an operand at an index. -/
def ParseError.missingAt (tokens : List Token) (k : Nat) : ParseError :=
  ⟨TokenType.operands, tokens[k]?, k⟩

/-- No token was found exactly if the failure is behind all of them. -/
theorem ParseError.actual_missingAt_eq_none_iff {tokens : List Token} {k : Nat}
    (hk : k ≤ tokens.length) :
    (missingAt tokens k).actual = none ↔ (missingAt tokens k).position = tokens.length := by
  simp only [missingAt, List.getElem?_eq_none_iff]
  omega

theorem ParseError.raise_missingAt (tokens : List Token) (k : Nat) :
    (missingAt tokens k).raise =
      if tokens[k]?.all Token.isWritable then .violation (missingAt tokens k)
      else .unwritable .numberTooLong :=
  raise_eq _

/-- What a caller is told of the operand that is missing at an index: the violation, or that it
cannot be worded. -/
def Failure.missingAt (tokens : List Token) (k : Nat) : Failure :=
  if tokens[k]?.all Token.isWritable then .parse (.missingAt tokens k) else .write .numberTooLong

theorem Failure.ofParse_raise_missingAt (tokens : List Token) (k : Nat) :
    Failure.ofParse (ParseError.missingAt tokens k).raise = .missingAt tokens k := by
  rw [ParseError.raise_missingAt, Failure.missingAt, apply_ite Failure.ofParse]
  rfl

namespace Parser

open Grammar

/-- Whether a call puts the parser elsewhere, whatever it has read. -/
def Call.seeks : Call → Bool
  | seek _ => true
  | peek | get | check _ | atEnd | operand | sum | parse _ | synchronize | parseProgram _ | trees
  | errors => false

/-! ## What is kept -/

/-- A parser over `tokens` that stands at one of them or behind all.  Its trees are those of
blocks of tokens that come one behind the other, all of them behind it, and each of its failures
is the want of an operand. -/
structure Sound (tokens : List Token) (p : Parser) : Prop where
  tokens_eq : p.tokens = tokens.toArray
  index_nonneg : 0 ≤ p.index
  index_le : p.index ≤ tokens.length
  blocks : ∃ blocks : List Block, p.trees.toList = blocks.map (·.chain.tree) ∧
    (∀ b ∈ blocks, b.StandsIn tokens ∧ b.stop ≤ p.index) ∧ blocks.Pairwise (·.stop ≤ ·.start)
  errors : ∀ e ∈ p.errors.toList, ∃ k ≤ tokens.length, e = .missingAt tokens k

/-- The second parser goes on from the first: it is not before it, and has only added trees and
failures. -/
structure Extends (p q : Parser) : Prop where
  tokens_eq : q.tokens = p.tokens
  index_le : p.index ≤ q.index
  trees_prefix : p.trees.toList <+: q.trees.toList
  errors_prefix : p.errors.toList <+: q.errors.toList

theorem Extends.refl (p : Parser) : p.Extends p :=
  ⟨rfl, Int.le_refl _, List.prefix_rfl, List.prefix_rfl⟩

theorem Extends.trans {p q r : Parser} (hpq : p.Extends q) (hqr : q.Extends r) : p.Extends r where
  tokens_eq := hqr.tokens_eq.trans hpq.tokens_eq
  index_le := Int.le_trans hpq.index_le hqr.index_le
  trees_prefix := hpq.trees_prefix.trans hqr.trees_prefix
  errors_prefix := hpq.errors_prefix.trans hqr.errors_prefix

theorem sound_ofTokens (tokens : List Token) : (ofTokens tokens.toArray).Sound tokens where
  tokens_eq := rfl
  index_nonneg := Int.le_refl 0
  index_le := Int.natCast_nonneg tokens.length
  blocks := ⟨[], rfl, by simp, .nil⟩
  errors := by simp [ofTokens]

/-! ## Moves -/

/-- What a parser over `tokens` does at once. -/
inductive Move (tokens : List Token) : Parser → Parser → Prop where
  /-- It goes forward. -/
  | forward {p : Parser} {j : Int} (hle : p.index ≤ j) (hsize : j ≤ tokens.length) :
      Move tokens p { p with index := j }
  /-- It goes over a block that begins where it stands, and collects its tree. -/
  | collect {p : Parser} (b : Block) (hstart : p.index = b.start) (hstands : b.StandsIn tokens) :
      Move tokens p { p with index := b.stop, trees := p.trees.push b.chain.tree }
  /-- It records a failure. -/
  | record {p : Parser} (k : Nat) (hk : k ≤ tokens.length) :
      Move tokens p { p with errors := p.errors.push (.missingAt tokens k) }

/-- Any number of moves, one after the other. -/
abbrev Moves (tokens : List Token) : Parser → Parser → Prop :=
  Relation.ReflTransGen (Move tokens)

variable {tokens : List Token} {p q : Parser}

theorem Move.sound (hmove : Move tokens p q) (h : p.Sound tokens) : q.Sound tokens := by
  obtain ⟨blocks, htrees, hblocks, hpairwise⟩ := h.blocks
  cases hmove with
  | @forward j hle hsize =>
    have hbehind : ∀ b ∈ blocks, b.StandsIn tokens ∧ b.stop ≤ j := by
      intro b hb
      exact ⟨(hblocks b hb).1, Int.le_trans (hblocks b hb).2 hle⟩
    exact ⟨h.tokens_eq, Int.le_trans h.index_nonneg hle, hsize,
      ⟨blocks, htrees, hbehind, hpairwise⟩, h.errors⟩
  | collect b hstart hstands =>
    have hstop := hstands.stop_le_length
    have hstart_le := b.start_le_stop
    refine ⟨h.tokens_eq, Int.natCast_nonneg _, Int.ofNat_le.mpr hstop,
      ⟨blocks ++ [b], ?_, ?_, ?_⟩, h.errors⟩
    · simp [htrees]
    · intro b' hb'
      rcases List.mem_append.mp hb' with hold | hnew
      · have := (hblocks b' hold).2
        exact ⟨(hblocks b' hold).1, by dsimp only; omega⟩
      · obtain rfl := List.mem_singleton.mp hnew
        exact ⟨hstands, Int.le_refl _⟩
    · rw [List.pairwise_append]
      refine ⟨hpairwise, List.pairwise_singleton _ _, ?_⟩
      intro b' hold b'' hnew
      obtain rfl := List.mem_singleton.mp hnew
      have := (hblocks b' hold).2
      omega
  | record k hk =>
    refine ⟨h.tokens_eq, h.index_nonneg, h.index_le, h.blocks, ?_⟩
    intro e he
    rw [Array.toList_push] at he
    rcases List.mem_append.mp he with hold | hnew
    · exact h.errors e hold
    · exact ⟨k, hk, List.mem_singleton.mp hnew⟩

theorem Move.extends (hmove : Move tokens p q) : p.Extends q := by
  cases hmove with
  | forward hle hsize => exact ⟨rfl, hle, List.prefix_rfl, List.prefix_rfl⟩
  | collect b hstart hstands =>
    have hle : p.index ≤ b.stop := by
      rw [hstart]
      exact Int.ofNat_le.mpr b.start_le_stop
    exact ⟨rfl, hle, by simp, List.prefix_rfl⟩
  | record k hk => exact ⟨rfl, Int.le_refl _, List.prefix_rfl, by simp⟩

theorem Moves.sound (hmoves : Moves tokens p q) (h : p.Sound tokens) : q.Sound tokens := by
  induction hmoves with
  | refl => exact h
  | tail hmoves hmove ih => exact hmove.sound ih

theorem Moves.extends (hmoves : Moves tokens p q) : p.Extends q := by
  induction hmoves with
  | refl => exact .refl p
  | tail hmoves hmove ih => exact ih.trans hmove.extends

/-! ## Calls as moves -/

/-- The parser behind the token at an index, or behind all tokens if there is none. -/
def stoppedAt (tokens : List Token) (p : Parser) (k : Nat) : Parser :=
  { p with index := ((min (k + 1) tokens.length : Nat) : Int) }

/-- Behind a fault the token there has been read, if there is one. -/
theorem faultAt_eq {k : Nat} (hk : k ≤ tokens.length) :
    faultAt tokens.toArray k =
      (.error (ParseError.missingAt tokens k).raise,
        ((min (k + 1) tokens.length : Nat) : Int)) := by
  have hindex : (if k < tokens.toArray.size then k + 1 else k) = min (k + 1) tokens.length := by
    rw [List.size_toArray]
    split <;> omega
  rw [faultAt, hindex, List.getElem?_toArray]
  rfl

/-- An operand is read, or it is missing where the parser stands. -/
theorem Sound.operand_cases (h : p.Sound tokens) :
    (∃ leaf, p.operand = (.ok leaf, { p with index := p.index + 1 }) ∧
        p.index + 1 ≤ tokens.length) ∨
      p.operand = (.error (ParseError.missingAt tokens p.index.toNat).raise,
        stoppedAt tokens p p.index.toNat) := by
  obtain ⟨ts, index, trees, errors⟩ := p
  obtain rfl : ts = tokens.toArray := h.tokens_eq
  obtain ⟨i, rfl⟩ : ∃ i : Nat, index = i := Int.eq_ofNat_of_zero_le h.index_nonneg
  have hle : i ≤ tokens.length := Int.ofNat_le.mp h.index_le
  rcases Chain.fault_or_operand (tokens.drop i) with hfault | ⟨t, rest, hts, hoperand⟩
  · right
    simp only [operand, operandAt_of_fault hfault, faultAt_eq hle]
    rfl
  · left
    have hlt : i < tokens.length := by
      by_contra hge
      rw [List.drop_of_length_le (by omega)] at hts
      simp at hts
    refine ⟨t.leaf, ?_, by dsimp only; omega⟩
    simp only [operand, operandAt_of_isOperand hts hoperand]
    rfl

/-- A sum is read, or an operand of it is missing. -/
theorem Sound.sum_cases (h : p.Sound tokens) :
    (∃ b : Block, p.index = b.start ∧ b.StandsIn tokens ∧
        p.sum = (.ok b.chain.tree, { p with index := b.stop })) ∨
      ∃ k : Nat, p.index ≤ k ∧ k ≤ tokens.length ∧
        p.sum = (.error (ParseError.missingAt tokens k).raise, stoppedAt tokens p k) := by
  obtain ⟨ts, index, trees, errors⟩ := p
  obtain rfl : ts = tokens.toArray := h.tokens_eq
  obtain ⟨i, rfl⟩ : ∃ i : Nat, index = i := Int.eq_ofNat_of_zero_le h.index_nonneg
  have hle : i ≤ tokens.length := Int.ofNat_le.mp h.index_le
  have hsum := sumAt_eq tokens.toArray i
  cases hread : Chain.read (tokens.drop i) with
  | ok result =>
    obtain ⟨c, rest⟩ := result
    left
    rw [hread] at hsum
    refine ⟨⟨i, c⟩, rfl, ?_, ?_⟩
    · rw [Block.StandsIn, (Chain.read_eq_ok hread).1]
      exact List.prefix_append _ _
    · simp only [sum, hsum]
      rfl
  | error n =>
    right
    have hn := read_error_le hread
    rw [List.length_drop] at hn
    have hk : i + n ≤ tokens.length := by omega
    rw [hread] at hsum
    refine ⟨i + n, by dsimp only; omega, hk, ?_⟩
    simp only [sum, hsum, faultAt_eq hk]
    rfl

/-- A sum is read and collected, or it fails; then nothing is changed but for the record, unless the
failure cannot be worded. -/
theorem Sound.parse_cases (h : p.Sound tokens) :
    (∃ b : Block, p.index = b.start ∧ b.StandsIn tokens ∧
        ∀ mode, p.parse mode = (.ok (some b.chain.tree),
          { p with index := b.stop, trees := p.trees.push b.chain.tree })) ∨
      ∃ k : Nat, p.index ≤ k ∧ k ≤ tokens.length ∧
        (tokens[k]?.all Token.isWritable = true ∧
            p.parse .strict = (.error (.violation (.missingAt tokens k)), p) ∧
            p.parse .lenient =
              (.ok none, { p with errors := p.errors.push (.missingAt tokens k) }) ∨
          tokens[k]?.all Token.isWritable = false ∧
            ∀ mode, p.parse mode =
              (.error (.unwritable .numberTooLong), stoppedAt tokens p k)) := by
  rcases h.sum_cases with ⟨b, hstart, hstands, hsum⟩ | ⟨k, hindex, hk, hsum⟩
  · exact .inl ⟨b, hstart, hstands, fun mode => by simp only [parse, hsum]⟩
  · refine .inr ⟨k, hindex, hk, ?_⟩
    rw [ParseError.raise_missingAt] at hsum
    cases hwritable : tokens[k]?.all Token.isWritable with
    | true =>
      rw [hwritable, if_pos rfl] at hsum
      exact .inl ⟨rfl, by simp only [parse, hsum], by simp only [parse, hsum]⟩
    | false =>
      rw [hwritable, if_neg (by decide)] at hsum
      exact .inr ⟨rfl, fun mode => by simp only [parse, hsum]⟩

/-- Going forward is a move. -/
theorem moves_forward {j : Int} (hle : p.index ≤ j) (hsize : j ≤ tokens.length) :
    Moves tokens p { p with index := j } :=
  .single (.forward hle hsize)

theorem moves_stoppedAt {k : Nat} (hle : p.index ≤ k) (hk : k ≤ tokens.length) :
    Moves tokens p (stoppedAt tokens p k) :=
  moves_forward (by omega) (by omega)

theorem Sound.moves_get (h : p.Sound tokens) : Moves tokens p p.get.2 := by
  unfold get
  split
  · next t ht =>
    have hlt := lt_size_of_signedGet? ht
    rw [h.tokens_eq, List.size_toArray] at hlt
    exact moves_forward (by omega) (by omega)
  · exact .refl

theorem Sound.moves_operand (h : p.Sound tokens) : Moves tokens p p.operand.2 := by
  have hnonneg := h.index_nonneg
  have hle := h.index_le
  rcases h.operand_cases with ⟨leaf, hoperand, hsize⟩ | hoperand
  · rw [hoperand]
    exact moves_forward (by omega) hsize
  · rw [hoperand]
    exact moves_stoppedAt (by omega) (by omega)

theorem Sound.moves_sum (h : p.Sound tokens) : Moves tokens p p.sum.2 := by
  rcases h.sum_cases with ⟨b, hstart, hstands, hsum⟩ | ⟨k, hindex, hk, hsum⟩
  · rw [hsum]
    have hle := b.start_le_stop
    exact moves_forward (by omega) (Int.ofNat_le.mpr hstands.stop_le_length)
  · rw [hsum]
    exact moves_stoppedAt hindex hk

theorem Sound.moves_parse (h : p.Sound tokens) (mode : Mode) :
    Moves tokens p (p.parse mode).2 := by
  rcases h.parse_cases with ⟨b, hstart, hstands, hparse⟩ |
    ⟨k, hindex, hk, ⟨-, hstrict, hlenient⟩ | ⟨-, hparse⟩⟩
  · rw [hparse mode]
    exact .single (.collect b hstart hstands)
  · cases mode with
    | strict => rw [hstrict]
    | lenient =>
      rw [hlenient]
      exact .single (.record k hk)
  · rw [hparse mode]
    exact moves_stoppedAt hindex hk

theorem Sound.index_le_size (h : p.Sound tokens) : p.index ≤ p.tokens.size := by
  rw [h.tokens_eq]
  exact h.index_le

theorem Sound.moves_skipSemicolons (h : p.Sound tokens) : Moves tokens p p.skipSemicolons := by
  have hle := skipSemicolons_le_size h.index_le_size
  rw [h.tokens_eq, List.size_toArray] at hle
  exact moves_forward (le_skipSemicolons _ _) (h.tokens_eq ▸ hle)

theorem Sound.moves_synchronize (h : p.Sound tokens) : Moves tokens p p.synchronize := by
  have hle := nextStatement_le_size h.index_le_size
  rw [h.tokens_eq, List.size_toArray] at hle
  exact moves_forward (le_nextStatement _ _) (h.tokens_eq ▸ hle)

/-- The moves of a run are those of its rounds. -/
theorem Sound.moves_parseProgram (h : p.Sound tokens) (mode : Mode) :
    Moves tokens p (p.parseProgram mode).2 := by
  have hskip := fun {p : Parser} (h : p.Sound tokens) => h.moves_skipSemicolons
  fun_induction parseProgram mode p with
  | case1 p hend => exact hskip h
  | case2 p hend e q hparse =>
    have hround := ((hskip h).sound h).moves_parse mode
    rw [hparse] at hround
    exact (hskip h).trans hround
  | case3 p hend t q hparse ih =>
    have hround := ((hskip h).sound h).moves_parse mode
    rw [hparse] at hround
    have hmoves := (hskip h).trans hround
    exact hmoves.trans (ih (Moves.sound hmoves h))
  | case4 p hend q hparse ih =>
    have hround := ((hskip h).sound h).moves_parse mode
    rw [hparse] at hround
    have hmoves := (hskip h).trans hround
    have hsync := (Moves.sound hmoves h).moves_synchronize
    exact (hmoves.trans hsync).trans (ih (Moves.sound (hmoves.trans hsync) h))

/-! ## Sessions -/

/-- A parser that stands at a token or behind all is in reach of its tokens. -/
theorem Sound.perform_eq (h : p.Sound tokens) (call : Call) :
    perform call p = ((p.answer call).1.mapError .ofParse, (p.answer call).2) := by
  have hreach : p.inReach = true := by
    have := h.index_nonneg
    simp only [inReach, decide_eq_true_eq]
    omega
  simp only [perform, hreach, Bool.not_true, Bool.and_false, Bool.false_eq_true, if_false]

/-- Every call but a seek comes down to moves. -/
theorem Sound.perform_moves (h : p.Sound tokens) {call : Call} (hcall : call.seeks = false) :
    Moves tokens p (perform call p).2 := by
  rw [h.perform_eq]
  cases call with
  | peek | check | atEnd | trees | errors => exact .refl
  | get => exact h.moves_get
  | operand => exact h.moves_operand
  | sum => exact h.moves_sum
  | parse mode => exact h.moves_parse mode
  | synchronize => exact h.moves_synchronize
  | parseProgram mode => exact h.moves_parseProgram mode
  | seek index => simp [Call.seeks] at hcall

/-! ### Calls that fail -/

variable {e : Failure} {reply : Except Failure Reply}

theorem Sound.strict_failure (h : p.Sound tokens)
    (hcall : perform (.parse .strict) p = (.error e, q)) :
    ∃ k : Nat, p.index ≤ k ∧ k ≤ tokens.length ∧
      (tokens[k]?.all Token.isWritable = true ∧ e = .parse (.missingAt tokens k) ∧ q = p ∨
        tokens[k]?.all Token.isWritable = false ∧ e = .write .numberTooLong ∧
          q = stoppedAt tokens p k) := by
  rw [h.perform_eq] at hcall
  rcases h.parse_cases with ⟨b, -, -, hparse⟩ |
    ⟨k, hindex, hk, ⟨hwritable, hparse, -⟩ | ⟨hunwritable, hparse⟩⟩
  · simp [answer, hparse, Except.map, Except.mapError] at hcall
  · simp only [answer, hparse, Except.map, Except.mapError, Prod.mk.injEq,
      Except.error.injEq] at hcall
    exact ⟨k, hindex, hk, .inl ⟨hwritable, hcall.1.symm, hcall.2.symm⟩⟩
  · simp only [answer, hparse, Except.map, Except.mapError, Prod.mk.injEq,
      Except.error.injEq] at hcall
    exact ⟨k, hindex, hk, .inr ⟨hunwritable, hcall.1.symm, hcall.2.symm⟩⟩

theorem Sound.lenient_reply (h : p.Sound tokens)
    (hcall : perform (.parse .lenient) p = (reply, q)) :
    (∃ t, reply = .ok (.tree (some t))) ∨
      ∃ k : Nat, p.index ≤ k ∧ k ≤ tokens.length ∧
        (tokens[k]?.all Token.isWritable = true ∧ reply = .ok (.tree none) ∧
            q = { p with errors := p.errors.push (.missingAt tokens k) } ∨
          tokens[k]?.all Token.isWritable = false ∧ reply = .error (.write .numberTooLong) ∧
            q = stoppedAt tokens p k) := by
  rw [h.perform_eq] at hcall
  rcases h.parse_cases with ⟨b, -, -, hparse⟩ |
    ⟨k, hindex, hk, ⟨hwritable, -, hparse⟩ | ⟨hunwritable, hparse⟩⟩
  · simp only [answer, hparse, Except.map, Except.mapError, Prod.mk.injEq] at hcall
    exact .inl ⟨b.chain.tree, hcall.1.symm⟩
  · simp only [answer, hparse, Except.map, Except.mapError, Prod.mk.injEq] at hcall
    exact .inr ⟨k, hindex, hk, .inl ⟨hwritable, hcall.1.symm, hcall.2.symm⟩⟩
  · simp only [answer, hparse, Except.map, Except.mapError, Prod.mk.injEq] at hcall
    exact .inr ⟨k, hindex, hk, .inr ⟨hunwritable, hcall.1.symm, hcall.2.symm⟩⟩

theorem Sound.operand_failure (h : p.Sound tokens)
    (hcall : perform .operand p = (.error e, q)) :
    e = .missingAt tokens p.index.toNat ∧ q = stoppedAt tokens p p.index.toNat := by
  rw [h.perform_eq] at hcall
  rcases h.operand_cases with ⟨leaf, hoperand, -⟩ | hoperand
  · simp [answer, hoperand, Except.map, Except.mapError] at hcall
  · simp only [answer, hoperand, Except.map, Except.mapError, Prod.mk.injEq,
      Except.error.injEq, Failure.ofParse_raise_missingAt] at hcall
    exact ⟨hcall.1.symm, hcall.2.symm⟩

theorem Sound.sum_failure (h : p.Sound tokens) (hcall : perform .sum p = (.error e, q)) :
    ∃ k : Nat, p.index ≤ k ∧ k ≤ tokens.length ∧ e = .missingAt tokens k ∧
      q = stoppedAt tokens p k := by
  rw [h.perform_eq] at hcall
  rcases h.sum_cases with ⟨b, -, -, hsum⟩ | ⟨k, hindex, hk, hsum⟩
  · simp [answer, hsum, Except.map, Except.mapError] at hcall
  · simp only [answer, hsum, Except.map, Except.mapError, Prod.mk.injEq,
      Except.error.injEq, Failure.ofParse_raise_missingAt] at hcall
    exact ⟨k, hindex, hk, hcall.1.symm, hcall.2.symm⟩

/-! ### All calls -/

/-- Whatever has been called on a fresh parser, short of a seek, it is sound, and each further call
goes on from where it is.  A sum that cannot be read is no move in strict parsing, and in lenient
parsing one failure more on record, if the token at fault can be written; else parsing fails in both
modes, and has only gone forward behind that token.  So has a reader of an operand or of a sum that
fails, in any case. -/
theorem session_sound (tokens : List Token) (calls : List Call)
    (h : ∀ call ∈ calls, call.seeks = false) :
    let p := stateAfter perform calls (ofTokens tokens.toArray)
    p.Sound tokens ∧
    (∀ e ∈ p.errors.toList, e.actual = none ↔ e.position = tokens.length) ∧
    (∀ call, call.seeks = false → p.Extends (perform call p).2) ∧
    (∀ e q, perform (.parse .strict) p = (.error e, q) →
      ∃ k : Nat, p.index ≤ k ∧ k ≤ tokens.length ∧
        (tokens[k]?.all Token.isWritable = true ∧ e = .parse (.missingAt tokens k) ∧ q = p ∨
          tokens[k]?.all Token.isWritable = false ∧ e = .write .numberTooLong ∧
            q = stoppedAt tokens p k)) ∧
    (∀ reply q, perform (.parse .lenient) p = (reply, q) →
      (∃ t, reply = .ok (.tree (some t))) ∨
      ∃ k : Nat, p.index ≤ k ∧ k ≤ tokens.length ∧
        (tokens[k]?.all Token.isWritable = true ∧ reply = .ok (.tree none) ∧
            q = { p with errors := p.errors.push (.missingAt tokens k) } ∨
          tokens[k]?.all Token.isWritable = false ∧ reply = .error (.write .numberTooLong) ∧
            q = stoppedAt tokens p k)) ∧
    (∀ e q, perform .operand p = (.error e, q) →
      e = .missingAt tokens p.index.toNat ∧ q = stoppedAt tokens p p.index.toNat) ∧
    (∀ e q, perform .sum p = (.error e, q) →
      ∃ k : Nat, p.index ≤ k ∧ k ≤ tokens.length ∧ e = .missingAt tokens k ∧
        q = stoppedAt tokens p k) := by
  intro p
  have hsound : p.Sound tokens := by
    apply stateAfter_induction ?_ (sound_ofTokens tokens)
    intro call hcall state hstate
    exact Moves.sound (hstate.perform_moves (h call hcall)) hstate
  refine ⟨hsound, ?_, ?_, fun _ _ => hsound.strict_failure, fun _ _ => hsound.lenient_reply,
    fun _ _ => hsound.operand_failure, fun _ _ => hsound.sum_failure⟩
  · intro e he
    obtain ⟨k, hk, rfl⟩ := hsound.errors e he
    exact ParseError.actual_missingAt_eq_none_iff hk
  · intro call hcall
    exact Moves.extends (hsound.perform_moves hcall)

/-- In `9 1 + ; x +` the number is collected, the sum behind it fails and leaves the parser behind
the semicolon, and the last sum is recorded for want of a token. -/
theorem session_sound_unfinished_sums :
    let tokens : List Token :=
      [⟨TokenType.int, .int 9, ⟨1, 1⟩⟩, ⟨TokenType.int, .int 1, ⟨1, 3⟩⟩,
        ⟨TokenType.plus, .text "+", ⟨1, 5⟩⟩, ⟨TokenType.semicolon, .text ";", ⟨1, 7⟩⟩,
        ⟨TokenType.ident, .text "x", ⟨1, 9⟩⟩, ⟨TokenType.plus, .text "+", ⟨1, 11⟩⟩]
    let calls : List Call := [.parse .strict, .sum, .parse .lenient]
    let p := stateAfter perform calls (ofTokens tokens.toArray)
    (∀ call ∈ calls, call.seeks = false) ∧ p.Sound tokens ∧
      p.Extends (perform (.parseProgram .lenient) p).2 ∧ p.index = 4 ∧ p.trees.size = 1 ∧
      p.errors = #[.missingAt tokens 6] := by
  intro tokens calls p
  have hcalls : ∀ call ∈ calls, call.seeks = false := by decide
  obtain ⟨hsound, -, hextends, -⟩ := session_sound tokens calls hcalls
  exact ⟨hcalls, hsound, hextends _ rfl, by decide +kernel, by decide +kernel, by decide +kernel⟩

/-- A strict failure does not always leave the parser where it was: a plus whose value is a number
that is too long is lost. -/
theorem not_session_restores :
    ¬ ∀ (tokens : List Token) (e : Failure) (q : Parser),
      perform (.parse .strict) (ofTokens tokens.toArray) = (.error e, q) →
      q = ofTokens tokens.toArray := by
  intro hall
  have hparse := parse_of_unwritable .strict (Token.isOperand_overlong (by decide))
    (Token.isWritable_overlong TokenType.plus) []
  have hcall := (sound_ofTokens [.overlong TokenType.plus]).perform_eq (.parse .strict)
  simp only [answer, hparse, Except.map, Except.mapError] at hcall
  exact absurd (congrArg Parser.index (hall _ _ _ hcall)) (by decide)

end Parser
end SumLang
