import SumLang.Proofs.Findings

/-!
# Semicolons separate

No sum reaches over a semicolon, or over the token that ends a text: neither is an operand or a
plus.  So what is found before such a token does not depend on what stands behind it, except that
a failure for want of tokens becomes a failure at that token.

## Main statements

* `findings_append`: the findings of tokens with a stop between them are those of the parts.
* `findings_shift`: the findings of the same tokens from another index are the same, moved.
-/
namespace SumLang

namespace Token

/-- Whether a token stops every statement: a semicolon, or the end of the tokens. -/
def isStop (t : Token) : Bool := t.isSemicolon || t.isEof

theorem isStop_of_isSemicolon {t : Token} (h : t.isSemicolon = true) : t.isStop = true := by
  rw [isStop, h, Bool.true_or]

theorem isStop_of_isEof {t : Token} (h : t.isEof = true) : t.isStop = true := by
  rw [isStop, h, Bool.or_true]

theorem isPlus_of_isStop {t : Token} (h : t.isStop = true) : t.isPlus = false := by
  rcases Bool.or_eq_true_iff.mp h with hsemicolon | heof
  · exact Part.excludes .semicolon .plus (by decide) hsemicolon
  · exact Part.excludes .eof .plus (by decide) heof

theorem isOperand_of_isStop {t : Token} (h : t.isStop = true) : t.isOperand = false := by
  rcases Bool.or_eq_true_iff.mp h with hsemicolon | heof
  · exact Part.excludes .semicolon .operand (by decide) hsemicolon
  · exact Part.excludes .eof .operand (by decide) heof

end Token

/-- The failure is the want of an operand at one of the tokens, of which the first has the index
`i`, or where they ran out. -/
def ParseError.WantsOperand (i : Nat) (tokens : List Token) (e : ParseError) : Prop :=
  ∃ k ≤ tokens.length, e = ⟨TokenType.operands, tokens[k]?, ((i + k : Nat) : Int)⟩ ∧
    tokens[k]?.any Token.isOperand = false

/-- Other tokens may be put in front. -/
theorem ParseError.WantsOperand.append {i : Nat} {front rest : List Token} {e : ParseError}
    (h : e.WantsOperand (i + front.length) rest) : e.WantsOperand i (front ++ rest) := by
  obtain ⟨k, hk, he, hother⟩ := h
  have hget : (front ++ rest)[front.length + k]? = rest[k]? := by
    rw [List.getElem?_append_right (Nat.le_add_right _ _), Nat.add_sub_cancel_left]
  refine ⟨front.length + k, by simpa using hk, ?_, hget ▸ hother⟩
  rw [hget, he, Nat.add_assoc]

/-- The failure as it is when `stop` stands where the tokens ran out. -/
def ParseError.stoppedBy (stop : Token) (e : ParseError) : ParseError :=
  { e with actual := e.actual.or (some stop) }

/-- The failure as it is when `d` more tokens stand in front. -/
def ParseError.shift (d : Nat) (e : ParseError) : ParseError :=
  { e with position := e.position + d }

namespace Finding

/-- The finding as it is when `stop` stands where the tokens ran out. -/
def stoppedBy (stop : Token) : Finding → Finding
  | sum start chain => sum start chain
  | fault start error => fault start (error.stoppedBy stop)

/-- The finding as it is when `d` more tokens stand in front. -/
def shift (d : Nat) : Finding → Finding
  | sum start chain => sum (start + d) chain
  | fault start error => fault (start + d) (error.shift d)

theorem trees_append (fs gs : List Finding) : trees (fs ++ gs) = trees fs ++ trees gs :=
  List.filterMap_append

theorem errors_append (fs gs : List Finding) : errors (fs ++ gs) = errors fs ++ errors gs :=
  List.filterMap_append

theorem trees_map_stoppedBy (stop : Token) (fs : List Finding) :
    trees (fs.map (stoppedBy stop)) = trees fs := by
  induction fs with
  | nil => rfl
  | cons f fs ih => cases f <;> simp [stoppedBy, ih]

theorem trees_map_shift (d : Nat) (fs : List Finding) :
    trees (fs.map (shift d)) = trees fs := by
  induction fs with
  | nil => rfl
  | cons f fs ih => cases f <;> simp [shift, ih]

theorem errors_map_shift (d : Nat) (fs : List Finding) :
    errors (fs.map (shift d)) = (errors fs).map (ParseError.shift d) := by
  induction fs with
  | nil => rfl
  | cons f fs ih => cases f <;> simp [shift, ih]

theorem firstFault_map_stoppedBy (stop : Token) (fs : List Finding) :
    firstFault (fs.map (stoppedBy stop)) =
      (firstFault fs).map fun fault => (fault.1, fault.2.stoppedBy stop) := by
  induction fs with
  | nil => rfl
  | cons f fs ih =>
    cases f with
    | sum start chain => exact ih
    | fault start error => rfl

end Finding

namespace Grammar

open Finding

/-- Findings move with the tokens. -/
theorem findings_shift (d i : Nat) (ts : List Token) :
    findings (i + d) ts = (findings i ts).map (shift d) := by
  induction i, ts using findings_induction with
  | nil i => rw [findings_nil, findings_nil, List.map_nil]
  | semicolon i t ts ht ih =>
    have hindex : i + d + 1 = i + 1 + d := by omega
    rw [findings_of_semicolon _ ht, findings_of_semicolon _ ht, hindex, ih]
  | eof i t ts ht => rw [findings_of_eof _ ht, findings_of_eof _ ht, List.map_nil]
  | sum i c rest hrest ih =>
    have hindex : i + d + c.tokens.length = i + c.tokens.length + d := by omega
    rw [findings_tokens_append _ c hrest, findings_tokens_append _ c hrest, hindex, ih]
    rfl
  | fault i t ts k hsemicolon heof hread ih =>
    have hindex : i + d + statementLength (t :: ts) = i + statementLength (t :: ts) + d := by
      omega
    have hposition : ((i + d + k : Nat) : Int) = ((i + k : Nat) : Int) + d := by omega
    rw [findings_of_fault _ hsemicolon heof hread, findings_of_fault _ hsemicolon heof hread,
      hindex, ih, hposition]
    rfl

variable {stop : Token} (behind : List Token)

/-- Putting a stop behind does not put a plus, or an operand, in front. -/
theorem head_append_stop {member : Token → Bool} (hstop : member stop = false) {ts : List Token}
    (h : ts.head?.any member = false) : (ts ++ stop :: behind).head?.any member = false := by
  cases ts with
  | nil => exact hstop
  | cons t ts => exact h

/-- A fault stays where it is when a stop is put behind. -/
theorem read_append_stop_error (hstop : stop.isStop = true) {ts : List Token} {k : Nat}
    (h : Chain.read ts = .error k) : Chain.read (ts ++ stop :: behind) = .error k := by
  have hoperand := Token.isOperand_of_isStop hstop
  rcases Chain.read_eq_error h with ⟨rfl, hhead⟩ | ⟨chain, plus, rest, rfl, hplus, rfl, hrest⟩
  · exact Chain.read_of_fault (head_append_stop behind hoperand hhead)
  · rw [List.append_assoc, List.cons_append]
    exact Chain.read_tokens_plus chain hplus (head_append_stop behind hoperand hrest)

/-- A fault is at one of the tokens, or where they ran out. -/
theorem read_error_le {ts : List Token} {k : Nat} (h : Chain.read ts = .error k) :
    k ≤ ts.length := by
  rcases Chain.read_eq_error h with ⟨rfl, -⟩ | ⟨chain, plus, rest, rfl, -, rfl, -⟩
  · exact Nat.zero_le _
  · simp only [List.length_append, List.length_cons]
    omega

/-- What stands at a fault is no operand. -/
theorem isOperand_at_read_error {ts : List Token} {k : Nat} (h : Chain.read ts = .error k) :
    ts[k]?.any Token.isOperand = false := by
  rcases Chain.read_eq_error h with ⟨rfl, hhead⟩ | ⟨chain, plus, rest, rfl, -, rfl, hrest⟩
  · rwa [← List.head?_eq_getElem?]
  · rwa [List.getElem?_append_right (Nat.le_add_right _ _), Nat.add_sub_cancel_left,
      List.getElem?_cons_succ, ← List.head?_eq_getElem?]

/-- What stands at a fault: one of the tokens, or the stop behind them. -/
theorem getElem?_append_stop (stop : Token) (behind : List Token) {ts : List Token} {k : Nat}
    (h : k ≤ ts.length) : (ts ++ stop :: behind)[k]? = ts[k]?.or (some stop) := by
  rcases Nat.lt_or_eq_of_le h with hlt | rfl
  · rw [List.getElem?_append_left hlt, List.getElem?_eq_getElem hlt]
    rfl
  · simp

/-! ### Skipping a statement -/

theorem statementLength_le (ts : List Token) : statementLength ts ≤ ts.length := by
  induction ts with
  | nil => exact Nat.le_refl 0
  | cons t ts ih =>
    rw [statementLength, List.length_cons]
    split
    · exact Nat.zero_le _
    · split <;> omega

/-- Every failure that is found is the want of an operand. -/
theorem wantsOperand_of_mem_errors {i : Nat} {ts : List Token} {e : ParseError}
    (h : e ∈ errors (findings i ts)) : e.WantsOperand i ts := by
  induction i, ts using findings_induction with
  | nil i => simp at h
  | semicolon i t ts ht ih =>
    rw [findings_of_semicolon i ht] at h
    have hfirst : e.WantsOperand (i + [t].length) ts := ih h
    exact hfirst.append
  | eof i t ts ht =>
    rw [findings_of_eof i ht] at h
    simp at h
  | sum i c rest hrest ih =>
    rw [findings_tokens_append i c hrest] at h
    exact (ih h).append
  | fault i t ts k hsemicolon heof hread ih =>
    rw [findings_of_fault i hsemicolon heof hread, errors_fault, List.mem_cons] at h
    rcases h with rfl | h
    · exact ⟨k, read_error_le hread, rfl, isOperand_at_read_error hread⟩
    · have htake : ((t :: ts).take (statementLength (t :: ts))).length =
          statementLength (t :: ts) := by
        rw [List.length_take, Nat.min_eq_left (statementLength_le _)]
      have hbehind : e.WantsOperand (i + ((t :: ts).take (statementLength (t :: ts))).length)
          ((t :: ts).drop (statementLength (t :: ts))) := by
        rw [htake]
        exact ih h
      rw [← List.take_append_drop (statementLength (t :: ts)) (t :: ts)]
      exact hbehind.append

/-- A statement ends at its semicolon, whatever stands behind. -/
theorem statementLength_append_of_semicolon {ts : List Token} (rest : List Token)
    (hts : ts.any Token.isSemicolon = true) :
    statementLength (ts ++ rest) = statementLength ts := by
  induction ts with
  | nil => simp at hts
  | cons t ts ih =>
    by_cases hsemicolon : t.isSemicolon = true
    · simp [statementLength, hsemicolon]
    · have hrest : ts.any Token.isSemicolon = true := by simpa [hsemicolon] using hts
      rw [List.cons_append, statementLength, statementLength, ih hrest]

/-- Without a semicolon, a statement goes on behind the tokens. -/
theorem statementLength_append_of_none {ts : List Token} (rest : List Token)
    (hts : ts.any Token.isSemicolon = false) (heof : ∀ t ∈ ts, t.isEof = false) :
    statementLength (ts ++ rest) = ts.length + statementLength rest := by
  induction ts with
  | nil => simp
  | cons t ts ih =>
    obtain ⟨hsemicolon, hrest⟩ : t.isSemicolon = false ∧ ts.any Token.isSemicolon = false := by
      simpa only [List.any_cons, Bool.or_eq_false_iff] using hts
    rw [List.forall_mem_cons] at heof
    rw [List.cons_append, statementLength, heof.1, hsemicolon, ih hrest heof.2, List.length_cons]
    simp only [Bool.false_eq_true, if_false]
    omega

theorem statementLength_of_none {ts : List Token} (hts : ts.any Token.isSemicolon = false)
    (heof : ∀ t ∈ ts, t.isEof = false) : statementLength ts = ts.length := by
  have happend := statementLength_append_of_none [] hts heof
  rwa [List.append_nil] at happend

/-- Nothing is found in the statement that a stop is. -/
theorem findings_statement_stop (i : Nat) (hstop : stop.isStop = true) :
    findings (i + statementLength (stop :: behind))
      ((stop :: behind).drop (statementLength (stop :: behind))) = findings i (stop :: behind) := by
  by_cases heof : stop.isEof = true
  · simp [statementLength, heof]
  · have hsemicolon : stop.isSemicolon = true := by simpa [Token.isStop, heof] using hstop
    rw [findings_of_semicolon i hsemicolon]
    simp [statementLength, heof, hsemicolon]

/-- What is found among tokens with a stop between them is what is found in front of it, the
failures for want of tokens being failures at the stop, and what is found from it on. -/
theorem findings_append (hstop : stop.isStop = true) (i : Nat) {ts : List Token}
    (heof : ∀ t ∈ ts, t.isEof = false) :
    findings i (ts ++ stop :: behind) =
      (findings i ts).map (stoppedBy stop) ++ findings (i + ts.length) (stop :: behind) := by
  induction i, ts using findings_induction with
  | nil i =>
    rw [findings_nil, List.map_nil]
    rfl
  | semicolon i t ts ht ih =>
    have hindex : i + (t :: ts).length = i + 1 + ts.length := by
      rw [List.length_cons]
      omega
    rw [List.cons_append, findings_of_semicolon _ ht, findings_of_semicolon _ ht,
      ih (List.forall_mem_cons.mp heof).2, hindex]
  | eof i t ts ht => exact absurd ht (by simp [heof t List.mem_cons_self])
  | sum i c rest hrest ih =>
    have happend := head_append_stop behind (Token.isPlus_of_isStop hstop) hrest
    rw [List.append_assoc, findings_tokens_append _ c happend, findings_tokens_append _ c hrest,
      ih (List.forall_mem_append.mp heof).2, List.length_append, Nat.add_assoc]
    rfl
  | fault i t ts k hsemicolon hend hread ih =>
    have happend := read_append_stop_error behind hstop hread
    have hactual := getElem?_append_stop stop behind (read_error_le hread)
    rw [List.cons_append] at happend hactual
    rw [List.cons_append, findings_of_fault _ hsemicolon hend happend,
      findings_of_fault _ hsemicolon hend hread, hactual, List.map_cons, List.cons_append]
    congr 1
    rw [← List.cons_append]
    have hlength := statementLength_le (t :: ts)
    -- The rest of the statement ends at a semicolon in front of the stop, or reaches up to it.
    by_cases hany : (t :: ts).any Token.isSemicolon = true
    · have hindex : i + (t :: ts).length = i + statementLength (t :: ts) +
          ((t :: ts).drop (statementLength (t :: ts))).length := by
        rw [List.length_drop]
        omega
      rw [statementLength_append_of_semicolon _ hany, List.drop_append_of_le_length hlength,
        ih fun u hu => heof u (List.mem_of_mem_drop hu), hindex]
    · have hnone : (t :: ts).any Token.isSemicolon = false := by simpa using hany
      rw [statementLength_append_of_none _ hnone heof, statementLength_of_none hnone heof,
        List.drop_length, findings_nil, List.drop_length_add_append, ← Nat.add_assoc,
        findings_statement_stop behind _ hstop]
      rfl

end Grammar

/-! ## Runs that fail for want of a wording -/

namespace Parser

open Grammar

/-- The parser has taken a token that should be an operand, but is none, and cannot be written. -/
def IsBehindUnwritable (p : Parser) : Prop :=
  ∃ (k : Nat) (t : Token), p.index = k + 1 ∧ p.tokens[k]? = some t ∧ t.isOperand = false ∧
    t.isWritable = false

/-- Only a token that cannot be written makes a failure that cannot be worded. -/
theorem isBehindUnwritable_of_firstUnwritable {tokens : Array Token} {i : Nat} {e : ParseError}
    (h : Finding.firstUnwritable (findings i (tokens.toList.drop i)) = some e)
    (trees : Array Tree) (errors : Array ParseError) :
    (Parser.mk tokens (e.position + 1) trees errors).IsBehindUnwritable := by
  obtain ⟨k, -, rfl, hother⟩ := wantsOperand_of_mem_errors (List.mem_of_find?_eq_some h)
  have hunwritable := List.find?_some h
  rw [List.getElem?_drop, Array.getElem?_toList] at hother hunwritable
  cases hget : tokens[i + k]? with
  | none => simp [ParseError.isWritable, hget] at hunwritable
  | some t =>
    refine ⟨i + k, t, rfl, hget, ?_, ?_⟩
    · simpa [hget] using hother
    · simpa [ParseError.isWritable, hget] using hunwritable

end Parser
end SumLang
