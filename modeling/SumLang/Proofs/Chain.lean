import SumLang.Grammar

/-!
# Chains of additions

The tokens of a sum form a chain: an operand, and then pairs of a plus and an operand.  A chain
carries the proofs that its tokens are what they should be, and has a tree.  `Chain.read` reads
one from the front of a list; where there is none it answers with the number of tokens before
the one at fault.

## Main statements

* `Chain.read_eq_ok`, `Chain.read_tokens_append`: a chain is read from a list exactly if the
  list begins with its tokens and no plus follows.
* `Chain.read_eq_error`, `Chain.read_tokens_plus`: a fault is a token that is no operand, at
  the front or behind a chain and a plus.
-/
namespace SumLang

namespace Token

/-- Whether a token is a plus. -/
def isPlus (t : Token) : Bool := t.type == TokenType.plus

/-- Whether a token is a semicolon. -/
def isSemicolon (t : Token) : Bool := t.type == TokenType.semicolon

/-- Whether a token is a name that can be written, or a number whose value counts as one. -/
def isOperand (t : Token) : Bool :=
  t.type == TokenType.ident && t.value.isWritable ||
    t.type == TokenType.int && t.value.number?.isSome

/-- The leaf that a token stands for as an operand: a name with the text of its value, or a number
with the value itself. -/
def leaf (t : Token) : Tree :=
  if t.type = TokenType.ident then .identifier (.text t.value.plain) t.pos
  else .integer t.value t.pos

theorem isOperand_of_int {t : Token} (h : t.type = TokenType.int) :
    t.isOperand = t.value.number?.isSome := by
  obtain ⟨type, value, pos⟩ := t
  obtain rfl : type = TokenType.int := h
  rfl

theorem isOperand_of_ident {t : Token} (h : t.type = TokenType.ident) :
    t.isOperand = t.value.isWritable := by
  obtain ⟨type, value, pos⟩ := t
  obtain rfl : type = TokenType.ident := h
  exact Bool.or_false _

theorem isOperand_of_other {t : Token} (hint : t.type ≠ TokenType.int)
    (hident : t.type ≠ TokenType.ident) : t.isOperand = false := by
  simp [isOperand, hint, hident]

/-- An operand is taken for its leaf. -/
theorem operand?_of_isOperand {t : Token} (h : t.isOperand = true) :
    t.operand? = .ok (some t.leaf) := by
  by_cases hint : t.type = TokenType.int
  · have hident : t.type ≠ TokenType.ident := fun heq => absurd (hint.symm.trans heq) (by decide)
    rw [isOperand_of_int hint] at h
    rw [operand?, if_pos hint, leaf, if_neg hident]
    cases hvalue : t.value <;> simp [hvalue, Scalar.number?] at h ⊢ <;> rfl
  · by_cases hident : t.type = TokenType.ident
    · rw [isOperand_of_ident hident] at h
      rw [operand?, if_neg hint, if_pos hident, leaf, if_pos hident, Scalar.written, h]
      rfl
    · simp [isOperand_of_other hint hident] at h

/-- Any other token is taken for nothing, unless it is a name that cannot be written. -/
theorem operand?_of_not_isOperand {t : Token} (h : t.isOperand = false) :
    t.operand? = if t.type = TokenType.ident then .error .numberTooLong else .ok none := by
  by_cases hint : t.type = TokenType.int
  · have hident : t.type ≠ TokenType.ident := fun heq => absurd (hint.symm.trans heq) (by decide)
    rw [isOperand_of_int hint] at h
    rw [operand?, if_pos hint, if_neg hident]
    cases hvalue : t.value <;> simp [hvalue, Scalar.number?] at h ⊢ <;> rfl
  · by_cases hident : t.type = TokenType.ident
    · rw [isOperand_of_ident hident] at h
      rw [operand?, if_neg hint, if_pos hident, if_pos hident, Scalar.written, h]
      rfl
    · rw [operand?, if_neg hint, if_neg hident, if_neg hident]
      rfl

/-- A token whose value is a number that is too long to be written. -/
def overlong (type : TokenType) : Token := ⟨type, .int Text.leastUnwritable, .start⟩

theorem isWritable_overlong (type : TokenType) : (overlong type).isWritable = false :=
  isWritable_of_value Text.isWritable_leastUnwritable

theorem isOperand_overlong {type : TokenType} (h : type ≠ TokenType.int) :
    (overlong type).isOperand = false := by
  by_cases hident : type = TokenType.ident
  · rw [isOperand_of_ident hident]
    exact Text.isWritable_leastUnwritable
  · exact isOperand_of_other h hident

/-! ### No token is two of these -/

/-- What a token may be to a program. -/
inductive Part where
  | operand
  | plus
  | semicolon
  | eof
deriving DecidableEq

namespace Part

/-- Whether a token plays a part. -/
def isPlayedBy : Part → Token → Bool
  | operand => isOperand
  | plus => isPlus
  | semicolon => isSemicolon
  | eof => isEof

/-- The types of the tokens that may play a part. -/
def types : Part → List TokenType
  | operand => TokenType.operands
  | plus => [TokenType.plus]
  | semicolon => [TokenType.semicolon]
  | eof => [TokenType.eof]

theorem type_mem_types {part : Part} {t : Token} (h : part.isPlayedBy t = true) :
    t.type ∈ part.types := by
  cases part with
  | operand =>
    by_cases hint : t.type = TokenType.int
    · simp [types, TokenType.operands, hint]
    · by_cases hident : t.type = TokenType.ident
      · simp [types, TokenType.operands, hident]
      · simp [isPlayedBy, isOperand_of_other hint hident] at h
  | plus => simpa [types, isPlayedBy, isPlus] using h
  | semicolon => simpa [types, isPlayedBy, isSemicolon] using h
  | eof => simpa [types, isPlayedBy, isEof] using h

/-- Tokens that play different parts have different types. -/
theorem excludes (part other : Part) (hne : part ≠ other) {t : Token}
    (h : part.isPlayedBy t = true) : other.isPlayedBy t = false := by
  have hdisjoint : ∀ type ∈ part.types, type ∉ other.types := by
    revert hne
    cases part <;> cases other <;> decide
  cases hother : other.isPlayedBy t with
  | false => rfl
  | true => exact absurd (type_mem_types hother) (hdisjoint _ (type_mem_types h))

end Part

end Token

/-! ## Chains -/

/-- A token that is an operand. -/
structure Operand where
  token : Token
  isOperand : token.isOperand = true

/-- The leaf of an operand. -/
def Operand.leaf (a : Operand) : Tree := a.token.leaf

/-- A plus and the operand behind it. -/
structure Addition where
  plus : Token
  operand : Operand
  isPlus : plus.isPlus = true

/-- The tokens of a sum: an operand, and any number of additions. -/
structure Chain where
  first : Operand
  more : List Addition

namespace Addition

/-- The two tokens of an addition. -/
def tokens (a : Addition) : List Token := [a.plus, a.operand.token]

/-- The tokens of additions one behind the other. -/
def allTokens (more : List Addition) : List Token := more.flatMap tokens

@[simp] theorem allTokens_nil : allTokens [] = [] := rfl

@[simp] theorem allTokens_cons (a : Addition) (more : List Addition) :
    allTokens (a :: more) = a.plus :: a.operand.token :: allTokens more := rfl

@[simp] theorem allTokens_append (more more' : List Addition) :
    allTokens (more ++ more') = allTokens more ++ allTokens more' := by
  simp [allTokens]

@[simp] theorem length_allTokens (more : List Addition) :
    (allTokens more).length = 2 * more.length := by
  induction more with
  | nil => rfl
  | cons a more ih =>
    simp only [allTokens_cons, List.length_cons, ih]
    omega

/-- The tree to which additions enlarge the one on their left. -/
def enlarge (left : Tree) (more : List Addition) : Tree :=
  more.foldl (fun left a => .add left a.operand.leaf a.plus.pos) left

@[simp] theorem enlarge_nil (left : Tree) : enlarge left [] = left := rfl

@[simp] theorem enlarge_cons (left : Tree) (a : Addition) (more : List Addition) :
    enlarge left (a :: more) = enlarge (.add left a.operand.leaf a.plus.pos) more := rfl

end Addition

namespace Chain

/-- The tokens of a chain. -/
def tokens (c : Chain) : List Token := c.first.token :: Addition.allTokens c.more

/-- The tree of a chain leans to the left. -/
def tree (c : Chain) : Tree := Addition.enlarge c.first.leaf c.more

@[simp] theorem length_tokens (c : Chain) : c.tokens.length = 2 * c.more.length + 1 := by
  simp [tokens]

/-- The chain of a single operand. -/
def single (a : Operand) : Chain := ⟨a, []⟩

@[simp] theorem tokens_single (a : Operand) : (single a).tokens = [a.token] := rfl

/-- The chain with one more addition. -/
def extend (c : Chain) (a : Addition) : Chain := ⟨c.first, c.more ++ [a]⟩

@[simp] theorem tokens_extend (c : Chain) (a : Addition) :
    (c.extend a).tokens = c.tokens ++ a.tokens := by
  simp [extend, tokens, Addition.tokens]

@[simp] theorem tree_extend (c : Chain) (a : Addition) :
    (c.extend a).tree = .add c.tree a.operand.leaf a.plus.pos := by
  rw [tree, extend, Addition.enlarge, List.foldl_append]
  rfl

/-- The tokens of a chain are operands and plus signs. -/
theorem isOperand_or_isPlus (c : Chain) {t : Token} (h : t ∈ c.tokens) :
    t.isOperand = true ∨ t.isPlus = true := by
  rcases List.mem_cons.mp h with rfl | h
  · exact .inl c.first.isOperand
  · obtain ⟨a, -, ha⟩ := List.mem_flatMap.mp h
    rcases List.mem_cons.mp ha with rfl | ha
    · exact .inr a.isPlus
    · obtain rfl := List.mem_singleton.mp ha
      exact .inl a.operand.isOperand

theorem isEof_of_mem (c : Chain) {t : Token} (h : t ∈ c.tokens) : t.isEof = false :=
  (c.isOperand_or_isPlus h).elim (Token.Part.excludes .operand .eof (by decide))
    (Token.Part.excludes .plus .eof (by decide))

theorem isSemicolon_of_mem (c : Chain) {t : Token} (h : t ∈ c.tokens) : t.isSemicolon = false :=
  (c.isOperand_or_isPlus h).elim (Token.Part.excludes .operand .semicolon (by decide))
    (Token.Part.excludes .plus .semicolon (by decide))

theorem isEof_first (c : Chain) : c.first.token.isEof = false := c.isEof_of_mem List.mem_cons_self

theorem isSemicolon_first (c : Chain) : c.first.token.isSemicolon = false :=
  c.isSemicolon_of_mem List.mem_cons_self

end Chain

/-! ## Reading a list -/

/-- The additions at the front of a list, as many as there are, and the tokens behind them. -/
def additions : List Token → List Addition × List Token
  | op :: t :: ts =>
    if h : op.isPlus = true ∧ t.isOperand = true then
      (⟨op, ⟨t, h.2⟩, h.1⟩ :: (additions ts).1, (additions ts).2)
    else ([], op :: t :: ts)
  | [t] => ([], [t])
  | [] => ([], [])

/-- Additions are taken from the front. -/
theorem additions_append (ts : List Token) :
    Addition.allTokens (additions ts).1 ++ (additions ts).2 = ts := by
  fun_induction additions ts with
  | case1 op t ts h ih => simp [ih]
  | case2 | case3 | case4 => rfl

/-- What is left does not begin with an addition. -/
theorem additions_stop (ts : List Token) {op t : Token} {rest : List Token}
    (hrest : (additions ts).2 = op :: t :: rest) (hplus : op.isPlus = true) :
    t.isOperand = false := by
  fun_induction additions ts with
  | case1 op' t' ts h ih => exact ih hrest
  | case2 op' t' ts h =>
    obtain ⟨rfl, rfl, -⟩ : op' = op ∧ t' = t ∧ ts = rest := by simpa using hrest
    simpa [hplus] using h
  | case3 | case4 => simp at hrest

/-- There are no additions where no plus stands in front. -/
theorem additions_of_other {ts : List Token} (h : ts.head?.any Token.isPlus = false) :
    additions ts = ([], ts) := by
  match ts with
  | [] | [_] => rfl
  | op :: t :: ts =>
    have hplus : op.isPlus = false := by simpa using h
    rw [additions, dif_neg (by simp [hplus])]

/-- There are none either where the first token is followed by something other than an
operand. -/
theorem additions_of_fault (op : Token) {ts : List Token}
    (h : ts.head?.any Token.isOperand = false) : additions (op :: ts) = ([], op :: ts) := by
  match ts with
  | [] => rfl
  | t :: ts =>
    have hother : t.isOperand = false := by simpa using h
    rw [additions, dif_neg (by simp [hother])]

/-- All additions in front of something that is none are found. -/
theorem additions_allTokens_append (more : List Addition) {rest : List Token}
    (hrest : additions rest = ([], rest)) :
    additions (Addition.allTokens more ++ rest) = (more, rest) := by
  induction more with
  | nil => rw [Addition.allTokens_nil, List.nil_append, hrest]
  | cons a more ih =>
    rw [Addition.allTokens_cons, List.cons_append, List.cons_append, additions,
      dif_pos ⟨a.isPlus, a.operand.isOperand⟩, ih]

namespace Chain

/-- Reads a chain from the front of a list.  Where it cannot go on, the answer is the number of
tokens before the one at fault. -/
def read : List Token → Except Nat (Chain × List Token)
  | [] => .error 0
  | t :: ts =>
    if h : t.isOperand = true then
      if (additions ts).2.head?.any Token.isPlus then .error (2 * (additions ts).1.length + 2)
      else .ok (⟨⟨t, h⟩, (additions ts).1⟩, (additions ts).2)
    else .error 0

/-- A list begins with an operand or has a fault at its front. -/
theorem fault_or_operand (ts : List Token) :
    ts.head?.any Token.isOperand = false ∨ ∃ t rest, ts = t :: rest ∧ t.isOperand = true := by
  cases ts with
  | nil => exact .inl rfl
  | cons t rest =>
    cases h : t.isOperand with
    | false => exact .inl h
    | true => exact .inr ⟨t, rest, rfl, h⟩

theorem read_of_fault {ts : List Token} (h : ts.head?.any Token.isOperand = false) :
    read ts = .error 0 := by
  cases ts with
  | nil => rfl
  | cons t ts =>
    have hother : t.isOperand = false := h
    rw [read, dif_neg (by simp [hother])]

theorem read_cons_of_fault {t : Token} (h : t.isOperand = false) (ts : List Token) :
    read (t :: ts) = .error 0 :=
  read_of_fault h

theorem read_of_operand {t : Token} (h : t.isOperand = true) (ts : List Token) :
    read (t :: ts) =
      if (additions ts).2.head?.any Token.isPlus then .error (2 * (additions ts).1.length + 2)
      else .ok (⟨⟨t, h⟩, (additions ts).1⟩, (additions ts).2) := by
  rw [read, dif_pos h]

/-- A chain that is read stands at the front, and no plus stands behind it. -/
theorem read_eq_ok {ts rest : List Token} {c : Chain} (h : read ts = .ok (c, rest)) :
    ts = c.tokens ++ rest ∧ rest.head?.any Token.isPlus = false := by
  rcases fault_or_operand ts with hfault | ⟨t, ts, rfl, hoperand⟩
  · simp [read_of_fault hfault] at h
  · rw [read_of_operand hoperand] at h
    split at h
    · simp at h
    · next hplus =>
      obtain ⟨rfl, rfl⟩ : _ = c ∧ _ = rest := by simpa using h
      exact ⟨by simp [tokens, additions_append], by simpa using hplus⟩

/-- A chain at the front is read, if no plus stands behind it. -/
theorem read_tokens_append (c : Chain) {rest : List Token}
    (hrest : rest.head?.any Token.isPlus = false) : read (c.tokens ++ rest) = .ok (c, rest) := by
  rw [tokens, List.cons_append, read_of_operand c.first.isOperand,
    additions_allTokens_append c.more (additions_of_other hrest), if_neg (by simp [hrest])]

/-- Behind a chain and a plus, something other than an operand is a fault. -/
theorem read_tokens_plus (c : Chain) {plus : Token} (hplus : plus.isPlus = true)
    {rest : List Token} (hrest : rest.head?.any Token.isOperand = false) :
    read (c.tokens ++ plus :: rest) = .error (c.tokens.length + 1) := by
  rw [tokens, List.cons_append, read_of_operand c.first.isOperand,
    additions_allTokens_append c.more (additions_of_fault plus hrest),
    if_pos (by simpa using hplus), ← tokens, length_tokens]

/-- A fault is a token that is no operand, at the front or behind a chain and a plus; or there
is no token where an operand should be. -/
theorem read_eq_error {ts : List Token} {k : Nat} (h : read ts = .error k) :
    (k = 0 ∧ ts.head?.any Token.isOperand = false) ∨
      ∃ (c : Chain) (plus : Token) (rest : List Token), ts = c.tokens ++ plus :: rest ∧
        plus.isPlus = true ∧ k = c.tokens.length + 1 ∧
        rest.head?.any Token.isOperand = false := by
  rcases fault_or_operand ts with hfault | ⟨t, ts, rfl, hoperand⟩
  · rw [read_of_fault hfault] at h
    exact .inl ⟨(Except.error.inj h).symm, hfault⟩
  · rw [read_of_operand hoperand] at h
    split at h
    · next hplus =>
      have happend := additions_append ts
      match hrest : (additions ts).2 with
      | [] => simp [hrest] at hplus
      | plus :: rest =>
        have hplus : plus.isPlus = true := by simpa [hrest] using hplus
        refine .inr ⟨⟨⟨t, hoperand⟩, (additions ts).1⟩, plus, rest, ?_, hplus, ?_, ?_⟩
        · rw [tokens, List.cons_append, ← hrest, happend]
        · rw [length_tokens]
          exact (Except.error.inj h).symm
        · cases rest with
          | nil => rfl
          | cons t rest => exact additions_stop ts hrest hplus
    · simp at h

end Chain
end SumLang
