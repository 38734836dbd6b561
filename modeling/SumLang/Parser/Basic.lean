import SumLang.Grammar

/-!
# Parsers

A parser goes through a sequence of tokens, collects the trees that it has read and, when it is
lenient, the violations of the grammar that it has met.  A sum that violates the grammar leaves it
where it was: strict parsing reports the violation, lenient parsing records it.  A sum that fails
because something cannot be written is another matter: in both modes this is reported, and leaves
the parser behind the token at fault.

A program is a sequence of sums.  Semicolons between them are skipped, and not needed: a token
that cannot go on with a sum begins the next one.  After a recorded failure parsing goes on
behind the next semicolon.

A parser may be put at any index.  A negative one counts from the end of the tokens, and parsing
goes on with the first token behind the last.  A parser that stands before all tokens is not
`inReach` of any; it has nothing to do with them until it is put elsewhere.

`parseProgram` ends because each round takes a token: a sum, or the rest of a statement.
-/
namespace SumLang

/-- What to do about a failed sum. -/
inductive Mode where
  /-- Report it, and stop. -/
  | strict
  /-- Record it, and go on. -/
  | lenient
deriving DecidableEq, Repr

/-- A place in a sequence of tokens, with what has been read and recorded so far. -/
structure Parser where
  tokens : Array Token
  index : Int
  trees : Array Tree
  errors : Array ParseError
deriving Repr

namespace Parser

open Grammar

/-- The parser that is about to read its first token. -/
def ofTokens (tokens : Array Token) : Parser := ⟨tokens, 0, #[], #[]⟩

/-- The token that is read next. -/
def peek (p : Parser) : Option Token := signedGet? p.tokens p.index

/-- Whether the next token has a given type. -/
def check (p : Parser) (type : TokenType) : Bool := isAt p.tokens type p.index

/-- Whether the tokens are over. -/
def atEnd (p : Parser) : Bool := endsAt p.tokens p.index

/-- Whether the parser does not stand before all tokens, counted from the end. -/
def inReach (p : Parser) : Bool := decide (-p.tokens.size ≤ p.index)

/-- The number of tokens that are left. -/
def left (p : Parser) : Nat := (p.tokens.size - p.index).toNat

/-- Reads one token, whatever it is. -/
def get (p : Parser) : Option Token × Parser :=
  match p.peek with
  | some t => (some t, { p with index := p.index + 1 })
  | none => (none, p)

/-- Reads an operand; a token that is none has been read, too. -/
def operand (p : Parser) : Outcome Parser ParseFailure Tree :=
  let (answer, i) := operandAt p.tokens p.index
  (answer, { p with index := i })

/-- Reads a sum without collecting it; the token at fault has been read, too. -/
def sum (p : Parser) : Outcome Parser ParseFailure Tree :=
  let (answer, i) := sumAt p.tokens p.index
  (answer, { p with index := i })

/-- Reads a sum and collects it.  A violation is reported or recorded, and no token is taken. -/
def parse (mode : Mode) (p : Parser) : Outcome Parser ParseFailure (Option Tree) :=
  match p.sum with
  | (.ok t, q) => (.ok (some t), { q with trees := q.trees.push t })
  | (.error (.violation e), _) =>
    match mode with
    | .strict => (.error (.violation e), p)
    | .lenient => (.ok none, { p with errors := p.errors.push e })
  | (.error (.unwritable e), q) => (.error (.unwritable e), q)

/-- The parser behind a run of semicolons. -/
def skipSemicolons (p : Parser) : Parser :=
  { p with index := Grammar.skipSemicolons p.tokens p.index }

/-- The parser behind the next semicolon, or where the tokens are over. -/
def synchronize (p : Parser) : Parser :=
  { p with index := Grammar.nextStatement p.tokens p.index }

theorem left_skipSemicolons_le (p : Parser) : p.skipSemicolons.left ≤ p.left := by
  have := le_skipSemicolons p.tokens p.index
  simp only [left, skipSemicolons]
  omega

theorem left_synchronize_lt {p : Parser} (h : p.atEnd = false) :
    p.synchronize.left < p.left := by
  have := lt_nextStatement h
  have := lt_size_of_endsAt h
  simp only [left, synchronize]
  omega

/-- A sum that is read takes a token. -/
theorem left_parse_lt {mode : Mode} {p q : Parser} {t : Tree}
    (h : p.parse mode = (.ok (some t), q)) : q.left < p.left := by
  cases hsum : sumAt p.tokens p.index with
  | mk answer j =>
    cases answer with
    | ok t' =>
      have hj := sumAt_eq_ok hsum
      simp only [parse, sum, hsum, Prod.mk.injEq] at h
      rw [← h.2]
      simp only [left]
      omega
    | error e => cases e <;> cases mode <;> simp [parse, sum, hsum] at h

/-- A failure that is recorded takes no token. -/
theorem parse_eq_none {mode : Mode} {p q : Parser} (h : p.parse mode = (.ok none, q)) :
    q.tokens = p.tokens ∧ q.index = p.index := by
  unfold parse at h
  split at h
  · simp at h
  · cases mode <;> simp at h
    simp [← h]
  · simp at h

/-- Reads all sums up to where the tokens are over, and answers with all that have been read,
by this call or before. -/
def parseProgram (mode : Mode) (p : Parser) : Outcome Parser ParseFailure (Array Tree) :=
  if _hend : p.skipSemicolons.atEnd then (.ok p.trees, p.skipSemicolons)
  else match _h : p.skipSemicolons.parse mode with
    | (.error e, q) => (.error e, q)
    | (.ok (some _), q) => parseProgram mode q
    | (.ok none, q) => parseProgram mode q.synchronize
termination_by p.left
decreasing_by
  · exact Nat.lt_of_lt_of_le (left_parse_lt _h) p.left_skipSemicolons_le
  · have hsame := parse_eq_none _h
    have hend : q.atEnd = false := by
      simpa [atEnd, hsame.1, hsame.2] using _hend
    have hlt := left_synchronize_lt hend
    have hleft : q.left = p.skipSemicolons.left := by simp [left, hsame.1, hsame.2]
    have hle := p.left_skipSemicolons_le
    omega

end Parser
end SumLang
