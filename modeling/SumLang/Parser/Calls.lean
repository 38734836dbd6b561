import SumLang.Parser.Basic
import SumLang.Failure

/-!
# Calls to a parser

What a caller may ask of a parser, one call after the other, and what the parser answers.

A call that looks at tokens fails if the parser stands before all of them, and then changes
nothing.  One look at the start of the call is enough, for a parser only moves on.
-/
namespace SumLang
namespace Parser

/-- What a caller may ask of a parser. -/
inductive Call where
  /-- The next token. -/
  | peek
  /-- Read one token. -/
  | get
  /-- Whether the next token has a given type. -/
  | check (type : TokenType)
  /-- Whether the tokens are over. -/
  | atEnd
  /-- Read an operand. -/
  | operand
  /-- Read a sum without collecting it. -/
  | sum
  /-- Read a sum and collect it. -/
  | parse (mode : Mode)
  /-- Go behind the next semicolon. -/
  | synchronize
  /-- Read and collect all sums. -/
  | parseProgram (mode : Mode)
  /-- The trees collected so far. -/
  | trees
  /-- The failures recorded so far. -/
  | errors
  /-- Go to the token with a given index, which need not exist. -/
  | seek (index : Int)
deriving DecidableEq, Repr

/-- What a parser answers. -/
inductive Reply where
  | nothing
  | truth (b : Bool)
  | token (t : Option Token)
  | tree (t : Option Tree)
  | trees (ts : Array Tree)
  | errors (es : Array ParseError)
deriving Repr

/-- Whether a call depends on the tokens at the parser's place. -/
def Call.looks : Call → Bool
  | trees | errors | seek _ => false
  | peek | get | check _ | atEnd | operand | sum | parse _ | synchronize | parseProgram _ => true

/-- One call to a parser that is in reach of its tokens, as far as the call looks at them. -/
def answer (p : Parser) (call : Call) : Outcome Parser ParseFailure Reply :=
  match call with
  | .peek => (.ok (.token p.peek), p)
  | .get =>
    let (t, q) := p.get
    (.ok (.token t), q)
  | .check type => (.ok (.truth (p.check type)), p)
  | .atEnd => (.ok (.truth p.atEnd), p)
  | .operand =>
    let (result, q) := p.operand
    (result.map (.tree ∘ some), q)
  | .sum =>
    let (result, q) := p.sum
    (result.map (.tree ∘ some), q)
  | .parse mode =>
    let (result, q) := p.parse mode
    (result.map .tree, q)
  | .synchronize => (.ok .nothing, p.synchronize)
  | .parseProgram mode =>
    let (result, q) := p.parseProgram mode
    (result.map .trees, q)
  | .trees => (.ok (.trees p.trees), p)
  | .errors => (.ok (.errors p.errors), p)
  | .seek index => (.ok .nothing, { p with index := index })

/-- One call to a parser. -/
def perform (call : Call) (p : Parser) : Outcome Parser Failure Reply :=
  if call.looks && !p.inReach then (.error .outOfReach, p)
  else
    let (result, q) := p.answer call
    (result.mapError .ofParse, q)

end Parser
end SumLang
