import SumLang.Scalar
import SumLang.Position
import SumLang.Vocabulary

/-!
# Tokens

A token is a piece of a text with a meaning: its type, its value and the place where it
starts.  The value of a number is that number; the value of every other token is its text.
Tokens may also be made by hand, with any type and value.

Two tokens agree when their types and places are equal and their values agree.
-/
namespace SumLang

/-- A token. -/
structure Token where
  type : TokenType
  value : Scalar
  pos : Position
deriving DecidableEq, Repr

namespace Token

/-- The token behind the last one of a text. -/
def eof (pos : Position) : Token := ⟨TokenType.eof, .text TokenType.eof, pos⟩

/-- Whether a token ends the tokens of a text. -/
def isEof (t : Token) : Bool := t.type == TokenType.eof

/-- The written form of a token, which leaves its place out. -/
def display (t : Token) : Except WriteError String := do
  let value ← t.value.written
  return s!"Token({t.type}, {value})"

/-- Whether two tokens are equal, their values being equal as values. -/
def agrees (a b : Token) : Bool :=
  a.type == b.type && a.value.agrees b.value && a.pos == b.pos

theorem agrees_refl (a : Token) : a.agrees a = true := by
  have hvalue := (Scalar.agrees_iff a.value a.value).mpr rfl
  simp [agrees, hvalue]

/-- One token of each class of agreeing tokens, the first of it. -/
def representatives (tokens : List Token) : List Token :=
  tokens.foldl (fun kept t => if kept.any (agrees t) then kept else kept ++ [t]) []

end Token

/-! ## Comparing tokens -/

/-- How the tokens of a list compare with one another, and with something that is no token. -/
structure TokenComparison where
  /-- The written form of each. -/
  displays : List String
  /-- For each token its agreement with every token of the list. -/
  agreement : List (List Bool)
  /-- For each token its agreement with something else. -/
  agreementWithOther : List Bool
  /-- The number of tokens of which no two agree. -/
  distinct : Nat
deriving DecidableEq, Repr

/-- Compares every token of a list with every other.  No token agrees with what is none. -/
def Token.compare (tokens : List Token) : Except WriteError TokenComparison := do
  let displays ← tokens.mapM display
  return {
    displays
    agreement := tokens.map fun a => tokens.map a.agrees
    agreementWithOther := tokens.map fun _ => false
    distinct := (representatives tokens).length }

end SumLang
