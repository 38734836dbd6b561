import SumLang.Token.Basic
import SumLang.Text.Printable

/-!
# Failures of parsing

A grammar violation says which token types would have been accepted, which token was found, if
there was one, and where in the sequence that was.

It is worded as soon as it is met, and the wording names the token and its place.  Where these
cannot be written there is no violation to be reported or recorded: parsing fails with the failed
wording in its place.
-/
namespace SumLang

/-- What was expected, what was found, and where. -/
structure ParseError where
  expected : List TokenType
  actual : Option Token
  position : Int
deriving DecidableEq, Repr

namespace ParseError

/-- The accepted types in parentheses; a single one is followed by a comma. -/
def describeExpected (expected : List TokenType) : String :=
  match expected.map (Text.quoted Text.isPrintable) with
  | [type] => "(" ++ type ++ ",)"
  | types => "(" ++ ", ".intercalate types ++ ")"

/-- The found token and its place. -/
def describeActual : Option Token → Except WriteError String
  | some t => do
    let token ← t.display
    let place ← t.pos.describe
    return s!"{token} at {place}"
  | none => return "end of input"

/-- The wording of a violation. -/
def message (e : ParseError) : Except WriteError String := do
  let actual ← describeActual e.actual
  return s!"Expected one of {describeExpected e.expected}, got {actual}"

end ParseError

/-- Why parsing has failed. -/
inductive ParseFailure where
  /-- The tokens are not what the grammar says. -/
  | violation (e : ParseError)
  /-- A text was needed that does not exist. -/
  | unwritable (e : WriteError)
deriving DecidableEq, Repr

/-- The failure that comes of a violation, which is worded first. -/
def ParseError.raise (e : ParseError) : ParseFailure :=
  match e.message with
  | .ok _ => .violation e
  | .error cause => .unwritable cause

/-! ## Which violations can be worded -/

/-- Whether a token and its place can be written. -/
def Token.isWritable (t : Token) : Bool := t.value.isWritable && t.pos.isWritable

theorem Token.isWritable_of_value {t : Token} (h : t.value.isWritable = false) :
    t.isWritable = false := by
  rw [isWritable, h, Bool.false_and]

namespace ParseError

/-- Whether the found token, if any, can be written. -/
def isWritable (e : ParseError) : Bool := e.actual.all Token.isWritable

theorem raise_eq (e : ParseError) :
    e.raise = if e.isWritable then .violation e else .unwritable .numberTooLong := by
  obtain ⟨expected, actual, position⟩ := e
  cases actual with
  | none => rfl
  | some t =>
    rw [raise, message, describeActual, Token.display, Scalar.written, Position.describe_eq,
      isWritable, Option.all_some, Token.isWritable]
    cases t.value.isWritable <;> cases t.pos.isWritable <;> rfl

end ParseError
end SumLang
