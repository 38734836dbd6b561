import SumLang.Text.Numeral

/-!
# Positions in a text

A position is a line and a column.  Both are counted from one in a text that is read from its
start, but a reader may be put anywhere, so they are integers.
-/
namespace SumLang

/-- A line and a column. -/
structure Position where
  line : Int
  column : Int
deriving DecidableEq, Repr, Inhabited

namespace Position

/-- Where a text begins. -/
def start : Position := ⟨1, 1⟩

/-- The position behind the character `c`: a line feed opens the next line. -/
def advance (p : Position) (c : Char) : Position :=
  if c = '\n' then ⟨p.line + 1, 1⟩ else ⟨p.line, p.column + 1⟩

/-- The place as it is worded in messages. -/
def describe (p : Position) : Except WriteError String := do
  let line ← Text.numeral p.line
  let column ← Text.numeral p.column
  return s!"line {line}, col {column}"

/-- Whether a place can be worded. -/
def isWritable (p : Position) : Bool := Text.isWritable p.line && Text.isWritable p.column

theorem describe_eq (p : Position) :
    p.describe = Text.writeIf p.isWritable s!"line {p.line}, col {p.column}" := by
  apply Text.writeIf_bind
  exact Text.writeIf_map _ _ _

end Position
end SumLang
