import SumLang.Position
import SumLang.Vocabulary

/-!
# Failures of scanning

Characters cannot be read outside a text.  Inside it every character belongs to some token, so
that tokens fail on numbers alone: on those that the language does not have.

A failure is worded when it is reported.  Its place may be one that cannot be written, if the text
was not read from its start; then it has no wording, and is reported as that.
-/
namespace SumLang

/-- Why characters or tokens could not be read. -/
inductive ScanError where
  /-- The cursor is at or behind the end of the text. -/
  | pastEnd (index line : Int)
  /-- The cursor is further before the start than the text is long. -/
  | beforeStart
  /-- A run of digits denotes a number above the greatest of the language. -/
  | numberTooLarge (literal : String) (pos : Position)
  /-- A run of digits has more digits than are ever evaluated. -/
  | numeralTooLong (length : Nat)
deriving DecidableEq, Repr

namespace ScanError

/-- The wording of a failure. -/
def message : ScanError → Except WriteError String
  | pastEnd index line => do
    let index ← Text.numeral index
    let line ← Text.numeral line
    return "CharacterStreamError: Attempted to read past end of source at " ++
      s!"position=<{index}>, line=<{line}>"
  | beforeStart => return "string index out of range"
  | numberTooLarge literal pos => do
    let place ← pos.describe
    return s!"Integer literal {literal} out of 32-bit range at {place}"
  | numeralTooLong length =>
    return s!"Exceeds the limit ({longestNumeral} digits) for integer string conversion: " ++
      s!"value has {length} digits; use sys.set_int_max_str_digits() to increase the limit"

end ScanError
end SumLang
