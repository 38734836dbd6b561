import SumLang.Text.Printable

/-!
# Quoted text

A text inside a message or a display is put between quotes, so that blanks, brackets and
commas of the text cannot be taken for those around it.  The quote is an apostrophe unless
the text has an apostrophe and no double quote.  A backslash and the enclosing quote are
written behind a backslash; line feeds, carriage returns and tabs have a letter each; every
other character without a printable shape is written as its code point in lower-case
hexadecimal, with two, four or eight digits, the fewest that hold it.

Which characters are printable is a parameter: the form needs no more of it than a predicate.

## Main definitions

* `quoteFor s` is the quote that encloses `s`.
* `quoted printable s` is the quoted form of `s`.
-/
namespace SumLang.Text

/-- The lowest `width` hexadecimal digits of `n`, most significant first. -/
def hexDigits : Nat → Nat → List Char
  | 0, _ => []
  | width + 1, n => hexDigits width (n / 16) ++ [Nat.digitChar (n % 16)]

@[simp] theorem length_hexDigits (width n : Nat) : (hexDigits width n).length = width := by
  induction width generalizing n with
  | zero => rfl
  | succ width ih => simp [hexDigits, ih]

/-- A code point by number: two digits below 0x100, four below 0x10000, eight above. -/
def codeEscape (c : Char) : List Char :=
  if c.toNat < 0x100 then '\\' :: 'x' :: hexDigits 2 c.toNat
  else if c.toNat < 0x10000 then '\\' :: 'u' :: hexDigits 4 c.toNat
  else '\\' :: 'U' :: hexDigits 8 c.toNat

/-- One character of a text that stands between two `quote` characters. -/
def escape (printable : Char → Bool) (quote c : Char) : List Char :=
  if c = quote ∨ c = '\\' then ['\\', c]
  else if c = '\n' then ['\\', 'n']
  else if c = '\r' then ['\\', 'r']
  else if c = '\t' then ['\\', 't']
  else if printable c then [c]
  else codeEscape c

/-- The enclosing quote: a double quote only where that saves an escape. -/
def quoteFor (text : List Char) : Char :=
  if '\'' ∈ text ∧ '"' ∉ text then '"' else '\''

/-- A text between quotes, with every character that could mislead a reader escaped. -/
def quotedChars (printable : Char → Bool) (text : List Char) : List Char :=
  let quote := quoteFor text
  quote :: text.flatMap (escape printable quote) ++ [quote]

/-- The quoted form of a string. -/
def quoted (printable : Char → Bool) (s : String) : String :=
  String.ofList (quotedChars printable s.toList)

end SumLang.Text
