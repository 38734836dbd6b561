/-!
# The vocabulary of the language

Everything that the scanner and the parser know about particular characters, words and token
types is in the tables of this module.

Symbols and keywords share one look-up, from a text to its token type.  It is a value of type
`Table`, which a caller may extend or cut down; `Table.standard` is the language as it is.
Digits are not letters: `x1` is a name and a number.
-/
namespace SumLang

/-! ## Characters -/

/-- The characters that separate tokens and mean nothing else. -/
def blanks : List Char := " \t\n\r".toList

/-- The characters of names and keywords. -/
def letters : List Char := "abcdefghijklmnopqrstuvwxyzABCDEFGHIJKLMNOPQRSTUVWXYZ_".toList

/-- The characters of numbers. -/
def digits : List Char := "0123456789".toList

/-- Whether a character separates tokens. -/
def isBlank (c : Char) : Bool := blanks.contains c

/-- Whether a character may stand in a name. -/
def isLetter (c : Char) : Bool := letters.contains c

/-- Whether a character may stand in a number. -/
def isDigit (c : Char) : Bool := digits.contains c

/-! ## Numbers -/

/-- The least number of the language: numbers fit in 32 bits, one of them for the sign. -/
def leastNumber : Int := -2147483648

/-- The greatest number of the language. -/
def greatestNumber : Int := 2147483647

/-- The longest run of digits that is read as a number at all, leading zeros included, and the
longest one that a number is written with. -/
def longestNumeral : Nat := 4300

/-! ## Token types -/

/-- A token type is a word; a table may introduce new ones. -/
abbrev TokenType := String

namespace TokenType

/-- The type of a character that no rule covers. -/
def illegal : TokenType := "ILLEGAL"

/-- The type of the token behind the last one of a text. -/
def eof : TokenType := "EOF"

/-- The type of a name. -/
def ident : TokenType := "IDENT"

/-- The type of a number. -/
def int : TokenType := "INT"

/-- The type of the operator of a sum. -/
def plus : TokenType := "PLUS"

/-- The type of the mark between statements. -/
def semicolon : TokenType := "SEMICOLON"

/-- The types that an operand of a sum may have. -/
def operands : List TokenType := [int, ident]

end TokenType

/-! ## Symbols and keywords -/

/-- The token types of texts that have one of their own.  The first entry of a text counts. -/
structure Table where
  entries : List (String × TokenType)
deriving DecidableEq, Repr

namespace Table

/-- The token type of a text, if it has one of its own. -/
def find? (t : Table) (text : String) : Option TokenType := t.entries.lookup text

/-- The table without an entry for `text`. -/
def erase (t : Table) (text : String) : Table := ⟨t.entries.filter (·.1 != text)⟩

/-- The table in which `text` has the type `type`, whatever it had before. -/
def insert (t : Table) (text : String) (type : TokenType) : Table :=
  ⟨(text, type) :: (t.erase text).entries⟩

@[simp] theorem find?_insert_self (t : Table) (text : String) (type : TokenType) :
    (t.insert text type).find? text = some type := by
  simp [find?, insert]

theorem find?_erase (t : Table) (removed text : String) :
    (t.erase removed).find? text = if text = removed then none else t.find? text := by
  obtain ⟨entries⟩ := t
  simp only [find?, erase]
  induction entries with
  | nil => simp
  | cons entry entries ih =>
    by_cases hr : entry.1 = removed
    · rw [List.filter_cons_of_neg (by simp [hr]), ih, List.lookup_cons]
      by_cases ht : text = removed
      · simp [ht]
      · have hne : (text == entry.1) = false := by simp [hr, ht]
        simp [ht, hne]
    · rw [List.filter_cons_of_pos (by simp [hr]), List.lookup_cons, List.lookup_cons, ih]
      by_cases ht : text = entry.1
      · simp [ht, hr]
      · have hne : (text == entry.1) = false := by simp [ht]
        simp [hne]

theorem find?_insert_of_ne (t : Table) {text other : String} (type : TokenType)
    (h : other ≠ text) : (t.insert text type).find? other = t.find? other := by
  have hne : (other == text) = false := by simp [h]
  have hrest : (t.erase text).find? other = t.find? other := by simp [find?_erase, h]
  simpa [find?, insert, List.lookup_cons, hne] using hrest

/-- The single characters that are tokens by themselves.  The two braces are given by code. -/
def symbols : List (String × TokenType) :=
  [("=", "ASSIGN"), ("+", TokenType.plus), ("<", "LT"), (">", "GT"),
    (";", TokenType.semicolon), ("\x7b", "LBRACE"), ("\x7d", "RBRACE"), ("(", "LPAREN"),
    (")", "RPAREN"), (",", "COMMA")]

/-- The words that are no names. -/
def keywords : List (String × TokenType) :=
  [("let", "LET"), ("fn", "FUNCTION"), ("if", "IF"), ("else", "ELSE"), ("return", "RETURN"),
    ("true", "TRUE"), ("false", "FALSE")]

/-- The symbols and keywords of the language. -/
def standard : Table := ⟨symbols ++ keywords⟩

end Table

/-- Every token type of the language, the four without a fixed text first. -/
def TokenType.all : List TokenType :=
  [illegal, eof, ident, int] ++ Table.standard.entries.map (·.2)

end SumLang
