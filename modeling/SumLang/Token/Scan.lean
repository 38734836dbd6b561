import SumLang.Session
import SumLang.Cursor.Basic
import SumLang.Token.Basic

/-!
# From text to tokens

`nextToken` skips blanks and reads one token at a cursor.  The first character decides its
class, in this order: a letter opens a word; a character of the table is a symbol; a digit
opens a number; any other character is an illegal token by itself.  Words and numbers are read
as far as they go.  A word of the table is a keyword and every other word is a name.

A number that is too large is a failure, and the cursor is left behind it, so that scanning
can go on.

`drain` reads tokens up to and including one of the type that ends a text, be it the one
behind the last character or one that the table gives that type.  It ends because every other
token takes a character: `left_nextToken_lt`.
-/
namespace SumLang

namespace Table

/-- The type of a word: that of the keyword, or that of names. -/
def wordType (t : Table) (word : String) : TokenType :=
  (t.find? word).getD TokenType.ident

end Table

namespace Token

/-- What the first character of a token says about it. -/
inductive Class where
  | word
  | symbol (type : TokenType)
  | number
  | illegal
deriving DecidableEq, Repr

/-- The class of the token that a character opens. -/
def Class.of (table : Table) (c : Char) : Class :=
  if isLetter c then .word
  else match table.find? c.toString with
    | some type => .symbol type
    | none => if isDigit c then .number else .illegal

/-- The number that a run of digits denotes, where the language has it. -/
def number (numeral : String) (pos : Position) : Except ScanError Token :=
  if longestNumeral < numeral.length then .error (.numeralTooLong numeral.length)
  else
    let n : Int := Nat.ofDigitChars 10 numeral.toList 0
    if leastNumber ≤ n ∧ n ≤ greatestNumber then .ok ⟨TokenType.int, .int n, pos⟩
    else .error (.numberTooLarge numeral pos)

theorem leastNumber_le_natCast (n : Nat) : leastNumber ≤ n :=
  Int.le_trans (by decide) (Int.natCast_nonneg n)

/-- No run of digits denotes a number below the least one. -/
theorem number_eq (numeral : String) (pos : Position) :
    number numeral pos =
      if longestNumeral < numeral.length then .error (.numeralTooLong numeral.length)
      else if greatestNumber < (Nat.ofDigitChars 10 numeral.toList 0 : Int) then
        .error (.numberTooLarge numeral pos)
      else .ok ⟨TokenType.int, .int (Nat.ofDigitChars 10 numeral.toList 0), pos⟩ := by
  simp only [number, leastNumber_le_natCast, true_and]
  split
  · rfl
  · by_cases hlarge : greatestNumber < (Nat.ofDigitChars 10 numeral.toList 0 : Int)
    · rw [if_neg (Int.not_le.mpr hlarge), if_pos hlarge]
    · rw [if_pos (Int.not_lt.mp hlarge), if_neg hlarge]

/-- The outcome of reading a lexeme and making a token of it.  A lexeme that could not be read
leaves the cursor at its start; one that was read is left behind, whatever became of it. -/
def ofLexeme {α : Type} (start : Cursor) (read : Except ScanError (α × Cursor))
    (token : α → Except ScanError Token) : Outcome Cursor ScanError Token :=
  match read with
  | .ok (lexeme, c) => (token lexeme, c)
  | .error e => (.error e, start)

/-- Reads the token of a given class that starts at the cursor. -/
def read (table : Table) (start : Cursor) : Class → Outcome Cursor ScanError Token
  | .word => ofLexeme start (start.readWhile isLetter) fun word =>
      .ok ⟨table.wordType word, .text word, start.pos⟩
  | .symbol type => ofLexeme start start.next fun c => .ok ⟨type, .text c.toString, start.pos⟩
  | .number => ofLexeme start (start.readWhile isDigit) fun numeral => number numeral start.pos
  | .illegal => ofLexeme start start.next fun c =>
      .ok ⟨TokenType.illegal, .text c.toString, start.pos⟩

end Token

namespace Cursor

/-- Reads the next token, or the one that ends the text. -/
def nextToken (table : Table) (c : Cursor) : Outcome Cursor ScanError Token :=
  match c.skipBlanks with
  | .error e => (.error e, c)
  | .ok start =>
    match start.peek 0 with
    | none => (.ok (.eof start.pos), start)
    | some ch => Token.read table start (.of table ch)

/-- A lexeme that takes a character makes a token that takes one. -/
theorem left_ofLexeme_lt {α : Type} {start d : Cursor} {read : Except ScanError (α × Cursor)}
    {token : α → Except ScanError Token} {t : Token}
    (hread : ∀ a c, read = .ok (a, c) → c.left < start.left)
    (h : Token.ofLexeme start read token = (.ok t, d)) : d.left < start.left := by
  cases read with
  | ok lexeme =>
    simp only [Token.ofLexeme, Prod.mk.injEq] at h
    exact h.2 ▸ hread lexeme.1 lexeme.2 rfl
  | error e => simp [Token.ofLexeme] at h

theorem left_read_lt {table : Table} {start d : Cursor} {ch : Char} {t : Token}
    (hpeek : start.peek 0 = some ch)
    (h : Token.read table start (.of table ch) = (.ok t, d)) : d.left < start.left := by
  unfold Token.Class.of at h
  split at h
  · next hletter =>
    exact left_ofLexeme_lt (fun _ _ hread => left_readWhile_lt hpeek hletter hread) h
  · split at h
    · exact left_ofLexeme_lt (fun _ _ hread => left_next hread) h
    · split at h
      · next hdigit =>
        exact left_ofLexeme_lt (fun _ _ hread => left_readWhile_lt hpeek hdigit hread) h
      · exact left_ofLexeme_lt (fun _ _ hread => left_next hread) h

/-- Every token but one that ends a text takes a character. -/
theorem left_nextToken_lt {table : Table} {c d : Cursor} {t : Token}
    (h : c.nextToken table = (.ok t, d)) (hend : t.isEof = false) : d.left < c.left := by
  unfold nextToken at h
  split at h
  · simp at h
  · next start hskip =>
    have hle := left_skipBlanks_le hskip
    split at h
    · simp only [Prod.mk.injEq, Except.ok.injEq] at h
      rw [← h.1] at hend
      simp [Token.eof, Token.isEof] at hend
    · next ch hpeek => exact Nat.lt_of_lt_of_le (left_read_lt hpeek h) hle

/-- The scan behind `drain`, with the tokens read so far. -/
def drainOnto (table : Table) (tokens : Array Token) (c : Cursor) :
    Outcome Cursor ScanError (Array Token) :=
  match _h : c.nextToken table with
  | (.error e, d) => (.error e, d)
  | (.ok t, d) =>
    if _hend : t.isEof then (.ok (tokens.push t), d)
    else drainOnto table (tokens.push t) d
termination_by c.left
decreasing_by exact left_nextToken_lt _h (by simpa using _hend)

/-- Reads all tokens up to and including the one that ends the text. -/
def drain (table : Table) (c : Cursor) : Outcome Cursor ScanError (Array Token) :=
  drainOnto table #[] c

end Cursor

/-- The tokens of a text, of which the last one ends it. -/
def tokenize (table : Table) (text : String) : Except ScanError (Array Token) :=
  ((Cursor.ofString text).drain table).1

end SumLang
