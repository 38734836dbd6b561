import SumLang.ScanError
import SumLang.SignedIndex

/-!
# Cursors

A cursor is a place in a text: the index of the character to be read next, with its line and
column.  Reading a character moves it one on.

The index is an integer, and a cursor may be put anywhere.  At or behind the end there is
nothing to read.  A negative index counts from the end of the text when a character is read,
so that `-1` reads the last one, and reading goes on into the text itself at index zero; but
looking ahead sees nothing at negative indexes, and such a cursor is not at the end.

A scan takes characters while they belong to a set.  Where it sees nothing although it is not
at the end, it goes on: a scan from a negative index takes all that lies before index zero.

## Main definitions

* `peek`, `current`, `next` look at characters and read them.
* `readWhile` reads the longest run of characters from a set.
* `left` is the number of characters that can still be read; `left_next` and
  `left_readWhile_lt` say that reading makes it smaller, which is why scanning ends.
-/
namespace SumLang

/-- A place in a text. -/
structure Cursor where
  source : Array Char
  index : Int
  pos : Position
deriving DecidableEq, Repr

namespace Cursor

/-- The cursor at the start of a text. -/
def ofString (text : String) : Cursor := ⟨text.toList.toArray, 0, .start⟩

/-- Whether there is nothing left to read. -/
def atEnd (c : Cursor) : Bool := decide (c.source.size ≤ c.index)

/-- The number of characters from the cursor to the end. -/
def left (c : Cursor) : Nat := (c.source.size - c.index).toNat

/-- The character `offset` places ahead, where the text has one. -/
def peek (c : Cursor) (offset : Int) : Option Char :=
  let i := c.index + offset
  if i < 0 then none else c.source[i.toNat]?

/-- The character that is read next: a negative index counts from the end of the text. -/
def under? (c : Cursor) : Option Char := signedGet? c.source c.index

/-- The cursor behind the character `ch`. -/
def step (c : Cursor) (ch : Char) : Cursor :=
  { c with index := c.index + 1, pos := c.pos.advance ch }

/-- The character at the cursor, which is nothing at the end. -/
def current (c : Cursor) : Except ScanError (Option Char) :=
  if c.atEnd then .ok none
  else match c.under? with
    | some ch => .ok (some ch)
    | none => .error .beforeStart

/-- Reads one character. -/
def next (c : Cursor) : Except ScanError (Char × Cursor) :=
  if c.atEnd then .error (.pastEnd c.index c.pos.line)
  else match c.under? with
    | some ch => .ok (ch, c.step ch)
    | none => .error .beforeStart

theorem atEnd_eq_false_iff (c : Cursor) : c.atEnd = false ↔ c.index < c.source.size := by
  simp [atEnd]

theorem next_eq_ok_iff {c d : Cursor} {ch : Char} :
    c.next = .ok (ch, d) ↔ c.atEnd = false ∧ c.under? = some ch ∧ d = c.step ch := by
  unfold next
  cases c.atEnd <;> cases c.under? <;> simp [eq_comm]
  intro h
  subst h
  exact Iff.rfl

/-- Reading a character leaves one less to be read. -/
theorem left_next {c d : Cursor} {ch : Char} (h : c.next = .ok (ch, d)) :
    d.left < c.left := by
  obtain ⟨hend, _, rfl⟩ := next_eq_ok_iff.mp h
  rw [atEnd_eq_false_iff] at hend
  simp only [left, step]
  omega

/-- The scan behind `readWhile`, with the characters read so far. -/
def readOnto (member : Char → Bool) (text : String) (c : Cursor) :
    Except ScanError (String × Cursor) :=
  if c.atEnd || !(c.peek 0).all member then .ok (text, c)
  else match _h : c.next with
    | .ok (ch, d) => readOnto member (text.push ch) d
    | .error e => .error e
termination_by c.left
decreasing_by exact left_next _h

/-- Reads the longest run of characters from a set. -/
def readWhile (member : Char → Bool) (c : Cursor) : Except ScanError (String × Cursor) :=
  readOnto member "" c

/-- The cursor behind the blanks that it stands before. -/
def skipBlanks (c : Cursor) : Except ScanError Cursor :=
  (c.readWhile isBlank).map (·.2)

theorem left_readOnto_le {member : Char → Bool} {text run : String} {c d : Cursor}
    (h : readOnto member text c = .ok (run, d)) : d.left ≤ c.left := by
  fun_induction readOnto member text c with
  | case1 => simp_all
  | case2 text c _ ch next hnext ih => exact Nat.le_trans (ih h) (Nat.le_of_lt (left_next hnext))
  | case3 => simp at h

theorem left_readWhile_le {member : Char → Bool} {run : String} {c d : Cursor}
    (h : c.readWhile member = .ok (run, d)) : d.left ≤ c.left :=
  left_readOnto_le h

theorem atEnd_of_peek {c : Cursor} {ch : Char} (h : c.peek 0 = some ch) : c.atEnd = false := by
  rw [atEnd_eq_false_iff]
  simp only [peek, Int.add_zero] at h
  split at h
  · simp at h
  · obtain ⟨hlt, _⟩ := Array.getElem?_eq_some_iff.mp h
    omega

/-- A scan that sees a member of its set reads at least that one. -/
theorem left_readWhile_lt {member : Char → Bool} {run : String} {c d : Cursor} {ch : Char}
    (hpeek : c.peek 0 = some ch) (hmem : member ch = true)
    (h : c.readWhile member = .ok (run, d)) : d.left < c.left := by
  unfold readWhile readOnto at h
  simp only [atEnd_of_peek hpeek, hpeek, Option.all_some, hmem, Bool.not_true, Bool.or_self,
    Bool.false_eq_true, if_false] at h
  split at h
  · next hnext => exact Nat.lt_of_le_of_lt (left_readOnto_le h) (left_next hnext)
  · simp at h

theorem left_skipBlanks_le {c d : Cursor} (h : c.skipBlanks = .ok d) : d.left ≤ c.left := by
  unfold skipBlanks at h
  cases hread : c.readWhile isBlank with
  | error e => simp [hread, Except.map] at h
  | ok run =>
    simp only [hread, Except.map, Except.ok.injEq] at h
    subst h
    exact left_readWhile_le hread

end Cursor
end SumLang
