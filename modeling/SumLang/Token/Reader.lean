import SumLang.Token.Scan

/-!
# Readers

A reader is a cursor that several callers may drive: some read characters, some read tokens,
and one goes through the tokens one at a time.  The last is finished once it has been given a
token that ends a text, or a failure, and stays finished even where the cursor could go on;
it can be started anew.

`Reader.perform` is one call.  A failed call may have moved the cursor.
-/
namespace SumLang

/-- A cursor, and whether going through its tokens is finished. -/
structure Reader where
  cursor : Cursor
  finished : Bool
deriving DecidableEq, Repr

namespace Reader

/-- A reader that is about to go through the tokens at a cursor. -/
def ofCursor (c : Cursor) : Reader := ⟨c, false⟩

/-- What a caller may ask of a reader. -/
inductive Call where
  /-- Read one character. -/
  | next
  /-- The character some places ahead. -/
  | peek (offset : Int)
  /-- The character at the cursor. -/
  | current
  /-- Whether there is nothing left to read. -/
  | atEnd
  /-- Read one token. -/
  | nextToken
  /-- Skip blanks. -/
  | skipBlanks
  /-- Read the longest run of characters from a set. -/
  | readWhile (set : String)
  /-- Read all tokens up to the one that ends the text. -/
  | drain
  /-- Begin to go through the tokens anew. -/
  | restart
  /-- The next token of those gone through. -/
  | advance
deriving DecidableEq, Repr

/-- What a reader answers. -/
inductive Reply where
  | nothing
  | text (s : String)
  | truth (b : Bool)
  | token (t : Token)
  | tokens (ts : Array Token)
  /-- There are no more tokens to go through. -/
  | finished
deriving DecidableEq, Repr

/-- The answer to a look ahead: the empty text where there is no character. -/
def Reply.ofPeek : Option Char → Reply
  | some c => .text c.toString
  | none => .text ""

/-- The answer to a look at the current character: nothing at the end. -/
def Reply.ofCurrent : Option Char → Reply
  | some c => .text c.toString
  | none => .nothing

/-- The answer to a call that moves the cursor if it succeeds and leaves it if it fails. -/
def moveTo {α : Type} (r : Reader) (reply : α → Reply) :
    Except ScanError (α × Cursor) → Outcome Reader ScanError Reply
  | .ok (a, c) => (.ok (reply a), { r with cursor := c })
  | .error e => (.error e, r)

/-- The next token of those gone through. -/
def advance (table : Table) (r : Reader) : Outcome Reader ScanError Reply :=
  if r.finished then (.ok .finished, r)
  else match r.cursor.nextToken table with
    | (.ok t, c) => (.ok (.token t), ⟨c, t.isEof⟩)
    | (.error e, c) => (.error e, ⟨c, true⟩)

/-- One call to a reader. -/
def perform (table : Table) (call : Call) (r : Reader) : Outcome Reader ScanError Reply :=
  match call with
  | .next => r.moveTo (fun c => .text c.toString) r.cursor.next
  | .peek offset => (.ok (.ofPeek (r.cursor.peek offset)), r)
  | .current => (r.cursor.current.map .ofCurrent, r)
  | .atEnd => (.ok (.truth r.cursor.atEnd), r)
  | .nextToken =>
    let (answer, c) := r.cursor.nextToken table
    (answer.map .token, { r with cursor := c })
  | .skipBlanks => r.moveTo (fun _ => .nothing) (r.cursor.skipBlanks.map ((), ·))
  | .readWhile set => r.moveTo .text (r.cursor.readWhile set.toList.contains)
  | .drain =>
    let (answer, c) := r.cursor.drain table
    (answer.map .tokens, { r with cursor := c })
  | .restart => (.ok .nothing, { r with finished := false })
  | .advance => r.advance table

end Reader
end SumLang
