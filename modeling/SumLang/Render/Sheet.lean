import SumLang.Session
import SumLang.Render.Format

/-!
# Sheets

A sheet holds the lines of the statements that have been written so far, all in one form.  A
statement that cannot be written leaves the sheet as it is.
-/
namespace SumLang

/-- Lines in one written form. -/
structure Sheet where
  format : Format
  lines : Array String
deriving DecidableEq, Repr

namespace Sheet

/-- The sheet without lines. -/
def blank (format : Format) : Sheet := ⟨format, #[]⟩

/-- The lines as one text. -/
def text (s : Sheet) : String := "\n".intercalate s.lines.toList

/-- Writes one statement. -/
def write (s : Sheet) (t : Tree) : Outcome Sheet TreeError Unit :=
  match s.format.renderStatement t with
  | .ok line => (.ok (), { s with lines := s.lines.push line })
  | .error e => (.error e, s)

/-- Writes statements up to the first that cannot be written. -/
def writeAll : List Tree → Sheet → Outcome Sheet TreeError Unit
  | [], s => (.ok (), s)
  | t :: ts, s =>
    match s.write t with
    | (.ok (), s) => writeAll ts s
    | (.error e, s) => (.error e, s)

/-- What a caller may ask of a sheet. -/
inductive Call where
  /-- The value of a node, taken for a leaf. -/
  | leaf (t : Tree)
  /-- The written form of a tree, taken for a chain of additions. -/
  | sum (t : Tree)
  /-- The written form of a tree. -/
  | render (t : Tree)
  /-- Write a statement. -/
  | write (t : Tree)
deriving Repr

/-- One call to a sheet, which answers with a text unless it is a statement to be written. -/
def perform (call : Call) (s : Sheet) : Outcome Sheet TreeError (Option String) :=
  match call with
  | .leaf t => (t.writtenValue.map some, s)
  | .sum t => ((s.format.renderSum t).map some, s)
  | .render t => ((s.format.render t).map some, s)
  | .write t =>
    let (answer, s) := s.write t
    (answer.map fun _ => none, s)

end Sheet
end SumLang
