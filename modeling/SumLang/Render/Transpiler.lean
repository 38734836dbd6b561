import SumLang.Program
import SumLang.Tree.Agreement
import SumLang.Render.Sheet
import SumLang.Render.Target

/-!
# Transpilers

A transpiler writes lists of trees in the form of its target, one statement a line.  It holds
the sheet of the last list; each list begins on a blank one.  A list that holds something other
than trees is refused before that, and the old sheet stays; where a tree of the list cannot be
written, the lines before it stay on the new sheet.

A statement may also be added to the sheet that is held.
-/
namespace SumLang

/-- A target, and what was last written for it. -/
structure Transpiler where
  target : Target
  sheet : Sheet
deriving DecidableEq, Repr

namespace Transpiler

/-- The transpiler for a target that has written nothing yet. -/
def ofTarget (target : Target) : Transpiler := ⟨target, .blank target.format⟩

/-- The transpiler for the target with a given name. -/
def ofName (name : String) : Except Failure Transpiler :=
  match Target.ofName? name with
  | some target => .ok (ofTarget target)
  | none => .error (.unknownTarget name)

/-- Writes trees, each on a line of its own, on a new sheet. -/
def writeTrees (trees : List Tree) (tr : Transpiler) : Outcome Transpiler Failure String :=
  let (answer, sheet) := (Sheet.blank tr.target.format).writeAll trees
  ((answer.mapError .tree).map fun _ => sheet.text, { tr with sheet := sheet })

/-- Writes a list on a new sheet, if all items are trees. -/
def transpile (items : List Item) (tr : Transpiler) : Outcome Transpiler Failure String :=
  match items.mapM Item.tree? with
  | some trees => tr.writeTrees trees
  | none => (.error .notATree, tr)

/-- Writes the trees of a text on a new sheet, if it can be parsed. -/
def transpileSource (source : String) (tr : Transpiler) : Outcome Transpiler Failure String :=
  match parseSource .strict source with
  | .ok trees => tr.writeTrees trees.toList
  | .error e => (.error e, tr)

/-- Adds a statement to the sheet that is held. -/
def writeStatement (t : Tree) (tr : Transpiler) : Outcome Transpiler Failure Unit :=
  let (answer, sheet) := tr.sheet.write t
  (answer.mapError .tree, { tr with sheet := sheet })

/-- What a caller may ask of a transpiler. -/
inductive Call where
  /-- Write a list. -/
  | transpile (items : List Item)
  /-- Write the trees of a text. -/
  | transpileSource (source : String)
  /-- Add a statement. -/
  | writeStatement (t : Tree)
  /-- The name of the target. -/
  | target
deriving Repr

/-- One call to a transpiler, which answers with a text unless it adds a statement. -/
def perform (call : Call) (tr : Transpiler) : Outcome Transpiler Failure (Option String) :=
  match call with
  | .transpile items =>
    let (answer, tr) := tr.transpile items
    (answer.map some, tr)
  | .transpileSource source =>
    let (answer, tr) := tr.transpileSource source
    (answer.map some, tr)
  | .writeStatement t =>
    let (answer, tr) := tr.writeStatement t
    (answer.map fun _ => none, tr)
  | .target => (.ok tr.target.name, tr)

end Transpiler

/-- The trees of a list in the form of a target. -/
def renderTrees (target : Target) (trees : List Tree) : Except Failure String :=
  ((Transpiler.ofTarget target).writeTrees trees).1

end SumLang
