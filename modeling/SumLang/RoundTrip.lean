import SumLang.Render.Transpiler
import SumLang.Tree.Display

/-!
# Round trips

A text that is read, written in order and read again should give the same trees, up to their
places.  `RoundTrip.ofSource` tries it; `SourceComparison.ofSources` compares the trees of two
texts, places included.
-/
namespace SumLang

/-- What becomes of a text that is read, written and read again. -/
structure RoundTrip where
  /-- The trees of the text, in order. -/
  inOrder : String
  /-- The trees of the text, as S-expressions. -/
  sexpr : String
  /-- Whether the trees that were read again agree with the first ones, places included. -/
  equal : Bool
  /-- Whether the trees that were read again are displayed like the first ones. -/
  sameDisplay : Bool
  /-- Whether the trees that were read again are written as the same text. -/
  stable : Bool
deriving DecidableEq, Repr

/-- Reads a text, writes it in order and reads it again. -/
def RoundTrip.ofSource (source : String) : Except Failure RoundTrip := do
  let first ← parseSource .strict source
  let inOrder ← renderTrees .inOrder first.toList
  let sexpr ← renderTrees .sexpr first.toList
  let again ← parseSource .strict inOrder
  let displays ← (first.mapM Tree.display).mapError .write
  let displaysAgain ← (again.mapM Tree.display).mapError .write
  let inOrderAgain ← renderTrees .source again.toList
  return {
    inOrder
    sexpr
    equal := Tree.agreesAll first.toList again.toList
    sameDisplay := displays == displaysAgain
    stable := inOrderAgain == inOrder }

/-- How the trees of two texts compare. -/
structure SourceComparison where
  /-- Whether there are equally many and all agree. -/
  equal : Bool
  /-- The agreement of pairs, as far as both texts have trees. -/
  pairwise : List Bool
deriving DecidableEq, Repr

/-- Compares the trees of two texts. -/
def SourceComparison.ofSources (a b : String) : Except Failure SourceComparison := do
  let treesA ← parseSource .strict a
  let treesB ← parseSource .strict b
  return {
    equal := Tree.agreesAll treesA.toList treesB.toList
    pairwise := List.zipWith Tree.agrees treesA.toList treesB.toList }

end SumLang
