import SumLang.Token.Scan
import SumLang.Parser.Basic
import SumLang.Failure

/-!
# Programs

The trees of a text: its tokens, by the vocabulary of the language, read as sums.
-/
namespace SumLang

/-- The trees of a text. -/
def parseSource (mode : Mode) (source : String) : Except Failure (Array Tree) :=
  match tokenize .standard source with
  | .error e => .error (.ofScan e)
  | .ok tokens => ((Parser.ofTokens tokens).parseProgram mode).1.mapError .ofParse

end SumLang
