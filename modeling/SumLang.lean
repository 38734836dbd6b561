import SumLang.Cursor.Rest
import SumLang.RoundTrip
import SumLang.Token.Reader
import SumLang.Parser.Calls
import SumLang.Tree.Record
import SumLang.Proofs.Lexing
import SumLang.Proofs.Chain
import SumLang.Proofs.Reading
import SumLang.Proofs.Findings
import SumLang.Proofs.Separation
import SumLang.Proofs.Recovery
import SumLang.Proofs.Acceptance
import SumLang.Proofs.Blocks
import SumLang.Proofs.StrictRuns
import SumLang.Proofs.Sums
import SumLang.Proofs.Writing
import SumLang.Proofs.Rereading
import SumLang.Proofs.Modes
import SumLang.Proofs.Numerals
import SumLang.Proofs.Nested
import SumLang.Proofs.Parentheses
import SumLang.Proofs.Unambiguity
import SumLang.Proofs.Origins
import SumLang.Proofs.Overwriting
import SumLang.Proofs.ParserSessions
import SumLang.Proofs.Resuming
import SumLang.Proofs.Semicolons
import SumLang.Proofs.Joining
import SumLang.Proofs.ReaderSessions
import SumLang.Proofs.Extent
import SumLang.Proofs.TranspilerSessions
import SumLang.Proofs.PlainRecursion
import SumLang.Proofs.Operands
import SumLang.Proofs.Agreement
import SumLang.Proofs.Passage
import SumLang.Proofs.Runs
import SumLang.Proofs.Quoting
import SumLang.Proofs.Displays
