import SumLang.ScanError
import SumLang.ParseError
import SumLang.Tree.Basic

/-!
# Failures

Everything that can go wrong between a text and another written form of it.
-/
namespace SumLang

/-- What went wrong. -/
inductive Failure where
  | scan (e : ScanError)
  | parse (e : ParseError)
  | write (e : WriteError)
  /-- A token is asked for at a place before all tokens. -/
  | outOfReach
  | tree (e : TreeError)
  /-- No target has the given name. -/
  | unknownTarget (name : String)
  /-- A list of trees holds something that is none. -/
  | notATree
deriving DecidableEq, Repr

namespace Failure

/-- What went wrong if scanning has failed: a failure without a wording is reported as that. -/
def ofScan (e : ScanError) : Failure :=
  match e.message with
  | .ok _ => scan e
  | .error cause => write cause

/-- What went wrong if parsing has failed. -/
def ofParse : ParseFailure → Failure
  | .violation e => parse e
  | .unwritable e => write e

/-- The wording of a failure, where it has one. -/
def message? : Failure → Option String
  | scan e => e.message.toOption
  | parse e => e.message.toOption
  | write e => some e.message
  | outOfReach => some "list index out of range"
  | tree e => e.message?
  | unknownTarget name =>
    some ("Unknown transpilation target: " ++ Text.quoted Text.isPrintable name)
  | notATree => some "All items in AST must be ASTNode instances."

end Failure
end SumLang
