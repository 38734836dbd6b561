import SumLang.Render.Format

/-!
# Targets

A target is a name for a written form.  The in-order form has two names, for it is also the
language itself.  Names are compared without regard to case.  Besides the capital Latin letters
one more character has a plain Latin letter as its small form: the sign for degrees Kelvin,
which is a capital K by another code.
-/
namespace SumLang

/-- The names of written forms. -/
inductive Target where
  /-- Additions with the operator between its operands. -/
  | inOrder
  /-- The language itself. -/
  | source
  /-- S-expressions. -/
  | sexpr
deriving DecidableEq, Repr

namespace Target

/-- All targets. -/
def all : List Target := [inOrder, source, sexpr]

/-- The name of a target. -/
def name : Target → String
  | inOrder => "infix"
  | source => "monkey"
  | sexpr => "sexpr"

/-- The written form that a target names. -/
def format : Target → Format
  | inOrder | source => .inOrder
  | sexpr => .sexpr

/-- The small letter for each capital one that has a small Latin letter without marks. -/
def foldCase (c : Char) : Char := if c = '\u212a' then 'k' else c.toLower

/-- The target with a given name. -/
def ofName? (name : String) : Option Target :=
  all.find? fun target => target.name.toList == name.toList.map foldCase

theorem ofName?_name (target : Target) : ofName? target.name = some target := by
  cases target <;> decide

end Target
end SumLang
