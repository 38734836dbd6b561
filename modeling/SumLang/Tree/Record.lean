import SumLang.Tree.Basic

/-!
# Trees as plain records

A record is the plain data of a tree, for storing it or handing it on: five fields, the last of
which is the list of the children's records.
-/
namespace SumLang

/-- The plain data of a tree. -/
structure Record where
  kind : String
  value : Scalar
  line : Int
  column : Int
  children : List Record
deriving Repr, Inhabited

/-- The record of a tree. -/
def Tree.toRecord : Tree → Record :=
  Tree.fold fun t children => ⟨t.kind, t.value, t.pos.line, t.pos.column, children⟩

theorem Tree.toRecord_eq (t : Tree) :
    t.toRecord =
      ⟨t.kind, t.value, t.pos.line, t.pos.column, t.children.map Tree.toRecord⟩ :=
  Tree.fold_eq _ t

end SumLang
