import SumLang.Tree.Item

/-!
# Agreement of trees

Two trees agree when their kinds, places and numbers of children are equal, their values agree
and their children agree pairwise.  The first children are compared last: that comparison is
then the rest of the work, and two long sums are compared in a loop.
-/
namespace SumLang
namespace Tree

/-- Whether two nodes agree, their children left aside but counted. -/
def agreesAtRoot (a b : Tree) : Bool :=
  a.kind == b.kind && a.value.agrees b.value && a.pos == b.pos &&
    a.children.length == b.children.length

mutual

/-- Whether two trees are equal, their values being equal as values. -/
def agrees : Tree → Tree → Bool
  | ⟨kind, value, pos, []⟩, b => agreesAtRoot ⟨kind, value, pos, []⟩ b
  | ⟨kind, value, pos, c :: cs⟩, b =>
    agreesAtRoot ⟨kind, value, pos, c :: cs⟩ b &&
      match b.children with
      | d :: ds => agreesAll cs ds && c.agrees d
      | [] => false

/-- Whether trees that stand side by side agree one by one. -/
def agreesAll : List Tree → List Tree → Bool
  | [], [] => true
  | t :: ts, u :: us => t.agrees u && agreesAll ts us
  | [], _ :: _ | _ :: _, [] => false

end

end Tree

/-- How a tree compares with an item. -/
structure TreeComparison where
  equal : Bool
  unequal : Bool
  /-- The comparison from the other side. -/
  converse : Bool
  reflexive : Bool
deriving DecidableEq, Repr

/-- Compares a tree with an item, both ways, and with itself.  No tree agrees with what is
none. -/
def Tree.compare (a : Tree) (item : Item) : TreeComparison :=
  match item with
  | .tree b => ⟨a.agrees b, !a.agrees b, b.agrees a, a.agrees a⟩
  | .other => ⟨false, true, false, a.agrees a⟩

end SumLang
