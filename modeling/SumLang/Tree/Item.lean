import SumLang.Tree.Basic

/-!
# Items

A caller may hand over a list in which some things are no trees.  All that is known of such a
thing is that it is none.
-/
namespace SumLang

/-- A tree, or something else in its place. -/
inductive Item where
  | tree (t : Tree)
  | other
deriving Repr

/-- The tree, where the item is one. -/
def Item.tree? : Item → Option Tree
  | tree t => some t
  | other => none

end SumLang
