import SumLang.Tree.Basic

/-!
# Written forms of trees

A tree has two written forms.  *In order*, the operator stands between its operands, as in the
language itself; a right operand that is an addition is put in parentheses, while a left one
needs none.  As an *S-expression*, an addition is its value and its operands in parentheses.

A leaf is written as its value, whatever is below it.  An addition is written from its first
two children; others are left out.  A tree with a node that has no written form, or an addition
without two operands, has none either, and neither has one of which a text is needed that does
not exist.  Of several faults the first counts: the left operand of an addition is written first,
then its operator, and then its right operand.

A chain of additions is written in a loop.  It goes down left operands as long as these are
additions and keeps what it passes, writes the operand at the end, and adds the right operands to
this text on the way back, the innermost first.  `Format.render` is the plain recursion on
operands that `render_eq` states.
-/
namespace SumLang

/-- The written forms of trees. -/
inductive Format where
  | inOrder
  | sexpr
deriving DecidableEq, Repr

namespace Tree

/-- The kinds of nodes whose written form is defined by itself. -/
def endlessKinds : List String := ["expr", "statement"]

/-- The value of a node as it is written. -/
def writtenValue (t : Tree) : Except TreeError String := t.value.written.mapError .unwritable

/-- The failure of a node whose kind has no written form, which is worded first. -/
def unsupported (t : Tree) : TreeError :=
  match TreeError.describeUnsupported t.kind t.pos with
  | .ok _ => .unsupportedKind t.kind t.pos
  | .error e => .unwritable e

/-- The written form of a tree that is no addition, by its kind. -/
def writtenOperand (t : Tree) : Except TreeError String :=
  if t.kind = integerKind ∨ t.kind = identifierKind then t.writtenValue
  else if t.kind ∈ endlessKinds then .error .endless
  else .error t.unsupported

end Tree

/-- An addition whose left operand is being written. -/
structure OpenAddition where
  node : Tree
  /-- What comes of writing its right operand, to be looked at after the left one. -/
  right : Except TreeError String

namespace Format

/-- What ends a statement. -/
def terminator : Format → String
  | inOrder => ";"
  | sexpr => ""

/-- The operator of an addition: always the same in order, and the value in an S-expression. -/
def operator (format : Format) (t : Tree) : Except TreeError String :=
  match format with
  | inOrder => .ok "+"
  | sexpr => t.writtenValue

/-- The written form of the addition `t` from those of its operator and its operands. -/
def join (format : Format) (t : Tree) (operator left right : String) : String :=
  match format with
  | inOrder =>
    let right := if t.children[1]?.any Tree.isAdd then "(" ++ right ++ ")" else right
    left ++ " " ++ operator ++ " " ++ right
  | sexpr => "(" ++ operator ++ " " ++ left ++ " " ++ right ++ ")"

/-- Closes an open addition around the text of its left operand. -/
def closeOne (format : Format) (left : String) (add : OpenAddition) : Except TreeError String := do
  let operator ← format.operator add.node
  let right ← add.right
  return format.join add.node operator left right

/-- Closes open additions, the innermost first, around the text of its left operand. -/
def close (format : Format) (chain : List OpenAddition) (text : String) :
    Except TreeError String :=
  chain.foldlM format.closeOne text

mutual

/-- Goes down the left operands of a tree, below the additions of a chain that are open. -/
def renderBelow (format : Format) : Tree → List OpenAddition → Except TreeError String
  | ⟨kind, value, pos, children⟩, chain =>
    let t : Tree := ⟨kind, value, pos, children⟩
    if t.isAdd then
      match children with
      | left :: others => format.renderBelow left (⟨t, format.renderRight others⟩ :: chain)
      | [] => .error .missingChild
    else t.writtenOperand.bind (format.close chain)

/-- The written form of the right operand, given the children behind the left one. -/
def renderRight (format : Format) : List Tree → Except TreeError String
  | right :: _ => format.renderBelow right []
  | [] => .error .missingChild

end

/-- The written form of a tree that is taken for a chain of additions, if only of none. -/
def renderSum (format : Format) (t : Tree) : Except TreeError String := format.renderBelow t []

/-- The written form of a tree. -/
def render (format : Format) (t : Tree) : Except TreeError String :=
  if t.isAdd then format.renderSum t else t.writtenOperand

theorem close_cons (format : Format) (add : OpenAddition) (chain : List OpenAddition)
    (left : String) :
    format.close (add :: chain) left =
      (format.closeOne left add).bind fun text => format.close chain text := by
  rw [close, List.foldlM_cons]
  rfl

/-- The chain that is open is closed around what is written below it. -/
theorem renderBelow_eq (format : Format) (t : Tree) (chain : List OpenAddition) :
    format.renderBelow t chain = (format.render t).bind (format.close chain) := by
  match t with
  | ⟨kind, value, pos, []⟩ =>
    rw [render, renderSum, renderBelow, renderBelow]
    split <;> rfl
  | ⟨kind, value, pos, left :: others⟩ =>
    rw [render, renderSum, renderBelow, renderBelow]
    split
    -- The addition is the innermost of both chains: of the whole one, and of the one it begins.
    · simp only [renderBelow_eq format left]
      cases format.render left with
      | error e => rfl
      | ok text =>
        simp only [Except.bind, close_cons]
        cases format.closeOne text ⟨⟨kind, value, pos, left :: others⟩, _⟩ <;> rfl
    · rfl

/-- Of a tree that is no addition the chain is empty. -/
theorem renderSum_eq (format : Format) (t : Tree) : format.renderSum t = format.render t := by
  rw [renderSum, renderBelow_eq]
  cases format.render t <;> rfl

theorem renderRight_eq (format : Format) {t left : Tree} {others : List Tree}
    (h : t.children = left :: others) :
    format.renderRight others = t.right.bind format.render := by
  rw [Tree.right, h]
  cases others with
  | nil => rfl
  | cons right others => exact format.renderSum_eq right

/-- An addition is written from its left operand, its operator and its right operand, in this
order. -/
theorem render_eq (format : Format) (t : Tree) :
    format.render t =
      if t.isAdd then
        (t.left.bind format.render).bind fun left =>
          (format.operator t).bind fun operator =>
            (t.right.bind format.render).bind fun right =>
              .ok (format.join t operator left right)
      else t.writtenOperand := by
  match t with
  | ⟨kind, value, pos, []⟩ =>
    rw [render, renderSum, renderBelow]
    split <;> rfl
  | ⟨kind, value, pos, left :: others⟩ =>
    have hright := format.renderRight_eq (t := ⟨kind, value, pos, left :: others⟩) rfl
    have hleft : (Tree.left ⟨kind, value, pos, left :: others⟩).bind format.render =
        format.render left := rfl
    rw [render, renderSum, renderBelow, renderBelow_eq, hright, hleft]
    split
    · congr 1
      funext text
      rw [close_cons, closeOne]
      cases format.operator ⟨kind, value, pos, left :: others⟩ with
      | error e => rfl
      | ok operator =>
        cases (Tree.right ⟨kind, value, pos, left :: others⟩).bind format.render <;> rfl
    · rfl

theorem render_of_not_isAdd (format : Format) {t : Tree} (h : ¬ t.isAdd = true) :
    format.render t = t.writtenOperand := by
  rw [render, if_neg h]

/-- An addition with both operands needs nothing else. -/
theorem render_of_isAdd (format : Format) {t left right : Tree} {others : List Tree}
    (hadd : t.isAdd = true) (h : t.children = left :: right :: others) :
    format.render t =
      (format.render left).bind fun l => (format.operator t).bind fun o =>
        (format.render right).bind fun r => .ok (format.join t o l r) := by
  rw [render_eq, if_pos hadd, Tree.left, Tree.right, h]
  rfl

/-- The line of a tree that is a statement of its own. -/
def renderStatement (format : Format) (t : Tree) : Except TreeError String :=
  (format.render t).map (· ++ format.terminator)

end Format
end SumLang
