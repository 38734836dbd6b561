import SumLang.Scalar
import SumLang.Position

/-!
# Trees

A sum is read as a tree.  A leaf is a number or a name; an addition has its left and its right
operand as children and the operator as its value.  Trees may also be made by hand, with any
kind, value and number of children.

Sums lean to the left: a long one is a long chain of first children, its *left spine*.  Work on
a whole tree therefore goes down the spine in a loop and keeps what is pending, so that a long sum
needs no deep recursion.  `fold` is the general form of such a loop: `fold_eq` says that it is the
plain recursion over all children, and nobody needs to unfold it again.

## Main definitions

* `Tree`, with the kinds and constructors of the three nodes of the language.
* `Tree.induction`, the induction over all children.
* `Tree.spine`, the nodes met when going down first children.
* `Tree.fold`, a value for a tree from its root and the values of its children.
-/
namespace SumLang

/-- A node with all that is below it. -/
structure Tree where
  kind : String
  value : Scalar
  pos : Position
  children : List Tree
deriving Repr, Inhabited

/-- What can be wrong with a tree that is taken apart or written. -/
inductive TreeError where
  /-- An operand is asked for that the tree does not have. -/
  | missingChild
  /-- The kind of the node has no written form. -/
  | unsupportedKind (kind : String) (pos : Position)
  /-- The kind of the node asks for its own written form over and over. -/
  | endless
  /-- A text was needed that does not exist. -/
  | unwritable (e : WriteError)
deriving DecidableEq, Repr

namespace TreeError

/-- The wording of a kind without a written form. -/
def describeUnsupported (kind : String) (pos : Position) : Except WriteError String := do
  let place ← pos.describe
  return s!"No expression emitter for kind '{kind}' ({place})"

/-- The wording of what is wrong with a tree.  There is none for what never ends. -/
def message? : TreeError → Option String
  | missingChild => some "tuple index out of range"
  | unsupportedKind kind pos => (describeUnsupported kind pos).toOption
  | endless => none
  | unwritable e => some e.message

end TreeError

namespace Tree

/-- What holds of every tree if it holds of its children holds of all trees. -/
@[elab_as_elim]
theorem induction {motive : Tree → Prop}
    (node : ∀ t : Tree, (∀ c ∈ t.children, motive c) → motive t) (t : Tree) : motive t := by
  match t with
  | ⟨kind, value, pos, children⟩ =>
    apply node
    intro c hc
    have hsize := List.sizeOf_lt_of_mem hc
    exact induction node c

/-! ## Nodes of the language -/

/-- The kind of numbers. -/
def integerKind : String := "integer"

/-- The kind of names. -/
def identifierKind : String := "identifier"

/-- The kind of additions. -/
def addKind : String := "add"

/-- The value of an addition. -/
def plusSign : Scalar := .text "+"

/-- The leaf of a number. -/
def integer (value : Scalar) (pos : Position) : Tree := ⟨integerKind, value, pos, []⟩

/-- The leaf of a name. -/
def identifier (value : Scalar) (pos : Position) : Tree := ⟨identifierKind, value, pos, []⟩

/-- The addition of two trees. -/
def add (left right : Tree) (pos : Position) : Tree := ⟨addKind, plusSign, pos, [left, right]⟩

/-- Whether a tree is an addition, by its kind. -/
def isAdd (t : Tree) : Bool := t.kind == addKind

theorem isAdd_iff {t : Tree} : t.isAdd = true ↔ t.kind = addKind := by simp [isAdd]

/-! ## Parts of a tree -/

/-- The left operand. -/
def left (t : Tree) : Except TreeError Tree :=
  match t.children with
  | l :: _ => .ok l
  | [] => .error .missingChild

/-- The right operand. -/
def right (t : Tree) : Except TreeError Tree :=
  match t.children with
  | _ :: r :: _ => .ok r
  | _ => .error .missingChild

/-- The tree and its first children, going down. -/
def spine : Tree → List Tree
  | ⟨kind, value, pos, []⟩ => [⟨kind, value, pos, []⟩]
  | ⟨kind, value, pos, c :: cs⟩ => ⟨kind, value, pos, c :: cs⟩ :: c.spine

/-! ## Folding a tree -/

variable {α : Type}

/-- Goes back up a spine: `above` holds the nodes passed on the way down, nearest first, each
with the values of its children but the first, and `a` is the value of the first. -/
def foldUp (f : Tree → List α → α) (a : α) (above : List (Tree × List α)) : α :=
  above.foldl (fun a node => f node.1 (a :: node.2)) a

mutual

/-- Goes down the spine of a tree and back up through it and the nodes above it. -/
def foldDown (f : Tree → List α → α) : Tree → List (Tree × List α) → α
  | ⟨kind, value, pos, []⟩, above => foldUp f (f ⟨kind, value, pos, []⟩ []) above
  | ⟨kind, value, pos, c :: cs⟩, above =>
    foldDown f c ((⟨kind, value, pos, c :: cs⟩, foldAll f cs) :: above)

/-- The values of trees that stand side by side. -/
def foldAll (f : Tree → List α → α) : List Tree → List α
  | [] => []
  | t :: ts => foldDown f t [] :: foldAll f ts

end

/-- The value of a tree, where `f` makes that of a node from those of its children. -/
def fold (f : Tree → List α → α) (t : Tree) : α := foldDown f t []

theorem foldUp_cons (f : Tree → List α → α) (a : α) (node : Tree × List α)
    (above : List (Tree × List α)) :
    foldUp f a (node :: above) = foldUp f (f node.1 (a :: node.2)) above := rfl

theorem foldAll_eq_map (f : Tree → List α → α) (ts : List Tree) :
    foldAll f ts = ts.map (fold f) := by
  induction ts with
  | nil => rfl
  | cons t ts ih => simp [foldAll, fold, ih]

theorem foldDown_eq (f : Tree → List α → α) (t : Tree) (above : List (Tree × List α)) :
    foldDown f t above = foldUp f (fold f t) above := by
  match t with
  | ⟨kind, value, pos, []⟩ => simp [fold, foldDown, foldUp]
  | ⟨kind, value, pos, c :: cs⟩ =>
    rw [fold, foldDown, foldDown, foldDown_eq f c, foldDown_eq f c, foldUp_cons, foldUp_cons]
    rfl

/-- The fold is the plain recursion over all children. -/
theorem fold_eq (f : Tree → List α → α) (t : Tree) :
    fold f t = f t (t.children.map (fold f)) := by
  match t with
  | ⟨kind, value, pos, []⟩ => simp [fold, foldDown, foldUp]
  | ⟨kind, value, pos, c :: cs⟩ =>
    rw [fold, foldDown, foldDown_eq, foldUp_cons, foldAll_eq_map]
    rfl

/-- The loop goes along the spine and back: the value of each node is made from that of the node
behind it, if any, and those of its other children. -/
theorem foldr_spine (f : Tree → List α → α) (t : Tree) :
    t.spine.foldr (fun u below => [f u (below ++ u.children.tail.map (fold f))]) [] =
      [fold f t] := by
  match t with
  | ⟨kind, value, pos, []⟩ =>
    rw [fold_eq]
    rfl
  | ⟨kind, value, pos, c :: cs⟩ =>
    rw [spine, List.foldr_cons, foldr_spine f c, fold_eq f ⟨kind, value, pos, c :: cs⟩]
    rfl

end Tree
end SumLang
