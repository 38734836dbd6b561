import SumLang.Proofs.Chain
import Mathlib.Data.List.Forall2

/-!
# The nodes of a tree

The nodes of a tree in order are those below its first child, its root, and those below its
other children.  In order, the nodes of the tree of a chain are the tokens of the chain.

The shape of a tree is what remains of it when places do not count.

## Main statements

* `Chain.labels_inOrder`: each token of a chain has its node, at its place.
-/
namespace SumLang

namespace Tree

/-! ## Nodes in order -/

/-- The nodes of a tree in order, given those of its children. -/
def inOrderNode (t : Tree) (children : List (List Tree)) : List Tree :=
  children.headD [] ++ t :: children.tail.flatten

/-- The nodes of a tree in order, each with all that is below it. -/
def inOrder : Tree → List Tree := fold inOrderNode

theorem inOrder_eq (t : Tree) : t.inOrder = inOrderNode t (t.children.map inOrder) := fold_eq _ t

theorem inOrder_of_leaf {t : Tree} (h : t.children = []) : t.inOrder = [t] := by
  rw [inOrder_eq, h]
  rfl

@[simp] theorem inOrder_add (left right : Tree) (pos : Position) :
    (add left right pos).inOrder = left.inOrder ++ add left right pos :: right.inOrder := by
  rw [inOrder_eq]
  simp [inOrderNode, add]

/-! ## Shapes -/

/-- The tree with all places forgotten. -/
def shape : Tree → Tree := fold fun t children => ⟨t.kind, t.value, .start, children⟩

theorem shape_eq (t : Tree) : t.shape = ⟨t.kind, t.value, .start, t.children.map shape⟩ :=
  fold_eq _ t

@[simp] theorem shape_integer (value : Scalar) (pos : Position) :
    (integer value pos).shape = integer value .start := shape_eq _

@[simp] theorem shape_identifier (value : Scalar) (pos : Position) :
    (identifier value pos).shape = identifier value .start := shape_eq _

@[simp] theorem shape_add (left right : Tree) (pos : Position) :
    (add left right pos).shape = add left.shape right.shape .start := shape_eq _

end Tree

/-! ## Tokens and nodes -/

/-- The node is that of the token: it has its place, and is its leaf or the addition that a plus
stands for. -/
structure Token.Labels (t : Token) (node : Tree) : Prop where
  pos : node.pos = t.pos
  node : t.isOperand = true ∧ node = t.leaf ∨
    t.isPlus = true ∧ node.kind = Tree.addKind ∧ node.value = Tree.plusSign

namespace Token

@[simp] theorem pos_leaf (t : Token) : t.leaf.pos = t.pos := by
  unfold leaf
  split <;> rfl

@[simp] theorem children_leaf (t : Token) : t.leaf.children = [] := by
  unfold leaf
  split <;> rfl

end Token

theorem Operand.labels_inOrder (a : Operand) :
    List.Forall₂ Token.Labels [a.token] a.leaf.inOrder := by
  rw [Operand.leaf, Tree.inOrder_of_leaf a.token.children_leaf]
  exact .cons ⟨a.token.pos_leaf, .inl ⟨a.isOperand, rfl⟩⟩ .nil

/-- Additions label what they add to a tree. -/
theorem Addition.labels_inOrder (more : List Addition) {left : Tree} {ts : List Token}
    (h : List.Forall₂ Token.Labels ts left.inOrder) :
    List.Forall₂ Token.Labels (ts ++ allTokens more) (enlarge left more).inOrder := by
  induction more generalizing left ts with
  | nil => rwa [allTokens_nil, List.append_nil, enlarge_nil]
  | cons a more ih =>
    have hplus : Token.Labels a.plus (.add left a.operand.leaf a.plus.pos) :=
      ⟨rfl, .inr ⟨a.isPlus, rfl, rfl⟩⟩
    have hadd : List.Forall₂ Token.Labels (ts ++ a.tokens)
        (Tree.add left a.operand.leaf a.plus.pos).inOrder := by
      rw [Tree.inOrder_add]
      exact List.rel_append h (.cons hplus a.operand.labels_inOrder)
    have hmore := ih hadd
    rw [List.append_assoc] at hmore
    exact hmore

/-- In order, the nodes of the tree of a chain are its tokens. -/
theorem Chain.labels_inOrder (c : Chain) :
    List.Forall₂ Token.Labels c.tokens c.tree.inOrder :=
  Addition.labels_inOrder c.more c.first.labels_inOrder

/-- Every node that is labelled has its token. -/
theorem exists_labels_of_mem {ts : List Token} {nodes : List Tree}
    (h : List.Forall₂ Token.Labels ts nodes) {node : Tree} (hnode : node ∈ nodes) :
    ∃ t ∈ ts, t.Labels node := by
  induction h with
  | nil => simp at hnode
  | @cons t first ts nodes hfirst hrest ih =>
    rcases List.mem_cons.mp hnode with rfl | hnode
    · exact ⟨t, List.mem_cons_self, hfirst⟩
    · obtain ⟨u, hu, hlabels⟩ := ih hnode
      exact ⟨u, List.mem_cons_of_mem t hu, hlabels⟩

end SumLang
