import SumLang.Tree.Basic
import SumLang.Text.Printable

/-!
# Displaying trees

The display of a tree shows its kind, its value unless there is none, and its children unless
there are none, each by the same rule.  Values are shown in their unambiguous form.  Places are
left out, and kinds are shown as they are.

Going down the spine, each node has its head, which is everything in front of its first child, and
its tail, which is everything behind it.  The heads are put down as they come and the tails in
reverse, so that only children off the spine are displayed on their own.  `displayBy_eq` says that
the outcome is that of the rule.

Which characters of a text are shown as they are is a parameter of the form; `Tree.display`
takes those that are printable.  A tree has no display if one of its values has none.
-/
namespace SumLang
namespace Tree

/-- The display of the value of a node. -/
def displayValue (printable : Char → Bool) (value : Scalar) : Except WriteError String :=
  if value = .null then return "" else return ", value=" ++ (← value.display printable)

/-- The display of a node up to its first child, or all of it if it has none. -/
def displayHead (printable : Char → Bool) (t : Tree) : Except WriteError String := do
  let value ← displayValue printable t.value
  return "ASTNode(" ++ t.kind ++ value ++ if t.children = [] then ")" else ", children=["

mutual

/-- Goes down the spine of a tree and puts together the heads of the nodes passed, their tails and
what is displayed below.  Of both the nearest stands first. -/
def displayDown (printable : Char → Bool) :
    Tree → List String → List String → Except WriteError String
  | ⟨kind, value, pos, []⟩, heads, tails => do
    let head ← displayHead printable ⟨kind, value, pos, []⟩
    return String.join (head :: heads).reverse ++ String.join tails
  | ⟨kind, value, pos, c :: cs⟩, heads, tails => do
    let head ← displayHead printable ⟨kind, value, pos, c :: cs⟩
    let behind ← displayBehind printable cs
    displayDown printable c (head :: heads) ((behind ++ "])") :: tails)

/-- The display of the children behind the first. -/
def displayBehind (printable : Char → Bool) : List Tree → Except WriteError String
  | [] => return ""
  | c :: cs => do
    let first ← displayDown printable c [] []
    let others ← displayBehind printable cs
    return ", " ++ first ++ others

end

/-- The display of a tree, for a given class of printable characters. -/
def displayBy (printable : Char → Bool) (t : Tree) : Except WriteError String :=
  displayDown printable t [] []

/-- The display of a tree. -/
def display : Tree → Except WriteError String := displayBy Text.isPrintable

/-! ## The rule -/

variable (printable : Char → Bool)

/-- What is pending when the loop comes to a tree goes around its display. -/
theorem displayDown_eq (t : Tree) (heads tails : List String) :
    displayDown printable t heads tails =
      (t.displayBy printable).map fun text =>
        String.join heads.reverse ++ text ++ String.join tails := by
  match t with
  | ⟨kind, value, pos, []⟩ =>
    rw [displayBy, displayDown, displayDown]
    cases displayHead printable ⟨kind, value, pos, []⟩ with
    | error e => rfl
    | ok head => simp [Except.map, bind, Except.bind, pure, Except.pure, String.append_assoc]
  | ⟨kind, value, pos, c :: cs⟩ =>
    rw [displayBy, displayDown, displayDown]
    simp only [displayDown_eq c]
    cases displayHead printable ⟨kind, value, pos, c :: cs⟩ with
    | error e => rfl
    | ok head =>
      cases displayBehind printable cs with
      | error e => rfl
      | ok behind =>
        cases c.displayBy printable with
        | error e => rfl
        | ok text => simp [Except.map, bind, Except.bind, String.append_assoc]

theorem displayBy_leaf (kind : String) (value : Scalar) (pos : Position) :
    displayBy printable ⟨kind, value, pos, []⟩ = displayHead printable ⟨kind, value, pos, []⟩ := by
  rw [displayBy, displayDown]
  cases displayHead printable ⟨kind, value, pos, []⟩ with
  | error e => rfl
  | ok head => simp [bind, Except.bind, pure, Except.pure]

theorem displayBy_node (kind : String) (value : Scalar) (pos : Position) (c : Tree)
    (cs : List Tree) :
    displayBy printable ⟨kind, value, pos, c :: cs⟩ = do
      let head ← displayHead printable ⟨kind, value, pos, c :: cs⟩
      let behind ← displayBehind printable cs
      let first ← c.displayBy printable
      return head ++ first ++ (behind ++ "])") := by
  rw [displayBy, displayDown]
  simp only [displayDown_eq]
  cases displayHead printable ⟨kind, value, pos, c :: cs⟩ with
  | error e => rfl
  | ok head =>
    cases displayBehind printable cs with
    | error e => rfl
    | ok behind =>
      cases c.displayBy printable with
      | error e => rfl
      | ok text => simp [Except.map, bind, Except.bind, pure, Except.pure]

theorem displayBehind_eq (ts : List Tree) :
    displayBehind printable ts =
      (ts.mapM (displayBy printable)).map fun texts => String.join (texts.map (", " ++ ·)) := by
  induction ts with
  | nil => rfl
  | cons t ts ih =>
    rw [displayBehind, ih, List.mapM_cons, ← displayBy]
    cases t.displayBy printable with
    | error e => rfl
    | ok text =>
      cases ts.mapM (displayBy printable) with
      | error e => rfl
      | ok texts =>
        simp [Except.map, bind, Except.bind, pure, Except.pure, String.join_cons,
          String.append_assoc]

/-- Texts with commas between them: the first, and each other one behind a comma. -/
theorem intercalate_comma_cons (text : String) (texts : List String) :
    ", ".intercalate (text :: texts) = text ++ String.join (texts.map (", " ++ ·)) := by
  induction texts generalizing text with
  | nil => simp
  | cons next texts ih =>
    rw [String.intercalate_cons_cons, ih, List.map_cons, String.join_cons]
    simp only [String.append_assoc]

/-- The display of a tree follows the rule. -/
theorem displayBy_eq (t : Tree) :
    t.displayBy printable = do
      let value ← displayValue printable t.value
      let children ← t.children.mapM (displayBy printable)
      return "ASTNode(" ++ t.kind ++ value ++
        (if t.children = [] then "" else ", children=[" ++ ", ".intercalate children ++ "]") ++
        ")" := by
  match t with
  | ⟨kind, value, pos, []⟩ =>
    rw [displayBy_leaf, displayHead, List.mapM_nil]
    cases displayValue printable value with
    | error e => rfl
    | ok text => simp [bind, Except.bind, pure, Except.pure, String.append_assoc]
  | ⟨kind, value, pos, c :: cs⟩ =>
    have hclose : "])" = "]" ++ ")" := rfl
    rw [displayBy_node, displayHead, displayBehind_eq, List.mapM_cons]
    cases displayValue printable value with
    | error e => rfl
    | ok text =>
      -- The loop comes to the first child last, but all failures are the same.
      cases c.displayBy printable with
      | error e => cases e; cases cs.mapM (displayBy printable) with
        | error e => cases e; rfl
        | ok texts => rfl
      | ok first =>
        cases cs.mapM (displayBy printable) with
        | error e => rfl
        | ok texts =>
          simp only [Except.map, bind, Except.bind, pure, Except.pure, intercalate_comma_cons,
            hclose, reduceCtorEq, if_false, String.append_assoc]

/-! ## Along the spine -/

/-- The display of a node behind its first child. -/
def displayTail (t : Tree) : Except WriteError String :=
  (displayBehind printable t.children.tail).map (· ++ "])")

/-- The loop goes along the spine: the heads of its nodes from the root on, and then the tails of
those that have children, from the last one on. -/
theorem displayBy_eq_spine (t : Tree) :
    t.displayBy printable = do
      let heads ← t.spine.mapM (displayHead printable)
      let tails ← (t.spine.filter (·.children ≠ [])).mapM (displayTail printable)
      return String.join heads ++ String.join tails.reverse := by
  match t with
  | ⟨kind, value, pos, []⟩ =>
    rw [displayBy_leaf, spine]
    cases hhead : displayHead printable ⟨kind, value, pos, []⟩ with
    | error e => simp [hhead, bind, Except.bind]
    | ok head => simp [hhead, bind, Except.bind, pure, Except.pure]
  | ⟨kind, value, pos, c :: cs⟩ =>
    have hfilter : (spine ⟨kind, value, pos, c :: cs⟩).filter (·.children ≠ []) =
        ⟨kind, value, pos, c :: cs⟩ :: c.spine.filter (·.children ≠ []) := by
      rw [spine, List.filter_cons_of_pos (by simp)]
    have htail : displayTail printable ⟨kind, value, pos, c :: cs⟩ =
        (displayBehind printable cs).map (· ++ "])") := rfl
    rw [displayBy_node, displayBy_eq_spine c, hfilter, spine, List.mapM_cons, List.mapM_cons,
      htail]
    cases displayHead printable ⟨kind, value, pos, c :: cs⟩ with
    | error e => rfl
    | ok head =>
      cases displayBehind printable cs with
      | error e => cases e; cases c.spine.mapM (displayHead printable) with
        | error e => cases e; rfl
        | ok heads => rfl
      | ok behind =>
        cases c.spine.mapM (displayHead printable) with
        | error e => rfl
        | ok heads =>
          cases (c.spine.filter (·.children ≠ [])).mapM (displayTail printable) with
          | error e => rfl
          | ok tails =>
            simp [Except.map, bind, Except.bind, pure, Except.pure, String.append_assoc]

end Tree
end SumLang
