import SumLang.Render.Format
import SumLang.Tree.Display
import SumLang.Tree.Record

/-!
# Loops along the spine and plain recursion

Trees are written, displayed and turned into records in loops along their left spine, which put
aside what is pending.  The definitions here do the same by plain recursion on operands or
children, and know no order but that of the recursion.  They agree with the loops on every tree:
nodes of any kind, with any value and any number of children, and where a tree cannot be written,
the error is the one that the recursion meets first.

## Main definitions

* `Format.renderPlain`, `Tree.displayPlain`, `Tree.recordPlain`: the plain recursions.

## Main statements

* `Format.render_eq_renderPlain`: the written form of a tree, or its first error.
* `Format.not_render_missing_right`: that a right operand is missing need not be the first error.
* `Tree.display_and_record_eq_plain`: the display and the record of a tree.
-/
namespace SumLang

/-! ## Written forms -/

namespace Format

/-- The sign between the operands of an addition with a value.  In order it is a plus, and in an
S-expression the value. -/
def sign (format : Format) (value : Scalar) : Except TreeError String :=
  match format with
  | inOrder => .ok "+"
  | sexpr => value.written.mapError .unwritable

/-- The text of an addition with a right operand, from its sign and the texts of both operands.  In
order, that of the right one is in parentheses exactly if it is an addition itself. -/
def sumText (format : Format) (right : Tree) (sign leftText rightText : String) : String :=
  match format with
  | inOrder =>
    leftText ++ " " ++ sign ++ " " ++
      if right.kind = Tree.addKind then "(" ++ rightText ++ ")" else rightText
  | sexpr => "(" ++ sign ++ " " ++ leftText ++ " " ++ rightText ++ ")"

/-- The written form of a tree by recursion on operands: an addition needs its left operand, then
the text of that, then its sign, then its right operand, and then the text of that. -/
def renderPlain (format : Format) : Tree → Except TreeError String
  | ⟨kind, value, pos, children⟩ =>
    if kind = Tree.addKind then
      match children with
      | [] => .error .missingChild
      | left :: others =>
        (format.renderPlain left).bind fun leftText =>
          (format.sign value).bind fun sign =>
            match others with
            | [] => .error .missingChild
            | right :: _ =>
              (format.renderPlain right).bind fun rightText =>
                .ok (format.sumText right sign leftText rightText)
    else Tree.writtenOperand ⟨kind, value, pos, children⟩

theorem operator_eq_sign (format : Format) (t : Tree) : format.operator t = format.sign t.value := by
  cases format with
  | inOrder => rfl
  | sexpr => rfl

theorem join_eq_sumText (format : Format) {t left right : Tree} {others : List Tree}
    (h : t.children = left :: right :: others) (sign leftText rightText : String) :
    format.join t sign leftText rightText = format.sumText right sign leftText rightText := by
  cases format with
  | inOrder => simp [join, sumText, h, Tree.isAdd]
  | sexpr => rfl

/-- The loop along a chain of additions gives the text of the recursion, or its first error,
whether or not the tree is an addition. -/
theorem render_eq_renderPlain (format : Format) (t : Tree) :
    format.render t = format.renderPlain t ∧ format.renderSum t = format.renderPlain t := by
  have hrender : format.render t = format.renderPlain t := by
    induction t using Tree.induction with
    | node t ih =>
      rw [render_eq, operator_eq_sign]
      simp only [Tree.isAdd_iff]
      match t with
      | ⟨kind, value, pos, []⟩ =>
        rw [renderPlain]
        rfl
      | ⟨kind, value, pos, [left]⟩ =>
        have hleft : format.render left = format.renderPlain left := ih left List.mem_cons_self
        rw [renderPlain, ← hleft]
        rfl
      | ⟨kind, value, pos, left :: right :: others⟩ =>
        have hleft : format.render left = format.renderPlain left := ih left List.mem_cons_self
        have hright : format.render right = format.renderPlain right :=
          ih right (List.mem_cons_of_mem left List.mem_cons_self)
        have hjoin := format.join_eq_sumText
          (t := ⟨kind, value, pos, left :: right :: others⟩) rfl
        rw [renderPlain, ← hleft]
        simp only [← hright, hjoin]
        rfl
  exact ⟨hrender, by rw [renderSum_eq, hrender]⟩

/-- A missing right operand is not always what is wrong with an addition whose left one has been
written: in an S-expression its value comes first, and may be a number that is too long. -/
theorem not_render_missing_right :
    ¬ ∀ (format : Format) (t : Tree) (leftText : String), t.isAdd = true →
      t.left.bind format.render = .ok leftText → t.right = .error .missingChild →
        format.render t = .error .missingChild := by
  intro hall
  let t : Tree := ⟨Tree.addKind, .int Text.leastUnwritable, .start, [.integer (.int 1) .start]⟩
  have hsign : sexpr.sign t.value = .error (.unwritable .numberTooLong) := by
    show (Scalar.written (.int Text.leastUnwritable)).mapError TreeError.unwritable = _
    rw [Scalar.written, Scalar.isWritable, Text.isWritable_leastUnwritable]
    rfl
  have hadd : t.isAdd = true := rfl
  have hleft : t.left.bind sexpr.render = .ok "1" := rfl
  have hmissing := hall sexpr t "1" hadd hleft rfl
  rw [render_eq, if_pos hadd, hleft, operator_eq_sign] at hmissing
  simp [Except.bind, hsign] at hmissing

end Format

/-! ## Displays and records -/

namespace Tree

/-- The display of a value behind a kind: there is none of no value. -/
def valuePlain (printable : Char → Bool) (value : Scalar) : Except WriteError String :=
  if value = .null then .ok "" else (value.display printable).map (", value=" ++ ·)

/-- The display of a tree by recursion on children. -/
def displayPlain (printable : Char → Bool) : Tree → Except WriteError String
  | ⟨kind, value, _, children⟩ => do
    let valueText ← valuePlain printable value
    let texts ← children.mapM (displayPlain printable)
    return "ASTNode(" ++ kind ++ valueText ++
      (if children = [] then "" else ", children=[" ++ ", ".intercalate texts ++ "]") ++ ")"

/-- The record of a tree by recursion on children. -/
def recordPlain : Tree → Record
  | ⟨kind, value, pos, children⟩ =>
    ⟨kind, value, pos.line, pos.column, children.map recordPlain⟩

theorem displayValue_eq_valuePlain (printable : Char → Bool) (value : Scalar) :
    displayValue printable value = valuePlain printable value := by
  rw [displayValue, valuePlain]
  split
  · rfl
  · cases value.display printable <;> rfl

/-- Attempts on the members of a list come to the same if they do on each member. -/
theorem mapM_congr_left {α β : Type} {f g : α → Except WriteError β} {as : List α}
    (h : ∀ a ∈ as, f a = g a) : as.mapM f = as.mapM g := by
  induction as with
  | nil => rfl
  | cons a as ih =>
    rw [List.forall_mem_cons] at h
    rw [List.mapM_cons, List.mapM_cons, h.1, ih h.2]

/-- The loops along the spine give the display and the record of the recursion, whatever
characters are shown as they are. -/
theorem display_and_record_eq_plain (printable : Char → Bool) (t : Tree) :
    t.displayBy printable = t.displayPlain printable ∧ t.toRecord = t.recordPlain := by
  induction t using Tree.induction with
  | node t ih =>
    have hdisplays : t.children.mapM (displayBy printable) =
        t.children.mapM (displayPlain printable) :=
      mapM_congr_left fun c hc => (ih c hc).1
    have hrecords : t.children.map toRecord = t.children.map recordPlain :=
      List.map_congr_left fun c hc => (ih c hc).2
    rw [displayBy_eq, toRecord_eq, hdisplays, hrecords, displayValue_eq_valuePlain]
    cases t
    rw [displayPlain, recordPlain]
    exact ⟨rfl, rfl⟩

end Tree
end SumLang
