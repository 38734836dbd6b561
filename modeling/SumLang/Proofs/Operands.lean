import SumLang.Render.Sheet

/-!
# Trees that cannot be written

A tree is written from its operands: the tree itself and, of each operand that is an addition, the
first two children.  What is below a leaf, or behind the second child, does not count.  If every
addition among the operands has two, only an operand by itself can be at fault: because its kind
has no written form, or because of a number that is too long, in its value or in the place that is
named.  A tree can be written exactly if no operand is at fault; otherwise the first one, from left
to right, is the one that is reported.

Of two kinds without a written form it is not reported as such: their written form is defined by
itself, and writing them does not end.

## Main definitions

* `Tree.operands`: the operands of a tree.
* `Format.faultOf`, `Format.firstFault`: what is wrong with an operand, and with the first of a
  tree that is at fault.

## Main statements

* `Format.render_eq_firstFault`: trees with and without an operand at fault.
* `Format.not_render_reports_every_kind`: not every kind without a written form is reported.
-/
namespace SumLang

namespace Tree

/-! ## Operands -/

/-- The operands of a tree from left to right, an addition between its own operands. -/
def operands : Tree → List Tree :=
  fold fun t children =>
    if t.isAdd then (children.take 1).flatten ++ t :: ((children.drop 1).take 1).flatten else [t]

theorem operands_eq (t : Tree) :
    t.operands =
      if t.isAdd then
        (t.children.take 1).flatMap operands ++ t :: ((t.children.drop 1).take 1).flatMap operands
      else [t] := by
  rw [operands, fold_eq, List.flatMap_def, List.flatMap_def, List.map_take, List.map_take,
    List.map_drop]

theorem operands_of_not_isAdd {t : Tree} (h : ¬ t.isAdd = true) : t.operands = [t] := by
  rw [operands_eq, if_neg h]

/-- Every addition among the operands of a tree has both operands.  What is no operand may be as it
likes. -/
def Complete (t : Tree) : Prop := ∀ u ∈ t.operands, u.isAdd = true → 2 ≤ u.children.length

instance (t : Tree) : Decidable t.Complete :=
  inferInstanceAs (Decidable (∀ u ∈ t.operands, u.isAdd = true → 2 ≤ u.children.length))

/-- A complete addition has two operands, which are complete as well. -/
theorem Complete.exists_operands {t : Tree} (h : t.Complete) (hadd : t.isAdd = true) :
    ∃ left right others, t.children = left :: right :: others ∧ left.Complete ∧ right.Complete ∧
      t.operands = left.operands ++ t :: right.operands := by
  have htwo : 2 ≤ t.children.length := by
    apply h t _ hadd
    rw [operands_eq, if_pos hadd]
    exact List.mem_append_right _ List.mem_cons_self
  obtain ⟨left, right, others, hchildren⟩ : ∃ left right others,
      t.children = left :: right :: others := by
    match hcases : t.children with
    | [] => simp [hcases] at htwo
    | [left] => simp [hcases] at htwo
    | left :: right :: others => exact ⟨left, right, others, rfl⟩
  have hoperands : t.operands = left.operands ++ t :: right.operands := by
    rw [operands_eq, if_pos hadd, hchildren]
    simp
  refine ⟨left, right, others, hchildren, ?_, ?_, hoperands⟩
  · intro u hu
    exact h u (by simp [hoperands, hu])
  · intro u hu
    exact h u (by simp [hoperands, hu])

end Tree

namespace Format

open SumLang.Tree

/-! ## What is wrong with an operand -/

/-- The kinds of nodes that have a written form. -/
def writtenKinds : List String := [integerKind, identifierKind, addKind]

/-- Whether the value of a node is written, if its kind is: that of an addition is in S-expressions
only. -/
def needsValue (format : Format) (t : Tree) : Bool := !t.isAdd || format == sexpr

/-- What is wrong with an operand by itself, if anything is. -/
def faultOf (format : Format) (t : Tree) : Option TreeError :=
  if t.kind ∈ writtenKinds then
    if format.needsValue t && !t.value.isWritable then some (.unwritable .numberTooLong) else none
  else if t.kind ∈ endlessKinds then some .endless
  else if t.pos.isWritable then some (.unsupportedKind t.kind t.pos)
  else some (.unwritable .numberTooLong)

/-- What is wrong with the first operand of a tree that is at fault. -/
def firstFault (format : Format) (t : Tree) : Option TreeError :=
  t.operands.findSome? format.faultOf

theorem faultOf_eq_none_iff {format : Format} {t : Tree} :
    format.faultOf t = none ↔
      t.kind ∈ writtenKinds ∧ (format.needsValue t = true → t.value.isWritable = true) := by
  rw [faultOf]
  by_cases hkind : t.kind ∈ writtenKinds
  · cases hneeds : format.needsValue t <;> cases hvalue : t.value.isWritable <;> simp [hkind]
  · rw [if_neg hkind]
    split
    · simp [hkind]
    · split <;> simp [hkind]

theorem firstFault_of_not_isAdd (format : Format) {t : Tree} (h : ¬ t.isAdd = true) :
    format.firstFault t = format.faultOf t := by
  rw [firstFault, operands_of_not_isAdd h, List.findSome?_singleton]

/-- Of an addition it is that of its left operand, or else its own, or else that of its right
operand. -/
theorem firstFault_of_operands (format : Format) {t left right : Tree}
    (h : t.operands = left.operands ++ t :: right.operands) :
    format.firstFault t =
      (format.firstFault left).or ((format.faultOf t).or (format.firstFault right)) := by
  rw [firstFault, h, List.findSome?_append, List.findSome?_cons]
  cases format.faultOf t <;> rfl

/-! ## What comes of writing -/

/-- What comes of an attempt if a given fault is the first, or none is. -/
def Settles (answer : Except TreeError String) : Option TreeError → Prop
  | none => ∃ text, answer = .ok text
  | some e => answer = .error e

/-- Attempts one after the other settle with the first fault. -/
theorem Settles.bind {answer : Except TreeError String} {f : String → Except TreeError String}
    {first second : Option TreeError} (h : Settles answer first)
    (hf : ∀ text, Settles (f text) second) : Settles (answer.bind f) (first.or second) := by
  cases first with
  | some e =>
    obtain rfl : answer = .error e := h
    rfl
  | none =>
    obtain ⟨text, rfl⟩ := h
    exact hf text

theorem settles_writtenValue (t : Tree) :
    Settles t.writtenValue
      (if t.value.isWritable then none else some (.unwritable .numberTooLong)) := by
  rw [writtenValue, Scalar.written]
  cases t.value.isWritable with
  | true => exact ⟨t.value.plain, rfl⟩
  | false => rfl

/-- What is wrong with an addition by itself is what is wrong with its operator. -/
theorem settles_operator (format : Format) {t : Tree} (h : t.isAdd = true) :
    Settles (format.operator t) (format.faultOf t) := by
  have hkind : t.kind ∈ writtenKinds := by
    rw [isAdd_iff.mp h]
    decide
  rw [faultOf, if_pos hkind, needsValue, h]
  cases format with
  | inOrder => exact ⟨"+", rfl⟩
  | sexpr =>
    have hvalue := settles_writtenValue t
    cases hwritable : t.value.isWritable <;> rw [hwritable] at hvalue <;> exact hvalue

theorem settles_writtenOperand (format : Format) {t : Tree} (h : ¬ t.isAdd = true) :
    Settles t.writtenOperand (format.faultOf t) := by
  have hkind : t.kind ∈ writtenKinds ↔ t.kind = integerKind ∨ t.kind = identifierKind := by
    simp [writtenKinds, ← isAdd_iff, h]
  rw [faultOf, writtenOperand]
  by_cases hleaf : t.kind = integerKind ∨ t.kind = identifierKind
  · have hvalue := settles_writtenValue t
    rw [if_pos (hkind.mpr hleaf), if_pos hleaf, needsValue]
    cases hwritable : t.value.isWritable <;> rw [hwritable] at hvalue <;> simpa [h] using hvalue
  · rw [if_neg (mt hkind.mp hleaf), if_neg hleaf, unsupported, TreeError.describeUnsupported,
      Position.describe_eq]
    split
    · rfl
    · cases t.pos.isWritable <;> rfl

theorem settles (format : Format) {t : Tree} (h : t.Complete) :
    Settles (format.render t) (format.firstFault t) := by
  induction t using Tree.induction with
  | node t ih =>
    by_cases hadd : t.isAdd = true
    · obtain ⟨left, right, others, hchildren, hleft, hright, hoperands⟩ := h.exists_operands hadd
      rw [format.firstFault_of_operands hoperands, format.render_of_isAdd hadd hchildren]
      refine (ih left (by simp [hchildren]) hleft).bind fun leftText => ?_
      refine (format.settles_operator hadd).bind fun operator => ?_
      have hjoined : ∀ rightText,
          Settles (.ok (format.join t operator leftText rightText)) none := fun _ => ⟨_, rfl⟩
      have hlast := (ih right (by simp [hchildren]) hright).bind hjoined
      rwa [Option.or_none] at hlast
    · rw [format.firstFault_of_not_isAdd hadd, format.render_of_not_isAdd hadd]
      exact format.settles_writtenOperand hadd

/-- Where every addition has both operands, a tree can be written exactly if all its operands are
of a kind that has a written form, and their values can be written, as far as they are needed.  If
it cannot, it fails because of the first operand at fault, be it for its kind or for a number that
is too long.  A sheet gets one line more in the first case, and stays as it is in the second. -/
theorem render_eq_firstFault (format : Format) {t : Tree} (h : t.Complete) :
    ((∃ text, format.render t = .ok text) ↔
        ∀ u ∈ t.operands, u.kind ∈ writtenKinds ∧
          (format.needsValue u = true → u.value.isWritable = true)) ∧
      (∀ e, format.render t = .error e ↔ format.firstFault t = some e) ∧
      ∀ s : Sheet, s.format = format →
        (∃ text, format.render t = .ok text ∧
          s.write t = (.ok (), { s with lines := s.lines.push (text ++ format.terminator) })) ∨
        ∃ e, format.firstFault t = some e ∧ s.write t = (.error e, s) := by
  have hsettles := format.settles h
  simp only [← faultOf_eq_none_iff]
  rw [← List.findSome?_eq_none_iff, ← firstFault]
  cases hfirst : format.firstFault t with
  | none =>
    rw [hfirst] at hsettles
    obtain ⟨text, htext⟩ := hsettles
    refine ⟨by simp [htext], by simp [htext], ?_⟩
    rintro s rfl
    refine .inl ⟨text, htext, ?_⟩
    rw [Sheet.write, renderStatement, htext]
    rfl
  | some e =>
    rw [hfirst] at hsettles
    have herror : format.render t = .error e := hsettles
    refine ⟨by simp [herror], by simp [herror], ?_⟩
    rintro s rfl
    refine .inr ⟨e, rfl, ?_⟩
    rw [Sheet.write, renderStatement, herror]
    rfl

/-- Of two operands without a written form the left one counts, and what is below it does not, be
it an addition without operands. -/
theorem render_eq_firstFault_of_two :
    let call : Tree := ⟨"call", .null, ⟨2, 3⟩, [⟨addKind, plusSign, ⟨2, 4⟩, []⟩]⟩
    let block : Tree := ⟨"block", .null, ⟨1, 9⟩, []⟩
    let sum : Tree := .add (.add (.integer (.int 1) ⟨1, 1⟩) call ⟨1, 3⟩) block ⟨1, 7⟩
    sum.Complete ∧ sexpr.firstFault sum = some (.unsupportedKind "call" ⟨2, 3⟩) ∧
      sexpr.render sum = .error (.unsupportedKind "call" ⟨2, 3⟩) := by
  intro call block sum
  have hcomplete : sum.Complete := by decide
  have hfirst : sexpr.firstFault sum = some (.unsupportedKind "call" ⟨2, 3⟩) := by decide
  obtain ⟨-, hfails, -⟩ := render_eq_firstFault sexpr hcomplete
  exact ⟨hcomplete, hfirst, (hfails _).mpr hfirst⟩

/-- Not every kind without a written form is reported: writing an operand of the kind "expr" does
not end. -/
theorem not_render_reports_every_kind :
    ¬ ∀ (format : Format) (t : Tree), t.Complete →
      ((∃ text, format.render t = .ok text) ↔ ∀ u ∈ t.operands, u.kind ∈ writtenKinds) ∧
        ∀ u, t.operands.find? (fun u => u.kind ∉ writtenKinds) = some u →
          format.render t = .error (.unsupportedKind u.kind u.pos) := by
  intro hall
  obtain ⟨-, hreported⟩ := hall inOrder ⟨"expr", .null, ⟨0, 0⟩, []⟩ (by decide)
  exact absurd (Except.error.inj (hreported _ rfl)) (by decide)

end Format
end SumLang
