import SumLang.Proofs.Writing

/-!
# Writing nested additions

Trees made by hand may nest on both sides.  Their leaves may be numbers of any size and words of
letters, keywords included.  Unless a number is too long, they have a written form in every format,
and it is built from the written forms of the parts.

Texts are taken apart as lists of characters here: `Format.chars` is the written form of a tree
as such a list.

## Main statements

* `Format.render_of_builtFrom`: trees of additions have a written form.
* `Format.inOrder_chars_add`, `Format.sexpr_chars_add`: how it is built.
* `renderTrees_of_builtFrom`: lists of such trees are written line by line.
* `renderTrees_of_unwritable`: lists with a number that is too long are not written.
-/
namespace SumLang

/-! ## Trees of additions -/

namespace Tree

/-- Additions that nest in any way, with leaves of some kind. -/
inductive BuiltFrom (leaf : Tree → Prop) : Tree → Prop where
  | leaf {t : Tree} (h : leaf t) : BuiltFrom leaf t
  | add {left right : Tree} (pos : Position) (hleft : BuiltFrom leaf left)
      (hright : BuiltFrom leaf right) : BuiltFrom leaf (.add left right pos)

theorem BuiltFrom.mono {leaf leaf' : Tree → Prop} (h : ∀ t, leaf t → leaf' t) {t : Tree}
    (ht : t.BuiltFrom leaf) : t.BuiltFrom leaf' := by
  induction ht with
  | leaf ht => exact .leaf (h _ ht)
  | add pos hleft hright ihleft ihright => exact .add pos ihleft ihright

/-- Leaves of the language are leaves made by hand. -/
theorem BuiltFrom.atoms {t : Tree} (h : t.BuiltFrom IsLeaf) : t.BuiltFrom IsAtom :=
  h.mono fun _ => IsLeaf.isAtom

@[simp] theorem isAdd_add (left right : Tree) (pos : Position) :
    (add left right pos).isAdd = true := rfl

/-! ## The texts of leaves -/

/-- Whether a character may stand in the text of a leaf. -/
def isAtomChar (c : Char) : Bool := isLetter c || isDigit c || c == '-'

theorem isAtomChar_of_mem_signs {c : Char} (h : c ∈ signs) : isAtomChar c = false := by
  have hminus : c ≠ '-' := by
    rintro rfl
    exact absurd h (by decide)
  simp [isAtomChar, isLetter_of_mem_signs h, isDigit_of_mem_signs h, hminus]

/-- The text of a number is no empty one, and consists of such characters as leaves do. -/
theorem plain_int_ne_nil (n : Int) : (Scalar.plain (.int n)).toList ≠ [] := by
  rw [toList_plain_int]
  split
  · exact Nat.toDigits_ne_nil
  · exact List.cons_ne_nil _ _

theorem isAtomChar_of_mem_plain_int {n : Int} {c : Char}
    (hc : c ∈ (Scalar.plain (.int n)).toList) : isAtomChar c = true := by
  have hdigit : ∀ n : Nat, c ∈ Nat.toDigits 10 n → isAtomChar c = true := by
    intro n hn
    rw [isAtomChar, isDigit_of_mem_toDigits hn, Bool.or_true, Bool.true_or]
  rw [toList_plain_int] at hc
  split at hc
  · exact hdigit _ hc
  · rcases List.mem_cons.mp hc with rfl | hc
    · rfl
    · exact hdigit _ hc

theorem IsAtom.plain_ne_nil {t : Tree} (h : t.IsAtom) : t.value.plain.toList ≠ [] := by
  cases h with
  | integer pos writable => exact plain_int_ne_nil _
  | identifier pos nonempty letters => exact nonempty

theorem IsAtom.isAtomChar_of_mem {t : Tree} (h : t.IsAtom) {c : Char}
    (hc : c ∈ t.value.plain.toList) : isAtomChar c = true := by
  cases h with
  | integer pos writable => exact isAtomChar_of_mem_plain_int hc
  | identifier pos nonempty letters =>
    rw [isAtomChar, letters c hc, Bool.true_or, Bool.true_or]

theorem IsAtom.notMem_of_mem_signs {t : Tree} (h : t.IsAtom) {c : Char} (hc : c ∈ signs) :
    c ∉ t.value.plain.toList := by
  intro hmem
  have hchar := h.isAtomChar_of_mem hmem
  rw [isAtomChar_of_mem_signs hc] at hchar
  exact absurd hchar (by decide)

end Tree

/-! ## Written forms -/

namespace Format

open SumLang.Tree

/-- The characters of the written form of a tree; none if it has no such form. -/
def chars (format : Format) (t : Tree) : List Char := ((format.render t).toOption.getD "").toList

theorem chars_of_render {format : Format} {t : Tree} {text : String}
    (h : format.render t = .ok text) : format.chars t = text.toList := by
  rw [chars, h]
  rfl

/-- Trees of additions of leaves that can be written have a written form. -/
theorem render_of_builtFrom (format : Format) {t : Tree} (h : t.BuiltFrom IsAtom) :
    format.render t = .ok (String.ofList (format.chars t)) := by
  have hrender : ∃ text, format.render t = .ok text := by
    induction h with
    | leaf h => exact ⟨_, format.render_atom h⟩
    | @add left right pos hleft hright ihleft ihright =>
      obtain ⟨l, hl⟩ := ihleft
      obtain ⟨r, hr⟩ := ihright
      refine ⟨format.join (.add left right pos) "+" l r, ?_⟩
      rw [render_add, hl, hr]
      rfl
  obtain ⟨text, htext⟩ := hrender
  rw [chars_of_render htext, htext, String.ofList_toList]

theorem chars_atom (format : Format) {t : Tree} (h : t.IsAtom) :
    format.chars t = t.value.plain.toList := chars_of_render (format.render_atom h)

section Additions

variable {left right : Tree} (hleft : left.BuiltFrom IsAtom) (hright : right.BuiltFrom IsAtom)
  (pos : Position)
include hleft hright

theorem chars_add (format : Format) :
    format.chars (.add left right pos) =
      (format.join (.add left right pos) "+" (String.ofList (format.chars left))
        (String.ofList (format.chars right))).toList := by
  apply chars_of_render
  rw [render_add, format.render_of_builtFrom hleft, format.render_of_builtFrom hright]
  rfl

/-- As an S-expression, an addition is in parentheses. -/
theorem sexpr_chars_add :
    sexpr.chars (.add left right pos) =
      ['(', '+', ' '] ++ sexpr.chars left ++ [' '] ++ sexpr.chars right ++ [')'] := by
  rw [chars_add hleft hright, join]
  simp

/-- The characters of a right operand that is written in order. -/
def operandChars (t : Tree) : List Char :=
  if t.isAdd then '(' :: (inOrder.chars t ++ [')']) else inOrder.chars t

/-- In order, only right operands that are additions are in parentheses. -/
theorem inOrder_chars_add :
    inOrder.chars (.add left right pos) =
      inOrder.chars left ++ [' ', '+', ' '] ++ operandChars right := by
  have hoperand : (Tree.add left right pos).children[1]?.any Tree.isAdd = right.isAdd := rfl
  rw [chars_add hleft hright, join, operandChars]
  simp only [hoperand]
  split <;> simp

end Additions

/-! ## Lines -/

/-- The line of a tree of additions. -/
def line (format : Format) (t : Tree) : String :=
  String.ofList (format.chars t) ++ format.terminator

@[simp] theorem toList_line (format : Format) (t : Tree) :
    (format.line t).toList = format.chars t ++ format.terminator.toList := by
  rw [line, String.toList_append, String.toList_ofList]

/-- Every tree of a list is written as its line. -/
theorem writes_lines (format : Format) {trees : List Tree} (h : ∀ t ∈ trees, t.BuiltFrom IsAtom) :
    List.Forall₂ format.Writes trees (trees.map format.line) := by
  rw [List.forall₂_map_right_iff, List.forall₂_same]
  intro t ht
  exact renderStatement_eq_ok (format.render_of_builtFrom (h t ht))

end Format

/-- Lists of trees of additions are written line by line. -/
theorem renderTrees_of_builtFrom (target : Target) {trees : List Tree}
    (h : ∀ t ∈ trees, t.BuiltFrom Tree.IsAtom) :
    renderTrees target trees = .ok ("\n".intercalate (trees.map target.format.line)) :=
  renderTrees_eq_ok (target.format.writes_lines h)

/-! ## Numbers that are too long -/

namespace Tree

/-- The leaves made by hand: any number, and any word of letters. -/
inductive IsHandmade : Tree → Prop where
  | integer (n : Int) (pos : Position) : IsHandmade (.integer (.int n) pos)
  | identifier {name : String} (pos : Position) (nonempty : name.toList ≠ [])
      (letters : ∀ c ∈ name.toList, isLetter c = true) : IsHandmade (.identifier (.text name) pos)

/-- Whether all values of a tree can be written. -/
def isWritable : Tree → Bool := fold fun t children => t.value.isWritable && children.all id

theorem isWritable_eq (t : Tree) :
    t.isWritable = (t.value.isWritable && t.children.all isWritable) := by
  rw [isWritable, fold_eq, List.all_map]
  rfl

@[simp] theorem isWritable_add (left right : Tree) (pos : Position) :
    (add left right pos).isWritable = (left.isWritable && right.isWritable) := by
  rw [isWritable_eq]
  simp [add, plusSign, Scalar.isWritable]

theorem IsHandmade.isAtom {t : Tree} (h : t.IsHandmade) (hwritable : t.isWritable = true) :
    t.IsAtom := by
  rw [isWritable_eq, Bool.and_eq_true] at hwritable
  cases h with
  | integer n pos => exact .integer pos hwritable.1
  | identifier pos nonempty letters => exact .identifier pos nonempty letters

/-- A leaf made by hand that cannot be written is a number that is too long. -/
theorem IsHandmade.render_of_unwritable (format : Format) {t : Tree} (h : t.IsHandmade)
    (hunwritable : t.isWritable = false) :
    format.render t = .error (.unwritable .numberTooLong) := by
  rw [isWritable_eq] at hunwritable
  cases h with
  | integer n pos =>
    change ((Scalar.int n).isWritable && true) = false at hunwritable
    rw [Bool.and_true] at hunwritable
    have hwritten : (Tree.integer (.int n) pos).writtenValue =
        .error (.unwritable .numberTooLong) := by
      show (Scalar.written (.int n)).mapError TreeError.unwritable = _
      rw [Scalar.written, hunwritable]
      rfl
    have hadd : (Tree.integer (.int n) pos).isAdd = false := rfl
    rw [format.render_of_not_isAdd (by simp [hadd]), writtenOperand, if_pos (.inl rfl), hwritten]
  | identifier pos nonempty letters => cases hunwritable

theorem BuiltFrom.isAtom {t : Tree} (h : t.BuiltFrom IsHandmade) (hwritable : t.isWritable = true) :
    t.BuiltFrom IsAtom := by
  induction h with
  | leaf h => exact .leaf (h.isAtom hwritable)
  | add pos hleft hright ihleft ihright =>
    rw [isWritable_add, Bool.and_eq_true] at hwritable
    exact .add pos (ihleft hwritable.1) (ihright hwritable.2)

/-- A tree of additions with a number that is too long has no written form. -/
theorem BuiltFrom.render_of_unwritable (format : Format) {t : Tree} (h : t.BuiltFrom IsHandmade)
    (hunwritable : t.isWritable = false) :
    format.render t = .error (.unwritable .numberTooLong) := by
  induction h with
  | leaf h => exact h.render_of_unwritable format hunwritable
  | @add left right pos hleft hright ihleft ihright =>
    rw [Format.render_add]
    cases hl : left.isWritable with
    | false =>
      rw [ihleft hl]
      rfl
    | true =>
      have hr : right.isWritable = false := by simpa [hl] using hunwritable
      rw [format.render_of_builtFrom (hleft.isAtom hl), ihright hr]
      rfl

end Tree

/-- A list of trees of additions with a number that is too long is not written. -/
theorem renderTrees_of_unwritable (target : Target) {trees : List Tree}
    (h : ∀ t ∈ trees, t.BuiltFrom Tree.IsHandmade)
    (hunwritable : trees.all Tree.isWritable = false) :
    renderTrees target trees = .error (.tree (.unwritable .numberTooLong)) := by
  obtain ⟨t, hfirst⟩ : ∃ t, trees.find? (!·.isWritable) = some t := by
    rw [← Option.isSome_iff_exists, List.find?_isSome]
    simpa using hunwritable
  obtain ⟨ht, front, behind, rfl, hfront⟩ := List.find?_eq_some_iff_append.mp hfirst
  have hatoms : ∀ u ∈ front, u.BuiltFrom Tree.IsAtom := by
    intro u hu
    exact (h u (List.mem_append_left _ hu)).isAtom (by simpa using hfront u hu)
  have hrender := (h t (by simp)).render_of_unwritable target.format (by simpa using ht)
  have hstatement : target.format.renderStatement t = .error (.unwritable .numberTooLong) := by
    rw [Format.renderStatement, hrender]
    rfl
  exact renderTrees_eq_error (target.format.writes_lines hatoms) hstatement behind

end SumLang
