import SumLang.Proofs.Sums
import SumLang.Render.Transpiler

/-!
# Writing sums

A leaf is written as its value, and a sum that leans to the left needs no parentheses.  Lists of
trees are written line by line, and the text of lines is taken apart again as a list of characters.

## Main statements

* `toList_plain_int`: the characters of a number.
* `Format.render_atom`, `Format.inOrder_add`: the written forms of leaves and of sums.
* `renderTrees_eq_ok`, `renderTrees_eq_error`: a list is written if all its trees are, and else it
  fails as the first that cannot be.
-/
namespace SumLang

/-! ## Characters -/

/-- The characters of written trees that belong to no leaf. -/
def signs : List Char := [' ', '+', '(', ')', ';', '\n']

theorem isLetter_of_mem_signs {c : Char} (h : c ∈ signs) : isLetter c = false := by
  have hall : signs.all (!isLetter ·) = true := by decide
  simpa using List.all_eq_true.mp hall c h

theorem isDigit_of_mem_signs {c : Char} (h : c ∈ signs) : isDigit c = false := by
  have hall : signs.all (!isDigit ·) = true := by decide
  simpa using List.all_eq_true.mp hall c h

/-! ## Numbers -/

theorem isDigit_of_mem_toDigits {n : Nat} {c : Char} (h : c ∈ Nat.toDigits 10 n) :
    isDigit c = true := by
  have hall : ∀ code < 58, 48 ≤ code → isDigit (Char.ofNat code) = true := by decide
  have hdigit := Nat.isDigit_of_mem_toDigits (by decide) (by decide) h
  obtain ⟨hlower, hupper⟩ := Char.isDigit_iff_toNat.mp hdigit
  rw [← Char.ofNat_toNat c]
  exact hall c.toNat (Nat.lt_succ_of_le hupper) hlower

theorem toList_plain_int (n : Int) :
    (Scalar.plain (.int n)).toList =
      if 0 ≤ n then Nat.toDigits 10 n.toNat else '-' :: Nat.toDigits 10 (-n).toNat := by
  rw [Scalar.plain, Int.toString_eq_repr, Int.repr_eq_if]
  split <;> simp [Nat.toList_repr]

theorem toList_plain_natCast (n : Nat) : (Scalar.plain (.int n)).toList = Nat.toDigits 10 n := by
  rw [toList_plain_int, if_pos (Int.natCast_nonneg n), Int.toNat_natCast]

/-- A number of the language has ten digits at most. -/
theorem length_toDigits_le {n : Nat} (small : (n : Int) ≤ greatestNumber) :
    (Nat.toDigits 10 n).length ≤ longestNumeral := by
  have hten : (Nat.toDigits 10 n).length ≤ 10 := by
    rw [Nat.length_toDigits_le_iff (by decide) (by decide)]
    rw [greatestNumber] at small
    omega
  exact Nat.le_trans hten (by decide)

/-- A number of the language can be written. -/
theorem isWritable_of_le_greatestNumber {n : Nat} (small : (n : Int) ≤ greatestNumber) :
    Text.isWritable n = true :=
  decide_eq_true (length_toDigits_le small)

/-! ## Trees -/

namespace Tree

/-- The leaves made by hand that can be written: any number that is not too long, and any word of
letters. -/
inductive IsAtom : Tree → Prop where
  | integer {n : Int} (pos : Position) (writable : Text.isWritable n = true) :
      IsAtom (.integer (.int n) pos)
  | identifier {name : String} (pos : Position) (nonempty : name.toList ≠ [])
      (letters : ∀ c ∈ name.toList, isLetter c = true) : IsAtom (.identifier (.text name) pos)

theorem IsLeaf.isAtom {t : Tree} (h : t.IsLeaf) : t.IsAtom := by
  cases h with
  | integer pos small => exact .integer pos (isWritable_of_le_greatestNumber small)
  | identifier pos free => exact .identifier pos free.nonempty free.letters

theorem IsAtom.written {t : Tree} (h : t.IsAtom) : t.writtenValue = .ok t.value.plain := by
  cases h with
  | @integer n pos writable =>
    show (Scalar.written (.int n)).mapError TreeError.unwritable = .ok (Scalar.plain (.int n))
    rw [Scalar.written, Scalar.isWritable, writable]
    rfl
  | identifier pos nonempty letters => rfl

theorem IsAtom.isAdd {t : Tree} (h : t.IsAtom) : t.isAdd = false := by
  cases h <;> rfl

theorem IsLeaf.isAdd {t : Tree} (h : t.IsLeaf) : t.isAdd = false := h.isAtom.isAdd

end Tree

namespace Format

theorem render_atom (format : Format) {t : Tree} (h : t.IsAtom) :
    format.render t = .ok t.value.plain := by
  have hadd : ¬ t.isAdd = true := by simp [h.isAdd]
  have hkind : t.kind = Tree.integerKind ∨ t.kind = Tree.identifierKind := by
    cases h with
    | integer pos writable => exact .inl rfl
    | identifier pos nonempty letters => exact .inr rfl
  rw [format.render_of_not_isAdd hadd, Tree.writtenOperand, if_pos hkind, h.written]

theorem render_leaf (format : Format) {t : Tree} (h : t.IsLeaf) :
    format.render t = .ok t.value.plain := format.render_atom h.isAtom

/-- The operator of an addition can be written in every format, and is a plus. -/
theorem render_add (format : Format) (left right : Tree) (pos : Position) :
    format.render (.add left right pos) =
      (format.render left).bind fun l => (format.render right).bind fun r =>
        .ok (format.join (.add left right pos) "+" l r) := by
  have hoperator : format.operator (.add left right pos) = .ok "+" := by
    cases format with
    | inOrder => rfl
    | sexpr => rfl
  rw [format.render_of_isAdd rfl rfl, hoperator]
  rfl

/-- In order, a right operand that is a leaf needs no parentheses. -/
theorem inOrder_add {left right : Tree} (pos : Position) {l r : String} (hright : right.IsLeaf)
    (hl : inOrder.render left = .ok l) (hr : inOrder.render right = .ok r) :
    inOrder.render (.add left right pos) = .ok (l ++ " + " ++ r) := by
  have hparens : (Tree.add left right pos).children[1]?.any Tree.isAdd = false := hright.isAdd
  have hsign : " + " = " " ++ "+" ++ " " := rfl
  rw [render_add, hl, hr, hsign]
  simp only [Except.bind, join, hparens, Bool.false_eq_true, if_false, String.append_assoc]

theorem renderStatement_eq_ok {format : Format} {t : Tree} {text : String}
    (h : format.render t = .ok text) :
    format.renderStatement t = .ok (text ++ format.terminator) := by
  rw [renderStatement, h]
  rfl

end Format

/-! ## Lists of trees -/

/-- The tree is written as the line. -/
def Format.Writes (format : Format) (t : Tree) (line : String) : Prop :=
  format.renderStatement t = .ok line

/-- Trees that are written stand on lines of their own, and the others go on behind them. -/
theorem Sheet.writeAll_append {s : Sheet} {front : List Tree} {lines : List String}
    (h : List.Forall₂ s.format.Writes front lines) (behind : List Tree) :
    s.writeAll (front ++ behind) =
      Sheet.writeAll behind { s with lines := s.lines ++ lines.toArray } := by
  induction front generalizing s lines with
  | nil =>
    cases h
    rw [List.nil_append, Array.append_empty]
  | cons t front ih =>
    cases h with
    | @cons _ line _ lines hline hlines =>
      have hwrite : s.write t = (.ok (), { s with lines := s.lines.push line }) := by
        rw [write, hline]
      have hrest := @ih { s with lines := s.lines.push line } lines hlines
      rw [List.cons_append, writeAll, hwrite]
      simp only [hrest]
      rw [List.toArray_cons]
      simp

theorem Sheet.writeAll_eq {s : Sheet} {trees : List Tree} {lines : List String}
    (h : List.Forall₂ s.format.Writes trees lines) :
    s.writeAll trees = (.ok (), { s with lines := s.lines ++ lines.toArray }) := by
  have hall := writeAll_append h []
  rwa [List.append_nil, writeAll] at hall

/-- Behind the trees that are written, one that cannot be written ends it all. -/
theorem Sheet.writeAll_eq_error {s : Sheet} {front : List Tree} {lines : List String}
    (h : List.Forall₂ s.format.Writes front lines) {t : Tree} {e : TreeError}
    (ht : s.format.renderStatement t = .error e) (behind : List Tree) :
    s.writeAll (front ++ t :: behind) = (.error e, { s with lines := s.lines ++ lines.toArray }) := by
  rw [writeAll_append h, writeAll, write]
  simp only [ht]

/-- If each tree of a list is written as a line, the list is written as these lines. -/
theorem renderTrees_eq_ok {target : Target} {trees : List Tree} {lines : List String}
    (h : List.Forall₂ target.format.Writes trees lines) :
    renderTrees target trees = .ok ("\n".intercalate lines) := by
  have hall : List.Forall₂ (Sheet.blank target.format).format.Writes trees lines := h
  rw [renderTrees, Transpiler.writeTrees, Transpiler.ofTarget]
  simp only [Sheet.writeAll_eq hall]
  simp [Sheet.blank, Sheet.text, Except.map, Except.mapError]

/-- If a tree of a list cannot be written, but those in front of it can, the list fails with it. -/
theorem renderTrees_eq_error {target : Target} {front : List Tree} {lines : List String}
    (h : List.Forall₂ target.format.Writes front lines) {t : Tree} {e : TreeError}
    (ht : target.format.renderStatement t = .error e) (behind : List Tree) :
    renderTrees target (front ++ t :: behind) = .error (.tree e) := by
  have hfront : List.Forall₂ (Sheet.blank target.format).format.Writes front lines := h
  rw [renderTrees, Transpiler.writeTrees, Transpiler.ofTarget]
  simp only [Sheet.writeAll_eq_error hfront ht behind]
  rfl

/-- The text of lines, with a gap in front of the first. -/
def textOf (gap : List Char) : List String → List Char
  | [] => []
  | line :: lines => gap ++ line.toList ++ textOf ['\n'] lines

theorem toList_intercalate_newline (lines : List String) :
    ("\n".intercalate lines).toList = textOf [] lines := by
  induction lines with
  | nil => rfl
  | cons line lines ih =>
    cases lines with
    | nil => simp [textOf]
    | cons next lines =>
      rw [String.intercalate_cons_cons, String.toList_append, String.toList_append, ih]
      simp [textOf]

end SumLang
