import SumLang.Proofs.Nested
import SumLang.Proofs.Lexing

/-!
# Written forms show the shape

Two lists of additions are written as the same text only if their trees have the same shapes, in
either format and whatever the leaves.

Texts are taken apart from the end.  In order, the last right operand is a leaf or ends with a
parenthesis, and the plus in front of it is followed by nothing but this operand.  So the induction
over a tree goes from its right operands to its left ones, and both written forms are treated
alike: what stands in front of a tree is what the two texts have to agree on next.

## Main statements

* `Tree.IsAtom.append_inj`: a leaf is determined by the end of a text.
* `Format.chars_append_inj`: so is a whole tree.
* `renderTrees_eq_iff_shapes`: lists of trees with the same text have the same shapes.
* `not_renderTrees_eq_iff_shapes`: with a number that is too long there is no text.
-/
namespace SumLang

/-! ## The texts of leaves -/

theorem toDigits_inj {m n : Nat} (h : Nat.toDigits 10 m = Nat.toDigits 10 n) : m = n := by
  have hm : Nat.ofDigitChars 10 (Nat.toDigits 10 m) 0 = m := Nat.ofDigitChars_ten_toDigits
  have hn : Nat.ofDigitChars 10 (Nat.toDigits 10 n) 0 = n := Nat.ofDigitChars_ten_toDigits
  rw [← hm, h, hn]

theorem minus_notMem_toDigits (n : Nat) : '-' ∉ Nat.toDigits 10 n := by
  intro hmem
  exact absurd (isDigit_of_mem_toDigits hmem) (by decide)

/-- Numbers with the same text are equal. -/
theorem plain_int_inj {m n : Int}
    (h : (Scalar.plain (.int m)).toList = (Scalar.plain (.int n)).toList) : m = n := by
  rw [toList_plain_int, toList_plain_int] at h
  split at h <;> split at h
  · have heq := toDigits_inj h
    omega
  · exact absurd (h ▸ List.mem_cons_self) (minus_notMem_toDigits _)
  · exact absurd (h ▸ List.mem_cons_self) (minus_notMem_toDigits _)
  · have heq := toDigits_inj (List.cons.inj h).2
    omega

/-- The text of a number has a digit. -/
theorem exists_isDigit_mem_plain (n : Int) :
    ∃ c ∈ (Scalar.plain (.int n)).toList, isDigit c = true := by
  have hdigit : ∀ m : Nat, ∃ c ∈ Nat.toDigits 10 m, isDigit c = true := by
    intro m
    obtain ⟨c, hc⟩ := List.exists_mem_of_ne_nil _ (Nat.toDigits_ne_nil (b := 10) (n := m))
    exact ⟨c, hc, isDigit_of_mem_toDigits hc⟩
  rw [toList_plain_int]
  split
  · exact hdigit _
  · obtain ⟨c, hc, hisDigit⟩ := hdigit (-n).toNat
    exact ⟨c, List.mem_cons_of_mem _ hc, hisDigit⟩

namespace Tree

/-- The text of a number is no word. -/
theorem plain_int_ne {n : Int} {name : String} (letters : ∀ c ∈ name.toList, isLetter c = true) :
    (Scalar.plain (.int n)).toList ≠ name.toList := by
  intro heq
  obtain ⟨c, hc, hdigit⟩ := exists_isDigit_mem_plain n
  rw [heq] at hc
  have hother : isLetter c = false := CharClass.excludes .digit .letter (by decide) hdigit
  rw [letters c hc] at hother
  exact absurd hother (by decide)

/-- Leaves with the same text have the same shape. -/
theorem IsAtom.shape_eq {t u : Tree} (ht : t.IsAtom) (hu : u.IsAtom)
    (h : t.value.plain.toList = u.value.plain.toList) : t.shape = u.shape := by
  cases ht with
  | @integer m pos writable =>
    cases hu with
    | @integer n pos' writable' =>
      obtain rfl : m = n := plain_int_inj h
      simp
    | identifier pos' nonempty letters => exact absurd h (plain_int_ne letters)
  | @identifier name pos nonempty letters =>
    cases hu with
    | integer pos' writable => exact absurd h.symm (plain_int_ne letters)
    | @identifier name' pos' nonempty' letters' =>
      obtain rfl : name = name' := String.toList_injective h
      simp

end Tree

/-- No member of the set stands at the end of the text. -/
def StopsBehind (member : Char → Bool) (front : List Char) : Prop := Stops member front.reverse

theorem stopsBehind_nil (member : Char → Bool) : StopsBehind member [] := by
  intro c hc
  simp at hc

theorem stopsBehind_append {member : Char → Bool} {c : Char} (hc : member c = false)
    (front : List Char) : StopsBehind member (front ++ [c]) := by
  intro d hd
  obtain rfl : c = d := by simpa using hd
  exact hc

/-- A run of members behind something else is the longest run at the end. -/
theorem append_run_inj {member : Char → Bool} {front front' run run' : List Char}
    (hrun : ∀ c ∈ run, member c = true) (hrun' : ∀ c ∈ run', member c = true)
    (hfront : StopsBehind member front) (hfront' : StopsBehind member front')
    (h : front ++ run = front' ++ run') : front = front' ∧ run = run' := by
  have hreverse : run.reverse ++ front.reverse = run'.reverse ++ front'.reverse := by
    rw [← List.reverse_append, h, List.reverse_append]
  obtain ⟨hruns, hfronts⟩ := run_append_inj (by simpa using hrun) (by simpa using hrun') hfront
    hfront' hreverse
  exact ⟨List.reverse_inj.mp hfronts, List.reverse_inj.mp hruns⟩

open SumLang.Tree

/-- A leaf at the end of a text is determined by the text. -/
theorem Tree.IsAtom.append_inj {t u : Tree} (ht : t.IsAtom) (hu : u.IsAtom)
    {front front' : List Char} (hfront : StopsBehind isAtomChar front)
    (hfront' : StopsBehind isAtomChar front')
    (h : front ++ t.value.plain.toList = front' ++ u.value.plain.toList) :
    t.shape = u.shape ∧ front = front' := by
  obtain ⟨rfl, htexts⟩ := append_run_inj (fun c hc => ht.isAtomChar_of_mem hc)
    (fun c hc => hu.isAtomChar_of_mem hc) hfront hfront' h
  exact ⟨ht.shape_eq hu htexts, rfl⟩

/-- The text of a leaf does not end with another character. -/
theorem Tree.IsAtom.append_ne {t : Tree} (ht : t.IsAtom) {c : Char} (hc : isAtomChar c = false)
    (front front' : List Char) : front ++ t.value.plain.toList ≠ front' ++ [c] := by
  intro heq
  have hne := ht.plain_ne_nil
  have hlast : t.value.plain.toList.getLast hne = c := by
    have hboth := congrArg List.getLast? heq
    simpa [List.getLast?_append, List.getLast?_eq_some_getLast hne] using hboth
  have hchar := ht.isAtomChar_of_mem (List.getLast_mem hne)
  rw [hlast, hc] at hchar
  exact absurd hchar (by decide)

/-! ## The texts of trees -/

theorem Tree.value_eq_of_shape_eq {t u : Tree} (h : t.shape = u.shape) : t.value = u.value := by
  have hvalue := congrArg Tree.value h
  rwa [shape_eq t, shape_eq u] at hvalue

theorem Tree.isAdd_eq_of_shape_eq {t u : Tree} (h : t.shape = u.shape) : t.isAdd = u.isAdd := by
  have hadd := congrArg Tree.isAdd h
  rwa [shape_eq t, shape_eq u] at hadd

theorem Tree.BuiltFrom.isAtom_or_isAdd {t : Tree} (h : t.BuiltFrom IsAtom) :
    t.IsAtom ∨ t.isAdd = true := by
  cases h with
  | leaf h => exact .inl h
  | add pos hleft hright => exact .inr rfl

namespace Format

/-- What may not stand in front of a tree: its first leaf would begin earlier, or, in order, a plus
would stand there. -/
def goesBack : Format → Char → Bool
  | inOrder => fun c => isAtomChar c || c == ' '
  | sexpr => isAtomChar

theorem stopsBehind_of_goesBack {format : Format} {front : List Char}
    (h : StopsBehind format.goesBack front) : StopsBehind isAtomChar front := by
  intro c hc
  have hstops := h c hc
  cases format with
  | inOrder => exact (Bool.or_eq_false_iff.mp hstops).1
  | sexpr => exact hstops

/-- The tree is determined by the end of a text. -/
def EndsAlone (format : Format) (t : Tree) : Prop :=
  ∀ (u : Tree) (front front' : List Char), u.BuiltFrom IsAtom →
    StopsBehind format.goesBack front → StopsBehind format.goesBack front' →
      front ++ format.chars t = front' ++ format.chars u → t.shape = u.shape ∧ front = front'

section SExpressions

variable {left right : Tree} (hleft : left.BuiltFrom IsAtom) (hright : right.BuiltFrom IsAtom)
  (pos : Position) (front : List Char)
include hleft hright

theorem append_sexpr_chars_add :
    front ++ sexpr.chars (.add left right pos) =
      front ++ ['(', '+', ' '] ++ sexpr.chars left ++ [' '] ++ sexpr.chars right ++ [')'] := by
  rw [sexpr_chars_add hleft hright]
  simp

/-- As an S-expression, a leaf does not end like an addition. -/
theorem sexpr_atom_ne_add {t : Tree} (ht : t.IsAtom) (front' : List Char) :
    front' ++ sexpr.chars t ≠ front ++ sexpr.chars (.add left right pos) := by
  rw [chars_atom _ ht, append_sexpr_chars_add hleft hright]
  exact ht.append_ne (isAtomChar_of_mem_signs (by decide)) _ _

end SExpressions

theorem sexpr_endsAlone {t : Tree} (ht : t.BuiltFrom IsAtom) : sexpr.EndsAlone t := by
  induction ht with
  | @leaf t ht =>
    intro u front front' hu hfront hfront' h
    cases hu with
    | leaf hu =>
      rw [chars_atom _ ht, chars_atom _ hu] at h
      exact ht.append_inj hu hfront hfront' h
    | add pos hleft hright => exact absurd h (sexpr_atom_ne_add hleft hright pos _ ht _)
  | @add left right pos hleft hright ihleft ihright =>
    intro u front front' hu hfront hfront' h
    cases hu with
    | leaf hu => exact absurd h.symm (sexpr_atom_ne_add hleft hright pos _ hu _)
    | @add left' right' pos' hleft' hright' =>
      rw [append_sexpr_chars_add hleft hright, append_sexpr_chars_add hleft' hright'] at h
      have hblank (text : List Char) : StopsBehind sexpr.goesBack (text ++ [' ']) :=
        stopsBehind_append (isAtomChar_of_mem_signs (by decide)) text
      have hsign (text : List Char) : StopsBehind sexpr.goesBack (text ++ ['(', '+', ' ']) := by
        simpa using hblank (text ++ ['(', '+'])
      obtain ⟨hrights, hrest⟩ :=
        ihright _ _ _ hright' (hblank _) (hblank _) (List.append_cancel_right h)
      obtain ⟨hlefts, hrest⟩ :=
        ihleft _ _ _ hleft' (hsign _) (hsign _) (List.append_cancel_right hrest)
      rw [shape_add, shape_add, hlefts, hrights]
      exact ⟨rfl, List.append_cancel_right hrest⟩

section InOrder

variable {left right : Tree} (hleft : left.BuiltFrom IsAtom) (hright : right.BuiltFrom IsAtom)
  (pos : Position) (front : List Char)
include hleft hright

theorem append_inOrder_chars_add :
    front ++ inOrder.chars (.add left right pos) =
      front ++ inOrder.chars left ++ [' ', '+', ' '] ++ operandChars right := by
  rw [inOrder_chars_add hleft hright]
  simp

end InOrder

/-- A right operand that is a leaf is written as it is. -/
theorem operandChars_atom {t : Tree} (ht : t.IsAtom) : operandChars t = t.value.plain.toList := by
  rw [operandChars, if_neg (by simp [ht.isAdd]), chars_atom _ ht]

theorem append_operandChars_add {t : Tree} (ht : t.isAdd = true) (front : List Char) :
    front ++ operandChars t = front ++ ['('] ++ inOrder.chars t ++ [')'] := by
  simp [operandChars, ht]

/-- In order, a right operand is determined by the end of a text if its tree is: the last
character tells whether it is in parentheses. -/
theorem operandChars_append_inj {t u : Tree} (ht : t.BuiltFrom IsAtom) (hu : u.BuiltFrom IsAtom)
    (halone : t.isAdd = true → inOrder.EndsAlone t) {front front' : List Char}
    (hfront : StopsBehind isAtomChar front) (hfront' : StopsBehind isAtomChar front')
    (h : front ++ operandChars t = front' ++ operandChars u) :
    t.shape = u.shape ∧ front = front' := by
  rcases ht.isAtom_or_isAdd with htAtom | htAdd <;> rcases hu.isAtom_or_isAdd with huAtom | huAdd
  · rw [operandChars_atom htAtom, operandChars_atom huAtom] at h
    exact htAtom.append_inj huAtom hfront hfront' h
  · rw [operandChars_atom htAtom, append_operandChars_add huAdd] at h
    exact absurd h (htAtom.append_ne (isAtomChar_of_mem_signs (by decide)) _ _)
  · rw [operandChars_atom huAtom, append_operandChars_add htAdd] at h
    exact absurd h.symm (huAtom.append_ne (isAtomChar_of_mem_signs (by decide)) _ _)
  · have hopening (text : List Char) : StopsBehind inOrder.goesBack (text ++ ['(']) :=
      stopsBehind_append (by decide) text
    rw [append_operandChars_add htAdd, append_operandChars_add huAdd] at h
    obtain ⟨hshape, hrest⟩ :=
      halone htAdd _ _ _ hu (hopening _) (hopening _) (List.append_cancel_right h)
    exact ⟨hshape, List.append_cancel_right hrest⟩

/-- A plus is no end of a leaf. -/
theorem stopsBehind_plus (front : List Char) :
    StopsBehind isAtomChar (front ++ [' ', '+', ' ']) := by
  have hblank : StopsBehind isAtomChar (front ++ [' ', '+'] ++ [' ']) :=
    stopsBehind_append (isAtomChar_of_mem_signs (by decide)) _
  simpa using hblank

/-- In order, a leaf does not end like an addition, as nothing is added to what is in front. -/
theorem inOrder_atom_ne_add {t left right : Tree} (ht : t.IsAtom) (hleft : left.BuiltFrom IsAtom)
    (hright : right.BuiltFrom IsAtom) (pos : Position) {front : List Char}
    (hfront : StopsBehind inOrder.goesBack front) (front' : List Char) :
    front ++ inOrder.chars t ≠ front' ++ inOrder.chars (.add left right pos) := by
  intro heq
  have hnot : t.isAdd = true → inOrder.EndsAlone t := fun hadd => by simp [ht.isAdd] at hadd
  rw [append_inOrder_chars_add hleft hright, chars_atom _ ht, ← operandChars_atom ht] at heq
  obtain ⟨-, rfl⟩ := operandChars_append_inj (.leaf ht) hright hnot
    (stopsBehind_of_goesBack hfront) (stopsBehind_plus _) heq
  have hblank := hfront ' ' (by simp)
  exact absurd hblank (by decide)

theorem inOrder_endsAlone {t : Tree} (ht : t.BuiltFrom IsAtom) : inOrder.EndsAlone t := by
  induction ht with
  | @leaf t ht =>
    intro u front front' hu hfront hfront' h
    cases hu with
    | leaf hu =>
      rw [chars_atom _ ht, chars_atom _ hu] at h
      exact ht.append_inj hu (stopsBehind_of_goesBack hfront) (stopsBehind_of_goesBack hfront') h
    | add pos hleft hright => exact absurd h (inOrder_atom_ne_add ht hleft hright pos hfront _)
  | @add left right pos hleft hright ihleft ihright =>
    intro u front front' hu hfront hfront' h
    cases hu with
    | leaf hu => exact absurd h.symm (inOrder_atom_ne_add hu hleft hright pos hfront' _)
    | @add left' right' pos' hleft' hright' =>
      rw [append_inOrder_chars_add hleft hright, append_inOrder_chars_add hleft' hright'] at h
      obtain ⟨hrights, hrest⟩ := operandChars_append_inj hright hright' (fun _ => ihright)
        (stopsBehind_plus _) (stopsBehind_plus _) h
      obtain ⟨hlefts, hrest⟩ :=
        ihleft _ _ _ hleft' hfront hfront' (List.append_cancel_right hrest)
      rw [shape_add, shape_add, hlefts, hrights]
      exact ⟨rfl, hrest⟩

/-- In both formats, trees of additions with the same text have the same shape. -/
theorem shape_eq_of_chars_eq (format : Format) {t u : Tree} (ht : t.BuiltFrom IsAtom)
    (hu : u.BuiltFrom IsAtom) (h : format.chars t = format.chars u) : t.shape = u.shape := by
  have halone : format.EndsAlone t := by
    cases format with
    | inOrder => exact inOrder_endsAlone ht
    | sexpr => exact sexpr_endsAlone ht
  exact (halone u [] [] hu (stopsBehind_nil _) (stopsBehind_nil _) h).1

/-- Trees of additions with the same shape have the same text: places are not written. -/
theorem chars_eq_of_shape_eq (format : Format) {t u : Tree} (ht : t.BuiltFrom IsAtom)
    (hu : u.BuiltFrom IsAtom) (h : t.shape = u.shape) : format.chars t = format.chars u := by
  induction ht generalizing u with
  | @leaf t ht =>
    rcases hu.isAtom_or_isAdd with hatom | hadd
    · rw [chars_atom _ ht, chars_atom _ hatom, value_eq_of_shape_eq h]
    · rw [← isAdd_eq_of_shape_eq h, ht.isAdd] at hadd
      exact absurd hadd (by decide)
  | @add left right pos hleft hright ihleft ihright =>
    cases hu with
    | leaf hu =>
      have hadd := isAdd_eq_of_shape_eq h
      rw [hu.isAdd, isAdd_add] at hadd
      exact absurd hadd (by decide)
    | @add left' right' pos' hleft' hright' =>
      obtain ⟨hlefts, hrights⟩ : left.shape = left'.shape ∧ right.shape = right'.shape := by
        rw [shape_add, shape_add] at h
        simpa [Tree.add] using h
      have hadds := isAdd_eq_of_shape_eq hrights
      cases format with
      | inOrder =>
        rw [inOrder_chars_add hleft hright, inOrder_chars_add hleft' hright', operandChars,
          operandChars, hadds, ihleft hleft' hlefts, ihright hright' hrights]
      | sexpr =>
        rw [sexpr_chars_add hleft hright, sexpr_chars_add hleft' hright', ihleft hleft' hlefts,
          ihright hright' hrights]

theorem chars_eq_iff_shape_eq (format : Format) {t u : Tree} (ht : t.BuiltFrom IsAtom)
    (hu : u.BuiltFrom IsAtom) : format.chars t = format.chars u ↔ t.shape = u.shape :=
  ⟨format.shape_eq_of_chars_eq ht hu, format.chars_eq_of_shape_eq ht hu⟩

/-! ## Lines -/

/-- A line holds characters of leaves and signs, but no line feed. -/
theorem newline_notMem_chars (format : Format) {t : Tree} (ht : t.BuiltFrom IsAtom) :
    '\n' ∉ format.chars t := by
  induction ht with
  | leaf ht =>
    rw [chars_atom _ ht]
    exact ht.notMem_of_mem_signs (by decide)
  | @add left right pos hleft hright ihleft ihright =>
    cases format with
    | inOrder =>
      rw [inOrder_chars_add hleft hright, operandChars]
      split <;> simp [ihleft, ihright]
    | sexpr =>
      rw [sexpr_chars_add hleft hright]
      simp [ihleft, ihright]

theorem newline_notMem_line (format : Format) {t : Tree} (ht : t.BuiltFrom IsAtom) :
    '\n' ∉ (format.line t).toList := by
  have hterminator : '\n' ∉ format.terminator.toList := by cases format <;> decide
  rw [toList_line, List.mem_append, not_or]
  exact ⟨format.newline_notMem_chars ht, hterminator⟩

theorem line_ne_empty (format : Format) {t : Tree} (ht : t.BuiltFrom IsAtom) :
    (format.line t).toList ≠ [] := by
  have hchars : format.chars t ≠ [] := by
    cases ht with
    | leaf ht =>
      rw [chars_atom _ ht]
      exact ht.plain_ne_nil
    | add pos hleft hright =>
      cases format with
      | inOrder => simp [inOrder_chars_add hleft hright]
      | sexpr => simp [sexpr_chars_add hleft hright]
  rw [toList_line]
  exact List.append_ne_nil_of_left_ne_nil hchars _

theorem line_inj (format : Format) {t u : Tree} :
    format.line t = format.line u ↔ format.chars t = format.chars u := by
  rw [← String.toList_inj, toList_line, toList_line]
  exact ⟨List.append_cancel_right, fun h => h ▸ rfl⟩

end Format

/-! ## Lists of trees -/

section Lists

variable (format : Format) {trees trees' : List Tree} (h : ∀ t ∈ trees, t.BuiltFrom IsAtom)
  (h' : ∀ t ∈ trees', t.BuiltFrom IsAtom)
include h

/-- The lines of a text of trees can be told from the text. -/
theorem splitOn_lines (hne : trees ≠ []) :
    ("\n".intercalate (trees.map format.line)).toList.splitOn '\n' =
      (trees.map format.line).map String.toList := by
  have hlines : ∀ line ∈ (trees.map format.line).map String.toList, '\n' ∉ line := by
    intro line hline
    simp only [List.map_map, List.mem_map] at hline
    obtain ⟨t, ht, rfl⟩ := hline
    exact format.newline_notMem_line (h t ht)
  rw [String.toList_intercalate]
  exact List.splitOn_intercalate '\n' hlines (by simpa using hne)

/-- There is no text without lines but the empty one. -/
theorem eq_nil_of_intercalate (hempty : "\n".intercalate (trees.map format.line) = "") :
    trees = [] := by
  by_contra hne
  have hlines := splitOn_lines format h hne
  rw [hempty] at hlines
  cases trees with
  | nil => exact hne rfl
  | cons t trees =>
    obtain ⟨hline, -⟩ : [] = (format.line t).toList ∧ _ := List.cons.inj hlines
    exact format.line_ne_empty (h t List.mem_cons_self) hline.symm

include h'

theorem intercalate_lines_inj
    (heq : "\n".intercalate (trees.map format.line) =
      "\n".intercalate (trees'.map format.line)) :
    trees.map format.line = trees'.map format.line := by
  by_cases hne : trees = []
  · rw [hne] at heq ⊢
    rw [eq_nil_of_intercalate format h' heq.symm]
  · by_cases hne' : trees' = []
    · rw [hne'] at heq
      exact absurd (eq_nil_of_intercalate format h heq) hne
    · have hlines := splitOn_lines format h hne
      rw [heq, splitOn_lines format h' hne'] at hlines
      exact ((List.map_inj_right fun _ _ => String.toList_injective).mp hlines).symm

theorem lines_eq_iff :
    trees.map format.line = trees'.map format.line ↔ trees.map shape = trees'.map shape := by
  induction trees generalizing trees' with
  | nil => cases trees' <;> simp
  | cons t trees ih =>
    cases trees' with
    | nil => simp
    | cons t' trees' =>
      rw [List.forall_mem_cons] at h h'
      rw [List.map_cons, List.map_cons, List.map_cons, List.map_cons, List.cons.injEq,
        List.cons.injEq, format.line_inj, format.chars_eq_iff_shape_eq h.1 h'.1, ih h.2 h'.2]

end Lists

/-- An addition differs from its left operand. -/
theorem Tree.add_ne_left (left right : Tree) (pos : Position) : Tree.add left right pos ≠ left := by
  intro heq
  have hsize := congrArg sizeOf heq
  simp [Tree.add] at hsize
  omega

/-- Texts of lists are equal exactly if the trees have the same shapes. -/
theorem renderTrees_eq_iff (target : Target) {trees trees' : List Tree}
    (h : ∀ t ∈ trees, t.BuiltFrom IsAtom) (h' : ∀ t ∈ trees', t.BuiltFrom IsAtom) :
    renderTrees target trees = renderTrees target trees' ↔
      trees.map shape = trees'.map shape := by
  rw [renderTrees_of_builtFrom target h, renderTrees_of_builtFrom target h', Except.ok.injEq,
    ← lines_eq_iff target.format h h']
  exact ⟨intercalate_lines_inj target.format h h', fun hlines => hlines ▸ rfl⟩

/-- Lists of additions, nested in any way and with any leaves.  If a number in such a list is too
long, the list has no text, whatever the target.  Else it has one, and its lines are those of the
trees, so the statements can be told from it.  Two lists have the same text exactly if their trees
have the same shapes.  In particular a text shows on which side additions nest. -/
theorem renderTrees_eq_iff_shapes (target : Target) {trees trees' : List Tree}
    (h : ∀ t ∈ trees, t.BuiltFrom IsHandmade) (h' : ∀ t ∈ trees', t.BuiltFrom IsHandmade) :
    (trees.all Tree.isWritable = true →
      ∃ text, renderTrees target trees = .ok text ∧
        (trees ≠ [] → List.Forall₂ target.format.Writes trees
          ((text.toList.splitOn '\n').map String.ofList))) ∧
    (trees.all Tree.isWritable = false →
      renderTrees target trees = .error (.tree (.unwritable .numberTooLong))) ∧
    (trees.all Tree.isWritable = true → trees'.all Tree.isWritable = true →
      (renderTrees target trees = renderTrees target trees' ↔
        trees.map shape = trees'.map shape)) ∧
    ∀ (a b c : Tree) (p q p' q' : Position), a.BuiltFrom IsHandmade → b.BuiltFrom IsHandmade →
      c.BuiltFrom IsHandmade → [a, b, c].all Tree.isWritable = true →
        renderTrees target [.add a (.add b c p) q] ≠
          renderTrees target [.add (.add a b p') c q'] := by
  have hatoms : ∀ {ts : List Tree}, (∀ t ∈ ts, t.BuiltFrom IsHandmade) →
      ts.all Tree.isWritable = true → ∀ t ∈ ts, t.BuiltFrom IsAtom :=
    fun hts hwritable t ht => (hts t ht).isAtom (List.all_eq_true.mp hwritable t ht)
  refine ⟨?_, renderTrees_of_unwritable target h, ?_, ?_⟩
  · intro hwritable
    have hbuilt := hatoms h hwritable
    refine ⟨_, renderTrees_of_builtFrom target hbuilt, ?_⟩
    intro hne
    have hid : String.ofList ∘ String.toList = id := funext fun _ => String.ofList_toList
    rw [splitOn_lines target.format hbuilt hne, List.map_map, hid, List.map_id]
    exact target.format.writes_lines hbuilt
  · intro hwritable hwritable'
    exact renderTrees_eq_iff target (hatoms h hwritable) (hatoms h' hwritable')
  · intro a b c p q p' q' ha hb hc hwritable heq
    simp only [List.all_cons, List.all_nil, Bool.and_true, Bool.and_eq_true] at hwritable
    have ha := ha.isAtom hwritable.1
    have hb := hb.isAtom hwritable.2.1
    have hc := hc.isAtom hwritable.2.2
    have hshapes := (renderTrees_eq_iff target
      (List.forall_mem_singleton.mpr (.add q ha (.add p hb hc)))
      (List.forall_mem_singleton.mpr (.add q' (.add p' ha hb) hc))).mp heq
    obtain ⟨hleft, -⟩ : a.shape = .add a.shape b.shape .start ∧
        Tree.add b.shape c.shape .start = c.shape := by
      simpa [Tree.add, shape_eq] using hshapes
    exact Tree.add_ne_left _ _ _ hleft.symm

/-- The trees of `-7 + (let + 100000000000000000000)` and of the same text without parentheses have
different shapes. -/
theorem renderTrees_eq_iff_shapes_parentheses :
    let minus : Tree := .integer (.int (-7)) ⟨1, 1⟩
    let keyword : Tree := .identifier (.text "let") ⟨1, 6⟩
    let huge : Tree := .integer (.int 100000000000000000000) ⟨1, 12⟩
    let right : Tree := .add minus (.add keyword huge ⟨1, 10⟩) ⟨1, 4⟩
    let left : Tree := .add (.add minus keyword ⟨2, 4⟩) huge ⟨2, 10⟩
    (∀ t ∈ [right], t.BuiltFrom IsHandmade) ∧ (∀ t ∈ [left], t.BuiltFrom IsHandmade) ∧
      renderTrees .inOrder [right] = .ok "-7 + (let + 100000000000000000000);" ∧
      renderTrees .inOrder [left] = .ok "-7 + let + 100000000000000000000;" ∧
      [right].map shape ≠ [left].map shape ∧
      renderTrees .sexpr [right] ≠ renderTrees .sexpr [left] := by
  intro minus keyword huge right left
  have hminus : minus.BuiltFrom IsHandmade := .leaf (.integer _ _)
  have hletters : "let".toList.all isLetter = true := by decide
  have hkeyword : keyword.BuiltFrom IsHandmade :=
    .leaf (.identifier _ (by decide) (List.all_eq_true.mp hletters))
  have hhuge : huge.BuiltFrom IsHandmade := .leaf (.integer _ _)
  have hright : ∀ t ∈ [right], t.BuiltFrom IsHandmade :=
    List.forall_mem_singleton.mpr (.add _ hminus (.add _ hkeyword hhuge))
  have hleft : ∀ t ∈ [left], t.BuiltFrom IsHandmade :=
    List.forall_mem_singleton.mpr (.add _ (.add _ hminus hkeyword) hhuge)
  have htext : renderTrees .inOrder [right] = .ok "-7 + (let + 100000000000000000000);" := by
    decide +kernel
  have htext' : renderTrees .inOrder [left] = .ok "-7 + let + 100000000000000000000;" := by
    decide +kernel
  obtain ⟨-, -, hiff, -⟩ := renderTrees_eq_iff_shapes .inOrder hright hleft
  obtain ⟨-, -, -, hassoc⟩ := renderTrees_eq_iff_shapes .sexpr hright hleft
  refine ⟨hright, hleft, htext, htext', ?_,
    hassoc _ _ _ _ _ _ _ hminus hkeyword hhuge (by decide +kernel)⟩
  intro hshapes
  have heq := (hiff (by decide +kernel) (by decide +kernel)).mpr hshapes
  rw [htext, htext', Except.ok.injEq] at heq
  exact absurd heq (by decide)

/-- Not all lists with the same shapes have the same text: there is none if a number is too long. -/
theorem not_renderTrees_eq_iff_shapes :
    ¬ ∀ (target : Target) (trees trees' : List Tree), (∀ t ∈ trees, t.BuiltFrom IsHandmade) →
      (∀ t ∈ trees', t.BuiltFrom IsHandmade) →
        ((∃ text, renderTrees target trees = .ok text ∧ renderTrees target trees' = .ok text) ↔
          trees.map shape = trees'.map shape) := by
  intro hall
  let huge : Tree := .integer (.int Text.leastUnwritable) .start
  have hbuilt : ∀ t ∈ [huge], t.BuiltFrom IsHandmade :=
    List.forall_mem_singleton.mpr (.leaf (.integer _ _))
  have hunwritable : [huge].all Tree.isWritable = false := by
    rw [List.all_cons, isWritable_eq]
    exact congrArg (fun b => b && true && true) Text.isWritable_leastUnwritable
  obtain ⟨text, htext, -⟩ := (hall .inOrder [huge] [huge] hbuilt hbuilt).mpr rfl
  rw [renderTrees_of_unwritable .inOrder hbuilt hunwritable] at htext
  cases htext

end SumLang
