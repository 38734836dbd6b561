import SumLang.Cursor.Basic

/-!
# What a cursor has before it

Inside a text a cursor is seen through the characters that are left: `rest` is a list, and every
operation takes characters from its front.

## Main statements

* `next_eq`: reading takes the first character.
* `readWhile_eq`: a scan reads the longest run from the front, `List.takeWhile`, and stops
  behind it.
-/
namespace SumLang

/-- The position behind a run of characters. -/
def Position.advanceAll (p : Position) (run : List Char) : Position := run.foldl advance p

namespace Cursor

/-- The characters from the cursor to the end of the text. -/
def rest (c : Cursor) : List Char := c.source.toList.drop c.index.toNat

/-- The cursor behind a run of characters. -/
def stepAll (c : Cursor) (run : List Char) : Cursor :=
  { c with index := c.index + run.length, pos := c.pos.advanceAll run }

@[simp] theorem stepAll_nil (c : Cursor) : c.stepAll [] = c := by
  simp [stepAll, Position.advanceAll]

theorem stepAll_cons (c : Cursor) (ch : Char) (run : List Char) :
    c.stepAll (ch :: run) = (c.step ch).stepAll run := by
  simp only [stepAll, step, Position.advanceAll, List.foldl_cons, List.length_cons]
  congr 1
  omega

@[simp] theorem rest_ofString (text : String) : (ofString text).rest = text.toList := by
  simp [rest, ofString]

theorem peek_zero {c : Cursor} (h : 0 ≤ c.index) : c.peek 0 = c.rest.head? := by
  have hlt : ¬ c.index < 0 := by omega
  simp [peek, rest, hlt, List.head?_drop]

theorem under?_eq_peek {c : Cursor} (h : 0 ≤ c.index) : c.under? = c.peek 0 := by
  have hlt : ¬ c.index < 0 := by omega
  simp [under?, peek, hlt, signedGet?_of_nonneg c.source h]

theorem atEnd_iff_rest {c : Cursor} (h : 0 ≤ c.index) : c.atEnd = true ↔ c.rest = [] := by
  simp only [atEnd, rest, decide_eq_true_eq, List.drop_eq_nil_iff, Array.length_toList]
  omega

theorem rest_step {c : Cursor} (h : 0 ≤ c.index) (ch : Char) :
    (c.step ch).rest = c.rest.tail := by
  have hindex : (c.index + 1).toNat = c.index.toNat + 1 := by omega
  simp [rest, step, hindex]

/-- Taking a run leaves what is behind it. -/
theorem rest_stepAll {c : Cursor} (h : 0 ≤ c.index) (run : List Char) :
    (c.stepAll run).rest = c.rest.drop run.length := by
  have hindex : (c.index + run.length).toNat = c.index.toNat + run.length := by omega
  simp [rest, stepAll, hindex]

/-- Reading takes the first of the characters that are left. -/
theorem next_eq {c : Cursor} {ch : Char} {tail : List Char} (h : 0 ≤ c.index)
    (hrest : c.rest = ch :: tail) : c.next = .ok (ch, c.step ch) := by
  have hend : c.atEnd = false := by
    rw [Bool.eq_false_iff, Ne, atEnd_iff_rest h, hrest]
    simp
  rw [next_eq_ok_iff]
  exact ⟨hend, by rw [under?_eq_peek h, peek_zero h, hrest]; rfl, rfl⟩

theorem readOnto_eq (member : Char → Bool) {c : Cursor} (h : 0 ≤ c.index) (text : String) :
    readOnto member text c =
      .ok (text ++ String.ofList (c.rest.takeWhile member),
        c.stepAll (c.rest.takeWhile member)) := by
  induction hrest : c.rest generalizing c text with
  | nil =>
    unfold readOnto
    simp [(atEnd_iff_rest h).mpr hrest]
  | cons ch tail ih =>
    have hend : c.atEnd = false := by
      rw [Bool.eq_false_iff, Ne, atEnd_iff_rest h, hrest]
      simp
    unfold readOnto
    by_cases hmem : member ch = true
    · have hstep : 0 ≤ (c.step ch).index := by simp only [step]; omega
      have htail : (c.step ch).rest = tail := by rw [rest_step h, hrest]; rfl
      have hnext := next_eq h hrest
      simp only [hend, peek_zero h, hrest, List.head?_cons, Option.all_some, hmem, Bool.not_true,
        Bool.or_self, Bool.false_eq_true, if_false, List.takeWhile_cons, if_true]
      split
      · next ch' d hread =>
        obtain ⟨rfl, rfl⟩ : ch = ch' ∧ c.step ch = d := by simpa [hnext] using hread
        rw [ih hstep (text.push ch) htail, stepAll_cons]
        congr 2
        ext1
        simp
      · next hread => simp [hnext] at hread
    · simp [hend, peek_zero h, hrest, hmem]

/-- A scan reads the longest run of members from the front and stops behind it. -/
theorem readWhile_eq (member : Char → Bool) {c : Cursor} (h : 0 ≤ c.index) :
    c.readWhile member =
      .ok (String.ofList (c.rest.takeWhile member), c.stepAll (c.rest.takeWhile member)) := by
  simp [readWhile, readOnto_eq member h]

/-- Skipping blanks is a scan that forgets what it has read. -/
theorem skipBlanks_eq {c : Cursor} (h : 0 ≤ c.index) :
    c.skipBlanks = .ok (c.stepAll (c.rest.takeWhile isBlank)) := by
  simp [skipBlanks, readWhile_eq isBlank h, Except.map]

end Cursor
end SumLang
