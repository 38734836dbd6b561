import SumLang.Cursor.Rest
import Mathlib.Data.List.Induction
import Mathlib.Data.List.TakeWhile

/-!
# The place behind a text

A position is advanced character by character.  Here it is read off the text at once: each line
feed opens a line, and the column counts the characters behind the last one.

## Main statements

* `advanceAll_eq`: where a run of characters leads from any position.
* `advanceAll_start`: from the start of a text, the place behind it is `Position.behind`.
* `behind_lt_append`, `behind_inj`: places come in the order of the text, so that each of them is
  the place behind one beginning of the text only.
-/
namespace SumLang
namespace Position

/-- The number of characters behind the last line feed, or of all if there is none. -/
def lastLineLength (text : List Char) : Nat := (text.reverse.takeWhile (· != '\n')).length

/-- The place behind a text: one line for each line feed and one more, and the column behind the
last line. -/
def behind (text : List Char) : Position := ⟨1 + text.count '\n', 1 + lastLineLength text⟩

@[simp] theorem lastLineLength_append_feed (text : List Char) :
    lastLineLength (text ++ ['\n']) = 0 := by
  simp [lastLineLength]

theorem lastLineLength_append_of_ne (text : List Char) {c : Char} (h : c ≠ '\n') :
    lastLineLength (text ++ [c]) = lastLineLength text + 1 := by
  simp [lastLineLength, h]

theorem lastLineLength_of_notMem {text : List Char} (h : '\n' ∉ text) :
    lastLineLength text = text.length := by
  have hall : ∀ c ∈ text.reverse, (c != '\n') = true := by
    intro c hc
    have hne : c ≠ '\n' := fun heq => h (heq ▸ List.mem_reverse.mp hc)
    simpa using hne
  rw [lastLineLength, List.takeWhile_eq_self_iff.mpr hall, List.length_reverse]

theorem advanceAll_append (p : Position) (run more : List Char) :
    p.advanceAll (run ++ more) = (p.advanceAll run).advanceAll more := by
  simp [advanceAll]

/-- A run moves the line by its line feeds; the column starts anew behind the last of them. -/
theorem advanceAll_eq (p : Position) (run : List Char) :
    p.advanceAll run =
      ⟨p.line + run.count '\n',
        if '\n' ∈ run then 1 + lastLineLength run else p.column + run.length⟩ := by
  -- The last character decides the column, so the induction is from the end.
  induction run using List.reverseRecOn with
  | nil => simp [advanceAll]
  | append_singleton run c ih =>
    rw [advanceAll_append, ih]
    by_cases hc : c = '\n'
    · subst hc
      simp [advanceAll, advance]
      omega
    · have hne : '\n' ≠ c := Ne.symm hc
      have hcount : [c].count '\n' = 0 := by simp [hc]
      simp only [advanceAll, List.foldl_cons, List.foldl_nil, advance, hc, if_false,
        List.mem_append, List.mem_singleton, hne, or_false, List.count_append, hcount,
        lastLineLength_append_of_ne run hc, List.length_append, List.length_singleton]
      split <;> simp <;> omega

/-- From the start of a text, the place behind it is read off the text. -/
theorem advanceAll_start (text : List Char) : start.advanceAll text = behind text := by
  rw [advanceAll_eq, start, behind]
  by_cases h : '\n' ∈ text
  · simp [h]
  · simp [h, lastLineLength_of_notMem h]

/-- A run leads from the place behind a text to the one behind both. -/
theorem advanceAll_behind (text run : List Char) :
    (behind text).advanceAll run = behind (text ++ run) := by
  rw [← advanceAll_start, ← advanceAll_append, advanceAll_start]

/-! ## The order of places -/

/-- Places are ordered by their lines, and on a line by their columns. -/
instance : LT Position := ⟨fun p q => p.line < q.line ∨ p.line = q.line ∧ p.column < q.column⟩

theorem lt_iff {p q : Position} :
    p < q ↔ p.line < q.line ∨ p.line = q.line ∧ p.column < q.column := Iff.rfl

theorem lt_irrefl (p : Position) : ¬ p < p := by
  rw [lt_iff]
  omega

theorem lt_trans {p q r : Position} (hpq : p < q) (hqr : q < r) : p < r := by
  rw [lt_iff] at *
  omega

/-- Every character leads on, a line feed to the next line. -/
theorem lt_advance (p : Position) (c : Char) : p < p.advance c := by
  rw [lt_iff, advance]
  split
  · left
    exact Int.lt_succ p.line
  · right
    exact ⟨rfl, Int.lt_succ p.column⟩

theorem lt_advanceAll (p : Position) {run : List Char} (h : run ≠ []) : p < p.advanceAll run := by
  induction run generalizing p with
  | nil => exact absurd rfl h
  | cons c run ih =>
    have hfirst := p.lt_advance c
    by_cases hrun : run = []
    · subst hrun
      exact hfirst
    · exact lt_trans hfirst (ih (p.advance c) hrun)

/-- The place behind a text is in front of the one behind more of it. -/
theorem behind_lt_append (text : List Char) {more : List Char} (h : more ≠ []) :
    behind text < behind (text ++ more) := by
  rw [← advanceAll_behind]
  exact lt_advanceAll _ h

/-- No two beginnings of a text end at the same place. -/
theorem behind_inj {text front front' : List Char} (h : front <+: text) (h' : front' <+: text)
    (heq : behind front = behind front') : front = front' := by
  -- One of the two is the beginning of the other, and more characters lead on.
  have hshorter : ∀ {front front' : List Char}, front <+: front' →
      behind front = behind front' → front = front' := by
    intro front front' hprefix heq
    obtain ⟨more, rfl⟩ := hprefix
    by_contra hne
    have hmore : more ≠ [] := by
      intro hnil
      exact hne (by rw [hnil, List.append_nil])
    have hlt := behind_lt_append front hmore
    rw [← heq] at hlt
    exact lt_irrefl _ hlt
  rcases List.prefix_or_prefix_of_prefix h h' with hprefix | hprefix
  · exact hshorter hprefix heq
  · exact (hshorter hprefix heq.symm).symm

end Position
end SumLang
