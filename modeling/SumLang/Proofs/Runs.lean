import SumLang.Proofs.Lexing
import SumLang.Proofs.Passage

/-!
# How far a scan goes

A scan for the characters of a set may begin anywhere.  In a text it takes the longest run of
members.  In front of a text, where indexes are negative, it sees nothing and goes on, so that it
takes all characters up to the end of the text, whatever the set, and then the longest run of
members at the start of the same text.  At the end it takes nothing, and too far in front of the
text it fails.

## Main definitions

* `IsLongestRun`: the longest beginning of a text that consists of members of a set.
* `Cursor.tail`: what is read in front of a text.

## Main statements

* `Cursor.readOnto_of_readsTo`: in front of a text a scan takes whatever can be read.
* `Cursor.readWhile_of_neg`: what a scan from a negative index takes.
* `Reader.scan_from_index`: what a scan takes and where it stops, from any index.
-/
namespace SumLang

/-! ## Longest runs -/

/-- A run is the longest beginning of a text all of whose characters are in a set. -/
structure IsLongestRun (member : Char → Bool) (text run : List Char) : Prop where
  begins : run <+: text
  members : ∀ c ∈ run, member c = true
  longest : ∀ other, other <+: text → (∀ c ∈ other, member c = true) → other.length ≤ run.length

theorem isLongestRun_takeWhile (member : Char → Bool) (text : List Char) :
    IsLongestRun member text (text.takeWhile member) where
  begins := List.takeWhile_prefix member
  members := fun _ hc => List.mem_takeWhile_imp hc
  longest := by
    intro other hother hmembers
    obtain ⟨after, rfl⟩ := hother
    rw [List.takeWhile_append_of_pos hmembers, List.length_append]
    exact Nat.le_add_right _ _

namespace Cursor

/-! ## In front of a text -/

theorem stepAll_append (c : Cursor) (run more : List Char) :
    c.stepAll (run ++ more) = (c.stepAll run).stepAll more := by
  have hindex : c.index + ((run.length + more.length : Nat) : Int) =
      c.index + run.length + more.length := by omega
  simp only [stepAll, Position.advanceAll_append, List.length_append, hindex]

theorem peek_zero_of_neg {c : Cursor} (h : c.index < 0) : c.peek 0 = none := by
  simp [peek, h]

/-- While its cursor is in front of the text, a scan takes what can be read there. -/
theorem readOnto_of_readsTo (member : Char → Bool) {c d : Cursor} {run : List Char}
    (h : c.ReadsTo run d) (hd : d.index ≤ 0) (text : String) :
    readOnto member text c = readOnto member (text ++ String.ofList run) d := by
  induction h generalizing text with
  | nil c => simp
  | @cons c d e ch run first rest ih =>
    obtain ⟨hend, -, rfl⟩ := next_eq_ok_iff.mp first
    have hneg : c.index < 0 := by
      have hindex := congrArg Cursor.index rest.eq_stepAll
      simp only [stepAll, step] at hindex
      omega
    have htext : text.push ch ++ String.ofList run = text ++ String.ofList (ch :: run) := by
      ext1
      simp
    rw [readOnto, ← htext, ← ih hd]
    simp only [hend, peek_zero_of_neg hneg, Option.all_none, Bool.not_true, Bool.or_self,
      Bool.false_eq_true, if_false]
    split
    · next ch' d' hnext =>
      obtain ⟨rfl, rfl⟩ : ch = ch' ∧ c.step ch = d' := by simpa [first] using hnext
      rfl
    · next hnext => simp [first] at hnext

/-- The last characters of the text, as many as a cursor in front of it is away from its start. -/
def tail (c : Cursor) : List Char := c.source.toList.drop (c.source.size + c.index).toNat

theorem length_tail {c : Cursor} (hle : -c.source.size ≤ c.index) (hneg : c.index ≤ 0) :
    (c.tail.length : Int) = -c.index := by
  rw [tail, List.length_drop, Array.length_toList]
  omega

/-- In front of a text, the first of its last characters is read, and the others stay. -/
theorem next_of_tail {c : Cursor} {ch : Char} {more : List Char} (hle : -c.source.size ≤ c.index)
    (hneg : c.index < 0) (htail : c.tail = ch :: more) :
    c.next = .ok (ch, c.step ch) ∧ (c.step ch).tail = more := by
  have hend : c.atEnd = false := by
    rw [atEnd_eq_false_iff]
    omega
  have hunder : c.under? = some ch := by
    rw [under?, signedGet?_of_neg c.source hle hneg, ← Array.getElem?_toList, ← List.head?_drop,
      ← tail, htail]
    rfl
  refine ⟨next_eq_ok_iff.mpr ⟨hend, hunder, rfl⟩, ?_⟩
  have hsucc : (c.source.size + (c.index + 1)).toNat =
      (c.source.size + c.index).toNat + 1 := by omega
  simp only [tail, step, hsucc]
  rw [← List.drop_drop, ← tail, htail]
  rfl

/-- From a negative index the last characters of the text are read one after the other. -/
theorem readsTo_tail {c : Cursor} (hle : -c.source.size ≤ c.index) (hneg : c.index ≤ 0) :
    c.ReadsTo c.tail (c.stepAll c.tail) := by
  generalize htail : c.tail = tail
  induction tail generalizing c with
  | nil => simpa using .nil c
  | cons ch more ih =>
    have hlength := length_tail hle hneg
    rw [htail, List.length_cons] at hlength
    obtain ⟨hnext, hmore⟩ := next_of_tail hle (by omega) htail
    rw [stepAll_cons]
    refine .cons hnext (ih ?_ ?_ hmore)
    · simp only [step]
      omega
    · simp only [step]
      omega

/-- Behind the last characters of the text, indexes are counted from its start. -/
theorem index_stepAll_tail {c : Cursor} (hle : -c.source.size ≤ c.index) (hneg : c.index ≤ 0)
    (run : List Char) : (c.stepAll (c.tail ++ run)).index = run.length := by
  have hlength := length_tail hle hneg
  simp only [stepAll, List.length_append]
  omega

/-- From a negative index a scan takes the characters up to the end of the text, and then the
longest run of members from its start on. -/
theorem readWhile_of_neg (member : Char → Bool) {c : Cursor} (hle : -c.source.size ≤ c.index)
    (hneg : c.index < 0) :
    let taken := c.tail ++ c.source.toList.takeWhile member
    c.readWhile member = .ok (String.ofList taken, c.stepAll taken) := by
  intro taken
  have hreads := readsTo_tail hle (Int.le_of_lt hneg)
  have hzero : (c.stepAll c.tail).index = 0 := by
    simpa using index_stepAll_tail hle (Int.le_of_lt hneg) []
  have hrest : (c.stepAll c.tail).rest = c.source.toList := by
    rw [rest, hzero]
    rfl
  rw [readWhile, readOnto_of_readsTo member hreads (Int.le_of_eq hzero),
    readOnto_eq member (Int.le_of_eq hzero.symm), hrest, ← stepAll_append]
  simp [taken]

/-- Further in front of the text than it is long, a scan fails at once. -/
theorem readWhile_of_lt (member : Char → Bool) {c : Cursor} (h : c.index < -c.source.size) :
    c.readWhile member = .error .beforeStart := by
  have hneg : c.index < 0 := by omega
  have hend : c.atEnd = false := by
    rw [atEnd_eq_false_iff]
    omega
  rw [readWhile, readOnto]
  simp only [hend, peek_zero_of_neg hneg, Option.all_none, Bool.not_true, Bool.or_self,
    Bool.false_eq_true, if_false]
  split
  · next hnext => simp [next_of_lt h] at hnext
  · next e hnext => simpa [next_of_lt h] using hnext.symm

end Cursor

namespace Reader

open Cursor

/-- A scan for the characters of a set, from any index of a text.  At the end of the text and behind
it takes nothing.  In the text it takes the longest run of members from there, and stops behind it.
In front of the text it takes the characters up to the end, whatever they are, and the longest run
of members from the start, and stops behind that.  So no member follows where it has stopped in the
text.  Further in front it fails and changes nothing.  Skipping blanks is the scan for these, except
that it answers nothing. -/
theorem scan_from_index (table : Table) (set : String) (r : Reader) :
    let c := r.cursor
    let text := c.source.toList
    let member := set.toList.contains
    (c.source.size ≤ c.index → perform table (.readWhile set) r = (.ok (.text ""), r)) ∧
    (0 ≤ c.index → c.index < c.source.size →
      ∃ run, IsLongestRun member (text.drop c.index.toNat) run ∧
        perform table (.readWhile set) r =
          (.ok (.text (String.ofList run)), { r with cursor := c.stepAll run }) ∧
        Stops member (c.stepAll run).rest) ∧
    (-c.source.size ≤ c.index → c.index < 0 →
      ∃ run, IsLongestRun member text run ∧
        let taken := text.drop (c.source.size + c.index).toNat ++ run
        perform table (.readWhile set) r =
          (.ok (.text (String.ofList taken)), { r with cursor := c.stepAll taken }) ∧
        (c.stepAll taken).index = run.length ∧ Stops member (c.stepAll taken).rest) ∧
    (c.index < -c.source.size → perform table (.readWhile set) r = (.error .beforeStart, r)) ∧
    perform table .skipBlanks r =
      let blank := perform table (.readWhile (String.ofList blanks)) r
      (blank.1.map fun _ => .nothing, blank.2) := by
  intro c text member
  refine ⟨?_, ?_, ?_, ?_, ?_⟩
  · intro hend
    have hnonneg : 0 ≤ c.index := Int.le_trans (Int.natCast_nonneg _) hend
    have hrest : c.rest = [] := (atEnd_iff_rest hnonneg).mp (by simpa [atEnd] using hend)
    have hread := readWhile_eq member hnonneg
    rw [hrest, List.takeWhile_nil, stepAll_nil] at hread
    exact congrArg (r.moveTo .text) hread
  · intro hnonneg hlt
    refine ⟨text.drop c.index.toNat |>.takeWhile member, isLongestRun_takeWhile member _, ?_, ?_⟩
    · exact congrArg (r.moveTo .text) (readWhile_eq member hnonneg)
    · rw [rest_stepAll hnonneg]
      exact stops_drop_takeWhile member _
  · intro hle hneg
    have hindex := index_stepAll_tail hle (Int.le_of_lt hneg) (text.takeWhile member)
    refine ⟨text.takeWhile member, isLongestRun_takeWhile member text, ?_, hindex, ?_⟩
    · exact congrArg (r.moveTo .text) (readWhile_of_neg member hle hneg)
    · have hrest : (c.stepAll (c.tail ++ text.takeWhile member)).rest =
          text.drop (text.takeWhile member).length := by
        rw [rest, hindex, Int.toNat_natCast]
        rfl
      rw [← tail, hrest]
      exact stops_drop_takeWhile member text
  · intro hlt
    exact congrArg (r.moveTo .text) (readWhile_of_lt member hlt)
  · have hblank : (String.ofList blanks).toList.contains = isBlank := by
      rw [String.toList_ofList]
      rfl
    simp only [perform, skipBlanks, hblank]
    cases r.cursor.readWhile isBlank with
    | ok result => rfl
    | error e => rfl

/-- On the four sides of `abc`: behind it nothing is taken; from its second character on the longest
run of `b`; in front of it `bc`, although the set is empty; and further in front nothing can be
read. -/
theorem scan_from_index_sides :
    let start (i : Int) : Reader := ofCursor ⟨#['a', 'b', 'c'], i, .start⟩
    perform .standard (.readWhile "c") (start 3) = (.ok (.text ""), start 3) ∧
      (∃ run, IsLongestRun "b".toList.contains ['b', 'c'] run ∧
        (perform .standard (.readWhile "b") (start 1)).1 = .ok (.text (String.ofList run))) ∧
      (∃ run, IsLongestRun "".toList.contains ['a', 'b', 'c'] run ∧
        (perform .standard (.readWhile "") (start (-2))).1 =
          .ok (.text (String.ofList (['b', 'c'] ++ run)))) ∧
      perform .standard (.readWhile "c") (start (-4)) = (.error .beforeStart, start (-4)) := by
  intro start
  obtain ⟨hbehind, -⟩ := scan_from_index .standard "c" (start 3)
  obtain ⟨-, hinside, -⟩ := scan_from_index .standard "b" (start 1)
  obtain ⟨-, -, hfront, -⟩ := scan_from_index .standard "" (start (-2))
  obtain ⟨-, -, -, hbefore, -⟩ := scan_from_index .standard "c" (start (-4))
  refine ⟨hbehind (by decide), ?_, ?_, hbefore (by decide)⟩
  · obtain ⟨run, hrun, hread, -⟩ := hinside (by decide) (by decide)
    exact ⟨run, hrun, congrArg Prod.fst hread⟩
  · obtain ⟨run, hrun, hread, -⟩ := hfront (by decide) (by decide)
    exact ⟨run, hrun, congrArg Prod.fst hread⟩

end Reader
end SumLang
