import SumLang.Vocabulary

/-!
# Numerals

A number is written in decimal digits, behind a minus sign if it is negative.  No run of digits
that is longer than `longestNumeral` is ever written, just as none is read: a number with more
digits has no text, and whatever is to be made of that text cannot be made either.

`writeIf` is the general form of such an attempt: a value, under the condition that all numbers
that go into it can be written.

## Main statements

* `Text.isWritable_iff`: which numbers can be written.
* `Text.writeIf_bind`, `Text.mapM_writeIf`: attempts one after the other.
-/
namespace SumLang

/-- Why something has no text. -/
inductive WriteError where
  /-- A number has more digits than are ever written. -/
  | numberTooLong
deriving DecidableEq, Repr

/-- The wording of a failure. -/
def WriteError.message : WriteError → String
  | numberTooLong =>
    s!"Exceeds the limit ({longestNumeral} digits) for integer string conversion; " ++
      "use sys.set_int_max_str_digits() to increase the limit"

namespace Text

/-- Whether a number has few enough digits to be written.  Its sign does not count. -/
def isWritable (n : Int) : Bool := decide ((Nat.toDigits 10 n.natAbs).length ≤ longestNumeral)

/-- A value that can be had only if numbers can be written. -/
def writeIf {α : Type} (writable : Bool) (a : α) : Except WriteError α :=
  if writable then .ok a else .error .numberTooLong

/-- The text of a number. -/
def numeral (n : Int) : Except WriteError String := writeIf (isWritable n) (toString n)

/-- A number can be written if it is small enough, whatever its sign. -/
theorem isWritable_iff (n : Int) :
    isWritable n = true ↔ n.natAbs < Nat.pow 10 longestNumeral := by
  rw [isWritable, decide_eq_true_iff, Nat.length_toDigits_le_iff (by decide) (by decide),
    Nat.pow_eq]

/-- The least number that is too long to be written. -/
def leastUnwritable : Int := (Nat.pow 10 longestNumeral : Nat)

theorem isWritable_leastUnwritable : isWritable leastUnwritable = false := by
  rw [← Bool.not_eq_true, isWritable_iff, leastUnwritable, Int.natAbs_natCast]
  exact Nat.lt_irrefl _

/-! ## Attempts -/

variable {α β : Type}

@[simp] theorem writeIf_true (a : α) : writeIf true a = .ok a := rfl

@[simp] theorem writeIf_false (a : α) : writeIf false a = .error .numberTooLong := rfl

theorem writeIf_eq_ok_iff {writable : Bool} {a b : α} :
    writeIf writable a = .ok b ↔ writable = true ∧ a = b := by
  cases writable <;> simp

/-- Of two attempts one after the other, both must succeed. -/
theorem writeIf_bind {first second : Bool} {a : α} {b : β} {f : α → Except WriteError β}
    (h : f a = writeIf second b) : (writeIf first a).bind f = writeIf (first && second) b := by
  cases first with
  | true => exact h
  | false => rfl

theorem writeIf_map (writable : Bool) (a : α) (f : α → β) :
    (writeIf writable a).map f = writeIf writable (f a) := by
  cases writable <;> rfl

/-- Of attempts on all members of a list, each must succeed. -/
theorem mapM_writeIf {f : α → Except WriteError β} {writable : α → Bool} {text : α → β}
    {as : List α} (h : ∀ a ∈ as, f a = writeIf (writable a) (text a)) :
    as.mapM f = writeIf (as.all writable) (as.map text) := by
  induction as with
  | nil => rfl
  | cons a as ih =>
    rw [List.forall_mem_cons] at h
    rw [List.mapM_cons, h.1, ih h.2, List.all_cons, List.map_cons]
    cases writable a <;> cases as.all writable <;> rfl

end Text
end SumLang
