import SumLang.Text.Numeral
import SumLang.Text.Quoted

/-!
# Scalars

A token or a tree carries one scalar: a whole number of any size, a text, a truth value, or
nothing.  A scalar has two written forms.  In `written` a text stands for itself, as a reader
of the language expects.  In `display` it is quoted, so that the number 1 and the text "1"
differ.  A number with too many digits has neither form.

Two scalars agree when they are equal as values, and a truth value counts as the number one
or zero.  Agreement is therefore coarser than equality: `true` agrees with `1`, although
their written forms differ.
-/
namespace SumLang

/-- The value of a token or of a tree. -/
inductive Scalar where
  | int (n : Int)
  | text (s : String)
  | bool (b : Bool)
  | null
deriving DecidableEq, Repr, Inhabited

namespace Scalar

/-- The words for truth values. -/
def truthWord : Bool → String
  | true => "True"
  | false => "False"

/-- The word that stands for no value. -/
def nullWord : String := "None"

/-- Whether a scalar can be written: only numbers may be too long. -/
def isWritable : Scalar → Bool
  | int n => Text.isWritable n
  | text _ | bool _ | null => true

/-- What there is to be written of a scalar.  A text stands for itself. -/
def plain : Scalar → String
  | int n => toString n
  | text s => s
  | bool b => truthWord b
  | null => nullWord

/-- What there is to be written of a scalar if texts are quoted. -/
def quoted (printable : Char → Bool) : Scalar → String
  | text s => Text.quoted printable s
  | value => value.plain

/-- The plain written form, in which a text stands for itself. -/
def written (v : Scalar) : Except WriteError String := Text.writeIf v.isWritable v.plain

/-- The unambiguous written form, in which a text is quoted. -/
def display (printable : Char → Bool) (v : Scalar) : Except WriteError String :=
  Text.writeIf v.isWritable (v.quoted printable)

/-- The number that a scalar counts as, if it counts as one. -/
def number? : Scalar → Option Int
  | int n => some n
  | bool b => some (if b then 1 else 0)
  | text _ | null => none

/-- Whether two scalars are equal as values: by number where either counts as one. -/
def agrees (a b : Scalar) : Bool :=
  match a.number?, b.number? with
  | some m, some n => m == n
  | none, none => a == b
  | _, _ => false

/-- The scalar with the number one or zero in place of a truth value. -/
def normal : Scalar → Scalar
  | bool true => int 1
  | bool false => int 0
  | value => value

/-- Agreement is equality of the normal forms. -/
theorem agrees_iff (a b : Scalar) : a.agrees b = true ↔ a.normal = b.normal := by
  rcases a with _ | _ | (_ | _) | _ <;> rcases b with _ | _ | (_ | _) | _ <;>
    simp [agrees, number?, normal]

end Scalar
end SumLang
