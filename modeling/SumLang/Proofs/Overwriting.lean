import SumLang.Proofs.Lexing
import Mathlib.Data.List.Forall2

/-!
# Texts with spaces written over them

A character of a text may be overwritten by a space.  As long as it is no line feed, nothing behind
it moves.  A word or a number in front of it may end there, but is none the longer for it.

## Main statements

* `Overwritten.behind_append_eq`: the place behind an overwritten text is the same.
* `IsLexeme.overwritten`: a lexeme is one also in front of an overwritten text.
-/
namespace SumLang

/-- The second text is the first with spaces in place of some characters, none of them a line
feed. -/
def Overwritten : List Char → List Char → Prop :=
  List.Forall₂ fun c c' => c' = c ∨ c ≠ '\n' ∧ c' = ' '

/-- Texts that are related character by character can be cut at the same place. -/
theorem exists_append_of_forall₂ {α β : Type} {R : α → β → Prop} {front behind : List α}
    {text : List β} (h : List.Forall₂ R (front ++ behind) text) :
    ∃ front' behind', text = front' ++ behind' ∧ List.Forall₂ R front front' ∧
      List.Forall₂ R behind behind' := by
  have hfront := List.forall₂_take front.length h
  have hbehind := List.forall₂_drop front.length h
  rw [List.take_left] at hfront
  rw [List.drop_left] at hbehind
  exact ⟨_, _, (List.take_append_drop front.length text).symm, hfront, hbehind⟩

namespace Overwritten

variable {text text' : List Char}

theorem refl (text : List Char) : Overwritten text text :=
  List.forall₂_same.mpr fun _ _ => .inl rfl

/-- A run may be overwritten as a whole. -/
theorem run {run : List Char} (h : '\n' ∉ run) :
    Overwritten run (List.replicate run.length ' ') := by
  induction run with
  | nil => exact .nil
  | cons c run ih =>
    rw [List.mem_cons, not_or] at h
    exact .cons (.inr ⟨Ne.symm h.1, rfl⟩) (ih h.2)

theorem advanceAll_eq (h : Overwritten text text') (p : Position) :
    p.advanceAll text' = p.advanceAll text := by
  induction h generalizing p with
  | nil => rfl
  | @cons c c' text text' hc h ih =>
    have hstep : p.advance c' = p.advance c := by
      rcases hc with rfl | ⟨hc, rfl⟩
      · rfl
      · simp [Position.advance, hc]
    exact (ih (p.advance c')).trans (congrArg (Position.advanceAll · text) hstep)

/-- Behind the same place, an overwritten text ends where the text does. -/
theorem behind_append_eq (h : Overwritten text text') {before before' : List Char}
    (hbefore : Position.behind before' = .behind before) :
    Position.behind (before' ++ text') = .behind (before ++ text) := by
  rw [← Position.advanceAll_behind, ← Position.advanceAll_behind, hbefore, h.advanceAll_eq]

/-- A space prolongs no run of which it is no member. -/
theorem stops {member : Char → Bool} (hspace : member ' ' = false) (h : Overwritten text text')
    (hstops : Stops member text) : Stops member text' := by
  cases h with
  | nil => exact hstops
  | cons hc hrest =>
    intro d hd
    obtain rfl := Option.some.inj hd
    rcases hc with rfl | ⟨-, rfl⟩
    · exact hstops _ rfl
    · exact hspace

end Overwritten

/-- What stands behind a lexeme may be overwritten. -/
theorem IsLexeme.overwritten {table : Table} {lexeme after after' : List Char} {type : TokenType}
    {value : Scalar} (h : IsLexeme table lexeme after type value)
    (hafter : Overwritten after after') : IsLexeme table lexeme after' type value := by
  cases h with
  | word nonempty members longest =>
    exact .word nonempty members (hafter.stops (by decide) longest)
  | symbol blank letter entry => exact .symbol blank letter entry
  | number members entry longest short small =>
    exact .number members entry (hafter.stops (by decide) longest) short small
  | illegal blank letter entry digit => exact .illegal blank letter entry digit

end SumLang
