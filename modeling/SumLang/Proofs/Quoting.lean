import SumLang.Text.Quoted
import Mathlib.Algebra.Group.Nat.Defs

/-!
# Quoted text is read back

Each character between quotes is written in one of three ways: as it is, behind a backslash with a
mark, or by its code point with as many digits as the mark announces.  What is written says which of
them it is, so that the character can be read off the front of a text, and the rest stays.  No
character begins like the enclosing quote.  So a quoted text ends where its text does, whatever
stands behind it, and quoted texts are equal only if their texts are.  It does not matter which
characters are printable.

## Main definitions

* `unescape`: one character off the front of what stands between quotes.

## Main statements

* `unescape_escape`: the character that has been written is read back.
* `quotedChars_append_inj`: a quoted text is determined, with what is behind it.
-/
namespace SumLang.Text

/-! ## Hexadecimal digits -/

/-- The value of a lower-case hexadecimal digit. -/
def hexDigitValue (c : Char) : Nat := if c.isDigit then c.toNat - 48 else c.toNat - 87

/-- The number that hexadecimal digits denote, most significant first. -/
def hexValue (digits : List Char) : Nat := digits.foldl (fun n c => 16 * n + hexDigitValue c) 0

theorem hexValue_append (digits : List Char) (c : Char) :
    hexValue (digits ++ [c]) = 16 * hexValue digits + hexDigitValue c := by
  simp [hexValue]

theorem hexDigitValue_digitChar {n : Nat} (h : n < 16) : hexDigitValue (Nat.digitChar n) = n := by
  have hall : ∀ n < 16, hexDigitValue (Nat.digitChar n) = n := by decide
  exact hall n h

/-- Digits denote the number that they have been made of, if it has no more of them. -/
theorem hexValue_hexDigits {width n : Nat} (h : n < 16 ^ width) :
    hexValue (hexDigits width n) = n := by
  induction width generalizing n with
  | zero =>
    have hzero : n = 0 := by simpa using h
    rw [hzero]
    rfl
  | succ width ih =>
    have hfront : n / 16 < 16 ^ width := by
      rw [Nat.pow_succ] at h
      omega
    rw [hexDigits, hexValue_append, ih hfront, hexDigitValue_digitChar (Nat.mod_lt n (by decide))]
    exact Nat.div_add_mod n 16

/-! ## Characters -/

/-- The number of digits behind a mark, if it is one of those for code points. -/
def codeWidth? (mark : Char) : Option Nat :=
  if mark = 'x' then some 2 else if mark = 'u' then some 4 else if mark = 'U' then some 8 else none

/-- The character that a mark without digits stands for. -/
def marked (mark : Char) : Char :=
  if mark = 'n' then '\n' else if mark = 'r' then '\r' else if mark = 't' then '\t' else mark

/-- Reads one character off the front of what stands between quotes. -/
def unescape : List Char → Option (Char × List Char)
  | [] => none
  | [c] => some (c, [])
  | c :: mark :: rest =>
    if c = '\\' then
      match codeWidth? mark with
      | some width => some (Char.ofNat (hexValue (rest.take width)), rest.drop width)
      | none => some (marked mark, rest)
    else some (c, mark :: rest)

theorem unescape_of_ne {c : Char} (h : c ≠ '\\') (rest : List Char) :
    unescape (c :: rest) = some (c, rest) := by
  cases rest with
  | nil => rfl
  | cons mark rest => rw [unescape, if_neg h]

/-- A code point is read back if its digits are enough for it. -/
theorem unescape_code {mark : Char} {width : Nat} {c : Char} (hmark : codeWidth? mark = some width)
    (h : c.toNat < 16 ^ width) (rest : List Char) :
    unescape ('\\' :: mark :: hexDigits width c.toNat ++ rest) = some (c, rest) := by
  have hlength := length_hexDigits width c.toNat
  rw [List.cons_append, List.cons_append, unescape, if_pos rfl, hmark]
  simp only [List.take_left' hlength, List.drop_left' hlength, hexValue_hexDigits h,
    Char.ofNat_toNat]

theorem unescape_codeEscape (c : Char) (rest : List Char) :
    unescape (codeEscape c ++ rest) = some (c, rest) := by
  have hword : c.toNat < 16 ^ 8 := Nat.lt_of_lt_of_le c.val.toNat_lt (by decide)
  unfold codeEscape
  split
  · next htwo => exact unescape_code rfl htwo rest
  · split
    · next hfour => exact unescape_code rfl hfour rest
    · exact unescape_code rfl hword rest

/-- A quote is an apostrophe or a double quote. -/
def IsQuote (c : Char) : Prop := c = '\'' ∨ c = '"'

theorem isQuote_quoteFor (text : List Char) : IsQuote (quoteFor text) := by
  unfold quoteFor
  split
  · exact .inr rfl
  · exact .inl rfl

theorem IsQuote.ne_backslash {quote : Char} (h : IsQuote quote) : quote ≠ '\\' := by
  rcases h with rfl | rfl <;> decide

variable (printable : Char → Bool) {quote : Char}

/-- A character that is written between quotes is read back, with what is behind it. -/
theorem unescape_escape (hquote : IsQuote quote) (c : Char) (rest : List Char) :
    unescape (escape printable quote c ++ rest) = some (c, rest) := by
  unfold escape
  split
  · next hself =>
    have hcases : c = '\'' ∨ c = '"' ∨ c = '\\' := by
      rcases hself with rfl | rfl
      · exact hquote.elim .inl fun h => .inr (.inl h)
      · exact .inr (.inr rfl)
    rcases hcases with rfl | rfl | rfl <;> rfl
  · next hother =>
    by_cases hfeed : c = '\n'
    · subst hfeed
      rfl
    by_cases hreturn : c = '\r'
    · subst hreturn
      rfl
    by_cases htab : c = '\t'
    · subst htab
      rfl
    simp only [hfeed, hreturn, htab, if_false]
    split
    · exact unescape_of_ne (fun h => hother (.inr h)) rest
    · exact unescape_codeEscape c rest

/-- The digits of a code point end by their number, also before another digit. -/
example : unescape "\\x7f0".toList = some ('\x7f', ['0']) := by decide

/-- What is written for a character does not begin like the enclosing quote. -/
theorem escape_append_ne (hquote : IsQuote quote) (c : Char) (rest after : List Char) :
    escape printable quote c ++ after ≠ quote :: rest := by
  intro heq
  -- It would be read as the quote, which is written behind a backslash.
  have hread := unescape_escape printable hquote c after
  rw [heq, unescape_of_ne hquote.ne_backslash] at hread
  obtain ⟨rfl, -⟩ : quote = c ∧ rest = after := by simpa using hread
  have hself : escape printable quote quote = ['\\', quote] := by simp [escape]
  rw [hself, List.cons_append] at heq
  exact hquote.ne_backslash (List.cons.inj heq).1.symm

/-! ## Texts -/

/-- Between quotes, a text is determined by what is written up to the closing quote. -/
theorem flatMap_escape_inj (hquote : IsQuote quote) {text text' rest rest' : List Char}
    (h : text.flatMap (escape printable quote) ++ quote :: rest =
      text'.flatMap (escape printable quote) ++ quote :: rest') : text = text' ∧ rest = rest' := by
  induction text generalizing text' with
  | nil =>
    cases text' with
    | nil => simpa using h
    | cons c text' =>
      rw [List.flatMap_cons, List.append_assoc] at h
      exact absurd h.symm (escape_append_ne printable hquote c _ _)
  | cons c text ih =>
    cases text' with
    | nil =>
      rw [List.flatMap_cons, List.append_assoc] at h
      exact absurd h (escape_append_ne printable hquote c _ _)
    | cons c' text' =>
      rw [List.flatMap_cons, List.append_assoc, List.flatMap_cons, List.append_assoc] at h
      have hread := unescape_escape printable hquote c (text.flatMap (escape printable quote) ++
        quote :: rest)
      rw [h, unescape_escape printable hquote c'] at hread
      obtain ⟨rfl, hbehind⟩ : c' = c ∧ _ = _ := by simpa using hread
      obtain ⟨rfl, hrest⟩ := ih hbehind.symm
      exact ⟨rfl, hrest⟩

/-- A quoted text is determined by a text that begins with it, and so is what stands behind. -/
theorem quotedChars_append_inj {text text' rest rest' : List Char}
    (h : quotedChars printable text ++ rest = quotedChars printable text' ++ rest') :
    text = text' ∧ rest = rest' := by
  simp only [quotedChars, List.cons_append, List.append_assoc, List.cons.injEq] at h
  obtain ⟨hquote, hbody⟩ := h
  rw [← hquote] at hbody
  exact flatMap_escape_inj printable (isQuote_quoteFor text) hbody

end SumLang.Text
