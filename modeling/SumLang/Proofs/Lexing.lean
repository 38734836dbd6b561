import SumLang.Proofs.Scanning

/-!
# The lexemes of a text

What the tokens of a text are can be said without a scanner.  A text is cut into lexemes with
gaps of blanks around them.  A lexeme is a run of letters or of digits that could not be longer,
or a single character; with its token type and value it is an `IsLexeme`.  `Lexed` is the whole
text, each token with the place of its first character.

## Main statements

* `tokenize_eq_ok_iff_lexed`: tokens are read exactly where a text can be cut so, and the cut is
  the only one.
-/
namespace SumLang

/-! ## Classes of characters -/

/-- The classes of characters that runs consist of. -/
inductive CharClass where
  | blank
  | letter
  | digit
deriving DecidableEq

namespace CharClass

/-- The characters of a class. -/
def members : CharClass → List Char
  | blank => blanks
  | letter => letters
  | digit => digits

/-- Whether a character is of a class. -/
def contains (kind : CharClass) (c : Char) : Bool := kind.members.contains c

/-- No character is of two classes. -/
theorem excludes (kind other : CharClass) (hne : kind ≠ other) {c : Char}
    (h : kind.contains c = true) : other.contains c = false := by
  have hall : kind.members.all (!other.contains ·) = true := by
    revert hne
    cases kind <;> cases other <;> decide
  simpa using List.all_eq_true.mp hall c (by simpa [contains] using h)

end CharClass

/-- No digit is a symbol of the language. -/
theorem Table.find?_digit {c : Char} (h : isDigit c = true) :
    standard.find? (String.ofList [c]) = none := by
  have hall : digits.all (fun c => standard.find? (String.ofList [c]) == none) = true := by decide
  simpa using List.all_eq_true.mp hall c (by simpa [isDigit] using h)

/-- Whether what follows a run cannot prolong it: it does not begin with a member of the set. -/
def Stops (member : Char → Bool) (after : List Char) : Prop :=
  ∀ c, after.head? = some c → member c = false

instance (member : Char → Bool) : ∀ after : List Char, Decidable (Stops member after)
  | [] => .isTrue (by simp [Stops])
  | c :: _ => decidable_of_iff (member c = false) (by simp [Stops])

theorem stops_dropWhile (member : Char → Bool) (chars : List Char) :
    Stops member (chars.dropWhile member) := by
  intro c hc
  have hnot := List.head?_dropWhile_not member chars
  rw [hc] at hnot
  simpa using hnot

/-- What a run of members from the front leaves does not begin with a member. -/
theorem stops_drop_takeWhile (member : Char → Bool) (chars : List Char) :
    Stops member (chars.drop (chars.takeWhile member).length) := by
  have hdrop : chars.drop (chars.takeWhile member).length = chars.dropWhile member :=
    List.append_cancel_left ((List.prefix_iff_eq_append.mp (List.takeWhile_prefix member)).trans
      List.takeWhile_append_dropWhile.symm)
  rw [hdrop]
  exact stops_dropWhile member chars

/-- A run of members with something else behind it is the longest run from the front. -/
theorem takeWhile_append_of_stops {member : Char → Bool} {run after : List Char}
    (hrun : ∀ c ∈ run, member c = true) (hafter : Stops member after) :
    (run ++ after).takeWhile member = run := by
  rw [List.takeWhile_append_of_pos hrun]
  cases after with
  | nil => simp
  | cons c tail => simp [hafter c rfl]

/-- A run of members with something else behind it is determined by a text that begins with it, and
what stands behind it is determined, too. -/
theorem run_append_inj {member : Char → Bool} {run run' after after' : List Char}
    (hrun : ∀ c ∈ run, member c = true) (hrun' : ∀ c ∈ run', member c = true)
    (hafter : Stops member after) (hafter' : Stops member after')
    (h : run ++ after = run' ++ after') : run = run' ∧ after = after' := by
  have heq : run = run' := by
    rw [← takeWhile_append_of_stops hrun hafter, h, takeWhile_append_of_stops hrun' hafter']
  subst heq
  exact ⟨rfl, List.append_cancel_left h⟩

/-- No run of members goes on from the first text to the second. -/
def Seam (member : Char → Bool) (before after : List Char) : Prop :=
  before.getLast?.any member = true → Stops member after

instance (member : Char → Bool) (before after : List Char) : Decidable (Seam member before after) :=
  inferInstanceAs (Decidable (before.getLast?.any member = true → Stops member after))

namespace Seam

variable {member : Char → Bool}

theorem nil (member : Char → Bool) (after : List Char) : Seam member [] after := by
  intro hlast
  simp at hlast

/-- Behind characters that are no members no run goes on. -/
theorem of_none {run : List Char} (hne : run ≠ []) (h : ∀ c ∈ run, member c = false)
    (before after : List Char) : Seam member (before ++ run) after := by
  intro hlast
  rw [List.getLast?_append, List.getLast?_eq_some_getLast hne, Option.some_or, Option.any_some,
    h _ (List.getLast_mem hne)] at hlast
  exact absurd hlast (by decide)

/-- Skipping characters that are no members keeps a seam. -/
theorem append {before gap after : List Char} (hgap : ∀ c ∈ gap, member c = false)
    (h : Seam member before (gap ++ after)) : Seam member (before ++ gap) after := by
  by_cases hne : gap = []
  · subst hne
    simpa using h
  · exact of_none hne hgap before after

/-- A run of members begins at a seam. -/
theorem front {before run after : List Char} (h : Seam member before (run ++ after))
    (hne : run ≠ []) (hrun : ∀ c ∈ run, member c = true) :
    before.getLast?.any member = false := by
  by_contra hlast
  obtain ⟨c, run, rfl⟩ := List.exists_cons_of_ne_nil hne
  have hstops := h (by simpa using hlast) c rfl
  rw [hrun c List.mem_cons_self] at hstops
  exact absurd hstops (by decide)

end Seam

/-! ## Lexemes -/

/-- The characters of `lexeme`, with those of `after` behind them, are one token, of the given
type and value. -/
inductive IsLexeme (table : Table) : List Char → List Char → TokenType → Scalar → Prop where
  /-- A run of letters that no letter follows is a keyword or a name. -/
  | word {run after : List Char} (nonempty : run ≠ []) (members : ∀ c ∈ run, isLetter c = true)
      (longest : Stops isLetter after) :
      IsLexeme table run after ((table.find? (String.ofList run)).getD TokenType.ident)
        (.text (String.ofList run))
  /-- A character of the table that is neither a blank nor a letter is a symbol. -/
  | symbol {c : Char} {after : List Char} {type : TokenType} (blank : isBlank c = false)
      (letter : isLetter c = false) (entry : table.find? (String.ofList [c]) = some type) :
      IsLexeme table [c] after type (.text (String.ofList [c]))
  /-- A run of digits that no digit follows is a number, if it is neither too long nor too
  large and the table does not have its first digit. -/
  | number {c : Char} {run after : List Char} (members : ∀ d ∈ c :: run, isDigit d = true)
      (entry : table.find? (String.ofList [c]) = none) (longest : Stops isDigit after)
      (short : (c :: run).length ≤ longestNumeral)
      (small : (Nat.ofDigitChars 10 (c :: run) 0 : Int) ≤ greatestNumber) :
      IsLexeme table (c :: run) after TokenType.int (.int (Nat.ofDigitChars 10 (c :: run) 0))
  /-- Any other character that is not a blank is illegal. -/
  | illegal {c : Char} {after : List Char} (blank : isBlank c = false)
      (letter : isLetter c = false) (entry : table.find? (String.ofList [c]) = none)
      (digit : isDigit c = false) :
      IsLexeme table [c] after TokenType.illegal (.text (String.ofList [c]))

/-- Blanks, and the lexeme behind them. -/
structure Piece where
  gap : List Char
  lexeme : List Char
deriving DecidableEq, Repr

/-- A text with `before` in front of it is cut into pieces and the blanks at its end, and these
are its tokens.  Each token has the place behind everything before it. -/
inductive Lexed (table : Table) : List Char → List Char → List Piece → List Token → Prop where
  /-- Blanks up to the end. -/
  | done {before gap : List Char} (blanks : ∀ c ∈ gap, isBlank c = true) :
      Lexed table before gap [] [.eof (.behind (before ++ gap))]
  /-- Blanks, a lexeme, and the rest of the text. -/
  | lexeme {before gap lexeme after : List Char} {type : TokenType} {value : Scalar}
      {pieces : List Piece} {tokens : List Token} (blanks : ∀ c ∈ gap, isBlank c = true)
      (token : IsLexeme table lexeme after type value)
      (rest : Lexed table (before ++ gap ++ lexeme) after pieces tokens) :
      Lexed table before (gap ++ lexeme ++ after) (⟨gap, lexeme⟩ :: pieces)
        (⟨type, value, .behind (before ++ gap)⟩ :: tokens)

namespace Token

/-- The value of a run of digits that is neither too long nor too large. -/
theorem number_eq_ok_iff {numeral : List Char} {pos : Position} {t : Token} :
    Token.number (String.ofList numeral) pos = .ok t ↔
      numeral.length ≤ longestNumeral ∧
        (Nat.ofDigitChars 10 numeral 0 : Int) ≤ greatestNumber ∧
        t = ⟨TokenType.int, .int (Nat.ofDigitChars 10 numeral 0), pos⟩ := by
  simp only [number_eq, String.length_ofList, String.toList_ofList]
  by_cases hlong : longestNumeral < numeral.length
  · simp [hlong, Nat.not_le.mpr hlong]
  · by_cases hlarge : greatestNumber < (Nat.ofDigitChars 10 numeral 0 : Int)
    · simp [hlong, hlarge, Int.not_le.mpr hlarge]
    · simp [hlong, hlarge, Nat.not_lt.mp hlong, Int.not_lt.mp hlarge, eq_comm]

end Token

theorem Token.Class.of_letter (table : Table) {c : Char} (h : isLetter c = true) :
    of table c = word := by
  simp [of, h]

theorem Token.Class.of_symbol {table : Table} {c : Char} {type : TokenType}
    (hletter : isLetter c = false) (hentry : table.find? (String.ofList [c]) = some type) :
    of table c = symbol type := by
  have htext : c.toString = String.ofList [c] := String.singleton_eq_ofList
  simp only [of, hletter, htext, hentry, Bool.false_eq_true, if_false]

theorem Token.Class.of_digit {table : Table} {c : Char} (hdigit : isDigit c = true)
    (hentry : table.find? (String.ofList [c]) = none) : of table c = number := by
  have htext : c.toString = String.ofList [c] := String.singleton_eq_ofList
  have hletter : isLetter c = false := CharClass.excludes .digit .letter (by decide) hdigit
  simp only [of, hletter, htext, hentry, hdigit, Bool.false_eq_true, if_false, if_true]

theorem Token.Class.of_other {table : Table} {c : Char} (hletter : isLetter c = false)
    (hdigit : isDigit c = false) (hentry : table.find? (String.ofList [c]) = none) :
    of table c = illegal := by
  have htext : c.toString = String.ofList [c] := String.singleton_eq_ofList
  simp only [of, hletter, htext, hentry, hdigit, Bool.false_eq_true, if_false]

/-- What the scanner takes and makes a token of is a lexeme. -/
theorem isLexeme_of_token {table : Table} {ch : Char} {tail : List Char} {pos : Position}
    {t : Token} (hch : isBlank ch = false)
    (h : (Token.Class.of table ch).token table pos
      ((Token.Class.of table ch).lexeme (ch :: tail)) = .ok t) :
    t.pos = pos ∧
      IsLexeme table ((Token.Class.of table ch).lexeme (ch :: tail))
        ((ch :: tail).drop ((Token.Class.of table ch).lexeme (ch :: tail)).length)
        t.type t.value := by
  have hafter (member : Char → Bool) := stops_drop_takeWhile member (ch :: tail)
  by_cases hletter : isLetter ch = true
  · rw [Token.Class.of_letter table hletter] at h ⊢
    obtain rfl : _ = t := by simpa [Token.Class.token] using h
    refine ⟨rfl, .word ?_ (fun c hc => List.mem_takeWhile_imp hc) (hafter isLetter)⟩
    simp [Token.Class.lexeme, hletter]
  · rw [Bool.not_eq_true] at hletter
    cases hentry : table.find? (String.ofList [ch]) with
    | some type =>
      rw [Token.Class.of_symbol hletter hentry] at h ⊢
      obtain rfl : _ = t := by simpa [Token.Class.token] using h
      exact ⟨rfl, .symbol hch hletter hentry⟩
    | none =>
      by_cases hdigit : isDigit ch = true
      · rw [Token.Class.of_digit hdigit hentry] at h ⊢
        have hcons : (ch :: tail).takeWhile isDigit = ch :: tail.takeWhile isDigit := by
          simp [hdigit]
        obtain ⟨hshort, hsmall, rfl⟩ := Token.number_eq_ok_iff.mp h
        refine ⟨rfl, ?_⟩
        have hstops := hafter isDigit
        simp only [Token.Class.lexeme, hcons] at hshort hsmall hstops ⊢
        refine .number (fun d hd => ?_) hentry hstops hshort hsmall
        exact List.mem_takeWhile_imp (hcons ▸ hd)
      · rw [Bool.not_eq_true] at hdigit
        rw [Token.Class.of_other hletter hdigit hentry] at h ⊢
        obtain rfl : _ = t := by simpa [Token.Class.token] using h
        exact ⟨rfl, .illegal hch hletter hentry hdigit⟩

/-- A lexeme is what the scanner takes and makes a token of. -/
theorem IsLexeme.token_eq {table : Table} {lexeme after : List Char} {type : TokenType}
    {value : Scalar} (h : IsLexeme table lexeme after type value) :
    ∃ ch run, lexeme = ch :: run ∧ isBlank ch = false ∧
      (Token.Class.of table ch).lexeme (lexeme ++ after) = lexeme ∧
      ∀ pos, (Token.Class.of table ch).token table pos lexeme = .ok ⟨type, value, pos⟩ := by
  cases h with
  | word nonempty members longest =>
    obtain ⟨ch, run, rfl⟩ := List.exists_cons_of_ne_nil nonempty
    have hletter := members ch List.mem_cons_self
    have hblank := CharClass.excludes .letter .blank (by decide) hletter
    refine ⟨ch, run, rfl, hblank, ?_, ?_⟩
    · rw [Token.Class.of_letter table hletter]
      exact takeWhile_append_of_stops members longest
    · intro pos
      rw [Token.Class.of_letter table hletter]
      rfl
  | @symbol ch _ _ blank letter entry =>
    refine ⟨ch, [], rfl, blank, ?_, ?_⟩
    · rw [Token.Class.of_symbol letter entry]
      rfl
    · intro pos
      rw [Token.Class.of_symbol letter entry]
      rfl
  | @number ch run _ members entry longest short small =>
    have hdigit := members ch List.mem_cons_self
    have hblank := CharClass.excludes .digit .blank (by decide) hdigit
    refine ⟨ch, run, rfl, hblank, ?_, ?_⟩
    · rw [Token.Class.of_digit hdigit entry]
      exact takeWhile_append_of_stops members longest
    · intro pos
      rw [Token.Class.of_digit hdigit entry]
      exact Token.number_eq_ok_iff.mpr ⟨short, small, rfl⟩
  | @illegal ch _ blank letter entry digit =>
    refine ⟨ch, [], rfl, blank, ?_, ?_⟩
    · rw [Token.Class.of_other letter digit entry]
      rfl
    · intro pos
      rw [Token.Class.of_other letter digit entry]
      rfl

/-- No word goes over the end of a lexeme. -/
theorem IsLexeme.seam_letters {table : Table} {lexeme after : List Char} {type : TokenType}
    {value : Scalar} (h : IsLexeme table lexeme after type value) (before : List Char) :
    Seam isLetter (before ++ lexeme) after := by
  cases h with
  | word nonempty members longest => exact fun _ => longest
  | symbol blank letter entry =>
    exact .of_none (List.cons_ne_nil _ _) (by simpa using letter) before after
  | number members entry longest short small =>
    have hnone := fun c hc => CharClass.excludes .digit .letter (by decide) (members c hc)
    exact .of_none (List.cons_ne_nil _ _) hnone before after
  | illegal blank letter entry digit =>
    exact .of_none (List.cons_ne_nil _ _) (by simpa using letter) before after

/-- No number goes over the end of a lexeme of the language. -/
theorem IsLexeme.seam_digits {lexeme after : List Char} {type : TokenType} {value : Scalar}
    (h : IsLexeme .standard lexeme after type value) (before : List Char) :
    Seam isDigit (before ++ lexeme) after := by
  cases h with
  | word nonempty members longest =>
    have hnone := fun c hc => CharClass.excludes .letter .digit (by decide) (members c hc)
    exact .of_none nonempty hnone before after
  | @symbol c _ _ blank letter entry =>
    have hdigit : isDigit c = false := by
      by_contra hdigit
      rw [Table.find?_digit (by simpa using hdigit)] at entry
      simp at entry
    exact .of_none (List.cons_ne_nil _ _) (by simpa using hdigit) before after
  | number members entry longest short small => exact fun _ => longest
  | illegal blank letter entry digit =>
    exact .of_none (List.cons_ne_nil _ _) (by simpa using digit) before after

/-! ## Texts -/

/-- Every cut of a text is what the scan answers. -/
theorem Lexed.scan_eq {table : Table} {before text : List Char} {pieces : List Piece}
    {tokens : List Token} (h : Lexed table before text pieces tokens) :
    scan table (.behind before) text = tokens.map .ok := by
  induction h with
  | @done before gap blanks =>
    rw [scan_of_blank table _ blanks, Position.advanceAll_behind]
    rfl
  | @lexeme before gap lexeme after type value pieces tokens blanks token rest ih =>
    obtain ⟨ch, run, rfl, hch, hlexeme, htoken⟩ := token.token_eq
    have htext : gap ++ ch :: run ++ after = gap ++ ch :: (run ++ after) := by simp
    have hdrop : (ch :: (run ++ after)).drop (ch :: run).length = after := by simp
    rw [List.cons_append] at hlexeme
    rw [htext, scan_of_lexeme table _ blanks hch, hlexeme, htoken, hdrop,
      Position.advanceAll_behind, Position.advanceAll_behind, ih]
    rfl

/-- The last token of a text ends it, and no other does. -/
theorem Lexed.exists_eof {table : Table} (hends : table.NeverEnds) {before text : List Char}
    {pieces : List Piece} {tokens : List Token} (h : Lexed table before text pieces tokens) :
    ∃ front, tokens = front ++ [.eof (.behind (before ++ text))] ∧
      ∀ t ∈ front, t.isEof = false := by
  obtain ⟨answers, hscan, -, hanswers⟩ := scan_eof hends before text
  rw [h.scan_eq, List.map_eq_append_iff] at hscan
  obtain ⟨front, last, rfl, rfl, hlast⟩ := hscan
  obtain ⟨t, rfl, ht⟩ := List.map_eq_singleton_iff.mp hlast
  refine ⟨front, ?_, ?_⟩
  · rw [Except.ok.inj ht]
  · intro t ht
    exact hanswers t (List.mem_map_of_mem ht)

/-- A blank in front of a text belongs to its first gap. -/
theorem Lexed.blank {table : Table} {before text : List Char} {c : Char} {pieces : List Piece}
    {tokens : List Token} (hc : isBlank c = true)
    (h : Lexed table (before ++ [c]) text pieces tokens) :
    ∃ pieces, Lexed table before (c :: text) pieces tokens := by
  generalize hfront : before ++ [c] = front at h
  cases h with
  | done blanks =>
    have hdone : Lexed table before (c :: text) [] [.eof (.behind (before ++ c :: text))] :=
      .done (List.forall_mem_cons.mpr ⟨hc, blanks⟩)
    rw [← hfront, List.append_assoc]
    exact ⟨_, hdone⟩
  | @lexeme _ gap lexeme after type value pieces tokens blanks token rest =>
    have hrest : Lexed table (before ++ (c :: gap) ++ lexeme) after pieces tokens := by
      simpa [← hfront] using rest
    have hlexeme := Lexed.lexeme (List.forall_mem_cons.mpr ⟨hc, blanks⟩) token hrest
    rw [← hfront, List.append_assoc]
    exact ⟨_, by simpa using hlexeme⟩

/-- Any number of blanks in front of a text belong to its first gap. -/
theorem Lexed.blanks {table : Table} {before gap text : List Char} {pieces : List Piece}
    {tokens : List Token} (hgap : ∀ c ∈ gap, isBlank c = true)
    (h : Lexed table (before ++ gap) text pieces tokens) :
    ∃ pieces, Lexed table before (gap ++ text) pieces tokens := by
  induction gap generalizing before with
  | nil => exact ⟨pieces, by simpa using h⟩
  | cons c gap ih =>
    rw [List.forall_mem_cons] at hgap
    rw [List.append_cons] at h
    obtain ⟨pieces, hrest⟩ := ih hgap.2 h
    exact hrest.blank hgap.1

/-- Answers without a failure: the first is a token, and so are the others. -/
theorem mapM_id_cons_eq_ok_iff {ε α : Type} {answer : Except ε α} {answers : List (Except ε α)}
    {values : List α} :
    (answer :: answers).mapM id = .ok values ↔
      ∃ value rest, answer = .ok value ∧ answers.mapM id = .ok rest ∧ values = value :: rest := by
  rw [List.mapM_cons, id]
  cases answer with
  | error e => simp [bind, Except.bind]
  | ok value =>
    cases answers.mapM id with
    | error e => simp [bind, Except.bind]
    | ok rest => simp [bind, Except.bind, pure, Except.pure, eq_comm]

theorem mapM_id_map_ok {ε α : Type} (values : List α) :
    (values.map (Except.ok : α → Except ε α)).mapM id = .ok values := by
  induction values with
  | nil => rfl
  | cons value values ih =>
    exact mapM_id_cons_eq_ok_iff.mpr ⟨value, values, rfl, ih, rfl⟩

/-- What the scanner takes off a text is a lexeme, if it is a token. -/
theorem Cut.isLexeme {table : Table} {gap run after : List Char} {ch : Char}
    (h : Cut table gap ch run after) {pos : Position} {t : Token}
    (htoken : (Token.Class.of table ch).token table pos (ch :: run) = .ok t) :
    t.pos = pos ∧ IsLexeme table (ch :: run) after t.type t.value := by
  have hlexeme := h.lexeme
  have hdrop : (ch :: run ++ after).drop (ch :: run).length = after := List.drop_left
  rw [List.cons_append] at hlexeme hdrop
  rw [← hlexeme] at htoken
  have htaken := isLexeme_of_token h.opens htoken
  rwa [hlexeme, hdrop] at htaken

/-- Where the scan fails nowhere, it has cut the text. -/
theorem lexed_of_scan {table : Table} {before text : List Char} {tokens : List Token}
    (h : (scan table (.behind before) text).mapM id = .ok tokens) :
    ∃ pieces, Lexed table before text pieces tokens := by
  induction before, text using cut_induction table generalizing tokens with
  | blank before gap hgap =>
    rw [scan_behind_blank table before hgap] at h
    obtain ⟨t, rest, ht, hrest, rfl⟩ := mapM_id_cons_eq_ok_iff.mp h
    obtain rfl : _ = t := Except.ok.inj ht
    obtain rfl : [] = rest := Except.ok.inj hrest
    exact ⟨[], .done hgap⟩
  | lexeme before gap ch run after hcut ih =>
    rw [hcut.scan_behind] at h
    obtain ⟨⟨type, value, pos⟩, rest, htoken, hrest, rfl⟩ := mapM_id_cons_eq_ok_iff.mp h
    obtain ⟨rfl, hlexeme⟩ := hcut.isLexeme htoken
    obtain ⟨pieces, hpieces⟩ := ih hrest
    exact ⟨⟨gap, ch :: run⟩ :: pieces, .lexeme hcut.blanks hlexeme hpieces⟩

/-- The gap and the lexeme at the front of a text are determined by the text. -/
theorem IsLexeme.unique {table : Table} {gap gap' lexeme lexeme' after after' : List Char}
    {type type' : TokenType} {value value' : Scalar}
    (hgap : ∀ c ∈ gap, isBlank c = true) (hgap' : ∀ c ∈ gap', isBlank c = true)
    (h : IsLexeme table lexeme after type value) (h' : IsLexeme table lexeme' after' type' value')
    (htext : gap ++ lexeme ++ after = gap' ++ lexeme' ++ after') :
    gap = gap' ∧ lexeme = lexeme' ∧ after = after' := by
  obtain ⟨ch, run, rfl, hch, hlexeme, _⟩ := h.token_eq
  obtain ⟨ch', run', rfl, hch', hlexeme', _⟩ := h'.token_eq
  have hstops : Stops isBlank (ch :: run ++ after) := by simpa [Stops] using hch
  have hstops' : Stops isBlank (ch' :: run' ++ after') := by simpa [Stops] using hch'
  have heq : gap = gap' := by
    rw [List.append_assoc, List.append_assoc] at htext
    rw [← takeWhile_append_of_stops hgap hstops, htext, takeWhile_append_of_stops hgap' hstops']
  subst heq
  have hrest : ch :: run ++ after = ch' :: run' ++ after' := by simpa using htext
  obtain rfl : ch = ch' := by simpa using congrArg List.head? hrest
  have hrun : ch :: run = ch :: run' := by rw [← hlexeme, ← hlexeme', hrest]
  rw [hrun] at hrest
  exact ⟨rfl, hrun, List.append_cancel_left hrest⟩

/-- A lexeme has a character that is no blank. -/
theorem IsLexeme.not_blank {table : Table} {gap lexeme after : List Char} {type : TokenType}
    {value : Scalar} (h : IsLexeme table lexeme after type value) :
    ¬ ∀ c ∈ gap ++ lexeme ++ after, isBlank c = true := by
  obtain ⟨ch, run, rfl, hch, -⟩ := h.token_eq
  intro hall
  have hblank := hall ch (by simp)
  rw [hch] at hblank
  exact absurd hblank (by decide)

/-- A text can be cut in one way only. -/
theorem Lexed.pieces_unique {table : Table} {before text : List Char}
    {pieces pieces' : List Piece} {tokens tokens' : List Token}
    (h : Lexed table before text pieces tokens)
    (h' : Lexed table before text pieces' tokens') : pieces = pieces' := by
  induction h generalizing pieces' tokens' with
  | @done before gap blanks =>
    cases h' with
    | done => rfl
    | lexeme blanks' token' rest' => exact absurd blanks token'.not_blank
  | @lexeme before gap lexeme after type value pieces tokens blanks token rest ih =>
    generalize htext : gap ++ lexeme ++ after = text at h'
    cases h' with
    | done blanks' => exact absurd (htext ▸ blanks') token.not_blank
    | lexeme blanks' token' rest' =>
      obtain ⟨rfl, rfl, rfl⟩ := token.unique blanks blanks' token' htext
      rw [ih rest']

/-- The tokens of a text are those that its scan answers with, whatever the cut. -/
theorem Lexed.tokens_unique {table : Table} {before text : List Char}
    {pieces pieces' : List Piece} {tokens tokens' : List Token}
    (h : Lexed table before text pieces tokens)
    (h' : Lexed table before text pieces' tokens') : tokens = tokens' :=
  (List.map_inj_right fun _ _ heq => Except.ok.inj heq).mp (h.scan_eq.symm.trans h'.scan_eq)

theorem Table.NeverEnds.insert {table : Table} (h : table.NeverEnds) (text : String)
    {type : TokenType} (htype : type ≠ TokenType.eof) : (table.insert text type).NeverEnds := by
  intro other
  by_cases heq : other = text
  · subst heq
    rw [Table.find?_insert_self]
    exact fun h => htype (Option.some.inj h)
  · rw [Table.find?_insert_of_ne table type heq]
    exact h other

/-- Tokens are read only from a text that can be cut. -/
theorem lexed_of_tokenize {table : Table} (hends : table.NeverEnds) {text : String}
    {tokens : Array Token} (h : tokenize table text = .ok tokens) :
    ∃ pieces, Lexed table [] text.toList pieces tokens.toList := by
  have hstart : Position.start = .behind [] := Position.advanceAll_start []
  rw [tokenize_eq hends, hstart] at h
  cases hscan : (scan table (.behind []) text.toList).mapM id with
  | error e => simp [hscan, Except.map] at h
  | ok read =>
    obtain rfl : read.toArray = tokens := by simpa [hscan, Except.map] using h
    exact lexed_of_scan hscan

/-- Every cut of a text gives its tokens. -/
theorem Lexed.tokenize_eq_ok {table : Table} (hends : table.NeverEnds) {text : String}
    {pieces : List Piece} {tokens : List Token}
    (h : Lexed table [] text.toList pieces tokens) :
    tokenize table text = .ok tokens.toArray := by
  have hstart : Position.start = .behind [] := Position.advanceAll_start []
  rw [tokenize_eq hends, hstart, h.scan_eq, mapM_id_map_ok]
  rfl

/-- The last token of a text that is tokenized is at its end and says so; no other does. -/
theorem exists_push_eof_of_tokenize {table : Table} (hends : table.NeverEnds) {text : String}
    {tokens : Array Token} (h : tokenize table text = .ok tokens) :
    ∃ front : Array Token, tokens = front.push (.eof (.behind text.toList)) ∧
      ∀ t ∈ front, t.isEof = false := by
  obtain ⟨pieces, hlexed⟩ := lexed_of_tokenize hends h
  obtain ⟨front, htokens, hfront⟩ := hlexed.exists_eof hends
  refine ⟨front.toArray, ?_, by simpa using hfront⟩
  apply Array.ext'
  simpa using htokens

/-- Tokens are read from a text exactly where it can be cut into lexemes with blanks around
them, and there is no other way to cut it. -/
theorem tokenize_eq_ok_iff_lexed {table : Table} (hends : table.NeverEnds) (text : String) :
    (∀ tokens : Array Token, tokenize table text = .ok tokens ↔
        ∃ pieces, Lexed table [] text.toList pieces tokens.toList) ∧
      ∀ pieces pieces' tokens tokens', Lexed table [] text.toList pieces tokens →
        Lexed table [] text.toList pieces' tokens' → pieces = pieces' ∧ tokens = tokens' := by
  refine ⟨fun tokens => ⟨lexed_of_tokenize hends, ?_⟩, ?_⟩
  · rintro ⟨pieces, h⟩
    exact h.tokenize_eq_ok hends
  · intro pieces pieces' tokens tokens' h h'
    exact ⟨h.pieces_unique h', h.tokens_unique h'⟩

/-- A digit that the table has is a symbol; the digit behind it is a number. -/
theorem tokenize_digit_symbol :
    tokenize (Table.standard.insert "1" "ONE") "12 + x" =
      .ok #[⟨"ONE", .text "1", ⟨1, 1⟩⟩, ⟨TokenType.int, .int 2, ⟨1, 2⟩⟩,
        ⟨TokenType.plus, .text "+", ⟨1, 4⟩⟩, ⟨TokenType.ident, .text "x", ⟨1, 6⟩⟩,
        .eof ⟨1, 7⟩] := by
  have hends : (Table.standard.insert "1" "ONE").NeverEnds :=
    Table.neverEnds_standard.insert "1" (by decide)
  have hdigit : IsLexeme (Table.standard.insert "1" "ONE") ['1'] ['2', ' ', '+', ' ', 'x'] "ONE"
      (.text "1") := .symbol (by decide) (by decide) (by decide)
  have hnumber : IsLexeme (Table.standard.insert "1" "ONE") ['2'] [' ', '+', ' ', 'x']
      TokenType.int (.int 2) :=
    .number (List.forall_mem_singleton.mpr (by decide)) (by decide) (by decide) (by decide)
      (by decide)
  have hplus : IsLexeme (Table.standard.insert "1" "ONE") ['+'] [' ', 'x']
      TokenType.plus (.text "+") := .symbol (by decide) (by decide) (by decide)
  have hname : IsLexeme (Table.standard.insert "1" "ONE") ['x'] [] TokenType.ident (.text "x") :=
    .word (by decide) (List.forall_mem_singleton.mpr (by decide)) (by decide)
  have hblank : ∀ c ∈ [' '], isBlank c = true := List.forall_mem_singleton.mpr (by decide)
  have hnone : ∀ c ∈ [], isBlank c = true := List.forall_mem_nil _
  refine ((tokenize_eq_ok_iff_lexed hends "12 + x").1 _).mpr
    ⟨[⟨[], ['1']⟩, ⟨[], ['2']⟩, ⟨[' '], ['+']⟩, ⟨[' '], ['x']⟩], ?_⟩
  exact .lexeme hnone hdigit (.lexeme hnone hnumber
    (.lexeme hblank hplus (.lexeme hblank hname (.done hnone))))

end SumLang
