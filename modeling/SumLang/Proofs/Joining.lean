import SumLang.Proofs.Lexing

/-!
# Texts put together

Two texts may be put together where no word and no number goes on from the first to the second.
The scanner then answers for the first what it does for that text alone, except that the first does
not end; and it answers for the second what it does for that text alone, except that everything has
another place.  Of the text in front the place where it ends is all that counts: on the first line
of the second text columns go on from there, and on later lines only the lines are counted on.

## Main definitions

* `Position.relocate`: the place in the text behind another.

## Main statements

* `Position.behind_append`: the place behind both texts.
* `scan_relocate`: the scan of a text behind another is the relocated scan of that text.
* `scan_append`: the scan of two texts goes on in the second where the first ends.
* `tokenize_append`: the tokens of two texts, and their failures.
-/
namespace SumLang

/-! ## Relocation -/

/-- The place `p` of a text when this text begins at the place `stop`. -/
def Position.relocate (stop p : Position) : Position :=
  if p.line = 1 then ⟨stop.line, stop.column + p.column - 1⟩
  else ⟨stop.line + p.line - 1, p.column⟩

/-- The token as it is in a text that begins at `stop`. -/
def Token.relocate (stop : Position) (t : Token) : Token := { t with pos := stop.relocate t.pos }

/-- The failure as it is in a text that begins at `stop`. -/
def ScanError.relocate (stop : Position) : ScanError → ScanError
  | numberTooLarge literal pos => numberTooLarge literal (stop.relocate pos)
  | pastEnd index line => pastEnd index line
  | beforeStart => beforeStart
  | numeralTooLong length => numeralTooLong length

/-- The answer of the scanner as it is in a text that begins at `stop`. -/
def relocateAnswer (stop : Position) (answer : Except ScanError Token) : Except ScanError Token :=
  (answer.map (Token.relocate stop)).mapError (ScanError.relocate stop)

/-- The place behind two texts is the one behind the second, relocated. -/
theorem Position.behind_append (front text : List Char) :
    behind (front ++ text) = (behind front).relocate (behind text) := by
  rw [← advanceAll_behind, advanceAll_eq, relocate]
  by_cases hfeed : '\n' ∈ text
  · have hcount : 0 < text.count '\n' := List.count_pos_iff.mpr hfeed
    have hline : ¬ (behind text).line = 1 := by
      simp only [behind]
      omega
    rw [if_pos hfeed, if_neg hline]
    simp only [behind, Position.mk.injEq, and_true]
    omega
  · have hcount : text.count '\n' = 0 := List.count_eq_zero.mpr hfeed
    have hline : (behind text).line = 1 := by simp [behind, hcount]
    rw [if_neg hfeed, if_pos hline]
    simp only [behind, lastLineLength_of_notMem hfeed, hcount, Position.mk.injEq]
    omega

/-- What is answered for a lexeme moves with its place. -/
theorem Token.Class.token_relocate (table : Table) (cls : Token.Class) (stop pos : Position)
    (lexeme : List Char) :
    cls.token table (stop.relocate pos) lexeme =
      relocateAnswer stop (cls.token table pos lexeme) := by
  cases cls with
  | word | symbol | illegal => rfl
  | number =>
    simp only [Token.Class.token, Token.number_eq]
    split
    · rfl
    · split <;> rfl

/-- Behind another text, the scan is relocated and otherwise the same. -/
theorem scan_relocate (table : Table) (front before text : List Char) :
    scan table (.behind (front ++ before)) text =
      (scan table (.behind before) text).map (relocateAnswer (.behind front)) := by
  induction before, text using cut_induction table with
  | blank before gap hgap =>
    rw [scan_behind_blank table _ hgap, scan_behind_blank table _ hgap, List.append_assoc,
      Position.behind_append front]
    rfl
  | lexeme before gap ch run after hcut ih =>
    rw [hcut.scan_behind, hcut.scan_behind, List.map_cons, ← ih, ← Token.Class.token_relocate,
      ← Position.behind_append]
    simp only [List.append_assoc]

/-! ## Seams -/

/-- A seam behind a text is one behind each end of it. -/
theorem Seam.of_append {member : Char → Bool} {front before after : List Char}
    (h : Seam member (front ++ before) after) : Seam member before after := by
  by_cases hnil : before = []
  · subst hnil
    exact .nil member after
  · intro hlast
    apply h
    rwa [List.getLast?_append, List.getLast?_eq_some_getLast hnil, Option.some_or,
      ← List.getLast?_eq_some_getLast hnil]

/-- A run that could not be longer is not made longer by what is put behind a seam. -/
theorem Seam.takeWhile_append {member : Char → Bool} {run after more : List Char} (hne : run ≠ [])
    (hseam : Seam member (run ++ after) more) (hrun : (run ++ after).takeWhile member = run) :
    (run ++ (after ++ more)).takeWhile member = run := by
  have hmembers : ∀ c ∈ run, member c = true := by
    intro c hc
    rw [← hrun] at hc
    exact List.mem_takeWhile_imp hc
  have hstops := stops_drop_takeWhile member (run ++ after)
  rw [hrun, List.drop_left] at hstops
  apply takeWhile_append_of_stops hmembers
  cases after with
  | cons c after => exact hstops
  | nil =>
    rw [List.append_nil] at hseam
    apply hseam
    rw [List.getLast?_eq_some_getLast hne, Option.any_some]
    exact hmembers _ (List.getLast_mem hne)

/-- The scanner takes the same off the front when more is put behind a seam. -/
theorem Cut.append {table : Table} {gap run after more : List Char} {ch : Char}
    (h : Cut table gap ch run after) (hletters : Seam isLetter (ch :: run ++ after) more)
    (hdigits : Seam isDigit (ch :: run ++ after) more) : Cut table gap ch run (after ++ more) := by
  refine ⟨h.blanks, h.opens, ?_⟩
  have hlexeme := h.lexeme
  have hne : ch :: run ≠ [] := List.cons_ne_nil _ _
  cases hclass : Token.Class.of table ch with
  | word =>
    rw [hclass] at hlexeme
    exact hletters.takeWhile_append hne hlexeme
  | number =>
    rw [hclass] at hlexeme
    exact hdigits.takeWhile_append hne hlexeme
  | symbol | illegal =>
    rw [hclass] at hlexeme
    obtain rfl : run = [] := by simpa [Token.Class.lexeme, eq_comm] using hlexeme
    rfl

/-- Blanks in front of a text only move it. -/
theorem scan_blanks_append (table : Table) (before : List Char) {gap : List Char}
    (hgap : ∀ c ∈ gap, isBlank c = true) (text : List Char) :
    scan table (.behind before) (gap ++ text) = scan table (.behind (before ++ gap)) text := by
  rcases blank_or_split text with hblank | ⟨gap', ch, tail, rfl, hgap', hch⟩
  · rw [scan_behind_blank table _ hblank,
      scan_behind_blank table _ (List.forall_mem_append.mpr ⟨hgap, hblank⟩), List.append_assoc]
  · obtain ⟨run, after, rfl, hcut⟩ := exists_cut table tail hgap' hch
    have hboth : Cut table (gap ++ gap') ch run after :=
      ⟨List.forall_mem_append.mpr ⟨hgap, hgap'⟩, hcut.opens, hcut.lexeme⟩
    have hfront := hboth.scan_behind before
    have hbehind := hcut.scan_behind (before ++ gap)
    simp only [List.append_assoc, List.cons_append] at hfront hbehind ⊢
    rw [hfront, hbehind]

/-- Over a seam, the scan of the first text gives way to that of the second where it ends. -/
theorem scan_append (table : Table) (before : List Char) {text more : List Char}
    (hletters : Seam isLetter text more) (hdigits : Seam isDigit text more) :
    ∃ answers,
      scan table (.behind before) text = answers ++ [.ok (.eof (.behind (before ++ text)))] ∧
      scan table (.behind before) (text ++ more) =
        answers ++ scan table (.behind (before ++ text)) more := by
  induction before, text using cut_induction table with
  | blank before gap hgap =>
    -- These blanks stand in front of the first lexeme of `more`, if it has one.
    exact ⟨[], scan_behind_blank table before hgap, scan_blanks_append table before hgap more⟩
  | lexeme before gap ch run after hcut ih =>
    rw [List.append_assoc gap] at hletters hdigits
    obtain ⟨answers, hafter, hmore⟩ := ih hletters.of_append.of_append hdigits.of_append.of_append
    have hcut' := hcut.append hletters.of_append hdigits.of_append
    have hplace : before ++ gap ++ ch :: run ++ after = before ++ (gap ++ ch :: run ++ after) := by
      simp
    rw [hplace] at hafter hmore
    refine ⟨(Token.Class.of table ch).token table (.behind (before ++ gap)) (ch :: run) :: answers,
      ?_, ?_⟩
    · rw [hcut.scan_behind, hafter]
      rfl
    · rw [List.append_assoc (gap ++ ch :: run), hcut'.scan_behind, hmore]
      rfl

/-! ## Tokens -/

/-- The tokens of a relocated scan are those of the scan, relocated. -/
theorem mapM_id_map_relocateAnswer (stop : Position) (answers : List (Except ScanError Token)) :
    (answers.map (relocateAnswer stop)).mapM id =
      ((answers.mapM id).map (List.map (Token.relocate stop))).mapError
        (ScanError.relocate stop) := by
  induction answers with
  | nil => rfl
  | cons answer answers ih =>
    rw [List.map_cons, List.mapM_cons, List.mapM_cons, ih]
    cases answer with
    | error e => rfl
    | ok t =>
      cases answers.mapM id with
      | error e => rfl
      | ok tokens => rfl

/-- Answers are collected part by part, up to the first failure. -/
theorem mapM_id_append {ε α : Type} (answers more : List (Except ε α)) :
    (answers ++ more).mapM id =
      (answers.mapM id).bind fun front => (more.mapM id).map (front ++ ·) := by
  rw [List.mapM_append]
  cases answers.mapM id with
  | error e => rfl
  | ok front => cases more.mapM id <;> rfl

/-- Texts with a seam between them are tokenized one after the other: behind the tokens of the
first, without the one that ends it, come those of the second, relocated. -/
theorem tokenize_append_eq {a b : String} (hletters : Seam isLetter a.toList b.toList)
    (hdigits : Seam isDigit a.toList b.toList) :
    tokenize .standard (a ++ b) =
      (tokenize .standard a).bind fun tokens =>
        ((tokenize .standard b).map fun more =>
          tokens.pop ++ more.map (Token.relocate (.behind a.toList))).mapError
            (ScanError.relocate (.behind a.toList)) := by
  have hstart : Position.start = .behind [] := Position.advanceAll_start []
  obtain ⟨answers, hfirst, hboth⟩ := scan_append .standard [] hletters hdigits
  have hsecond := scan_relocate .standard a.toList [] b.toList
  rw [List.nil_append] at hfirst hboth
  rw [List.append_nil] at hsecond
  have hend : [Except.ok (Token.eof (.behind a.toList))].mapM id =
      (Except.ok [.eof (.behind a.toList)] : Except ScanError (List Token)) := rfl
  simp only [tokenize_eq Table.neverEnds_standard, hstart, String.toList_append, hfirst, hboth,
    hsecond, mapM_id_append, mapM_id_map_relocateAnswer, hend]
  cases answers.mapM id with
  | error e => rfl
  | ok front =>
    cases (scan .standard (.behind []) b.toList).mapM id with
    | error e => rfl
    | ok more => simp [Except.map, Except.bind, Except.mapError]

/-- Two texts that no word and no number joins are tokenized one after the other.  Where the first
fails, both together fail so.  Else the tokens of the first end at some place with the token that
says so, and with no other of its type.  Without it, and with the tokens of the second relocated to
that place behind them, they are the tokens of both together; and where only the second fails, both
fail so, at the relocated place. -/
theorem tokenize_append (a b : String) (hletters : Seam isLetter a.toList b.toList)
    (hdigits : Seam isDigit a.toList b.toList) :
    (∀ e, tokenize .standard a = .error e → tokenize .standard (a ++ b) = .error e) ∧
    ∀ tokens, tokenize .standard a = .ok tokens →
      ∃ (front : Array Token) (stop : Position), tokens = front.push (.eof stop) ∧
        (∀ t ∈ front, t.isEof = false) ∧
        (∀ more, tokenize .standard b = .ok more →
          tokenize .standard (a ++ b) = .ok (front ++ more.map (Token.relocate stop))) ∧
        ∀ e, tokenize .standard b = .error e →
          tokenize .standard (a ++ b) = .error (e.relocate stop) := by
  rw [tokenize_append_eq hletters hdigits]
  refine ⟨?_, ?_⟩
  · intro e he
    rw [he]
    rfl
  · intro tokens htokens
    obtain ⟨front, rfl, hfront⟩ := exists_push_eof_of_tokenize Table.neverEnds_standard htokens
    refine ⟨front, .behind a.toList, rfl, hfront, ?_, ?_⟩
    · intro more hmore
      rw [htokens, hmore]
      simp [Except.bind, Except.map, Except.mapError]
    · intro e he
      rw [htokens, he]
      rfl

/-- What stands on the first line of the second text goes on behind the blank that ends the first,
and what stands on its second line keeps its column.  A number that is too large fails at its place
in both texts together. -/
theorem tokenize_append_over_lines :
    let a := "let x\n "
    let b := " = 1\n+y"
    let large := ";2147483648"
    Seam isLetter a.toList b.toList ∧ Seam isDigit a.toList b.toList ∧
      tokenize .standard (a ++ b) =
        .ok #[⟨"LET", .text "let", ⟨1, 1⟩⟩, ⟨TokenType.ident, .text "x", ⟨1, 5⟩⟩,
          ⟨"ASSIGN", .text "=", ⟨2, 3⟩⟩, ⟨TokenType.int, .int 1, ⟨2, 5⟩⟩,
          ⟨TokenType.plus, .text "+", ⟨3, 1⟩⟩, ⟨TokenType.ident, .text "y", ⟨3, 2⟩⟩,
          .eof ⟨3, 3⟩] ∧
      tokenize .standard (a ++ large) = .error (.numberTooLarge "2147483648" ⟨2, 3⟩) := by
  intro a b large
  let front : Array Token :=
    #[⟨"LET", .text "let", ⟨1, 1⟩⟩, ⟨TokenType.ident, .text "x", ⟨1, 5⟩⟩]
  have hletters : Seam isLetter a.toList b.toList := by decide +kernel
  have hdigits : Seam isDigit a.toList b.toList := by decide +kernel
  have ha : tokenize .standard a = .ok (front.push (.eof ⟨2, 2⟩)) := by decide +kernel
  have hb : tokenize .standard b =
      .ok #[⟨"ASSIGN", .text "=", ⟨1, 2⟩⟩, ⟨TokenType.int, .int 1, ⟨1, 4⟩⟩,
        ⟨TokenType.plus, .text "+", ⟨2, 1⟩⟩, ⟨TokenType.ident, .text "y", ⟨2, 2⟩⟩,
        .eof ⟨2, 3⟩] := by
    decide +kernel
  have hlarge : tokenize .standard large = .error (.numberTooLarge "2147483648" ⟨1, 2⟩) := by
    decide +kernel
  refine ⟨hletters, hdigits, ?_, ?_⟩
  · obtain ⟨front', stop, hpush, -, hboth, -⟩ := (tokenize_append a b hletters hdigits).2 _ ha
    obtain ⟨hstop, rfl⟩ := Array.push_eq_push.mp hpush
    obtain rfl : ⟨2, 2⟩ = stop := congrArg Token.pos hstop
    exact (hboth _ hb).trans (by decide +kernel)
  · obtain ⟨front', stop, hpush, -, -, hfails⟩ :=
      (tokenize_append a large (by decide +kernel) (by decide +kernel)).2 _ ha
    obtain ⟨hstop, -⟩ := Array.push_eq_push.mp hpush
    obtain rfl : ⟨2, 2⟩ = stop := congrArg Token.pos hstop
    exact hfails _ hlarge

end SumLang
