import SumLang.Proofs.Lexing

/-!
# The numerals of a text

A numeral is a run of digits in a text that could not be longer.  The language has no number for
a numeral of a greater value than its greatest number, nor for one of more digits than are ever
evaluated, whatever its value.  Scanning fails at these numerals and nowhere else.

## Main statements

* `mem_numerals_iff`, `pairwise_numerals`: the numerals of a text in order.
* `failures_scan`: the failures of a scan are those of the numerals, in order.
* `tokenize_fails_at_first_refusal`: no tokens are read exactly where a numeral is refused, and
  the first of these is the failure.
-/
namespace SumLang

/-! ## Numerals -/

/-- `run` is a numeral of the text, with `before` in front of it. -/
structure IsNumeral (text before run : List Char) : Prop where
  nonempty : run ≠ []
  digits : ∀ c ∈ run, isDigit c = true
  front : before.getLast?.any isDigit = false
  longest : ∃ after, text = before ++ run ++ after ∧ Stops isDigit after

/-- The value of a run of digits. -/
def valueOf (run : List Char) : Int := Nat.ofDigitChars 10 run 0

/-- Why the language has no number for a numeral, if it has none. -/
def refusal (before run : List Char) : Option ScanError :=
  if longestNumeral < run.length then some (.numeralTooLong run.length)
  else if greatestNumber < valueOf run then
    some (.numberTooLarge (String.ofList run) (.behind before))
  else none

theorem refusal_eq_none_iff {before run : List Char} :
    refusal before run = none ↔ run.length ≤ longestNumeral ∧ valueOf run ≤ greatestNumber := by
  rw [refusal]
  by_cases hlong : longestNumeral < run.length
  · simp [hlong, Nat.not_le.mpr hlong]
  · by_cases hlarge : greatestNumber < valueOf run
    · simp [hlong, hlarge, Int.not_le.mpr hlarge]
    · simp [hlong, hlarge, Nat.not_lt.mp hlong, Int.not_lt.mp hlarge]

/-- Without too many digits, a numeral is refused for its value. -/
theorem refusal_of_short {before run : List Char} {e : ScanError}
    (hshort : run.length ≤ longestNumeral) (h : refusal before run = some e) :
    greatestNumber < valueOf run ∧ e = .numberTooLarge (String.ofList run) (.behind before) := by
  rw [refusal, if_neg (Nat.not_lt.mpr hshort)] at h
  split at h
  · next hlarge => exact ⟨hlarge, (Option.some.inj h).symm⟩
  · simp at h

/-- The numerals of a text that has `before` in front of it, each with all that is in front of
the numeral: one begins at each digit behind something else. -/
def numerals (before : List Char) : List Char → List (List Char × List Char)
  | [] => []
  | c :: text =>
    if isDigit c && !before.getLast?.any isDigit then
      (before, (c :: text).takeWhile isDigit) :: numerals (before ++ [c]) text
    else numerals (before ++ [c]) text

theorem numerals_cons_of_not {before : List Char} {c : Char}
    (h : isDigit c = true → before.getLast?.any isDigit = true) (text : List Char) :
    numerals before (c :: text) = numerals (before ++ [c]) text := by
  rw [numerals, if_neg]
  cases hc : isDigit c with
  | false => simp
  | true => simp [h hc]

theorem getLast?_any_append_singleton (member : Char → Bool) (before : List Char) (c : Char) :
    (before ++ [c]).getLast?.any member = member c := by
  rw [List.getLast?_concat, Option.any_some]

/-- No numeral begins where there are no digits. -/
theorem numerals_append_of_none {run : List Char} (h : ∀ c ∈ run, isDigit c = false)
    (before text : List Char) : numerals before (run ++ text) = numerals (before ++ run) text := by
  induction run generalizing before with
  | nil => simp
  | cons c run ih =>
    rw [List.forall_mem_cons] at h
    rw [List.cons_append, numerals_cons_of_not (by simp [h.1]), ih h.2, List.append_assoc,
      List.singleton_append]

/-- No numeral begins among digits behind a digit. -/
theorem numerals_append_of_digits {before run : List Char}
    (hbefore : before.getLast?.any isDigit = true) (h : ∀ c ∈ run, isDigit c = true)
    (text : List Char) : numerals before (run ++ text) = numerals (before ++ run) text := by
  induction run generalizing before with
  | nil => simp
  | cons c run ih =>
    rw [List.forall_mem_cons] at h
    have hlast : (before ++ [c]).getLast?.any isDigit = true := by
      rw [getLast?_any_append_singleton, h.1]
    rw [List.cons_append, numerals_cons_of_not fun _ => hbefore, ih hlast h.2, List.append_assoc,
      List.singleton_append]

/-- A run of digits between other characters is a numeral. -/
theorem numerals_append_run {before run after : List Char} (hnonempty : run ≠ [])
    (hrun : ∀ c ∈ run, isDigit c = true) (hfront : before.getLast?.any isDigit = false)
    (hafter : Stops isDigit after) :
    numerals before (run ++ after) = (before, run) :: numerals (before ++ run) after := by
  obtain ⟨c, run, rfl⟩ := List.exists_cons_of_ne_nil hnonempty
  have htake := takeWhile_append_of_stops hrun hafter
  rw [List.forall_mem_cons] at hrun
  have hlast : (before ++ [c]).getLast?.any isDigit = true := by
    rw [getLast?_any_append_singleton, hrun.1]
  rw [List.cons_append] at htake ⊢
  rw [numerals, if_pos (by simp [hrun.1, hfront]), htake, numerals_append_of_digits hlast hrun.2,
    List.append_assoc, List.singleton_append]

/-- A numeral begins in front of a character exactly if this is a digit behind something else,
and goes on as far as there are digits. -/
theorem isNumeral_iff_of_cons {before text run : List Char} {c : Char} :
    IsNumeral (before ++ c :: text) before run ↔
      (isDigit c && !before.getLast?.any isDigit) = true ∧
        run = (c :: text).takeWhile isDigit := by
  constructor
  · rintro ⟨hnonempty, hdigits, hfront, after, heq, hafter⟩
    rw [List.append_assoc] at heq
    have hsplit : c :: text = run ++ after := List.append_cancel_left heq
    have hc : isDigit c = true := by
      obtain ⟨d, run, rfl⟩ := List.exists_cons_of_ne_nil hnonempty
      obtain ⟨rfl, -⟩ : c = d ∧ text = run ++ after := by simpa using hsplit
      exact hdigits c List.mem_cons_self
    exact ⟨by simp [hc, hfront], by rw [hsplit, takeWhile_append_of_stops hdigits hafter]⟩
  · rintro ⟨hbegins, rfl⟩
    obtain ⟨hc, hfront⟩ : isDigit c = true ∧ before.getLast?.any isDigit = false := by
      simpa using hbegins
    refine ⟨by simp [hc], fun d hd => List.mem_takeWhile_imp hd, hfront,
      (c :: text).dropWhile isDigit, ?_, stops_dropWhile isDigit _⟩
    rw [List.append_assoc, List.takeWhile_append_dropWhile]

/-- What stands in front of a numeral of a text is a part of the text. -/
theorem IsNumeral.front_cases {before text front run : List Char} {c : Char}
    (h : IsNumeral (before ++ c :: text) front run) :
    (∃ middle, front = before ++ middle) ↔
      front = before ∨ ∃ middle, front = before ++ [c] ++ middle := by
  constructor
  · rintro ⟨middle, rfl⟩
    obtain ⟨after, heq, -⟩ := h.longest
    cases middle with
    | nil => exact .inl (List.append_nil before)
    | cons d middle =>
      obtain ⟨rfl, -⟩ : c = d ∧ text = middle ++ (run ++ after) := by simpa using heq
      exact .inr ⟨middle, by simp⟩
  · rintro (rfl | ⟨middle, rfl⟩)
    · exact ⟨[], (List.append_nil front).symm⟩
    · exact ⟨c :: middle, by simp⟩

/-- Exactly the numerals of a text are listed. -/
theorem mem_numerals_iff {before text front run : List Char} :
    (front, run) ∈ numerals before text ↔
      IsNumeral (before ++ text) front run ∧ ∃ middle, front = before ++ middle := by
  induction text generalizing before with
  | nil =>
    simp only [numerals, List.not_mem_nil, false_iff, not_and]
    rintro h ⟨middle, rfl⟩
    obtain ⟨after, heq, -⟩ := h.longest
    have hlength := congrArg List.length heq
    have hpos := List.length_pos_iff.mpr h.nonempty
    simp only [List.length_append, List.length_nil] at hlength
    omega
  | cons c text ih =>
    have hwhole : before ++ [c] ++ text = before ++ c :: text := by simp
    have hsplit : IsNumeral (before ++ c :: text) front run ∧ (∃ middle, front = before ++ middle) ↔
        (front = before ∧ IsNumeral (before ++ c :: text) before run) ∨
          (front, run) ∈ numerals (before ++ [c]) text := by
      rw [ih, hwhole]
      constructor
      · rintro ⟨h, hfront⟩
        rcases h.front_cases.mp hfront with rfl | hlater
        · exact .inl ⟨rfl, h⟩
        · exact .inr ⟨h, hlater⟩
      · rintro (⟨rfl, h⟩ | ⟨h, hlater⟩)
        · exact ⟨h, h.front_cases.mpr (.inl rfl)⟩
        · exact ⟨h, h.front_cases.mpr (.inr hlater)⟩
    rw [hsplit, isNumeral_iff_of_cons, numerals]
    split
    · next hbegins => simp [hbegins]
    · next hbegins => simp [hbegins]

/-- The numerals of a text stand one behind the other. -/
theorem pairwise_numerals (before text : List Char) :
    (numerals before text).Pairwise (·.1.length < ·.1.length) := by
  induction text generalizing before with
  | nil => exact .nil
  | cons c text ih =>
    rw [numerals]
    split
    · refine .cons ?_ (ih _)
      rintro ⟨front, run⟩ hlater
      obtain ⟨-, middle, rfl⟩ := mem_numerals_iff.mp hlater
      simp only [List.length_append, List.length_singleton]
      omega
    · exact ih _

/-! ## Failures of scanning -/

/-- The failure of an answer, if it is one. -/
def failure? {ε α : Type} : Except ε α → Option ε
  | .error e => some e
  | .ok _ => none

theorem failure?_eq_none_iff {ε α : Type} {answer : Except ε α} :
    failure? answer = none ↔ ∃ a, answer = .ok a := by
  cases answer <;> simp [failure?]

/-- The reading of a numeral fails as the numeral is refused. -/
theorem failure?_number (before run : List Char) :
    failure? (Token.number (String.ofList run) (.behind before)) = refusal before run := by
  simp only [Token.number_eq, refusal, valueOf, String.length_ofList, String.toList_ofList]
  by_cases hlong : longestNumeral < run.length
  · simp [hlong, failure?]
  · by_cases hlarge : greatestNumber < (Nat.ofDigitChars 10 run 0 : Int)
    · simp [hlong, hlarge, failure?]
    · simp [hlong, hlarge, failure?]

/-- Answers with failures among them have a first one. -/
theorem mapM_id_eq_error_iff {ε α : Type} {answers : List (Except ε α)} {e : ε} :
    answers.mapM id = .error e ↔ (answers.filterMap failure?).head? = some e := by
  induction answers with
  | nil => simp [pure, Except.pure]
  | cons answer answers ih =>
    rw [List.mapM_cons, id]
    cases answer with
    | error e' => simp [failure?, bind, Except.bind]
    | ok value =>
      rw [List.filterMap_cons_none rfl, ← ih]
      cases answers.mapM id <;> simp [bind, Except.bind, pure, Except.pure]

/-- What the scanner takes off a text of the language is a run of digits that could not be longer,
and fails as it is refused; or it has no digits, and does not fail. -/
theorem Cut.numeral_or_other {gap run after : List Char} {ch : Char}
    (h : Cut .standard gap ch run after) (before : List Char) :
    (∀ c ∈ ch :: run, isDigit c = true) ∧ Stops isDigit after ∧
        failure? ((Token.Class.of .standard ch).token .standard (.behind before) (ch :: run)) =
          refusal before (ch :: run) ∨
      (∀ c ∈ ch :: run, isDigit c = false) ∧
        failure? ((Token.Class.of .standard ch).token .standard (.behind before) (ch :: run)) =
          none := by
  have hlexeme := h.lexeme
  by_cases hdigit : isDigit ch = true
  · rw [Token.Class.of_digit hdigit (Table.find?_digit hdigit)] at hlexeme ⊢
    have htake : (ch :: run ++ after).takeWhile isDigit = ch :: run := hlexeme
    have hstops := stops_drop_takeWhile isDigit (ch :: run ++ after)
    rw [htake, List.drop_left] at hstops
    refine .inl ⟨?_, hstops, failure?_number before _⟩
    intro c hc
    rw [← htake] at hc
    exact List.mem_takeWhile_imp hc
  · rw [Bool.not_eq_true] at hdigit
    right
    by_cases hletter : isLetter ch = true
    · rw [Token.Class.of_letter .standard hletter] at hlexeme ⊢
      refine ⟨?_, rfl⟩
      intro c hc
      rw [← hlexeme] at hc
      exact CharClass.excludes .letter .digit (by decide) (List.mem_takeWhile_imp hc)
    · rw [Bool.not_eq_true] at hletter
      cases hentry : Table.standard.find? (String.ofList [ch]) with
      | some type =>
        rw [Token.Class.of_symbol hletter hentry] at hlexeme ⊢
        obtain rfl : run = [] := by simpa [Token.Class.lexeme, eq_comm] using hlexeme
        exact ⟨by simpa using hdigit, rfl⟩
      | none =>
        rw [Token.Class.of_other hletter hdigit hentry] at hlexeme ⊢
        obtain rfl : run = [] := by simpa [Token.Class.lexeme, eq_comm] using hlexeme
        exact ⟨by simpa using hdigit, rfl⟩

/-- A lexeme that is cut off the front of a text is a numeral of the text, and fails as it is
refused; or it has no digits, and does not fail.  The other numerals are those behind it. -/
theorem Cut.numerals_eq {before gap run after : List Char} {ch : Char}
    (h : Cut .standard gap ch run after)
    (hseam : Seam isDigit before (gap ++ ch :: run ++ after)) :
    Seam isDigit (before ++ gap ++ ch :: run) after ∧
      (((∀ c ∈ ch :: run, isDigit c = true) ∧ (before ++ gap).getLast?.any isDigit = false ∧
          Stops isDigit after ∧
          numerals before (gap ++ ch :: run ++ after) =
            (before ++ gap, ch :: run) :: numerals (before ++ gap ++ ch :: run) after ∧
          failure? ((Token.Class.of .standard ch).token .standard (.behind (before ++ gap))
            (ch :: run)) = refusal (before ++ gap) (ch :: run)) ∨
        ((∀ c ∈ ch :: run, isDigit c = false) ∧
          numerals before (gap ++ ch :: run ++ after) =
            numerals (before ++ gap ++ ch :: run) after ∧
          failure? ((Token.Class.of .standard ch).token .standard (.behind (before ++ gap))
            (ch :: run)) = none)) := by
  have hne : ch :: run ≠ [] := List.cons_ne_nil _ _
  have hgap : ∀ c ∈ gap, isDigit c = false := fun c hc =>
    CharClass.excludes .blank .digit (by decide) (h.blanks c hc)
  rw [List.append_assoc gap] at hseam ⊢
  rw [numerals_append_of_none hgap]
  rcases h.numeral_or_other (before ++ gap) with ⟨hdigits, hstops, hanswer⟩ | ⟨hnone, hanswer⟩
  · have hfront := (hseam.append hgap).front hne hdigits
    have hnumerals := numerals_append_run hne hdigits hfront hstops
    exact ⟨fun _ => hstops, .inl ⟨hdigits, hfront, hstops, hnumerals, hanswer⟩⟩
  · exact ⟨.of_none hne hnone (before ++ gap) after,
      .inr ⟨hnone, numerals_append_of_none hnone _ _, hanswer⟩⟩

/-- In blanks there are no numerals. -/
theorem numerals_of_blank {gap : List Char} (hgap : ∀ c ∈ gap, isBlank c = true)
    (before : List Char) : numerals before gap = [] := by
  have hnone := numerals_append_of_none
    (fun c hc => CharClass.excludes .blank .digit (by decide) (hgap c hc)) before []
  rwa [List.append_nil] at hnone

/-- The failures of a scan are those of the numerals, in order, if no numeral has begun in front
of the text. -/
theorem failures_scan {before text : List Char} (hseam : Seam isDigit before text) :
    (scan .standard (.behind before) text).filterMap failure? =
      (numerals before text).filterMap fun numeral => refusal numeral.1 numeral.2 := by
  induction before, text using cut_induction .standard with
  | blank before gap hgap =>
    rw [scan_behind_blank _ before hgap, numerals_of_blank hgap]
    rfl
  | lexeme before gap ch run after hcut ih =>
    obtain ⟨hseam', hcases⟩ := hcut.numerals_eq hseam
    rw [hcut.scan_behind, List.filterMap_cons, ih hseam']
    rcases hcases with ⟨-, -, -, hnumerals, hanswer⟩ | ⟨-, hnumerals, hanswer⟩
    · rw [hanswer, hnumerals, List.filterMap_cons]
    · rw [hanswer, hnumerals]

/-! ## Texts without tokens -/

/-- The first numeral that is refused is the failure of a text. -/
theorem tokenize_eq_error_iff_head? (text : String) (e : ScanError) :
    tokenize .standard text = .error e ↔
      ((numerals [] text.toList).filterMap fun numeral => refusal numeral.1 numeral.2).head? =
        some e := by
  have hseam := Seam.nil isDigit text.toList
  have hstart : Position.start = .behind [] := Position.advanceAll_start []
  rw [← failures_scan hseam, ← mapM_id_eq_error_iff, tokenize_eq Table.neverEnds_standard, hstart]
  cases (scan .standard (.behind []) text.toList).mapM id <;> simp [Except.map]

/-- Of the numerals of a text, the first that is refused: no other one that is refused stands in
front of it. -/
theorem head?_refusals_iff (text : List Char) (e : ScanError) :
    ((numerals [] text).filterMap fun numeral => refusal numeral.1 numeral.2).head? = some e ↔
      ∃ before run, IsNumeral text before run ∧ refusal before run = some e ∧
        ∀ before' run', IsNumeral text before' run' → before'.length < before.length →
          refusal before' run' = none := by
  have hmem : ∀ before run, (before, run) ∈ numerals [] text ↔ IsNumeral text before run := by
    intro before run
    simp [mem_numerals_iff]
  rw [List.head?_filterMap, List.findSome?_eq_some_iff]
  constructor
  · rintro ⟨front, ⟨before, run⟩, behind, hsplit, hrefusal, hfront⟩
    have hpairwise := pairwise_numerals [] text
    refine ⟨before, run, (hmem _ _).mp (by simp [hsplit]), hrefusal, ?_⟩
    intro before' run' hnumeral hlt
    have hin := (hmem _ _).mpr hnumeral
    rw [hsplit] at hin hpairwise
    obtain ⟨-, hrest, -⟩ := List.pairwise_append.mp hpairwise
    rcases List.mem_append.mp hin with hin | hin
    · exact hfront _ hin
    · rcases List.mem_cons.mp hin with heq | hin
      · obtain ⟨rfl, -⟩ := Prod.mk.inj heq
        omega
      · have hbehind : before.length < before'.length := List.rel_of_pairwise_cons hrest hin
        omega
  · rintro ⟨before, run, hnumeral, hrefusal, hfirst⟩
    obtain ⟨front, behind, hsplit⟩ := List.append_of_mem ((hmem _ _).mpr hnumeral)
    refine ⟨front, (before, run), behind, hsplit, hrefusal, ?_⟩
    rintro ⟨before', run'⟩ hin
    have hpairwise := pairwise_numerals [] text
    rw [hsplit, List.pairwise_append] at hpairwise
    exact hfirst before' run' ((hmem _ _).mp (by simp [hsplit, hin]))
      (hpairwise.2.2 _ hin _ List.mem_cons_self)

/-- Scanning fails at numerals alone.  There are no tokens exactly if a numeral of the text is
refused, because it has too many digits or its value is too large, and then the first of these is
the failure.  Without numerals of too many digits, the failure is the first of those that are too
large, as it is written and at its place. -/
theorem tokenize_fails_at_first_refusal (text : String) :
    ((∃ e, tokenize .standard text = .error e) ↔
      ∃ before run, IsNumeral text.toList before run ∧
        (longestNumeral < run.length ∨ greatestNumber < valueOf run)) ∧
    (∀ e, tokenize .standard text = .error e ↔
      ∃ before run, IsNumeral text.toList before run ∧ refusal before run = some e ∧
        ∀ before' run', IsNumeral text.toList before' run' → before'.length < before.length →
          refusal before' run' = none) ∧
    ((∀ before run, IsNumeral text.toList before run → run.length ≤ longestNumeral) →
      ∀ e, tokenize .standard text = .error e →
        ∃ before run, IsNumeral text.toList before run ∧ greatestNumber < valueOf run ∧
          e = .numberTooLarge (String.ofList run) (.behind before) ∧
          ∀ before' run', IsNumeral text.toList before' run' → before'.length < before.length →
            valueOf run' ≤ greatestNumber) := by
  have hfirst : ∀ e, tokenize .standard text = .error e ↔ _ := fun e =>
    (tokenize_eq_error_iff_head? text e).trans (head?_refusals_iff text.toList e)
  have hrefused : ∀ before run, (longestNumeral < run.length ∨ greatestNumber < valueOf run) ↔
      refusal before run ≠ none := by
    intro before run
    rw [Ne, refusal_eq_none_iff]
    omega
  refine ⟨⟨?_, ?_⟩, hfirst, ?_⟩
  · rintro ⟨e, he⟩
    obtain ⟨before, run, hnumeral, hrefusal, -⟩ := (hfirst e).mp he
    exact ⟨before, run, hnumeral, (hrefused before run).mpr (by simp [hrefusal])⟩
  · rintro ⟨before, run, hnumeral, hbad⟩
    obtain ⟨e, hrefusal⟩ := Option.ne_none_iff_exists'.mp ((hrefused before run).mp hbad)
    have hmem : (before, run) ∈ numerals [] text.toList :=
      mem_numerals_iff.mpr ⟨hnumeral, before, rfl⟩
    have hin : e ∈ (numerals [] text.toList).filterMap fun numeral =>
        refusal numeral.1 numeral.2 := List.mem_filterMap.mpr ⟨(before, run), hmem, hrefusal⟩
    obtain ⟨first, hhead⟩ :=
      Option.isSome_iff_exists.mp (List.isSome_head?.mpr (List.ne_nil_of_mem hin))
    exact ⟨first, (tokenize_eq_error_iff_head? text first).mpr hhead⟩
  · intro hshort e he
    obtain ⟨before, run, hnumeral, hrefusal, hearlier⟩ := (hfirst e).mp he
    obtain ⟨hlarge, rfl⟩ := refusal_of_short (hshort before run hnumeral) hrefusal
    refine ⟨before, run, hnumeral, hlarge, rfl, ?_⟩
    intro before' run' hnumeral' hlt
    exact (refusal_eq_none_iff.mp (hearlier before' run' hnumeral' hlt)).2

/-- A text of more nines than are ever evaluated is refused for its length. -/
theorem tokenize_nines {n : Nat} (h : longestNumeral ≤ n) :
    tokenize .standard (String.ofList (List.replicate (n + 1) '9')) =
      .error (.numeralTooLong (n + 1)) := by
  have hnumeral : IsNumeral (List.replicate (n + 1) '9') [] (List.replicate (n + 1) '9') := by
    refine ⟨by simp, ?_, rfl, [], by simp, by simp [Stops]⟩
    intro c hc
    rw [List.eq_of_mem_replicate hc]
    decide
  rw [tokenize_eq_error_iff_head?, head?_refusals_iff, String.toList_ofList]
  refine ⟨[], _, hnumeral, ?_, by simp⟩
  rw [refusal, List.length_replicate, if_pos (Nat.lt_succ_of_le h)]

/-- Not every text without tokens fails with a number that is too large: one nine more than are
ever evaluated makes a numeral that is too long. -/
theorem not_tokenize_fails_only_with_numberTooLarge :
    ¬ ∀ (text : String) (e : ScanError), tokenize .standard text = .error e →
      ∃ literal pos, e = .numberTooLarge literal pos := by
  intro h
  obtain ⟨literal, pos, heq⟩ := h _ _ (tokenize_nines (Nat.le_refl longestNumeral))
  simp at heq

end SumLang
