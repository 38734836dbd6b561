import SumLang.Proofs.Numerals
import SumLang.Proofs.Overwriting
import Mathlib.Data.List.DropRight

/-!
# Going on behind refused numerals

Calls for tokens may go on when one of them has failed.  A call fails at a numeral that is refused,
and leaves the cursor behind it.  There the scanner goes on as it would behind as many blanks: a
numeral has no line feed, and no word or number goes over its end.  So what the calls answer apart
from failures are the tokens of the text with its refused numerals cleared.

## Main definitions

* `refusedNumerals`: the numerals of a text for which the language has no number.
* `Cursor.tokenCalls`: calls for tokens, one after the other.
* `cleared`: the text with spaces in place of refused numerals.

## Main statements

* `Cursor.map_tokenCalls`, `Cursor.failures_tokenCalls`: what calls answer, and how they fail.
* `exists_lexed_cleared`: the answers are the tokens of the cleared text.
* `tokenCalls_resume`: both for a whole text.
-/
namespace SumLang

/-! ## Refused numerals -/

/-- Whether the language has no number for a run of digits. -/
def isRefused (run : List Char) : Bool :=
  decide (longestNumeral < run.length ∨ greatestNumber < valueOf run)

theorem isSome_refusal (before run : List Char) :
    (refusal before run).isSome = isRefused run := by
  rw [isRefused, Bool.eq_iff_iff, decide_eq_true_eq, Option.isSome_iff_ne_none, Ne,
    refusal_eq_none_iff]
  omega

/-- The numerals of a text that are refused, in order. -/
def refusedNumerals (text : List Char) : List (List Char × List Char) :=
  (numerals [] text).filter fun numeral => isRefused numeral.2

theorem mem_refusedNumerals_iff {text before run : List Char} :
    (before, run) ∈ refusedNumerals text ↔ IsNumeral text before run ∧
      (longestNumeral < run.length ∨ greatestNumber < valueOf run) := by
  rw [refusedNumerals, List.mem_filter, mem_numerals_iff, List.nil_append, isRefused,
    decide_eq_true_eq]
  constructor
  · rintro ⟨⟨hnumeral, -⟩, hrefused⟩
    exact ⟨hnumeral, hrefused⟩
  · rintro ⟨hnumeral, hrefused⟩
    exact ⟨⟨hnumeral, before, rfl⟩, hrefused⟩

theorem pairwise_refusedNumerals (text : List Char) :
    (refusedNumerals text).Pairwise (·.1.length < ·.1.length) :=
  (pairwise_numerals [] text).filter _

/-- The refusals of numerals are those of the refused ones, in order. -/
theorem forall₂_refused (ns : List (List Char × List Char)) :
    List.Forall₂ (fun e n => refusal n.1 n.2 = some e)
      (ns.filterMap fun n => refusal n.1 n.2) (ns.filter fun n => isRefused n.2) := by
  induction ns with
  | nil => exact .nil
  | cons n ns ih =>
    have hrefused := isSome_refusal n.1 n.2
    cases hrefusal : refusal n.1 n.2 with
    | none =>
      rw [hrefusal] at hrefused
      rw [List.filterMap_cons, hrefusal, List.filter_cons_of_neg (by simp [← hrefused])]
      exact ih
    | some e =>
      rw [hrefusal] at hrefused
      rw [List.filterMap_cons, hrefusal, List.filter_cons_of_pos (by simp [← hrefused])]
      exact .cons hrefusal ih

/-- The failure of a text is that of the first numeral that is refused. -/
theorem tokenize_eq_error_iff_refused (text : String) (e : ScanError) :
    tokenize .standard text = .error e ↔
      ∃ n, (refusedNumerals text.toList).head? = some n ∧ refusal n.1 n.2 = some e := by
  have hrefused := forall₂_refused (numerals [] text.toList)
  rw [tokenize_eq_error_iff_head?, refusedNumerals]
  generalize (numerals [] text.toList).filterMap _ = failures at hrefused ⊢
  generalize (numerals [] text.toList).filter _ = refused at hrefused ⊢
  cases hrefused with
  | nil => simp
  | cons hfirst hrest => simp [hfirst]

/-- A text has tokens exactly if no numeral of it is refused. -/
theorem tokenize_ok_iff_refused (text : String) :
    (∃ tokens, tokenize .standard text = .ok tokens) ↔ refusedNumerals text.toList = [] := by
  constructor
  · rintro ⟨tokens, htokens⟩
    by_contra hne
    obtain ⟨n, rest, hcons⟩ := List.exists_cons_of_ne_nil hne
    have hmem : n ∈ refusedNumerals text.toList := by
      rw [hcons]
      exact List.mem_cons_self
    have hrefused := (List.mem_filter.mp hmem).2
    rw [← isSome_refusal n.1] at hrefused
    obtain ⟨e, he⟩ := Option.isSome_iff_exists.mp hrefused
    have herror := (tokenize_eq_error_iff_refused text e).mpr ⟨n, by rw [hcons]; rfl, he⟩
    rw [htokens] at herror
    simp at herror
  · intro hnil
    cases htokens : tokenize .standard text with
    | ok tokens => exact ⟨tokens, rfl⟩
    | error e =>
      obtain ⟨n, hhead, -⟩ := (tokenize_eq_error_iff_refused text e).mp htokens
      rw [hnil] at hhead
      simp at hhead

/-! ## Calls for tokens -/

/-- The error of a call that has failed, and the state that it has left. -/
def failedCall {σ ε α : Type} (outcome : Outcome σ ε α) : Option (ε × σ) :=
  (failure? outcome.1).map fun e => (e, outcome.2)

namespace Cursor

/-- The cursor in a text behind `before`, with which the text begins. -/
def behind (text before : List Char) : Cursor := ⟨text.toArray, before.length, .behind before⟩

@[simp] theorem rest_behind (before after : List Char) :
    (behind (before ++ after) before).rest = after := by
  simp [rest, behind]

@[simp] theorem stepAll_behind (text before run : List Char) :
    (behind text before).stepAll run = behind text (before ++ run) := by
  simp only [stepAll, behind, Position.advanceAll_behind, List.length_append, Int.natCast_add]

theorem index_behind_nonneg (text before : List Char) : 0 ≤ (behind text before).index :=
  Int.natCast_nonneg _

/-- The outcomes of `n` calls for a token, each from the cursor that the one before has left. -/
def tokenCalls (table : Table) (n : Nat) (c : Cursor) : List (Outcome Cursor ScanError Token) :=
  session (fun (_ : Unit) c => c.nextToken table) (List.replicate n ()) c

theorem tokenCalls_succ (table : Table) (n : Nat) (c : Cursor) :
    c.tokenCalls table (n + 1) =
      c.nextToken table :: (c.nextToken table).2.tokenCalls table n := rfl

/-- Calls answer what the scan does, as many as it has answers. -/
theorem map_tokenCalls (table : Table) {c : Cursor} (h : 0 ≤ c.index) :
    (c.tokenCalls table (scan table c.pos c.rest).length).map (·.1) = scan table c.pos c.rest := by
  generalize hanswers : scan table c.pos c.rest = answers
  induction answers generalizing c with
  | nil => rfl
  | cons answer answers ih =>
    rcases nextToken_scan table h with ⟨d, hnext, hscan⟩ | ⟨ch, first, d, hnext, hd, hscan, -⟩
    · obtain ⟨rfl, rfl⟩ := List.cons.inj (hanswers.symm.trans hscan)
      rw [List.length_singleton, tokenCalls_succ, hnext]
      rfl
    · obtain ⟨rfl, hrest⟩ := List.cons.inj (hanswers.symm.trans hscan)
      rw [List.length_cons, tokenCalls_succ, List.map_cons, hnext, ih hd hrest.symm]

/-- Before blanks up to the end, a call answers so. -/
theorem nextToken_behind_blank (table : Table) (before : List Char) {gap : List Char}
    (hgap : ∀ c ∈ gap, isBlank c = true) :
    (behind (before ++ gap) before).nextToken table =
      (.ok (.eof (.behind (before ++ gap))), behind (before ++ gap) (before ++ gap)) := by
  rw [nextToken_eq table (index_behind_nonneg _ _), rest_behind,
    List.dropWhile_eq_nil_iff.mpr hgap, List.takeWhile_eq_self_iff.mpr hgap, stepAll_behind]
  rfl

/-- Elsewhere it takes the lexeme that is cut off the text. -/
theorem nextToken_behind {table : Table} {text before gap run after : List Char} {ch : Char}
    (hcut : Cut table gap ch run after) (htext : text = before ++ (gap ++ ch :: run ++ after)) :
    (behind text before).nextToken table =
      ((Token.Class.of table ch).token table (.behind (before ++ gap)) (ch :: run),
        behind text (before ++ gap ++ ch :: run)) := by
  have hstops : Stops isBlank (ch :: run ++ after) := by simpa [Stops] using hcut.opens
  have htake := takeWhile_append_of_stops hcut.blanks hstops
  have hdrop : (gap ++ (ch :: run ++ after)).dropWhile isBlank = ch :: run ++ after := by
    rw [List.dropWhile_append_of_pos hcut.blanks]
    simp [hcut.opens]
  have hrest : (behind text (before ++ gap)).rest = ch :: (run ++ after) := by
    rw [htext, List.append_assoc gap, ← List.append_assoc before, rest_behind, List.cons_append]
  have hbefore : (behind text before).rest = gap ++ (ch :: run ++ after) := by
    rw [htext, List.append_assoc gap, rest_behind]
  have hlexeme := hcut.lexeme
  rw [List.cons_append] at hlexeme
  rw [nextToken_eq table (index_behind_nonneg _ _), hbefore, htake, hdrop, stepAll_behind]
  simp only [List.cons_append, Token.read_eq table (index_behind_nonneg _ _) hrest, hlexeme,
    stepAll_behind]
  rfl

/-- Calls fail at the numerals that are refused, in order, and leave the cursor behind them. -/
theorem failures_tokenCalls {whole before text : List Char} (hwhole : whole = before ++ text)
    (hseam : Seam isDigit before text) :
    List.Forall₂ (fun failed n => refusal n.1 n.2 = some failed.1 ∧
        failed.2 = behind whole (n.1 ++ n.2))
      (((behind whole before).tokenCalls .standard
        (scan .standard (.behind before) text).length).filterMap failedCall)
      ((numerals before text).filter fun n => isRefused n.2) := by
  induction before, text using cut_induction .standard with
  | blank before gap hgap =>
    rw [scan_behind_blank _ before hgap, numerals_of_blank hgap, List.length_singleton,
      tokenCalls_succ, hwhole, nextToken_behind_blank _ before hgap]
    exact .nil
  | lexeme before gap ch run after hcut ih =>
    obtain ⟨hseam', hcases⟩ := hcut.numerals_eq hseam
    have hwhole' : whole = before ++ gap ++ ch :: run ++ after := by simpa using hwhole
    have hrest := ih hwhole' hseam'
    rw [hcut.scan_behind, List.length_cons, tokenCalls_succ, nextToken_behind hcut hwhole,
      List.filterMap_cons, failedCall]
    rcases hcases with ⟨-, -, -, hnumerals, hanswer⟩ | ⟨-, hnumerals, hanswer⟩
    · have hrefused := isSome_refusal (before ++ gap) (ch :: run)
      rw [hanswer, hnumerals]
      cases hrefusal : refusal (before ++ gap) (ch :: run) with
      | none =>
        rw [hrefusal] at hrefused
        rw [List.filter_cons_of_neg (by simp [← hrefused])]
        exact hrest
      | some e =>
        rw [hrefusal] at hrefused
        rw [List.filter_cons_of_pos (by simp [← hrefused])]
        exact .cons ⟨hrefusal, rfl⟩ hrest
    · rw [hanswer, hnumerals]
      exact hrest

end Cursor

/-! ## Cleared texts -/

/-- The longest run of digits over the seam of two texts. -/
def digitsAround (before after : List Char) : List Char :=
  before.rtakeWhile isDigit ++ after.takeWhile isDigit

/-- A text with `before` in front of it, and spaces in place of the digits of all refused
numerals. -/
def cleared (before : List Char) : List Char → List Char
  | [] => []
  | c :: text =>
    (if isDigit c && isRefused (digitsAround before (c :: text)) then ' ' else c) ::
      cleared (before ++ [c]) text

/-- Where there are no digits, nothing is cleared. -/
theorem cleared_append_of_none {run : List Char} (h : ∀ c ∈ run, isDigit c = false)
    (before text : List Char) :
    cleared before (run ++ text) = run ++ cleared (before ++ run) text := by
  induction run generalizing before with
  | nil => simp
  | cons c run ih =>
    rw [List.forall_mem_cons] at h
    rw [List.cons_append, cleared, h.1, ih h.2, List.append_assoc]
    rfl

/-- Around a place in a numeral, the longest run of digits is the numeral. -/
theorem digitsAround_append {before front run after : List Char}
    (hbefore : before.getLast?.any isDigit = false) (hfront : ∀ c ∈ front, isDigit c = true)
    (hrun : ∀ c ∈ run, isDigit c = true) (hafter : Stops isDigit after) :
    digitsAround (before ++ front) (run ++ after) = front ++ run := by
  have hstops : Stops isDigit before.reverse := by
    intro c hc
    rw [List.head?_reverse] at hc
    simpa [hc] using hbefore
  have hreverse : ∀ c ∈ front.reverse, isDigit c = true :=
    fun c hc => hfront c (List.mem_reverse.mp hc)
  rw [digitsAround, List.rtakeWhile, List.reverse_append,
    takeWhile_append_of_stops hreverse hstops, List.reverse_reverse,
    takeWhile_append_of_stops hrun hafter]

/-- A numeral is cleared as a whole if it is refused, and else kept. -/
theorem cleared_append_run {before run after : List Char}
    (hbefore : before.getLast?.any isDigit = false) (hrun : ∀ c ∈ run, isDigit c = true)
    (hafter : Stops isDigit after) :
    cleared before (run ++ after) =
      (if isRefused run then List.replicate run.length ' ' else run) ++
        cleared (before ++ run) after := by
  -- The digits in front of the place that has been come to belong to the numeral as well.
  have hpart : ∀ (todo front : List Char), (∀ c ∈ front ++ todo, isDigit c = true) →
      cleared (before ++ front) (todo ++ after) =
        (if isRefused (front ++ todo) then List.replicate todo.length ' ' else todo) ++
          cleared (before ++ (front ++ todo)) after := by
    intro todo
    induction todo with
    | nil => simp
    | cons c todo ih =>
      intro front hall
      obtain ⟨hfront, htodo⟩ := List.forall_mem_append.mp hall
      have haround := digitsAround_append hbefore hfront htodo hafter
      have hnext := ih (front ++ [c]) (by simpa using hall)
      rw [List.cons_append] at haround ⊢
      rw [cleared, haround, List.append_assoc, hnext, htodo c List.mem_cons_self]
      by_cases hrefused : isRefused (front ++ c :: todo) = true
      · simp [hrefused, List.replicate_succ]
      · simp [hrefused]
  simpa using hpart run [] (by simpa using hrun)

/-- Clearing overwrites a text. -/
theorem overwritten_cleared (before text : List Char) : Overwritten text (cleared before text) := by
  induction text generalizing before with
  | nil => exact .nil
  | cons c text ih =>
    refine .cons ?_ (ih _)
    split
    · next hdigit =>
      right
      refine ⟨?_, rfl⟩
      rintro rfl
      exact absurd hdigit (by simp [show isDigit '\n' = false by decide])
    · exact .inl rfl

/-- A lexeme that is cut off the front of a text is a refused numeral and cleared, or it is a token
and kept. -/
theorem Cut.cleared_eq {before gap run after : List Char} {ch : Char}
    (h : Cut .standard gap ch run after)
    (hseam : Seam isDigit before (gap ++ ch :: run ++ after)) :
    Seam isDigit (before ++ gap ++ ch :: run) after ∧
      (((∀ c ∈ ch :: run, isDigit c = true) ∧
          cleared before (gap ++ ch :: run ++ after) =
            gap ++ List.replicate (ch :: run).length ' ' ++
              cleared (before ++ gap ++ ch :: run) after ∧
          ∃ e, (Token.Class.of .standard ch).token .standard (.behind (before ++ gap))
            (ch :: run) = .error e) ∨
        (cleared before (gap ++ ch :: run ++ after) =
            gap ++ ch :: run ++ cleared (before ++ gap ++ ch :: run) after ∧
          ∃ t, (Token.Class.of .standard ch).token .standard (.behind (before ++ gap))
            (ch :: run) = .ok t)) := by
  obtain ⟨hseam', hcases⟩ := h.numerals_eq hseam
  refine ⟨hseam', ?_⟩
  rw [List.append_assoc gap,
    cleared_append_of_none fun c hc =>
      CharClass.excludes .blank .digit (by decide) (h.blanks c hc)]
  rcases hcases with ⟨hdigits, hfront, hstops, -, hanswer⟩ | ⟨hnone, -, hanswer⟩
  · rw [cleared_append_run hfront hdigits hstops, ← isSome_refusal (before ++ gap), ← hanswer]
    generalize (Token.Class.of .standard ch).token .standard _ (ch :: run) = answer
    cases answer with
    | error e => exact .inl ⟨hdigits, by simp [failure?], e, rfl⟩
    | ok t => exact .inr ⟨by simp [failure?], t, rfl⟩
  · right
    rw [cleared_append_of_none hnone, ← List.append_assoc]
    exact ⟨rfl, failure?_eq_none_iff.mp hanswer⟩

/-- The tokens that a scan answers with are those of the cleared text. -/
theorem exists_lexed_cleared {before before' text : List Char} (hseam : Seam isDigit before text)
    (hbehind : Position.behind before' = .behind before) :
    ∃ pieces, Lexed .standard before' (cleared before text) pieces
      ((scan .standard (.behind before) text).filterMap Except.toOption) := by
  induction before, text using cut_induction .standard generalizing before' with
  | blank before gap hgap =>
    have hkept := cleared_append_of_none
      (fun c hc => CharClass.excludes .blank .digit (by decide) (hgap c hc)) before []
    rw [List.append_nil, cleared, List.append_nil] at hkept
    rw [hkept, scan_behind_blank _ before hgap,
      ← (Overwritten.refl gap).behind_append_eq hbehind]
    exact ⟨_, .done hgap⟩
  | lexeme before gap ch run after hcut ih =>
    obtain ⟨hseam', hcases⟩ := hcut.cleared_eq hseam
    have hplace := (Overwritten.refl gap).behind_append_eq hbehind
    rw [hcut.scan_behind]
    rcases hcases with ⟨hdigits, hcleared, e, hanswer⟩ | ⟨hkept, ⟨type, value, pos⟩, hanswer⟩
    · have hfeed : '\n' ∉ ch :: run := fun hmem => absurd (hdigits _ hmem) (by decide)
      have hspaces : ∀ c ∈ gap ++ List.replicate (ch :: run).length ' ', isBlank c = true := by
        refine List.forall_mem_append.mpr ⟨hcut.blanks, ?_⟩
        intro c hc
        rw [List.eq_of_mem_replicate hc]
        decide
      obtain ⟨pieces, hlexed⟩ := ih hseam' ((Overwritten.run hfeed).behind_append_eq hplace)
      rw [List.append_assoc before'] at hlexed
      rw [hcleared, hanswer]
      exact hlexed.blanks hspaces
    · obtain ⟨pieces, hlexed⟩ := ih hseam' ((Overwritten.refl _).behind_append_eq hplace)
      obtain ⟨rfl, hlexeme⟩ := hcut.isLexeme hanswer
      have hafter := overwritten_cleared (before ++ gap ++ ch :: run) after
      rw [hkept, hanswer, ← hplace]
      exact ⟨_, .lexeme hcut.blanks (hlexeme.overwritten hafter) hlexed⟩

/-! ## Whole texts -/

/-- Calls for tokens that go on behind every failure come to the end of a text, with at most one
call for each character and one more.  They fail once for each numeral that has too many digits or
too large a value, in order, and leave the cursor behind it.  What they answer else are the tokens
of the text with these numerals cleared.  All tokens of the text itself are read if there is no
such numeral, and else the failure is that of the first. -/
theorem tokenCalls_resume (text : String) :
    ∃ (n : Nat) (refused : List (List Char × List Char)),
      n ≤ text.toList.length + 1 ∧
      (∀ before run, (before, run) ∈ refused ↔ IsNumeral text.toList before run ∧
        (longestNumeral < run.length ∨ greatestNumber < valueOf run)) ∧
      refused.Pairwise (·.1.length < ·.1.length) ∧
      let outcomes := (Cursor.ofString text).tokenCalls .standard n
      (∃ front pos, outcomes.map (·.1) = front ++ [.ok (.eof pos)] ∧
        ∀ t, .ok t ∈ front → t.isEof = false) ∧
      List.Forall₂ (fun failed numeral => refusal numeral.1 numeral.2 = some failed.1 ∧
          failed.2 = Cursor.behind text.toList (numeral.1 ++ numeral.2))
        (outcomes.filterMap failedCall) refused ∧
      tokenize .standard (String.ofList (cleared [] text.toList)) =
        .ok (outcomes.filterMap (·.1.toOption)).toArray ∧
      (∀ e, tokenize .standard text = .error e ↔
        ∃ numeral, refused.head? = some numeral ∧ refusal numeral.1 numeral.2 = some e) ∧
      ((∃ tokens, tokenize .standard text = .ok tokens) ↔ refused = []) := by
  have hseam := Seam.nil isDigit text.toList
  have hcalls : ((Cursor.ofString text).tokenCalls .standard
      (scan .standard (.behind []) text.toList).length).map (·.1) =
        scan .standard (.behind []) text.toList := by
    have hmap := Cursor.map_tokenCalls .standard (Cursor.index_behind_nonneg text.toList [])
    have hrest : (Cursor.behind text.toList []).rest = text.toList := Cursor.rest_behind [] _
    rw [hrest] at hmap
    exact hmap
  obtain ⟨front, hscan, hle, hfront⟩ := scan_eof Table.neverEnds_standard [] text.toList
  refine ⟨(scan .standard (.behind []) text.toList).length, refusedNumerals text.toList, ?_,
    fun _ _ => mem_refusedNumerals_iff, pairwise_refusedNumerals _, ?_,
    Cursor.failures_tokenCalls rfl hseam, ?_, tokenize_eq_error_iff_refused text,
    tokenize_ok_iff_refused text⟩
  · rw [hscan, List.length_append, List.length_singleton]
    omega
  · exact ⟨front, _, hcalls.trans hscan, hfront⟩
  · obtain ⟨pieces, hcleared⟩ := exists_lexed_cleared hseam rfl
    have hlexed : Lexed .standard [] (String.ofList (cleared [] text.toList)).toList pieces
        ((scan .standard (.behind []) text.toList).filterMap Except.toOption) := by
      rw [String.toList_ofList]
      exact hcleared
    have htokens := congrArg (List.filterMap Except.toOption) hcalls
    rw [List.filterMap_map] at htokens
    rw [hlexed.tokenize_eq_ok Table.neverEnds_standard, ← htokens]
    rfl

example : cleared [] "x9999999999+07".toList = "x          +07".toList := by decide +kernel

end SumLang
