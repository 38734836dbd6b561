import SumLang.Proofs.Place
import SumLang.Token.Scan

/-!
# Scanning a list of characters

Inside a text the scanner is seen through the characters that are left and the place before
them.  A token is a run of blanks and a lexeme, taken from the front; `scan` lists what all
calls for tokens answer up to the end of the text, tokens and failures alike, for a failure
leaves the scanner behind the lexeme at fault.

## Main statements

* `nextToken_eq`: one call skips the blanks and takes the lexeme of the first character's class.
* `nextToken_scan`: one call takes the first answer off `scan`.
* `tokenize_eq`: the tokens of a text are the answers of `scan`, or the first failure in it.
-/
namespace SumLang

namespace Token.Class

/-- The characters that a token of a class takes of those that it opens. -/
def lexeme : Class → List Char → List Char
  | word, chars => chars.takeWhile isLetter
  | number, chars => chars.takeWhile isDigit
  | symbol _, chars | illegal, chars => chars.take 1

/-- The token of a lexeme of a class, or the reason why there is none. -/
def token (table : Table) (pos : Position) (lexeme : List Char) : Class → Except ScanError Token
  | word => .ok ⟨table.wordType (String.ofList lexeme), .text (String.ofList lexeme), pos⟩
  | symbol type => .ok ⟨type, .text (String.ofList lexeme), pos⟩
  | number => Token.number (String.ofList lexeme) pos
  | illegal => .ok ⟨TokenType.illegal, .text (String.ofList lexeme), pos⟩

/-- A lexeme is taken from the front. -/
theorem lexeme_append_drop (cls : Class) (chars : List Char) :
    cls.lexeme chars ++ chars.drop (cls.lexeme chars).length = chars := by
  cases cls with
  | word | number =>
    exact List.prefix_iff_eq_append.mp (List.takeWhile_prefix _)
  | symbol | illegal => exact List.prefix_iff_eq_append.mp (List.take_prefix _ _)

/-- The lexeme that a character opens has at least that character. -/
theorem length_lexeme_pos (table : Table) (ch : Char) (tail : List Char) :
    0 < ((of table ch).lexeme (ch :: tail)).length := by
  rw [of]
  split
  · next hletter => simp [lexeme, hletter]
  · split
    · simp [lexeme]
    · split
      · next hdigit => simp [lexeme, hdigit]
      · simp [lexeme]

end Token.Class

/-- Reading a token takes its lexeme, also where the lexeme is no token. -/
theorem Token.read_eq (table : Table) {start : Cursor} (h : 0 ≤ start.index) {ch : Char}
    {tail : List Char} (hrest : start.rest = ch :: tail) (cls : Token.Class) :
    Token.read table start cls =
      (cls.token table start.pos (cls.lexeme (ch :: tail)),
        start.stepAll (cls.lexeme (ch :: tail))) := by
  have hnext := Cursor.next_eq h hrest
  have hone : start.step ch = start.stepAll [ch] := by
    rw [Cursor.stepAll_cons, Cursor.stepAll_nil]
  have htext : ch.toString = String.ofList [ch] := String.singleton_eq_ofList
  cases cls with
  | word =>
    rw [Token.read, Cursor.readWhile_eq isLetter h, hrest]
    rfl
  | number =>
    rw [Token.read, Cursor.readWhile_eq isDigit h, hrest]
    rfl
  | symbol | illegal =>
    rw [Token.read, hnext, Token.ofLexeme, hone, htext]
    rfl

namespace Cursor

theorem index_stepAll_nonneg {c : Cursor} (h : 0 ≤ c.index) (run : List Char) :
    0 ≤ (c.stepAll run).index := by
  simp only [stepAll]
  omega

/-- What is left when a run has been taken from the front. -/
theorem rest_stepAll_of_append {c : Cursor} (h : 0 ≤ c.index) {run tail : List Char}
    (hrest : c.rest = run ++ tail) : (c.stepAll run).rest = tail := by
  rw [rest_stepAll h, hrest, List.drop_left]

theorem rest_skip {c : Cursor} (h : 0 ≤ c.index) (member : Char → Bool) :
    (c.stepAll (c.rest.takeWhile member)).rest = c.rest.dropWhile member :=
  rest_stepAll_of_append h List.takeWhile_append_dropWhile.symm

/-- A call for a token skips the blanks.  At the end of the text it answers so; elsewhere the
first character gives the class, and the lexeme is taken. -/
theorem nextToken_eq (table : Table) {c : Cursor} (h : 0 ≤ c.index) :
    c.nextToken table =
      match c.rest.dropWhile isBlank with
      | [] => (.ok (.eof (c.stepAll (c.rest.takeWhile isBlank)).pos),
          c.stepAll (c.rest.takeWhile isBlank))
      | ch :: _ => Token.read table (c.stepAll (c.rest.takeWhile isBlank)) (.of table ch) := by
  have hstart := index_stepAll_nonneg h (c.rest.takeWhile isBlank)
  rw [nextToken, skipBlanks_eq h]
  simp only [peek_zero hstart, rest_skip h]
  cases c.rest.dropWhile isBlank with
  | nil => rfl
  | cons ch tail => rfl

end Cursor

/-- What all calls for tokens answer from a position on, up to the end of the text.  A failure
does not stop them. -/
def scan (table : Table) (pos : Position) (chars : List Char) : List (Except ScanError Token) :=
  let start := pos.advanceAll (chars.takeWhile isBlank)
  match _h : chars.dropWhile isBlank with
  | [] => [.ok (.eof start)]
  | ch :: tail =>
    let lexeme := (Token.Class.of table ch).lexeme (ch :: tail)
    (Token.Class.of table ch).token table start lexeme ::
      scan table (start.advanceAll lexeme) ((ch :: tail).drop lexeme.length)
termination_by chars.length
decreasing_by
  have hpos := Token.Class.length_lexeme_pos table ch tail
  have hle := (List.dropWhile_suffix (l := chars) isBlank).length_le
  rw [_h] at hle
  simp only [List.length_drop, List.length_cons] at hle ⊢
  omega

theorem scan_of_blank (table : Table) (pos : Position) {gap : List Char}
    (h : ∀ c ∈ gap, isBlank c = true) :
    scan table pos gap = [.ok (.eof (pos.advanceAll gap))] := by
  have hdrop : gap.dropWhile isBlank = [] := List.dropWhile_eq_nil_iff.mpr h
  rw [scan]
  split
  · rw [List.takeWhile_eq_self_iff.mpr h]
  · next hcons => simp [hdrop] at hcons

theorem scan_of_lexeme (table : Table) (pos : Position) {gap tail : List Char} {ch : Char}
    (hgap : ∀ c ∈ gap, isBlank c = true) (hch : isBlank ch = false) :
    scan table pos (gap ++ ch :: tail) =
      (Token.Class.of table ch).token table (pos.advanceAll gap)
          ((Token.Class.of table ch).lexeme (ch :: tail)) ::
        scan table
          ((pos.advanceAll gap).advanceAll ((Token.Class.of table ch).lexeme (ch :: tail)))
          ((ch :: tail).drop ((Token.Class.of table ch).lexeme (ch :: tail)).length) := by
  have htake : (gap ++ ch :: tail).takeWhile isBlank = gap := by
    rw [List.takeWhile_append_of_pos hgap]
    simp [hch]
  have hdrop : (gap ++ ch :: tail).dropWhile isBlank = ch :: tail := by
    rw [List.dropWhile_append_of_pos hgap]
    simp [hch]
  rw [scan]
  split
  · next hnil => simp [hdrop] at hnil
  · next ch' tail' hcons =>
    obtain ⟨rfl, rfl⟩ : ch = ch' ∧ tail = tail' := by simpa [hdrop] using hcons
    rw [htake]

/-- A text is blank, or blanks before a first character that is none. -/
theorem blank_or_split (chars : List Char) :
    (∀ c ∈ chars, isBlank c = true) ∨
      ∃ gap ch tail, chars = gap ++ ch :: tail ∧ (∀ c ∈ gap, isBlank c = true) ∧
        isBlank ch = false := by
  cases hdrop : chars.dropWhile isBlank with
  | nil => exact .inl (List.dropWhile_eq_nil_iff.mp hdrop)
  | cons ch tail =>
    refine .inr ⟨chars.takeWhile isBlank, ch, tail, ?_, ?_, ?_⟩
    · rw [← hdrop, List.takeWhile_append_dropWhile]
    · intro c hc
      exact List.mem_takeWhile_imp hc
    · have hnot := List.head?_dropWhile_not isBlank chars
      rw [hdrop] at hnot
      simpa using hnot

/-- A text begins with blanks and the lexeme that the character behind them opens. -/
structure Cut (table : Table) (gap : List Char) (ch : Char) (run after : List Char) : Prop where
  blanks : ∀ c ∈ gap, isBlank c = true
  opens : isBlank ch = false
  lexeme : (Token.Class.of table ch).lexeme (ch :: run ++ after) = ch :: run

theorem exists_cut (table : Table) {gap : List Char} {ch : Char} (tail : List Char)
    (hgap : ∀ c ∈ gap, isBlank c = true) (hch : isBlank ch = false) :
    ∃ run after, tail = run ++ after ∧ Cut table gap ch run after := by
  have hpos := Token.Class.length_lexeme_pos table ch tail
  have hcut := (Token.Class.of table ch).lexeme_append_drop (ch :: tail)
  generalize hlexeme : (Token.Class.of table ch).lexeme (ch :: tail) = lexeme at *
  obtain ⟨c, run, rfl⟩ := List.exists_cons_of_length_pos hpos
  obtain ⟨rfl, hrun⟩ : c = ch ∧ run ++ (c :: tail).drop (c :: run).length = tail := by
    simpa using hcut
  refine ⟨run, _, hrun.symm, hgap, hch, ?_⟩
  rwa [List.cons_append, hrun]

theorem scan_behind_blank (table : Table) (before : List Char) {gap : List Char}
    (h : ∀ c ∈ gap, isBlank c = true) :
    scan table (.behind before) gap = [.ok (.eof (.behind (before ++ gap)))] := by
  rw [scan_of_blank table _ h, Position.advanceAll_behind]

/-- The scan takes the lexeme, and goes on behind it. -/
theorem Cut.scan_behind {table : Table} {gap run after : List Char} {ch : Char}
    (h : Cut table gap ch run after) (before : List Char) :
    scan table (.behind before) (gap ++ ch :: run ++ after) =
      (Token.Class.of table ch).token table (.behind (before ++ gap)) (ch :: run) ::
        scan table (.behind (before ++ gap ++ ch :: run)) after := by
  have hdrop : (ch :: run ++ after).drop (ch :: run).length = after := List.drop_left
  have hlexeme := h.lexeme
  rw [List.cons_append] at hlexeme hdrop
  rw [List.append_assoc, List.cons_append, scan_of_lexeme table _ h.blanks h.opens, hlexeme, hdrop,
    Position.advanceAll_behind, Position.advanceAll_behind]

/-- Induction along the lexemes of a text: it is blank, or a lexeme is cut off its front and joins
what stands before the rest. -/
@[elab_as_elim]
theorem cut_induction (table : Table) {motive : List Char → List Char → Prop}
    (blank : ∀ before gap, (∀ c ∈ gap, isBlank c = true) → motive before gap)
    (lexeme : ∀ before gap ch run after, Cut table gap ch run after →
      motive (before ++ gap ++ ch :: run) after → motive before (gap ++ ch :: run ++ after))
    (before text : List Char) : motive before text := by
  -- Each lexeme takes a character, so the induction is on the length of the text.
  induction hlength : text.length using Nat.strongRecOn generalizing before text with
  | ind length ih =>
    rcases blank_or_split text with hblank | ⟨gap, ch, tail, rfl, hgap, hch⟩
    · exact blank before text hblank
    · obtain ⟨run, after, rfl, hcut⟩ := exists_cut table tail hgap hch
      have hshort : after.length < length := by
        simp only [List.length_append, List.length_cons] at hlength
        omega
      have htext : gap ++ ch :: (run ++ after) = gap ++ ch :: run ++ after := by simp
      rw [htext]
      exact lexeme before gap ch run after hcut (ih _ hshort _ _ rfl)

namespace Cursor

/-- Before blanks up to the end of the text, a call for a token comes to the end. -/
theorem nextToken_of_blank (table : Table) {c : Cursor} (h : 0 ≤ c.index)
    (hblank : ∀ ch ∈ c.rest, isBlank ch = true) :
    c.nextToken table = (.ok (.eof (c.stepAll c.rest).pos), c.stepAll c.rest) := by
  rw [nextToken_eq table h, List.dropWhile_eq_nil_iff.mpr hblank,
    List.takeWhile_eq_self_iff.mpr hblank]

/-- One call for a token takes the first answer off the scan: the one that ends it, or one with
the scan from the next cursor behind it. -/
theorem nextToken_scan (table : Table) {c : Cursor} (h : 0 ≤ c.index) :
    (∃ d, c.nextToken table = (.ok (.eof d.pos), d) ∧
        scan table c.pos c.rest = [.ok (.eof d.pos)]) ∨
      ∃ ch answer d, c.nextToken table = (answer, d) ∧ 0 ≤ d.index ∧
        scan table c.pos c.rest = answer :: scan table d.pos d.rest ∧
        ∃ pos lexeme, answer = (Token.Class.of table ch).token table pos lexeme := by
  rcases blank_or_split c.rest with hblank | ⟨gap, ch, tail, hrest, hgap, hch⟩
  · left
    exact ⟨c.stepAll c.rest, nextToken_of_blank table h hblank, scan_of_blank table c.pos hblank⟩
  · right
    have htake : c.rest.takeWhile isBlank = gap := by
      rw [hrest, List.takeWhile_append_of_pos hgap]
      simp [hch]
    have hdrop : c.rest.dropWhile isBlank = ch :: tail := by
      rw [hrest, List.dropWhile_append_of_pos hgap]
      simp [hch]
    have hstart := index_stepAll_nonneg h gap
    have hleft : (c.stepAll gap).rest = ch :: tail := rest_stepAll_of_append h hrest
    have hnext : c.nextToken table = Token.read table (c.stepAll gap) (.of table ch) := by
      rw [nextToken_eq table h, hdrop, htake]
    refine ⟨ch, _, _, hnext.trans (Token.read_eq table hstart hleft _),
      index_stepAll_nonneg hstart _, ?_, _, _, rfl⟩
    rw [hrest, scan_of_lexeme table c.pos hgap hch, rest_stepAll hstart, hleft]
    rfl

end Cursor

/-! ## All tokens of a text -/

namespace Table

/-- No text of the table is of the type that ends a text. -/
def NeverEnds (table : Table) : Prop := ∀ text, table.find? text ≠ some TokenType.eof

/-- The type of a text of the table is one of the table's. -/
theorem type_mem_of_find? {table : Table} {text : String} {type : TokenType}
    (h : table.find? text = some type) : type ∈ table.entries.map (·.2) := by
  obtain ⟨before, after, hentries, -⟩ := List.lookup_eq_some_iff.mp h
  have hmem : (text, type) ∈ table.entries := by rw [hentries]; simp
  exact List.mem_map_of_mem hmem

theorem neverEnds_standard : standard.NeverEnds := by
  intro text h
  exact absurd (type_mem_of_find? h) (by decide)

end Table

/-- A token that a character opens does not end the text, unless the table says so. -/
theorem Token.Class.isEof_token {table : Table} (hends : table.NeverEnds) {ch : Char}
    {pos : Position} {lexeme : List Char} {t : Token}
    (h : (Token.Class.of table ch).token table pos lexeme = .ok t) : t.isEof = false := by
  have hword : table.wordType (String.ofList lexeme) ≠ TokenType.eof := by
    rw [Table.wordType]
    cases hfind : table.find? (String.ofList lexeme) with
    | none => decide
    | some type => exact fun heq => hends _ (by rw [hfind, ← heq]; rfl)
  rw [Token.Class.of] at h
  split at h
  · obtain rfl : _ = t := by simpa [Token.Class.token] using h
    simpa [isEof] using hword
  · split at h
    · next type hfind =>
      obtain rfl : _ = t := by simpa [Token.Class.token] using h
      have htype : type ≠ TokenType.eof := fun heq => hends _ (heq ▸ hfind)
      simpa [isEof] using htype
    · split at h
      · simp only [Token.Class.token, Token.number_eq] at h
        split at h
        · simp at h
        · split at h
          · simp at h
          · obtain rfl : _ = t := by simpa using h
            rfl
      · obtain rfl : _ = t := by simpa [Token.Class.token] using h
        rfl

/-- The last answer of a scan is the token that ends the text, and no other is such a token.  There
are at most as many answers before it as characters. -/
theorem scan_eof {table : Table} (hends : table.NeverEnds) (before text : List Char) :
    ∃ front, scan table (.behind before) text = front ++ [.ok (.eof (.behind (before ++ text)))] ∧
      front.length ≤ text.length ∧ ∀ t, .ok t ∈ front → t.isEof = false := by
  induction before, text using cut_induction table with
  | blank before gap hgap => exact ⟨[], scan_behind_blank table before hgap, Nat.zero_le _, by simp⟩
  | lexeme before gap ch run after hcut ih =>
    obtain ⟨front, hscan, hle, hfront⟩ := ih
    refine ⟨(Token.Class.of table ch).token table (.behind (before ++ gap)) (ch :: run) :: front,
      ?_, ?_, ?_⟩
    · rw [hcut.scan_behind, hscan]
      simp
    · simp only [List.length_append, List.length_cons]
      omega
    · intro t ht
      rcases List.mem_cons.mp ht with htoken | ht
      · exact Token.Class.isEof_token hends htoken.symm
      · exact hfront t ht

namespace Cursor

/-- Draining collects the answers of the scan up to the first failure. -/
theorem drainOnto_eq {table : Table} (hends : table.NeverEnds) (tokens : Array Token)
    {c : Cursor} (h : 0 ≤ c.index) :
    (c.drainOnto table tokens).1 =
      ((scan table c.pos c.rest).mapM id).map (tokens ++ ·.toArray) := by
  fun_induction drainOnto table tokens c with
  | case1 tokens c e d hnext =>
    rcases nextToken_scan table h with ⟨d', heof, _⟩ | ⟨ch, answer, d', hnext', _, hscan, _⟩
    · simp [hnext] at heof
    · obtain ⟨rfl, rfl⟩ : .error e = answer ∧ d = d' := by simpa [hnext] using hnext'
      rw [hscan, List.mapM_cons]
      rfl
  | case2 tokens c t d hnext hend =>
    rcases nextToken_scan table h with
      ⟨d', heof, hscan⟩ | ⟨ch, answer, d', hnext', _, hscan, pos, lexeme, htoken⟩
    · obtain ⟨rfl, rfl⟩ : t = .eof d'.pos ∧ d = d' := by simpa [hnext] using heof
      rw [hscan]
      simp [pure, Except.pure, bind, Except.bind, Except.map]
    · obtain ⟨rfl, rfl⟩ : .ok t = answer ∧ d = d' := by simpa [hnext] using hnext'
      have hnot := Token.Class.isEof_token hends htoken.symm
      simp [hnot] at hend
  | case3 tokens c t d hnext hend ih =>
    rcases nextToken_scan table h with ⟨d', heof, _⟩ | ⟨ch, answer, d', hnext', hd, hscan, _⟩
    · obtain ⟨rfl, rfl⟩ : t = .eof d'.pos ∧ d = d' := by simpa [hnext] using heof
      simp [Token.eof, Token.isEof] at hend
    · obtain ⟨rfl, rfl⟩ : .ok t = answer ∧ d = d' := by simpa [hnext] using hnext'
      rw [ih hd, hscan, List.mapM_cons]
      cases (scan table d.pos d.rest).mapM id <;>
        simp [pure, Except.pure, bind, Except.bind, Except.map]

end Cursor

/-- The tokens of a text are the answers of its scan, unless one of them is a failure. -/
theorem tokenize_eq {table : Table} (hends : table.NeverEnds) (text : String) :
    tokenize table text = ((scan table .start text.toList).mapM id).map List.toArray := by
  have hdrain := Cursor.drainOnto_eq hends #[] (c := .ofString text) (by simp [Cursor.ofString])
  rw [Cursor.rest_ofString] at hdrain
  rw [tokenize, Cursor.drain, hdrain]
  simp [Cursor.ofString]

end SumLang
