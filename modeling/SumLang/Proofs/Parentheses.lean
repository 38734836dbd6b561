import SumLang.Proofs.Rereading
import SumLang.Proofs.Modes

/-!
# Reading nested additions

In order, a right operand that is an addition is written in parentheses.  The language has none,
though their signs are tokens.  So trees that lean to the left are read back, and the text of
all others breaks off at its first parenthesis: everything in front of it is a sum with a plus
behind it, in the line of the first tree that leans to the right somewhere.

## Main statements

* `Tree.BuiltFrom.exists_parenthesis`: the first parenthesis in the text of a tree.
* `exists_breaksOff`: the first parenthesis in the text of a list of trees.
* `parseSource_renderTrees_nested`: what becomes of trees that are written in order and read.
-/
namespace SumLang

namespace Tree

/-! ## Where parentheses are needed -/

/-- Whether some addition in a tree has an addition as its right operand. -/
def needsParentheses (t : Tree) : Bool :=
  t.inOrder.any fun node => node.isAdd && node.children[1]?.any isAdd

theorem IsLeaf.needsParentheses {t : Tree} (h : t.IsLeaf) : t.needsParentheses = false := by
  have hchildren : t.children = [] := by cases h <;> rfl
  rw [Tree.needsParentheses, inOrder_of_leaf hchildren]
  simp [h.isAdd]

@[simp] theorem needsParentheses_add (left right : Tree) (pos : Position) :
    (add left right pos).needsParentheses =
      (left.needsParentheses || (right.isAdd || right.needsParentheses)) := by
  have hoperand : (add left right pos).children[1]? = some right := rfl
  rw [Tree.needsParentheses, inOrder_add, List.any_append, List.any_cons, hoperand]
  simp [Tree.needsParentheses]

theorem BuiltFrom.isLeaf_or_isAdd {t : Tree} (h : t.BuiltFrom IsLeaf) :
    t.IsLeaf ∨ t.isAdd = true := by
  cases h with
  | leaf h => exact .inl h
  | add pos hleft hright => exact .inr rfl

/-- Trees that need no parentheses lean to the left. -/
theorem BuiltFrom.isSum {t : Tree} (h : t.BuiltFrom IsLeaf) (hneeds : t.needsParentheses = false) :
    t.IsSum := by
  induction h with
  | leaf h => exact .leaf h
  | @add left right pos hleft hright ihleft ihright =>
    obtain ⟨hl, hadd, -⟩ : left.needsParentheses = false ∧ right.isAdd = false ∧
        right.needsParentheses = false := by simpa using hneeds
    have hleaf : right.IsLeaf := hright.isLeaf_or_isAdd.resolve_right (by simp [hadd])
    exact .add pos (ihleft hl) hleaf

theorem IsSum.builtFrom {t : Tree} (h : t.IsSum) : t.BuiltFrom IsLeaf := by
  induction h with
  | leaf h => exact .leaf h
  | add pos hleft hright ih => exact .add pos ih (.leaf hright)

end Tree

/-- There are no parentheses in the text of a sum that leans to the left. -/
theorem Tree.IsSum.parenthesis_notMem {t : Tree} (h : t.IsSum) : '(' ∉ Format.inOrder.chars t := by
  have hleaf : ∀ {leaf : Tree}, leaf.IsLeaf → '(' ∉ Format.inOrder.chars leaf := by
    intro leaf hleaf
    rw [Format.chars_atom _ hleaf.isAtom]
    exact hleaf.isAtom.notMem_of_mem_signs (by decide)
  induction h with
  | leaf h => exact hleaf h
  | @add left right pos hleft hright ih =>
    rw [Format.inOrder_chars_add hleft.builtFrom.atoms (.leaf hright.isAtom), Format.operandChars,
      hright.isAdd]
    simp [ih, hleaf hright]

/-! ## Texts that can be cut -/

/-- Wherever the text stands, it can be cut into lexemes up to its end. -/
def Cuttable (text : List Char) : Prop :=
  ∀ before, ∃ pieces tokens, Lexed .standard before text pieces tokens

namespace Cuttable

variable {after : List Char}

theorem nil : Cuttable [] := by
  intro before
  exact ⟨[], _, .done (List.forall_mem_nil _)⟩

theorem blanks {gap : List Char} (hgap : ∀ c ∈ gap, isBlank c = true) (h : Cuttable after) :
    Cuttable (gap ++ after) := by
  intro before
  obtain ⟨pieces, tokens, hrest⟩ := h (before ++ gap)
  obtain ⟨pieces', hlexed⟩ := hrest.blanks hgap
  exact ⟨pieces', tokens, hlexed⟩

theorem lexeme {lexeme : List Char} {type : TokenType} {value : Scalar}
    (hlexeme : IsLexeme .standard lexeme after type value) (h : Cuttable after) :
    Cuttable (lexeme ++ after) := by
  intro before
  obtain ⟨pieces, tokens, hrest⟩ := h (before ++ [] ++ lexeme)
  exact ⟨_, _, .lexeme (List.forall_mem_nil _) hlexeme hrest⟩

/-- Symbols are lexemes whatever stands behind them. -/
theorem symbol (c : Char) (hc : c ∈ ['+', '(', ')', ';']) (h : Cuttable after) :
    Cuttable (c :: after) := by
  have hall : ['+', '(', ')', ';'].all (fun c => !isBlank c && !isLetter c &&
      (Table.standard.find? (String.ofList [c])).isSome) = true := by decide
  obtain ⟨⟨hblank, hletter⟩, hentry⟩ : (isBlank c = false ∧ isLetter c = false) ∧
      (Table.standard.find? (String.ofList [c])).isSome = true := by
    simpa only [Bool.and_eq_true, Bool.not_eq_true'] using List.all_eq_true.mp hall c hc
  obtain ⟨type, htype⟩ := Option.isSome_iff_exists.mp hentry
  exact lexeme (.symbol hblank hletter htype) h

theorem leaf {t : Tree} (ht : t.IsLeaf) (hends : Ends after) (h : Cuttable after) :
    Cuttable (Format.inOrder.chars t ++ after) := by
  obtain ⟨a, -, -, -, -, hlexeme⟩ := ht.exists_operand .start
  rw [Format.chars_atom _ ht.isAtom]
  exact lexeme (hlexeme after hends) h

theorem plus (h : Cuttable after) : Cuttable (' ' :: '+' :: ' ' :: after) := by
  have hoperand : Cuttable ([' '] ++ after) := h.blanks blanks_space
  exact (hoperand.symbol '+' (by decide)).blanks blanks_space

end Cuttable

/-- A right operand can be cut if its tree can, in parentheses or not. -/
theorem Cuttable.operand {t : Tree}
    (ht : ∀ after, Ends after → Cuttable after → Cuttable (Format.inOrder.chars t ++ after))
    {after : List Char} (hends : Ends after) (h : Cuttable after) :
    Cuttable (Format.operandChars t ++ after) := by
  rw [Format.operandChars]
  split
  · have hclosing : Cuttable (')' :: after) := h.symbol ')' (by decide)
    have hinner := ht _ (ends_sign (by decide) after) hclosing
    simpa using hinner.symbol '(' (by decide)
  · exact ht after hends h

/-- The text of a tree can be cut, parentheses included. -/
theorem Tree.BuiltFrom.cuttable {t : Tree} (ht : t.BuiltFrom IsLeaf) (after : List Char)
    (hends : Ends after) (h : Cuttable after) : Cuttable (Format.inOrder.chars t ++ after) := by
  induction ht generalizing after with
  | leaf hleaf => exact .leaf hleaf hends h
  | @add left right pos hleft hright ihleft ihright =>
    have hplus := (Cuttable.operand ihright hends h).plus
    have hsum := ihleft _ (ends_sign (by decide) _) hplus
    rw [Format.inOrder_chars_add hleft.atoms hright.atoms]
    simpa using hsum

/-- The first parenthesis in the text of a tree stands behind a sum that leans to the left, and a
plus. -/
theorem Tree.BuiltFrom.exists_parenthesis {t : Tree} (h : t.BuiltFrom IsLeaf)
    (hneeds : t.needsParentheses = true) :
    ∃ (left : Tree) (behind : List Char), left.IsSum ∧
      Format.inOrder.chars t = Format.inOrder.chars left ++ ([' ', '+', ' '] ++ '(' :: behind) ∧
      ∀ after, Ends after → Cuttable after → Cuttable (behind ++ after) := by
  induction h with
  | leaf h => simp [h.needsParentheses] at hneeds
  | @add left right pos hleft hright ihleft ihright =>
    rw [Format.inOrder_chars_add hleft.atoms hright.atoms]
    by_cases hl : left.needsParentheses = true
    · -- The left operand has a parenthesis, which comes first.
      obtain ⟨front, behind, hfront, hchars, hcut⟩ := ihleft hl
      refine ⟨front, behind ++ [' ', '+', ' '] ++ Format.operandChars right, hfront, ?_, ?_⟩
      · rw [hchars]
        simp
      · intro after hends hafter
        have hoperand := (Cuttable.operand hright.cuttable hends hafter).plus
        have hbehind := hcut _ (ends_sign (by decide) _) hoperand
        simpa using hbehind
    · -- The left operand leans to the left, so the right one is in parentheses.
      have hsum : left.IsSum := hleft.isSum (by simpa using hl)
      have hadd : right.isAdd = true := by
        rcases hright.isLeaf_or_isAdd with hleaf | hadd
        · simp [hl, hleaf.isAdd, hleaf.needsParentheses] at hneeds
        · exact hadd
      refine ⟨left, Format.inOrder.chars right ++ [')'], hsum, ?_, ?_⟩
      · simp [Format.operandChars, hadd]
      · intro after hends hafter
        have hclosing : Cuttable (')' :: after) := hafter.symbol ')' (by decide)
        have hinner := hright.cuttable _ (ends_sign (by decide) after) hclosing
        simpa using hinner

/-! ## Texts that break off -/

/-- The token of an opening parenthesis with a text in front of it. -/
def Token.openingBehind (text : List Char) : Token := ⟨"LPAREN", .text "(", .behind text⟩

/-- With `before` in front of it, the text breaks off behind `front`: there is its first
parenthesis, and the tokens in front of it are passed up to a sum with a plus behind it. -/
structure BreaksOff (before text front : List Char) : Prop where
  split : ∃ behind, text = front ++ '(' :: behind
  first : '(' ∉ front
  lexed : ∃ (pieces : List Piece) (passed : List Token) (chains : List Chain) (chain : Chain)
      (plus : Token) (rest : List Token), plus.isPlus = true ∧
    Passed (chain.tokens ++ plus :: Token.openingBehind (before ++ front) :: rest) passed chains ∧
    Lexed .standard before text pieces
      (passed ++ (chain.tokens ++ plus :: Token.openingBehind (before ++ front) :: rest))

theorem parenthesis_notMem_of_blanks {gap : List Char} (hgap : ∀ c ∈ gap, isBlank c = true) :
    '(' ∉ gap := by
  intro hmem
  exact absurd (hgap '(' hmem) (by decide)

/-- The text of a sum that leans to the left gives a chain, and is on one line. -/
theorem Tree.IsSum.exists_chain {t : Tree} (h : t.IsSum) (before : List Char) {gap : List Char}
    (hgap : ∀ c ∈ gap, isBlank c = true) :
    '\n' ∉ Format.inOrder.chars t ∧ ∃ c, ReadsAs before gap (Format.inOrder.chars t) c := by
  obtain ⟨text, hrender, hline, hreads⟩ := h.reads
  obtain ⟨c, hc, -, -⟩ := hreads before gap hgap
  rw [Format.chars_of_render hrender]
  exact ⟨hline, c, hc⟩

/-- A sum, a plus and a parenthesis. -/
theorem ReadsAs.breaksOff {before gap text : List Char} {c : Chain}
    (hc : ReadsAs before gap text c) (hgap : ∀ c ∈ gap, isBlank c = true) (htext : '(' ∉ text)
    {after : List Char} (h : Cuttable after) :
    BreaksOff before (gap ++ text ++ ([' ', '+', ' '] ++ '(' :: after))
      (gap ++ text ++ [' ', '+', ' ']) := by
  have hgap' : '(' ∉ gap := parenthesis_notMem_of_blanks hgap
  refine ⟨⟨after, by simp⟩, ?_, ?_⟩
  · simp [hgap', htext]
  · have hopening : IsLexeme .standard ['('] after "LPAREN" (.text "(") :=
      .symbol (by decide) (by decide) (by decide)
    -- From the back to the front: the parenthesis, and then the plus and the chain.
    obtain ⟨_, rest, hrest⟩ := h (before ++ gap ++ text ++ [' ', '+'] ++ [' '] ++ ['('])
    obtain ⟨pieces, hlexed⟩ := hc.plus (.lexeme blanks_space hopening hrest)
    refine ⟨pieces, [], [], c,
      ⟨TokenType.plus, .text "+", .behind (before ++ gap ++ text ++ [' '])⟩, rest, rfl, .done, ?_⟩
    simpa [Token.openingBehind] using hlexed

/-- A statement in front of a text that breaks off. -/
theorem BreaksOff.statement {before gap text after front : List Char} {c : Chain}
    (hc : ReadsAs before gap text c) (hgap : ∀ c ∈ gap, isBlank c = true) (htext : '(' ∉ text)
    (h : BreaksOff (before ++ gap ++ text ++ [';']) after front) :
    BreaksOff before (gap ++ text ++ [';'] ++ after) (gap ++ text ++ [';'] ++ front) := by
  obtain ⟨⟨behind, rfl⟩, hfirst, pieces, passed, chains, chain, plus, rest, hplus,
    hpassed, hlexed⟩ := h
  have hgap' : '(' ∉ gap := parenthesis_notMem_of_blanks hgap
  refine ⟨⟨behind, by simp⟩, ?_, ?_⟩
  · simp [hgap', htext, hfirst]
  · obtain ⟨pieces', s, hs, hline⟩ := hc.statement hlexed
    have hfront : before ++ gap ++ text ++ [';'] ++ front =
        before ++ (gap ++ text ++ [';'] ++ front) := by simp
    rw [hfront] at hpassed hline
    have hstop : (s :: passed ++ (chain.tokens ++ plus ::
        Token.openingBehind (before ++ (gap ++ text ++ [';'] ++ front)) :: rest)).head?.any
          Token.isPlus = false := Token.isPlus_of_isStop (Token.isStop_of_isSemicolon hs)
    refine ⟨pieces', c.tokens ++ s :: passed, c :: chains, chain, plus, rest, hplus,
      .sum c hstop (.semicolon hs hpassed), ?_⟩
    simpa using hline

/-- The text of a list of trees can be cut. -/
theorem cuttable_textOf {trees : List Tree} (h : ∀ t ∈ trees, t.BuiltFrom Tree.IsLeaf)
    {gap : List Char} (hgap : ∀ c ∈ gap, isBlank c = true) :
    Cuttable (textOf gap (trees.map Format.inOrder.line)) := by
  induction trees generalizing gap with
  | nil => exact .nil
  | cons t trees ih =>
    rw [List.forall_mem_cons] at h
    have hrest := (ih h.2 blanks_feed).symbol ';' (by decide)
    have htree := h.1.cuttable _ (ends_sign (by decide) _) hrest
    simpa [textOf, Format.terminator] using htree.blanks hgap

/-- The text of a list of trees breaks off in the line of the first that needs parentheses. -/
theorem exists_breaksOff {trees : List Tree} (h : ∀ t ∈ trees, t.BuiltFrom Tree.IsLeaf) {n : Nat}
    (hn : trees.findIdx? Tree.needsParentheses = some n) (before : List Char) {gap : List Char}
    (hgap : ∀ c ∈ gap, isBlank c = true) :
    ∃ front, BreaksOff before (textOf gap (trees.map Format.inOrder.line)) front ∧
      (Position.behind (before ++ front)).line = (Position.behind (before ++ gap)).line + n := by
  induction trees generalizing n before gap with
  | nil => simp at hn
  | cons t trees ih =>
    rw [List.forall_mem_cons] at h
    have htext : textOf gap ((t :: trees).map Format.inOrder.line) =
        gap ++ Format.inOrder.chars t ++ [';'] ++
          textOf ['\n'] (trees.map Format.inOrder.line) := by
      simp [textOf, Format.terminator]
    rw [htext]
    by_cases hneeds : t.needsParentheses = true
    · -- This is the tree.
      obtain rfl : 0 = n := by simpa [List.findIdx?_cons, hneeds] using hn
      obtain ⟨left, behind, hleft, hchars, hcut⟩ := h.1.exists_parenthesis hneeds
      obtain ⟨hline, c, hc⟩ := hleft.exists_chain before hgap
      have hrest := hcut _ (ends_sign (by decide) _)
        ((cuttable_textOf h.2 blanks_feed).symbol ';' (by decide))
      refine ⟨gap ++ Format.inOrder.chars left ++ [' ', '+', ' '], ?_, ?_⟩
      · rw [hchars]
        simpa using hc.breaksOff hgap hleft.parenthesis_notMem hrest
      · rw [← List.append_assoc, ← List.append_assoc, behind_line_append _ (by decide),
          behind_line_append _ hline, Int.natCast_zero, Int.add_zero]
    · -- This is not the tree, so its text is that of a sum.
      obtain ⟨m, hm, rfl⟩ : ∃ m, trees.findIdx? Tree.needsParentheses = some m ∧ m + 1 = n := by
        simpa [List.findIdx?_cons, hneeds] using hn
      have hsum : t.IsSum := h.1.isSum (by simpa using hneeds)
      obtain ⟨hline, c, hc⟩ := hsum.exists_chain before hgap
      obtain ⟨front, hbreaks, hplace⟩ :=
        ih h.2 hm (before ++ gap ++ Format.inOrder.chars t ++ [';']) blanks_feed
      refine ⟨_, hbreaks.statement hc hgap hsum.parenthesis_notMem, ?_⟩
      rw [← List.append_assoc, ← List.append_assoc, ← List.append_assoc, hplace,
        behind_line_feed, behind_line_append _ (by decide), behind_line_append _ hline]
      omega

/-! ## Reading -/

/-- A strict run over tokens that are passed, and a chain with a plus behind it, asks for an
operand there. -/
theorem Parser.freshRun_of_passed_plus {passed rest : List Token} {chains : List Chain}
    {chain : Chain} {plus t : Token}
    (hpassed : Passed (chain.tokens ++ plus :: t :: rest) passed chains)
    (hplus : plus.isPlus = true) (ht : t.isOperand = false) :
    ∃ position, (freshRun .strict (passed ++ (chain.tokens ++ plus :: t :: rest))).1 =
      .error (ParseError.raise ⟨TokenType.operands, some t, position⟩) := by
  have hread : Chain.read (chain.tokens ++ plus :: t :: rest) = .error (chain.tokens.length + 1) :=
    chain.read_tokens_plus hplus ht
  have hactual : (chain.tokens ++ plus :: t :: rest)[chain.tokens.length + 1]? = some t := by
    rw [List.getElem?_append_right (by omega)]
    simp
  let tokens := passed ++ (chain.tokens ++ plus :: t :: rest)
  have hdrop : tokens.toArray.toList.drop (0 + passed.length) =
      chain.tokens ++ plus :: t :: rest := by
    rw [Nat.zero_add, List.drop_left]
  have hpass : freshRun .strict tokens =
      (Parser.mk tokens.toArray ((0 + passed.length : Nat) : Int)
        (#[] ++ (chains.map Chain.tree).toArray) #[]).parseProgram .strict :=
    parseProgram_of_passed .strict hpassed rfl
  let e : ParseError := ⟨TokenType.operands, some t,
    ((0 + passed.length + (chain.tokens.length + 1) : Nat) : Int)⟩
  have he : e = ⟨TokenType.operands,
      (chain.tokens ++ plus :: t :: rest)[chain.tokens.length + 1]?,
      ((0 + passed.length + (chain.tokens.length + 1) : Nat) : Int)⟩ := by rw [hactual]
  refine ⟨e.position, ?_⟩
  rw [hpass, parseProgram_of_fault hdrop chain.isSemicolon_first chain.isEof_first hread .strict he,
    ParseError.raise_eq]
  split
  · rfl
  · rfl

/-- A text that breaks off is refused at its first parenthesis. -/
theorem BreaksOff.parseSource_eq {text : String} {front : List Char}
    (h : BreaksOff [] text.toList front) :
    ∃ position, parseSource .strict text =
      .error (.ofParse
        (ParseError.raise ⟨TokenType.operands, some (.openingBehind front), position⟩)) := by
  obtain ⟨-, -, pieces, passed, chains, chain, plus, rest, hplus, hpassed, hlexed⟩ := h
  obtain ⟨position, hrun⟩ := Parser.freshRun_of_passed_plus hpassed hplus rfl
  refine ⟨position, ?_⟩
  rw [parseSource, hlexed.tokenize_eq_ok Table.neverEnds_standard]
  exact congrArg (Except.mapError Failure.ofParse) hrun

/-- Places in a text can be written, if the text itself is not too long to be counted. -/
theorem Token.isWritable_openingBehind {front : List Char}
    (h : front.length + 1 < Nat.pow 10 longestNumeral) : (openingBehind front).isWritable = true := by
  have hline := List.count_le_length (a := '\n') (l := front)
  have hcolumn : Position.lastLineLength front ≤ front.length := by
    have htaken := (List.takeWhile_sublist (· != '\n') (l := front.reverse)).length_le
    rwa [List.length_reverse] at htaken
  rw [isWritable, Position.isWritable, Bool.and_eq_true, Bool.and_eq_true, Text.isWritable_iff,
    Text.isWritable_iff]
  simp only [openingBehind, Position.behind]
  exact ⟨rfl, by omega, by omega⟩

/-- Trees of leaves of the language, written in order and read strictly.  If none has an addition
as the right operand of an addition, trees of the same shapes are read.  Else the text is refused
at its first parenthesis, which is in the line of the first tree that has one; that place can be
written, unless the text has more characters than any number that can be written.  So trees of
other shapes are never read. -/
theorem parseSource_renderTrees_nested {trees : List Tree}
    (h : ∀ t ∈ trees, t.BuiltFrom Tree.IsLeaf) :
    ∃ text, renderTrees .inOrder trees = .ok text ∧
      ((∀ t ∈ trees, t.needsParentheses = false) →
        ∃ again, parseSource .strict text = .ok again ∧
          again.toList.map Tree.shape = trees.map Tree.shape) ∧
      (∀ n, trees.findIdx? Tree.needsParentheses = some n →
        ∃ front behind position, text.toList = front ++ '(' :: behind ∧ '(' ∉ front ∧
          (Token.openingBehind front).pos.line = 1 + n ∧
          let e : ParseError := ⟨TokenType.operands, some (.openingBehind front), position⟩
          parseSource .strict text = .error (.ofParse e.raise) ∧
          (text.length < Nat.pow 10 longestNumeral →
            parseSource .strict text = .error (.parse e))) ∧
      ∀ again, parseSource .strict text = .ok again →
        again.toList.map Tree.shape = trees.map Tree.shape := by
  have hrender : renderTrees .inOrder trees =
      .ok ("\n".intercalate (trees.map Format.inOrder.line)) :=
    renderTrees_of_builtFrom .inOrder fun t ht => (h t ht).atoms
  refine ⟨_, hrender, ?_⟩
  -- Either all trees are sums that lean to the left, or one of them is the first that is not.
  cases hn : trees.findIdx? Tree.needsParentheses with
  | none =>
    have hnone : ∀ t ∈ trees, t.needsParentheses = false := List.findIdx?_eq_none_iff.mp hn
    obtain ⟨text, again, htext, hparse, hshapes, -⟩ :=
      exists_parseSource fun t ht => (h t ht).isSum (hnone t ht)
    obtain rfl := Except.ok.inj (htext.symm.trans hrender)
    refine ⟨fun _ => ⟨again, hparse, hshapes⟩, by simp, ?_⟩
    intro again' hagain
    obtain rfl : again = again' := Except.ok.inj (hparse.symm.trans hagain)
    exact hshapes
  | some n =>
    obtain ⟨hlt, hneeds, -⟩ := List.findIdx?_eq_some_iff_getElem.mp hn
    obtain ⟨front, hbreaks, hline⟩ := exists_breaksOff h hn [] (List.forall_mem_nil _)
    rw [← toList_intercalate_newline] at hbreaks
    obtain ⟨position, hparse⟩ := hbreaks.parseSource_eq
    obtain ⟨behind, htext⟩ := hbreaks.split
    refine ⟨fun hall => ?_, ?_, ?_⟩
    · rw [hall _ (List.getElem_mem hlt)] at hneeds
      exact absurd hneeds (by decide)
    · intro m hm
      obtain rfl : n = m := Option.some.inj hm
      refine ⟨front, behind, position, htext, hbreaks.first, hline, hparse, fun hlength => ?_⟩
      have hwritable : (Token.openingBehind front).isWritable = true := by
        apply Token.isWritable_openingBehind
        rw [← String.length_toList, htext, List.length_append, List.length_cons] at hlength
        omega
      have hworded : (ParseError.mk TokenType.operands (some (.openingBehind front))
          position).isWritable = true := hwritable
      rw [hparse, ParseError.raise_eq, if_pos hworded, Failure.ofParse]
    · intro again hagain
      rw [hparse] at hagain
      exact absurd hagain (by simp)

/-- In the second line of `1 + x + 2;` and `y + (3 + (4 + 5)) + 6;` is the first parenthesis. -/
theorem parseSource_renderTrees_nested_second_line :
    let number (n : Nat) : Tree := .integer (.int n) .start
    let name (text : String) : Tree := .identifier (.text text) .start
    let sum (left right : Tree) : Tree := .add left right .start
    let trees : List Tree :=
      [sum (sum (number 1) (name "x")) (number 2),
        sum (sum (name "y") (sum (number 3) (sum (number 4) (number 5)))) (number 6)]
    (∀ t ∈ trees, t.BuiltFrom Tree.IsLeaf) ∧ trees.findIdx? Tree.needsParentheses = some 1 ∧
      renderTrees .inOrder trees = .ok "1 + x + 2;\ny + (3 + (4 + 5)) + 6;" ∧
      ∃ front position, (Token.openingBehind front).pos.line = 2 ∧
        parseSource .strict "1 + x + 2;\ny + (3 + (4 + 5)) + 6;" =
          .error (.parse ⟨TokenType.operands, some (.openingBehind front), position⟩) := by
  intro number name sum trees
  have hnumber : ∀ n : Nat, (n : Int) ≤ greatestNumber → (number n).BuiltFrom Tree.IsLeaf :=
    fun n small => .leaf (.integer .start small)
  have hname : ∀ text, IsName text → (name text).BuiltFrom Tree.IsLeaf :=
    fun text free => .leaf (.identifier .start free)
  have hx : IsName "x" := ⟨by decide, List.forall_mem_singleton.mpr (by decide), by decide⟩
  have hy : IsName "y" := ⟨by decide, List.forall_mem_singleton.mpr (by decide), by decide⟩
  have hbuilt : ∀ t ∈ trees, t.BuiltFrom Tree.IsLeaf := by
    have hright := Tree.BuiltFrom.add .start (hnumber 3 (by decide))
      (.add .start (hnumber 4 (by decide)) (hnumber 5 (by decide)))
    refine List.forall_mem_cons.mpr ⟨?_, List.forall_mem_singleton.mpr ?_⟩
    · exact .add .start (.add .start (hnumber 1 (by decide)) (hname "x" hx)) (hnumber 2 (by decide))
    · exact .add .start (.add .start (hname "y" hy) hright) (hnumber 6 (by decide))
  have hindex : trees.findIdx? Tree.needsParentheses = some 1 := by decide
  have htext : renderTrees .inOrder trees = .ok "1 + x + 2;\ny + (3 + (4 + 5)) + 6;" := by
    decide +kernel
  obtain ⟨text, hrender, -, hfails, -⟩ := parseSource_renderTrees_nested hbuilt
  obtain rfl : text = "1 + x + 2;\ny + (3 + (4 + 5)) + 6;" :=
    Except.ok.inj (hrender.symm.trans htext)
  obtain ⟨front, -, position, -, -, hline, -, hparse⟩ := hfails 1 hindex
  have hlength : "1 + x + 2;\ny + (3 + (4 + 5)) + 6;".length < longestNumeral := by decide
  have hlimit : longestNumeral < Nat.pow 10 longestNumeral := by
    rw [Nat.pow_eq]
    exact Nat.lt_pow_self (by decide)
  exact ⟨hbuilt, hindex, htext, front, position, hline, hparse (Nat.lt_trans hlength hlimit)⟩

end SumLang
