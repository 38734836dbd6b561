import SumLang.Proofs.Nested
import SumLang.Proofs.StrictRuns

/-!
# Reading what has been written

A text of sums, one on each line, is cut into the tokens of one chain a line, each with its
semicolon.  So a strict run reads as many trees as have been written, of the same shapes and
each on its own line.

## Main statements

* `Tree.IsSum.reads`: the text of a sum, wherever it stands, gives the tokens of a chain of the
  same shape.
* `exists_reads`: the text of a list of sums gives one such chain a line.
* `parseSource_renderTrees`: a text that is read, written and read again.
-/
namespace SumLang

/-! ## Leaves -/

/-- What follows neither goes on with a name nor with a number. -/
def Ends (after : List Char) : Prop := Stops isLetter after ∧ Stops isDigit after

/-- Behind a sign neither a name nor a number has begun. -/
theorem ends_sign {c : Char} (hc : c ∈ signs) (after : List Char) : Ends (c :: after) := by
  constructor
  · intro d hd
    rw [← Option.some.inj hd]
    exact isLetter_of_mem_signs hc
  · intro d hd
    rw [← Option.some.inj hd]
    exact isDigit_of_mem_signs hc

theorem blanks_space : ∀ c ∈ [' '], isBlank c = true :=
  List.forall_mem_singleton.mpr (by decide)

theorem blanks_feed : ∀ c ∈ ['\n'], isBlank c = true :=
  List.forall_mem_singleton.mpr (by decide)

/-- The text of a number of the language is read as the number. -/
theorem IsLexeme.numeral {n : Nat} (small : (n : Int) ≤ greatestNumber) {after : List Char}
    (hafter : Stops isDigit after) :
    IsLexeme .standard (Scalar.plain (.int n)).toList after TokenType.int (.int n) := by
  have hvalue : Nat.ofDigitChars 10 (Nat.toDigits 10 n) 0 = n := Nat.ofDigitChars_ten_toDigits
  have hdigits : ∀ c ∈ Nat.toDigits 10 n, isDigit c = true := fun c hc => isDigit_of_mem_toDigits hc
  have hlength := length_toDigits_le small
  rw [toList_plain_natCast]
  cases hcons : Nat.toDigits 10 n with
  | nil => exact absurd hcons Nat.toDigits_ne_nil
  | cons c run =>
    rw [hcons] at hvalue hdigits hlength
    have hentry := Table.find?_digit (hdigits c List.mem_cons_self)
    have hnumber := IsLexeme.number hdigits hentry hafter hlength (by rwa [hvalue])
    rwa [hvalue] at hnumber

/-- The text of a name is read as the name. -/
theorem IsLexeme.name {name : String} (free : IsName name) {after : List Char}
    (hafter : Stops isLetter after) :
    IsLexeme .standard name.toList after TokenType.ident (.text name) := by
  have hword : IsLexeme .standard name.toList after _ _ :=
    .word free.nonempty free.letters hafter
  rwa [String.ofList_toList, free.free] at hword

/-- The text of a leaf is on one line. -/
theorem Tree.IsLeaf.newline_notMem {t : Tree} (h : t.IsLeaf) : '\n' ∉ t.value.plain.toList :=
  h.isAtom.notMem_of_mem_signs (by decide)

/-- The text of a leaf is one lexeme, and the token is an operand with the same leaf at its own
place. -/
theorem Tree.IsLeaf.exists_operand {t : Tree} (h : t.IsLeaf) (pos : Position) :
    ∃ a : Operand, a.token = ⟨a.token.type, a.token.value, pos⟩ ∧ a.leaf.IsLeaf ∧
      a.leaf.shape = t.shape ∧ a.leaf.value = t.value ∧
      ∀ after, Ends after →
        IsLexeme .standard t.value.plain.toList after a.token.type a.token.value := by
  cases h with
  | @integer n pos' small =>
    exact ⟨⟨⟨TokenType.int, .int n, pos⟩, rfl⟩, rfl, .integer pos small, rfl, rfl,
      fun after hafter => .numeral small hafter.2⟩
  | @identifier name pos' free =>
    exact ⟨⟨⟨TokenType.ident, .text name, pos⟩, rfl⟩, rfl, .identifier pos free, rfl, rfl,
      fun after hafter => .name free hafter.1⟩

/-! ## Sums -/

/-- With `before` and a gap in front of it, the text gives the tokens of the chain, all on the
line on which it begins, whatever stands behind it. -/
structure ReadsAs (before gap text : List Char) (c : Chain) : Prop where
  line : ∀ t ∈ c.tokens, t.pos.line = (Position.behind (before ++ gap)).line
  lexed : ∀ after pieces tokens, Ends after →
    Lexed .standard (before ++ gap ++ text) after pieces tokens →
      ∃ pieces, Lexed .standard before (gap ++ text ++ after) pieces (c.tokens ++ tokens)

theorem behind_line_append (before : List Char) {text : List Char} (h : '\n' ∉ text) :
    (Position.behind (before ++ text)).line = (Position.behind before).line := by
  have hcount : text.count '\n' = 0 := List.count_eq_zero.mpr h
  simp only [Position.behind, List.count_append, hcount, Nat.add_zero]

theorem behind_line_feed (before : List Char) :
    (Position.behind (before ++ ['\n'])).line = (Position.behind before).line + 1 := by
  simp [Position.behind, Int.add_assoc]

/-- The text of a leaf gives a single operand. -/
theorem Tree.IsLeaf.reads {t : Tree} (h : t.IsLeaf) (before : List Char) {gap : List Char}
    (hgap : ∀ c ∈ gap, isBlank c = true) :
    ∃ a : Operand, ReadsAs before gap t.value.plain.toList (.single a) ∧ a.leaf.IsLeaf ∧
      a.leaf.shape = t.shape ∧ a.leaf.value = t.value := by
  obtain ⟨a, htoken, hleaf, hshape, hvalue, hlexeme⟩ :=
    h.exists_operand (.behind (before ++ gap))
  refine ⟨a, ⟨?_, ?_⟩, hleaf, hshape, hvalue⟩
  · intro u hu
    rw [Chain.tokens_single, List.mem_singleton] at hu
    rw [hu, htoken]
  · intro after pieces tokens hafter hrest
    have hlexed := Lexed.lexeme hgap (hlexeme after hafter) hrest
    rw [← htoken] at hlexed
    exact ⟨_, hlexed⟩

namespace ReadsAs

variable {before gap text after : List Char} {c : Chain} {pieces : List Piece}
  {tokens : List Token}

/-- A sum and a symbol in front of a text give the tokens of the chain and that of the symbol. -/
theorem symbol (hc : ReadsAs before gap text c) {space lexeme : List Char} {type : TokenType}
    {value : Scalar} (hspace : ∀ c ∈ space, isBlank c = true)
    (hlexeme : IsLexeme .standard lexeme after type value)
    (hends : Ends (space ++ lexeme ++ after))
    (h : Lexed .standard (before ++ gap ++ text ++ space ++ lexeme) after pieces tokens) :
    ∃ pieces, Lexed .standard before (gap ++ text ++ (space ++ lexeme ++ after)) pieces
      (c.tokens ++ ⟨type, value, .behind (before ++ gap ++ text ++ space)⟩ :: tokens) :=
  hc.lexed _ _ _ hends (.lexeme hspace hlexeme h)

/-- The token of a plus behind a sum, with a blank in front of it. -/
theorem plus (hc : ReadsAs before gap text c)
    (h : Lexed .standard (before ++ gap ++ text ++ [' ', '+']) after pieces tokens) :
    ∃ pieces, Lexed .standard before (gap ++ text ++ [' ', '+'] ++ after) pieces (c.tokens ++
      ⟨TokenType.plus, .text "+", .behind (before ++ gap ++ text ++ [' '])⟩ :: tokens) := by
  have hplus : IsLexeme .standard ['+'] after TokenType.plus (.text "+") :=
    .symbol (by decide) (by decide) (by decide)
  obtain ⟨pieces', hlexed⟩ :=
    hc.symbol blanks_space hplus (ends_sign (by decide) _) (by simpa using h)
  exact ⟨pieces', by simpa using hlexed⟩

/-- The token of a semicolon behind a sum. -/
theorem statement (hc : ReadsAs before gap text c)
    (h : Lexed .standard (before ++ gap ++ text ++ [';']) after pieces tokens) :
    ∃ pieces s, s.isSemicolon = true ∧
      Lexed .standard before (gap ++ text ++ [';'] ++ after) pieces (c.tokens ++ s :: tokens) := by
  have hsemicolon : IsLexeme .standard [';'] after TokenType.semicolon (.text ";") :=
    .symbol (by decide) (by decide) (by decide)
  obtain ⟨pieces', hlexed⟩ :=
    hc.symbol (List.forall_mem_nil _) hsemicolon (ends_sign (by decide) _) (by simpa using h)
  exact ⟨pieces', _, rfl, by simpa using hlexed⟩

end ReadsAs

/-- The text of a leaf behind a plus gives one more addition. -/
theorem ReadsAs.add {before gap text : List Char} {c : Chain} (hc : ReadsAs before gap text c)
    (htext : '\n' ∉ text) {right : Tree} (hright : right.IsLeaf) :
    ∃ a : Addition,
      ReadsAs before gap (text ++ [' ', '+', ' '] ++ right.value.plain.toList) (c.extend a) ∧
      a.operand.leaf.IsLeaf ∧ a.operand.leaf.shape = right.shape ∧
      a.operand.leaf.value = right.value := by
  obtain ⟨b, hb, hleaf, hshape, hvalue⟩ :=
    hright.reads (before ++ gap ++ text ++ [' ', '+']) blanks_space
  let a : Addition :=
    ⟨⟨TokenType.plus, .text "+", .behind (before ++ gap ++ text ++ [' '])⟩, b, rfl⟩
  have htokens : (c.extend a).tokens = c.tokens ++ a.plus :: [b.token] := c.tokens_extend a
  refine ⟨a, ⟨?_, ?_⟩, hleaf, hshape, hvalue⟩
  · have hline : ∀ more : List Char, '\n' ∉ more →
        (Position.behind (before ++ gap ++ text ++ more)).line =
          (Position.behind (before ++ gap)).line := fun more hmore => by
      rw [behind_line_append _ hmore, behind_line_append _ htext]
    rw [htokens]
    intro t ht
    rcases List.mem_append.mp ht with ht | ht
    · exact hc.line t ht
    · rcases List.mem_cons.mp ht with rfl | ht
      · exact hline [' '] (by decide)
      · rw [hb.line t ht, List.append_assoc]
        exact hline [' ', '+', ' '] (by decide)
  · intro after pieces tokens hafter hrest
    -- From the back to the front: the operand, and then the plus and the chain.
    obtain ⟨_, hoperand⟩ := hb.lexed after pieces tokens hafter (by simpa using hrest)
    obtain ⟨pieces', hchain⟩ := hc.plus hoperand
    refine ⟨pieces', ?_⟩
    rw [htokens]
    simpa [a] using hchain

/-- The text of a sum is on one line, and gives the tokens of a chain with the same shape and
text, wherever it stands. -/
theorem Tree.IsSum.reads {t : Tree} (h : t.IsSum) :
    ∃ text : String, Format.inOrder.render t = .ok text ∧ '\n' ∉ text.toList ∧
      ∀ before gap : List Char, (∀ c ∈ gap, isBlank c = true) →
        ∃ c : Chain, ReadsAs before gap text.toList c ∧ c.tree.shape = t.shape ∧
          Format.inOrder.render c.tree = .ok text := by
  induction h with
  | @leaf t h =>
    refine ⟨t.value.plain, Format.render_leaf _ h, h.newline_notMem, ?_⟩
    intro before gap hgap
    obtain ⟨a, ha, hleaf, hshape, hvalue⟩ := h.reads before hgap
    exact ⟨.single a, ha, hshape, hvalue ▸ Format.render_leaf _ hleaf⟩
  | @add left right pos hleft hright ih =>
    obtain ⟨text, hrender, hline, hreads⟩ := ih
    refine ⟨_, Format.inOrder_add pos hright hrender (Format.render_leaf _ hright), ?_, ?_⟩
    · simp only [String.toList_append, List.mem_append, not_or]
      exact ⟨⟨hline, by decide⟩, hright.newline_notMem⟩
    · intro before gap hgap
      obtain ⟨c, hc, hshape, hwritten⟩ := hreads before gap hgap
      obtain ⟨a, ha, hleaf, hshape', hvalue⟩ := hc.add hline hright
      refine ⟨c.extend a, by simpa using ha, ?_, ?_⟩
      · rw [Chain.tree_extend, Tree.shape_add, Tree.shape_add, hshape, hshape']
      · rw [Chain.tree_extend, ← hvalue]
        exact Format.inOrder_add _ hleaf hwritten (Format.render_leaf _ hleaf)

/-! ## Programs -/

/-- The tokens are those of the chains, each with a semicolon behind it, and the end of a text. -/
inductive Terminated : List Chain → List Token → Prop where
  | done {t : Token} (ht : t.isEof = true) : Terminated [] [t]
  | statement (c : Chain) {s : Token} {cs : List Chain} {ts : List Token}
      (hs : s.isSemicolon = true) (h : Terminated cs ts) :
      Terminated (c :: cs) (c.tokens ++ s :: ts)

/-- Nothing but the chains is found. -/
theorem Terminated.findings_eq {cs : List Chain} {ts : List Token} (h : Terminated cs ts)
    (i : Nat) : Finding.trees (Grammar.findings i ts) = cs.map Chain.tree ∧
      Finding.firstFault (Grammar.findings i ts) = none := by
  induction h generalizing i with
  | done ht =>
    rw [Grammar.findings_of_eof i ht]
    exact ⟨rfl, rfl⟩
  | @statement c s cs ts hs h ih =>
    have hplus : (s :: ts).head?.any Token.isPlus = false :=
      Token.isPlus_of_isStop (Token.isStop_of_isSemicolon hs)
    rw [Grammar.findings_tokens_append i c hplus, Grammar.findings_of_semicolon _ hs,
      Finding.trees_sum, List.map_cons, (ih _).1]
    exact ⟨rfl, (ih _).2⟩

/-- Strict parsing answers exactly if the text can be cut and nothing fails among its tokens, and
then with all that is found. -/
theorem parseSource_strict_eq_ok_iff {text : String} {trees : Array Tree} :
    parseSource .strict text = .ok trees ↔
      ∃ pieces tokens, Lexed .standard [] text.toList pieces tokens ∧
        Finding.firstFault (Grammar.findings 0 tokens) = none ∧
        trees.toList = Finding.trees (Grammar.findings 0 tokens) := by
  rw [parseSource_eq_ok_iff]
  constructor
  · rintro ⟨tokens, htokens, hrun⟩
    obtain ⟨pieces, hlexed⟩ := lexed_of_tokenize Table.neverEnds_standard htokens
    refine ⟨pieces, tokens.toList, hlexed, ?_, Parser.trees_of_freshRun hrun⟩
    by_contra hfault
    obtain ⟨⟨start, e⟩, hsome⟩ := Option.ne_none_iff_exists'.mp hfault
    rw [Parser.freshRun_strict_of_some hsome] at hrun
    simp at hrun
  · rintro ⟨pieces, tokens, hlexed, hfault, htrees⟩
    refine ⟨tokens.toArray, hlexed.tokenize_eq_ok Table.neverEnds_standard, ?_⟩
    rw [Parser.freshRun_strict_of_none hfault, ← htrees]

/-- A text with such tokens is read as the trees of the chains. -/
theorem parseSource_of_terminated {text : String} {pieces : List Piece} {tokens : List Token}
    {cs : List Chain} (hlexed : Lexed .standard [] text.toList pieces tokens)
    (h : Terminated cs tokens) :
    parseSource .strict text = .ok (cs.map Chain.tree).toArray := by
  obtain ⟨htrees, hfault⟩ := h.findings_eq 0
  exact parseSource_strict_eq_ok_iff.mpr ⟨pieces, tokens, hlexed, hfault, htrees.symm⟩

/-- With `before` and a gap in front of them, the lines give the tokens of the chains, each on its
own line. -/
structure ReadsLines (before gap : List Char) (lines : List String) (cs : List Chain) : Prop where
  lexed : ∃ pieces tokens, Lexed .standard before (textOf gap lines) pieces tokens ∧
    Terminated cs tokens
  line : ∀ (n : Nat) (c : Chain), cs[n]? = some c → ∀ t ∈ c.tokens,
    t.pos.line = (Position.behind (before ++ gap)).line + n

namespace ReadsLines

theorem nil (before gap : List Char) : ReadsLines before gap [] [] := by
  have hblank : ∀ c ∈ [], isBlank c = true := List.forall_mem_nil _
  exact ⟨⟨[], _, .done hblank, .done rfl⟩, by simp⟩

/-- A line in front gives one more chain; the other lines begin behind its semicolon and a line
feed. -/
theorem cons {before gap : List Char} {text : String} {c : Chain} {lines : List String}
    {cs : List Chain} (hc : ReadsAs before gap text.toList c) (htext : '\n' ∉ text.toList)
    (h : ReadsLines (before ++ gap ++ text.toList ++ [';']) ['\n'] lines cs) :
    ReadsLines before gap ((text ++ ";") :: lines) (c :: cs) := by
  obtain ⟨pieces, tokens, hlexed, hterminated⟩ := h.lexed
  constructor
  · obtain ⟨pieces', s, hs, hline⟩ := hc.statement hlexed
    refine ⟨pieces', _, ?_, .statement c hs hterminated⟩
    simpa [textOf] using hline
  · intro n c' hn t ht
    cases n with
    | zero =>
      obtain rfl : c = c' := by simpa using hn
      rw [hc.line t ht]
      simp
    | succ n =>
      rw [h.line n c' (by simpa using hn) t ht, behind_line_feed, behind_line_append _ (by decide),
        behind_line_append _ htext]
      omega

end ReadsLines

/-- The text of a list of sums, wherever it stands, gives the tokens of a chain a line.  The
chains have the shapes of the sums and are written as the same lines. -/
theorem exists_readsLines {trees : List Tree} (h : ∀ t ∈ trees, t.IsSum) :
    ∃ lines : List String, List.Forall₂ (Format.inOrder.Writes) trees lines ∧
      ∀ before gap : List Char, (∀ c ∈ gap, isBlank c = true) →
        ∃ cs, ReadsLines before gap lines cs ∧
          (cs.map Chain.tree).map Tree.shape = trees.map Tree.shape ∧
          List.Forall₂ (Format.inOrder.Writes) (cs.map Chain.tree) lines := by
  induction trees with
  | nil => exact ⟨[], .nil, fun before gap hgap => ⟨[], .nil before gap, rfl, .nil⟩⟩
  | cons t trees ih =>
    rw [List.forall_mem_cons] at h
    obtain ⟨lines, hwrites, hreads⟩ := ih h.2
    obtain ⟨text, hrender, htext, hsum⟩ := h.1.reads
    refine ⟨(text ++ ";") :: lines, .cons (Format.renderStatement_eq_ok hrender) hwrites, ?_⟩
    intro before gap hgap
    obtain ⟨c, hc, hshape, hwritten⟩ := hsum before gap hgap
    -- The other lines begin behind the semicolon, with the line feed as their gap.
    obtain ⟨cs, hlines, hshapes, hwrites'⟩ :=
      hreads (before ++ gap ++ text.toList ++ [';']) ['\n']
        blanks_feed
    refine ⟨c :: cs, .cons hc htext hlines, ?_,
      .cons (Format.renderStatement_eq_ok hwritten) hwrites'⟩
    rw [List.map_cons, List.map_cons, List.map_cons, hshape, hshapes]

/-- The text of a list of sums is read as sums of the same shapes, each on its own line, and
these are written as the same text. -/
theorem exists_parseSource {trees : List Tree} (h : ∀ t ∈ trees, t.IsSum) :
    ∃ (text : String) (again : Array Tree), renderTrees .inOrder trees = .ok text ∧
      parseSource .strict text = .ok again ∧
      again.toList.map Tree.shape = trees.map Tree.shape ∧
      (∀ (n : Nat) (t : Tree), again.toList[n]? = some t →
        ∀ node ∈ t.inOrder, node.pos.line = n + 1) ∧
      renderTrees .inOrder again.toList = .ok text := by
  obtain ⟨lines, hwrites, hreads⟩ := exists_readsLines h
  obtain ⟨cs, hlines, hshapes, hwrites'⟩ := hreads [] [] (List.forall_mem_nil _)
  obtain ⟨pieces, tokens, hlexed, hterminated⟩ := hlines.lexed
  rw [← toList_intercalate_newline] at hlexed
  refine ⟨"\n".intercalate lines, (cs.map Chain.tree).toArray, renderTrees_eq_ok hwrites,
    parseSource_of_terminated hlexed hterminated, hshapes, ?_, renderTrees_eq_ok hwrites'⟩
  intro n t ht node hnode
  rw [List.getElem?_map] at ht
  obtain ⟨c, hc, rfl⟩ := Option.map_eq_some_iff.mp ht
  obtain ⟨u, hu, hlabels⟩ := exists_labels_of_mem c.labels_inOrder hnode
  have hstart : (Position.behind ([] ++ [])).line = 1 := rfl
  rw [hlabels.pos, hlines.line n c hc u hu, hstart, Int.add_comm]

/-- A text that is read, strictly or not, and written in order is read strictly as trees of the
same shapes, and tree number `n` is on line `n + 1`.  From then on neither the text nor the trees
change, places included. -/
theorem parseSource_renderTrees {mode : Mode} {source : String} {trees : Array Tree}
    (h : parseSource mode source = .ok trees) :
    ∃ (text : String) (again : Array Tree), renderTrees .inOrder trees.toList = .ok text ∧
      parseSource .strict text = .ok again ∧
      again.toList.map Tree.shape = trees.toList.map Tree.shape ∧
      (∀ (n : Nat) (t : Tree), again.toList[n]? = some t →
        ∀ node ∈ t.inOrder, node.pos.line = n + 1) ∧
      renderTrees .inOrder again.toList = .ok text ∧
      (renderTrees .inOrder again.toList).bind (parseSource .strict) = .ok again := by
  obtain ⟨text, again, hrender, hparse, hshapes, hlines, hagain⟩ :=
    exists_parseSource (isSum_of_parseSource h)
  refine ⟨text, again, hrender, hparse, hshapes, hlines, hagain, ?_⟩
  rw [hagain]
  exact hparse

/-- The sum in `1+ ; x+2` that is not finished is skipped; the other one is read and written. -/
theorem parseSource_renderTrees_unfinished_sum :
    ∃ trees again : Array Tree, parseSource .lenient "1+ ; x+2" = .ok trees ∧
      renderTrees .inOrder trees.toList = .ok "x + 2;" ∧
      parseSource .strict "x + 2;" = .ok again ∧
      again.toList.map Tree.shape = trees.toList.map Tree.shape := by
  have htext : ((parseSource .lenient "1+ ; x+2").bind fun trees =>
      renderTrees .inOrder trees.toList) = .ok "x + 2;" := by decide +kernel
  cases htrees : parseSource .lenient "1+ ; x+2" with
  | error e => simp [htrees, Except.bind] at htext
  | ok trees =>
    rw [htrees] at htext
    obtain ⟨text, again, hrender, hparse, hshapes, -⟩ := parseSource_renderTrees htrees
    obtain rfl : text = "x + 2;" := Except.ok.inj (hrender.symm.trans htext)
    exact ⟨trees, again, rfl, hrender, hparse, hshapes⟩

end SumLang
