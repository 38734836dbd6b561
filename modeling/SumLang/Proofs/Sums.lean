import SumLang.Proofs.Blocks
import SumLang.Proofs.Separation
import SumLang.Proofs.Lexing
import SumLang.Program

/-!
# The trees of texts

The leaves of the trees of a text are numbers of the language and names that are no keywords.
No right operand is an addition.

## Main statements

* `exists_blocks_of_parseSource`: the trees of a text are those of blocks of its tokens.
* `isSum_of_parseSource`: so are all trees of a text, read strictly or not.
-/
namespace SumLang

/-- A text is a name if it has letters only, and is no keyword. -/
structure IsName (text : String) : Prop where
  nonempty : text.toList ≠ []
  letters : ∀ c ∈ text.toList, isLetter c = true
  free : Table.standard.find? text = none

namespace Tree

/-- The leaves of the language. -/
inductive IsLeaf : Tree → Prop where
  | integer {n : Nat} (pos : Position) (small : (n : Int) ≤ greatestNumber) :
      IsLeaf (.integer (.int n) pos)
  | identifier {name : String} (pos : Position) (free : IsName name) :
      IsLeaf (.identifier (.text name) pos)

/-- Sums of leaves that lean to the left. -/
inductive IsSum : Tree → Prop where
  | leaf {t : Tree} (h : t.IsLeaf) : IsSum t
  | add {left right : Tree} (pos : Position) (hleft : left.IsSum) (hright : right.IsLeaf) :
      IsSum (.add left right pos)

end Tree

/-! ## Leaves -/

/-- The types of operands are not in the table of the language. -/
theorem Table.isOperand_eq_false {text : String} {type : TokenType}
    (h : standard.find? text = some type) (value : Scalar) (pos : Position) :
    (Token.mk type value pos).isOperand = false := by
  have hall : ∀ type ∈ standard.entries.map (·.2),
      type ≠ TokenType.int ∧ type ≠ TokenType.ident := by decide
  obtain ⟨hint, hident⟩ := hall type (type_mem_of_find? h)
  exact Token.isOperand_of_other hint hident

/-- Of a text, only words that are no keywords and numbers are operands.  Their leaves have the
values of their lexemes. -/
theorem IsLexeme.name_or_number {lexeme after : List Char} {type : TokenType} {value : Scalar}
    (h : IsLexeme .standard lexeme after type value) {pos : Position}
    (hoperand : (Token.mk type value pos).isOperand = true) :
    (IsName (String.ofList lexeme) ∧ Stops isLetter after ∧ type = TokenType.ident ∧
        value = .text (String.ofList lexeme) ∧
        (Token.mk type value pos).leaf = .identifier value pos) ∨
      (lexeme ≠ [] ∧ (∀ c ∈ lexeme, isDigit c = true) ∧ Stops isDigit after ∧
        (Nat.ofDigitChars 10 lexeme 0 : Int) ≤ greatestNumber ∧ type = TokenType.int ∧
        value = .int (Nat.ofDigitChars 10 lexeme 0) ∧
        (Token.mk type value pos).leaf = .integer value pos) := by
  cases h with
  | word nonempty members longest =>
    cases hfind : Table.standard.find? (String.ofList lexeme) with
    | some found =>
      simp [hfind, Table.isOperand_eq_false hfind] at hoperand
    | none =>
      have hname : IsName (String.ofList lexeme) := by
        refine ⟨?_, ?_, hfind⟩
        · rwa [String.toList_ofList]
        · rwa [String.toList_ofList]
      exact .inl ⟨hname, longest, rfl, rfl, rfl⟩
  | symbol blank letter entry =>
    simp [Table.isOperand_eq_false entry] at hoperand
  | number members entry longest short small =>
    exact .inr ⟨List.cons_ne_nil _ _, members, longest, small, rfl, rfl, rfl⟩
  | illegal blank letter entry digit =>
    have hint : TokenType.illegal ≠ TokenType.int := by decide
    have hident : TokenType.illegal ≠ TokenType.ident := by decide
    rw [Token.isOperand_of_other hint hident] at hoperand
    exact absurd hoperand (by decide)

/-- Operands of texts have leaves of the language. -/
theorem IsLexeme.isLeaf {lexeme after : List Char} {type : TokenType} {value : Scalar}
    (h : IsLexeme .standard lexeme after type value) {pos : Position}
    (hoperand : (Token.mk type value pos).isOperand = true) :
    (Token.mk type value pos).leaf.IsLeaf := by
  rcases h.name_or_number hoperand with
    ⟨hname, -, -, rfl, hleaf⟩ | ⟨-, -, -, hsmall, -, rfl, hleaf⟩
  · rw [hleaf]
    exact .identifier pos hname
  · rw [hleaf]
    exact .integer pos hsmall

theorem Lexed.isLeaf {before text : List Char} {pieces : List Piece} {tokens : List Token}
    (h : Lexed .standard before text pieces tokens) {t : Token} (ht : t ∈ tokens)
    (hoperand : t.isOperand = true) : t.leaf.IsLeaf := by
  induction h with
  | done blanks =>
    obtain rfl := List.mem_singleton.mp ht
    have heof := Token.Part.excludes .operand .eof (by decide) hoperand
    cases heof
  | lexeme blanks token rest ih =>
    rcases List.mem_cons.mp ht with rfl | ht
    · exact token.isLeaf hoperand
    · exact ih ht

/-! ## Sums -/

/-- Additions of leaves enlarge a sum to a sum. -/
theorem Addition.isSum_enlarge {more : List Addition}
    (hmore : ∀ a ∈ more, a.operand.leaf.IsLeaf) {left : Tree} (hleft : left.IsSum) :
    (enlarge left more).IsSum := by
  induction more generalizing left with
  | nil => exact hleft
  | cons a more ih =>
    rw [List.forall_mem_cons] at hmore
    exact ih hmore.2 (.add a.plus.pos hleft hmore.1)

theorem Chain.isSum_tree {c : Chain}
    (h : ∀ t ∈ c.tokens, t.isOperand = true → t.leaf.IsLeaf) : c.tree.IsSum := by
  apply Addition.isSum_enlarge ?_ (.leaf ?_)
  · intro a ha
    refine h a.operand.token ?_ a.operand.isOperand
    exact List.mem_cons_of_mem _ (List.mem_flatMap.mpr ⟨a, ha, by simp [Addition.tokens]⟩)
  · exact h c.first.token List.mem_cons_self c.first.isOperand

/-! ## Texts -/

/-- A text has trees if it has tokens and a run over them answers. -/
theorem parseSource_eq_ok_iff {mode : Mode} {source : String} {trees : Array Tree} :
    parseSource mode source = .ok trees ↔
      ∃ tokens, tokenize .standard source = .ok tokens ∧
        (Parser.freshRun mode tokens.toList).1 = .ok trees := by
  rw [parseSource]
  cases htokens : tokenize .standard source with
  | error e => simp
  | ok tokens =>
    have hrun : Parser.freshRun mode tokens.toList =
        (Parser.ofTokens tokens).parseProgram mode := by
      rw [Parser.freshRun, Array.toArray_toList]
    simp only [Except.ok.injEq, exists_eq_left', hrun]
    cases ((Parser.ofTokens tokens).parseProgram mode).1 <;> simp [Except.mapError]

/-- In both modes, the answer of a run is all that is found. -/
theorem Parser.trees_of_freshRun {mode : Mode} {tokens : List Token} {trees : Array Tree}
    (h : (freshRun mode tokens).1 = .ok trees) :
    trees.toList = Finding.trees (Grammar.findings 0 tokens) := by
  rw [freshRun_eq] at h
  rw [Finding.collect_eq_ok h, Array.empty_append]

/-- The trees of a text are those of blocks of its tokens, no token being in two of them. -/
theorem exists_blocks_of_parseSource {mode : Mode} {source : String} {trees : Array Tree}
    (h : parseSource mode source = .ok trees) :
    ∃ (pieces : List Piece) (tokens : List Token) (blocks : List Block),
      Lexed .standard [] source.toList pieces tokens ∧
      trees.toList = blocks.map (·.chain.tree) ∧
      (blocks.flatMap (·.chain.tokens)).Sublist tokens := by
  obtain ⟨tokens, htokens, hrun⟩ := parseSource_eq_ok_iff.mp h
  obtain ⟨pieces, hlexed⟩ := lexed_of_tokenize Table.neverEnds_standard htokens
  refine ⟨pieces, tokens.toList, Finding.blocks (Grammar.findings 0 tokens.toList), hlexed, ?_,
    Grammar.tokens_blocks_sublist 0 tokens.toList⟩
  rw [Finding.map_tree_blocks, Parser.trees_of_freshRun hrun]

/-- All trees of a text are sums of its leaves that lean to the left. -/
theorem isSum_of_parseSource {mode : Mode} {source : String} {trees : Array Tree}
    (h : parseSource mode source = .ok trees) : ∀ t ∈ trees.toList, t.IsSum := by
  intro t ht
  obtain ⟨pieces, tokens, blocks, hlexed, htrees, hsublist⟩ := exists_blocks_of_parseSource h
  rw [htrees] at ht
  obtain ⟨b, hb, rfl⟩ := List.mem_map.mp ht
  apply Chain.isSum_tree
  intro u hu hoperand
  exact hlexed.isLeaf (hsublist.subset (List.mem_flatMap.mpr ⟨b, hb, hu⟩)) hoperand

end SumLang
