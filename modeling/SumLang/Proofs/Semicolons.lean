import SumLang.Proofs.Overwriting
import SumLang.Proofs.Origins
import SumLang.Proofs.Parentheses
import SumLang.Proofs.Unambiguity
import Mathlib.Tactic.TFAE

/-!
# Semicolons do not matter in programs

A program that is read strictly has no sum that begins with a plus, so its sums end where they do
whether a semicolon follows or not.  Without some of its semicolons, and with spaces in their
places, it is read as the same trees at the same places.

What does matter are its other tokens, and of them only types and values.  The trees have them as
their nodes, and both written forms show the trees up to places.  So any of the four tells two
programs apart, or none does.

## Main statements

* `Thinned.findings_eq`: semicolons can be left out where nothing fails.
* `Lexed.joined`: writing spaces over semicolons leaves them out.
* `Lexed.map_key_filter`: the other tokens, from the shapes of the trees.
* `parseSource_layout`: both for texts.
-/
namespace SumLang

/-! ## Tokens without some semicolons -/

/-- The second list is the first without some of its semicolons. -/
inductive Thinned : List Token → List Token → Prop where
  | nil : Thinned [] []
  | keep (t : Token) {ts ts' : List Token} (h : Thinned ts ts') : Thinned (t :: ts) (t :: ts')
  | drop {t : Token} {ts ts' : List Token} (ht : t.isSemicolon = true) (h : Thinned ts ts') :
      Thinned (t :: ts) ts'

namespace Thinned

open Grammar Finding

variable {ts ts' : List Token}

theorem filter (ts : List Token) : Thinned ts (ts.filter (!·.isSemicolon)) := by
  induction ts with
  | nil => exact .nil
  | cons t ts ih =>
    by_cases ht : t.isSemicolon = true
    · rw [List.filter_cons_of_neg (by simp [ht])]
      exact .drop ht ih
    · rw [List.filter_cons_of_pos (by simpa using ht)]
      exact .keep t ih

/-- Tokens that are no semicolons are kept. -/
theorem exists_append {front rest : List Token} (hfront : ∀ t ∈ front, t.isSemicolon = false)
    (h : Thinned (front ++ rest) ts') : ∃ rest', ts' = front ++ rest' ∧ Thinned rest rest' := by
  induction front generalizing ts' with
  | nil => exact ⟨ts', rfl, h⟩
  | cons t front ih =>
    rw [List.forall_mem_cons] at hfront
    rw [List.cons_append] at h
    cases h with
    | keep _ h =>
      obtain ⟨rest', rfl, hrest⟩ := ih hfront.2 h
      exact ⟨rest', rfl, hrest⟩
    | drop ht h => exact absurd ht (by simp [hfront.1])

/-- Where nothing fails, no plus comes to the front. -/
theorem head?_isPlus (h : Thinned ts ts') {i : Nat} (hnone : firstFault (findings i ts) = none) :
    ts'.head?.any Token.isPlus = false := by
  induction h generalizing i with
  | nil => rfl
  | @keep t ts ts' h ih =>
    by_contra hplus
    have ht : t.isPlus = true := by simpa using hplus
    have hoperand := Token.Part.excludes .plus .operand (by decide) ht
    have hsemicolon := Token.Part.excludes .plus .semicolon (by decide) ht
    have heof := Token.Part.excludes .plus .eof (by decide) ht
    rw [findings_of_fault i hsemicolon heof (Chain.read_cons_of_fault hoperand ts)] at hnone
    simp [firstFault] at hnone
  | drop ht h ih =>
    rw [findings_of_semicolon i ht] at hnone
    exact ih hnone

/-- Where nothing fails, semicolons can be left out: nothing fails, and the same trees are found. -/
theorem findings_eq {i j : Nat} (h : Thinned ts ts')
    (hnone : firstFault (findings i ts) = none) :
    firstFault (findings j ts') = none ∧ trees (findings j ts') = trees (findings i ts) := by
  induction i, ts using findings_induction generalizing j ts' with
  | nil i =>
    cases h
    rw [findings_nil, findings_nil]
    exact ⟨rfl, rfl⟩
  | semicolon i t ts ht ih =>
    rw [findings_of_semicolon i ht] at hnone ⊢
    cases h with
    | keep _ h =>
      rw [findings_of_semicolon j ht]
      exact ih h hnone
    | drop _ h => exact ih h hnone
  | eof i t ts ht =>
    cases h with
    | keep _ h =>
      rw [findings_of_eof j ht, findings_of_eof i ht]
      exact ⟨rfl, rfl⟩
    | drop hsemicolon h =>
      have hother : t.isSemicolon = false := Token.Part.excludes .eof .semicolon (by decide) ht
      exact absurd hsemicolon (by simp [hother])
  | sum i c rest hrest ih =>
    obtain ⟨rest', rfl, hthinned⟩ := h.exists_append fun t ht => c.isSemicolon_of_mem ht
    rw [findings_tokens_append i c hrest] at hnone ⊢
    rw [findings_tokens_append j c (hthinned.head?_isPlus hnone)]
    obtain ⟨hnone', htrees⟩ := ih (j := j + c.tokens.length) hthinned hnone
    exact ⟨hnone', by rw [trees_sum, trees_sum, htrees]⟩
  | fault i t ts k hsemicolon heof hread ih =>
    rw [findings_of_fault i hsemicolon heof hread] at hnone
    simp [firstFault] at hnone

end Thinned

/-! ## Texts without some semicolons -/

/-- The second text is the first with spaces in place of some of its semicolons. -/
def Joined : List Char → List Char → Prop :=
  List.Forall₂ fun c c' => c' = c ∨ c = ';' ∧ c' = ' '

instance (text text' : List Char) : Decidable (Joined text text') :=
  inferInstanceAs (Decidable (List.Forall₂ _ text text'))

namespace Joined

variable {text text' : List Char}

theorem overwritten (h : Joined text text') : Overwritten text text' :=
  h.imp fun _ _ hc => hc.imp_right fun hc => ⟨by rw [hc.1]; decide, hc.2⟩

theorem eq_of_notMem (h : Joined text text') (hnot : ';' ∉ text) : text' = text := by
  induction h with
  | nil => rfl
  | cons hc h ih =>
    rw [List.mem_cons, not_or] at hnot
    rcases hc with rfl | ⟨rfl, -⟩
    · rw [ih hnot.2]
    · exact absurd rfl hnot.1

end Joined

/-- A semicolon is a lexeme by itself. -/
theorem IsLexeme.eq_semicolon {lexeme after : List Char} {type : TokenType} {value : Scalar}
    (h : IsLexeme .standard lexeme after type value) (hmem : ';' ∈ lexeme) :
    lexeme = [';'] ∧ type = TokenType.semicolon := by
  have hfind : Table.standard.find? (String.ofList [';']) = some TokenType.semicolon := by decide
  cases h with
  | word nonempty members longest => exact absurd (members ';' hmem) (by decide)
  | @symbol c _ _ blank letter entry =>
    obtain rfl : ';' = c := List.mem_singleton.mp hmem
    exact ⟨rfl, Option.some.inj (entry.symm.trans hfind)⟩
  | number members entry longest short small => exact absurd (members ';' hmem) (by decide)
  | @illegal c _ blank letter entry digit =>
    obtain rfl : ';' = c := List.mem_singleton.mp hmem
    rw [hfind] at entry
    simp at entry

/-- A lexeme is kept, or it is a semicolon and becomes a space. -/
theorem IsLexeme.joined {lexeme lexeme' after : List Char} {type : TokenType} {value : Scalar}
    (h : IsLexeme .standard lexeme after type value) (hjoined : Joined lexeme lexeme') :
    lexeme' = lexeme ∨ type = TokenType.semicolon ∧ lexeme' = [' '] := by
  by_cases hmem : ';' ∈ lexeme
  · obtain ⟨rfl, htype⟩ := h.eq_semicolon hmem
    cases hjoined with
    | cons hc hnil =>
      cases hnil
      rcases hc with rfl | ⟨-, rfl⟩
      · exact .inl rfl
      · exact .inr ⟨htype, rfl⟩
  · exact .inl (hjoined.eq_of_notMem hmem)

/-- With spaces in place of semicolons a text has the same tokens at the same places, but for these
semicolons. -/
theorem Lexed.joined {before before' text text' : List Char} {pieces : List Piece}
    {tokens : List Token} (h : Lexed .standard before text pieces tokens)
    (hjoined : Joined text text') (hbehind : Position.behind before' = .behind before) :
    ∃ pieces' tokens', Lexed .standard before' text' pieces' tokens' ∧ Thinned tokens tokens' := by
  induction h generalizing before' text' with
  | @done before gap blanks =>
    have hgap : ';' ∉ gap := fun hmem => absurd (blanks ';' hmem) (by decide)
    obtain rfl := hjoined.eq_of_notMem hgap
    have heq := (Overwritten.refl text').behind_append_eq hbehind
    exact ⟨_, _, .done blanks, heq ▸ .keep _ .nil⟩
  | @lexeme before gap lexeme after type value pieces tokens blanks token rest ih =>
    obtain ⟨front, after', rfl, hfront, hafter⟩ := exists_append_of_forall₂ hjoined
    obtain ⟨gap', lexeme', rfl, hgap, hlexeme⟩ := exists_append_of_forall₂ hfront
    have hnot : ';' ∉ gap := fun hmem => absurd (blanks ';' hmem) (by decide)
    obtain rfl : gap' = gap := Joined.eq_of_notMem hgap hnot
    have hplace := (Overwritten.refl gap').behind_append_eq hbehind
    have hover : Overwritten lexeme lexeme' := Joined.overwritten hlexeme
    obtain ⟨pieces', tokens', hrest, hthinned⟩ := ih hafter (hover.behind_append_eq hplace)
    rcases token.joined hlexeme with rfl | ⟨rfl, rfl⟩
    · have htoken := token.overwritten (Joined.overwritten hafter)
      exact ⟨_, _, .lexeme blanks htoken hrest, hplace ▸ .keep _ hthinned⟩
    · have hspace : ∀ c ∈ gap' ++ [' '], isBlank c = true :=
        List.forall_mem_append.mpr ⟨blanks, blanks_space⟩
      rw [List.append_assoc before'] at hrest
      obtain ⟨pieces'', hlexed⟩ := hrest.blanks hspace
      exact ⟨pieces'', tokens', hlexed, .drop rfl hthinned⟩

/-! ## Tokens without places -/

namespace Token

/-- The token with its place forgotten. -/
def unplaced (t : Token) : Token := { t with pos := .start }

@[simp] theorem isPlus_unplaced (t : Token) : t.unplaced.isPlus = t.isPlus := rfl

@[simp] theorem isSemicolon_unplaced (t : Token) : t.unplaced.isSemicolon = t.isSemicolon := rfl

@[simp] theorem isEof_unplaced (t : Token) : t.unplaced.isEof = t.isEof := rfl

/-- The leaf of a token without a place is the shape of its leaf. -/
theorem leaf_unplaced (t : Token) : t.unplaced.leaf = t.leaf.shape := by
  by_cases hident : t.type = TokenType.ident
  · rw [leaf, leaf, unplaced, if_pos hident, if_pos hident, Tree.shape_identifier]
  · rw [leaf, leaf, unplaced, if_neg hident, if_neg hident, Tree.shape_integer]

end Token

/-- The operand with its place forgotten. -/
def Operand.unplaced (a : Operand) : Operand := ⟨a.token.unplaced, a.isOperand⟩

theorem Operand.leaf_unplaced (a : Operand) : a.unplaced.leaf = a.leaf.shape :=
  a.token.leaf_unplaced

/-- The addition with its places forgotten. -/
def Addition.unplaced (a : Addition) : Addition := ⟨a.plus.unplaced, a.operand.unplaced, a.isPlus⟩

/-- The chain with its places forgotten. -/
def Chain.unplaced (c : Chain) : Chain := ⟨c.first.unplaced, c.more.map Addition.unplaced⟩

theorem Addition.allTokens_unplaced (more : List Addition) :
    allTokens (more.map unplaced) = (allTokens more).map Token.unplaced := by
  induction more with
  | nil => rfl
  | cons a more ih =>
    simp only [List.map_cons, allTokens_cons, ih]
    rfl

theorem Addition.enlarge_unplaced (more : List Addition) (left : Tree) :
    enlarge left.shape (more.map unplaced) = (enlarge left more).shape := by
  induction more generalizing left with
  | nil => rfl
  | cons a more ih =>
    rw [List.map_cons, enlarge_cons, enlarge_cons, ← ih, Tree.shape_add, ← Operand.leaf_unplaced]
    rfl

theorem Chain.tokens_unplaced (c : Chain) : c.unplaced.tokens = c.tokens.map Token.unplaced := by
  rw [tokens, tokens, List.map_cons, ← Addition.allTokens_unplaced]
  rfl

theorem Chain.tree_unplaced (c : Chain) : c.unplaced.tree = c.tree.shape := by
  rw [tree, tree, ← Addition.enlarge_unplaced, ← Operand.leaf_unplaced]
  rfl

namespace Grammar

open Finding

/-- Where nothing fails, tokens without places have the trees' shapes. -/
theorem trees_findings_unplaced {i : Nat} {ts : List Token}
    (hnone : firstFault (findings i ts) = none) :
    trees (findings i (ts.map Token.unplaced)) = (trees (findings i ts)).map Tree.shape := by
  induction i, ts using findings_induction with
  | nil i =>
    rw [List.map_nil, findings_nil]
    rfl
  | semicolon i t ts ht ih =>
    rw [findings_of_semicolon i ht] at hnone ⊢
    rw [List.map_cons, findings_of_semicolon i (t.isSemicolon_unplaced.trans ht), ih hnone]
  | eof i t ts ht =>
    rw [List.map_cons, findings_of_eof i (t.isEof_unplaced.trans ht), findings_of_eof i ht]
    rfl
  | sum i c rest hrest ih =>
    have hhead : (rest.map Token.unplaced).head?.any Token.isPlus = false := by
      cases rest with
      | nil => rfl
      | cons t rest => simpa using hrest
    rw [findings_tokens_append i c hrest] at hnone ⊢
    have hlength : c.unplaced.tokens.length = c.tokens.length := by
      rw [c.tokens_unplaced, List.length_map]
    rw [List.map_append, ← c.tokens_unplaced, findings_tokens_append i c.unplaced hhead, trees_sum,
      trees_sum, List.map_cons, c.tree_unplaced, hlength, ih hnone]
  | fault i t ts k hsemicolon heof hread ih =>
    rw [findings_of_fault i hsemicolon heof hread] at hnone
    simp [firstFault] at hnone

end Grammar

/-- The type and the value of a token. -/
def Token.key (t : Token) : TokenType × Scalar := (t.type, t.value)

/-- Where nothing fails, the types and values of the tokens that are no semicolons give the shapes
of the trees. -/
theorem map_shape_of_map_key {ts ts' : List Token} {i j : Nat}
    (hnone : Finding.firstFault (Grammar.findings i ts) = none)
    (hnone' : Finding.firstFault (Grammar.findings j ts') = none)
    (h : (ts.filter (!·.isSemicolon)).map Token.key =
      (ts'.filter (!·.isSemicolon)).map Token.key) :
    (Finding.trees (Grammar.findings i ts)).map Tree.shape =
      (Finding.trees (Grammar.findings j ts')).map Tree.shape := by
  have hshapes {ts : List Token} {i : Nat}
      (hnone : Finding.firstFault (Grammar.findings i ts) = none) :
      (Finding.trees (Grammar.findings i ts)).map Tree.shape =
        Finding.trees (Grammar.findings 0 (((ts.filter (!·.isSemicolon)).map Token.key).map
          fun key => ⟨key.1, key.2, .start⟩)) := by
    obtain ⟨hthin, htrees⟩ := (Thinned.filter ts).findings_eq (j := 0) hnone
    rw [← htrees, ← Grammar.trees_findings_unplaced hthin, List.map_map]
    rfl
  rw [hshapes hnone, hshapes hnone', h]

/-! ## Tokens of nodes -/

/-- The type and the value of the token that a node of the language is written as. -/
def Tree.key (t : Tree) : TokenType × Scalar :=
  (if t.kind = integerKind then TokenType.int
    else if t.kind = identifierKind then TokenType.ident else TokenType.plus, t.value)

/-- What is no number has its lexeme as its value. -/
theorem IsLexeme.value_eq {table : Table} {lexeme after : List Char} {type : TokenType}
    {value : Scalar} (h : IsLexeme table lexeme after type value) (htype : type ≠ TokenType.int) :
    value = .text (String.ofList lexeme) := by
  cases h with
  | word | symbol | illegal => rfl
  | number => exact absurd rfl htype

/-- A token that has been cut from a text is what its node is written as. -/
theorem Token.CutFrom.key_eq {text before : List Char} {t : Token} {node : Tree}
    (h : t.CutFrom text before) (hlabels : t.Labels node) : t.key = node.key := by
  obtain ⟨type, value, pos⟩ := t
  obtain ⟨lexeme, after, -, hlexeme, -⟩ := h.lexeme
  rcases hlabels.node with ⟨hoperand, rfl⟩ | ⟨hplus, hkind, hvalue⟩
  · rcases hlexeme.name_or_number hoperand with
      ⟨-, -, rfl, -, hleaf⟩ | ⟨-, -, -, -, rfl, -, hleaf⟩
    · rw [hleaf]
      rfl
    · rw [hleaf]
      rfl
  · obtain rfl : type = TokenType.plus := by simpa [Token.isPlus] using hplus
    obtain rfl := hlexeme.eq_sign_of_plus
    obtain rfl := hlexeme.value_eq (show TokenType.plus ≠ TokenType.int by decide)
    rw [key, Tree.key, hkind, hvalue]
    rfl

theorem Tree.IsLeaf.map_key_shape {t : Tree} (h : t.IsLeaf) :
    t.shape.inOrder.map Tree.key = t.inOrder.map Tree.key := by
  cases h with
  | integer | identifier => rfl

/-- Forgetting places keeps what the nodes of a sum are written as. -/
theorem Tree.IsSum.map_key_shape {t : Tree} (h : t.IsSum) :
    t.shape.inOrder.map Tree.key = t.inOrder.map Tree.key := by
  induction h with
  | leaf h => exact h.map_key_shape
  | add pos hleft hright ih =>
    rw [shape_add, inOrder_add, inOrder_add, List.map_append, List.map_append, List.map_cons,
      List.map_cons, ih, hright.map_key_shape]
    rfl

/-- Tokens that have been cut from a text are what their nodes are written as. -/
theorem map_key_of_labels {text : List Char} {tokens : List Token} {nodes : List Tree}
    (h : List.Forall₂ Token.Labels tokens nodes)
    (hcut : ∀ t ∈ tokens, ∃ before, t.CutFrom text before) :
    tokens.map Token.key = nodes.map Tree.key := by
  induction h with
  | nil => rfl
  | @cons t node tokens nodes hfirst hrest ih =>
    rw [List.forall_mem_cons] at hcut
    obtain ⟨⟨before, hfirstcut⟩, hcut⟩ := hcut
    rw [List.map_cons, List.map_cons, hfirstcut.key_eq hfirst, ih hcut]

theorem map_key_shapes {trees : List Tree} (h : ∀ t ∈ trees, t.IsSum) :
    ((trees.map Tree.shape).flatMap Tree.inOrder).map Tree.key =
      (trees.flatMap Tree.inOrder).map Tree.key := by
  induction trees with
  | nil => rfl
  | cons t trees ih =>
    rw [List.forall_mem_cons] at h
    rw [List.map_cons, List.flatMap_cons, List.flatMap_cons, List.map_append, List.map_append,
      h.1.map_key_shape, ih h.2]

/-- Where nothing fails, the tokens of a text that are no semicolons are what the nodes of its trees
are written as, and the end. -/
theorem Lexed.map_key_filter {text : List Char} {pieces : List Piece} {tokens : List Token}
    (h : Lexed .standard [] text pieces tokens)
    (hnone : Finding.firstFault (Grammar.findings 0 tokens) = none) :
    (tokens.filter (!·.isSemicolon)).map Token.key =
      ((Finding.trees (Grammar.findings 0 tokens)).flatMap Tree.inOrder).map Tree.key ++
        [(TokenType.eof, .text TokenType.eof)] := by
  obtain ⟨front, rfl, hfront⟩ := h.exists_eof Table.neverEnds_standard
  have hend : upToEnd (front ++ [.eof (.behind ([] ++ text))]) = front := by
    rw [upToEnd, List.takeWhile_append_of_pos fun t ht => by simp [hfront t ht]]
    simp [Token.eof, Token.isEof]
  have hdivided := Grammar.divided_of_findings 0 isEof_of_mem_upToEnd
    (Grammar.firstFault_eq_none hnone).1
  have hlabels := hdivided.labels_inOrder
  rw [Finding.map_tree_blocks, ← Grammar.trees_findings_upToEnd, hend] at hlabels
  have hcut : ∀ t ∈ front.filter (!·.isSemicolon), ∃ before, t.CutFrom ([] ++ text) before := by
    intro t ht
    have hmem := List.mem_of_mem_filter ht
    exact h.cutFrom (.nil _ _) (.nil _ _) t (List.mem_append_left _ hmem) (hfront t hmem)
  rw [List.filter_append, List.map_append, map_key_of_labels hlabels hcut]
  rfl

/-! ## Programs -/

/-- A program that is read strictly is read as the same trees, at the same places, with spaces in
place of any of its semicolons.  Two such programs have the same tokens apart from semicolons and
places exactly if their trees have the same shapes, and exactly if they are written as the same
text, in order or as nested lists. -/
theorem parseSource_layout {source : String} {trees : Array Tree}
    (h : parseSource .strict source = .ok trees) :
    (∀ source' : String, Joined source.toList source'.toList →
      parseSource .strict source' = .ok trees) ∧
    ∀ (source' : String) (trees' : Array Tree), parseSource .strict source' = .ok trees' →
      ∃ tokens tokens' : Array Token, tokenize .standard source = .ok tokens ∧
        tokenize .standard source' = .ok tokens' ∧
        List.TFAE [
          (tokens.toList.filter (!·.isSemicolon)).map Token.key =
            (tokens'.toList.filter (!·.isSemicolon)).map Token.key,
          trees.toList.map Tree.shape = trees'.toList.map Tree.shape,
          ∃ text, renderTrees .inOrder trees.toList = .ok text ∧
            renderTrees .inOrder trees'.toList = .ok text,
          ∃ text, renderTrees .sexpr trees.toList = .ok text ∧
            renderTrees .sexpr trees'.toList = .ok text] := by
  obtain ⟨pieces, tokens, hlexed, hnone, htrees⟩ := parseSource_strict_eq_ok_iff.mp h
  constructor
  · intro source' hjoined
    obtain ⟨pieces', tokens', hlexed', hthinned⟩ := hlexed.joined hjoined rfl
    obtain ⟨hnone', htrees'⟩ := hthinned.findings_eq (j := 0) hnone
    exact parseSource_strict_eq_ok_iff.mpr
      ⟨pieces', tokens', hlexed', hnone', htrees.trans htrees'.symm⟩
  · intro source' trees' h'
    obtain ⟨pieces', tokens', hlexed', hnone', htrees'⟩ := parseSource_strict_eq_ok_iff.mp h'
    refine ⟨tokens.toArray, tokens'.toArray, hlexed.tokenize_eq_ok Table.neverEnds_standard,
      hlexed'.tokenize_eq_ok Table.neverEnds_standard, ?_⟩
    have hsums := isSum_of_parseSource h
    have hsums' := isSum_of_parseSource h'
    have hkeys := hlexed.map_key_filter hnone
    have hkeys' := hlexed'.map_key_filter hnone'
    rw [← htrees, ← map_key_shapes hsums] at hkeys
    rw [← htrees', ← map_key_shapes hsums'] at hkeys'
    have hwritten (target : Target) :
        trees.toList.map Tree.shape = trees'.toList.map Tree.shape ↔
          ∃ text, renderTrees target trees.toList = .ok text ∧
            renderTrees target trees'.toList = .ok text := by
      have hbuilt := fun t ht => (hsums t ht).builtFrom.atoms
      have hbuilt' := fun t ht => (hsums' t ht).builtFrom.atoms
      rw [← renderTrees_eq_iff target hbuilt hbuilt', renderTrees_of_builtFrom target hbuilt]
      simp [eq_comm]
    tfae_have 1 → 2 := by
      intro heq
      rw [htrees, htrees']
      exact map_shape_of_map_key hnone hnone' heq
    tfae_have 2 → 1 := by
      intro heq
      show (tokens.filter (!·.isSemicolon)).map Token.key =
        (tokens'.filter (!·.isSemicolon)).map Token.key
      rw [hkeys, hkeys', heq]
    tfae_have 2 ↔ 3 := hwritten .inOrder
    tfae_have 2 ↔ 4 := hwritten .sexpr
    tfae_finish

/-- Without its semicolons, and also on two lines, the program is written as it was. -/
theorem parseSource_layout_two_lines :
    ∃ trees trees' : Array Tree, parseSource .strict "1 + 2;x;" = .ok trees ∧
      parseSource .strict "1 + 2 x " = .ok trees ∧ parseSource .strict "1+2\nx" = .ok trees' ∧
      ∃ text, renderTrees .sexpr trees.toList = .ok text ∧
        renderTrees .sexpr trees'.toList = .ok text := by
  have hwritten : ∀ source ∈ ["1 + 2;x;", "1+2\nx"], ∃ trees : Array Tree,
      parseSource .strict source = .ok trees ∧
        renderTrees .inOrder trees.toList = .ok "1 + 2;\nx;" := by
    intro source hsource
    have htext : ((parseSource .strict source).bind fun trees =>
        renderTrees .inOrder trees.toList) = .ok "1 + 2;\nx;" := by
      rcases List.mem_pair.mp hsource with rfl | rfl <;> decide +kernel
    cases htrees : parseSource .strict source with
    | error e => simp [htrees, Except.bind] at htext
    | ok trees => exact ⟨trees, rfl, by simpa [htrees, Except.bind] using htext⟩
  obtain ⟨trees, htrees, htext⟩ := hwritten _ List.mem_cons_self
  obtain ⟨trees', htrees', htext'⟩ := hwritten "1+2\nx" (by simp)
  obtain ⟨hspaces, hsame⟩ := parseSource_layout htrees
  obtain ⟨tokens, tokens', -, -, htfae⟩ := hsame _ _ htrees'
  have hjoined : Joined "1 + 2;x;".toList "1 + 2 x ".toList := by decide
  have hiff := htfae.out 2 3
  exact ⟨trees, trees', htrees, hspaces _ hjoined, htrees',
    hiff.mp ⟨_, htext, htext'⟩⟩

end SumLang
