import SumLang.Proofs.Numerals
import SumLang.Proofs.Sums

/-!
# Where nodes come from

A node has the place at which its text begins.  Tokens are cut from a text in order, a sum takes
some of them and keeps their places, and neither a failure nor a skipped statement moves what is
behind it.  So from the place of a node its text can be found again: a plus, a word or a numeral,
the latter two as long as they can be.

## Main definitions

* `Token.CutFrom`: where a token has been cut from a text.
* `Tree.StandsBehind`: what a text has for a node.

## Main statements

* `Lexed.pairwise_pos`, `Lexed.cutFrom`: the tokens of a text in order, each at its place.
* `parseSource_nodes_stand_in_text`: so for the nodes of the trees of a text.
-/
namespace SumLang

/-! ## Runs in a text -/

/-- `run` is a run of members of a set in the text, with `before` in front of it, and could not be
longer on either side. -/
structure IsRun (member : Char → Bool) (text before run : List Char) : Prop where
  nonempty : run ≠ []
  members : ∀ c ∈ run, member c = true
  front : before.getLast?.any member = false
  longest : ∃ after, text = before ++ run ++ after ∧ Stops member after

/-- Numerals are the longest runs of digits. -/
theorem IsRun.isNumeral {text before run : List Char} (h : IsRun isDigit text before run) :
    IsNumeral text before run :=
  ⟨h.nonempty, h.members, h.front, h.longest⟩

/-- A run between a seam and something else could not be longer. -/
theorem Seam.isRun {member : Char → Bool} {before run after : List Char}
    (h : Seam member before (run ++ after)) (hne : run ≠ []) (hrun : ∀ c ∈ run, member c = true)
    (hafter : Stops member after) : IsRun member (before ++ run ++ after) before run :=
  ⟨hne, hrun, h.front hne hrun, after, rfl, hafter⟩

/-! ## Tokens -/

/-- The token is that of a lexeme of the text, with `before` in front of it, and has the place
there.  No word and no number of the text goes over that place. -/
structure Token.CutFrom (text before : List Char) (t : Token) : Prop where
  pos : t.pos = .behind before
  lexeme : ∃ lexeme after, text = before ++ lexeme ++ after ∧
    IsLexeme .standard lexeme after t.type t.value ∧
    Seam isLetter before (lexeme ++ after) ∧ Seam isDigit before (lexeme ++ after)

namespace Lexed

variable {table : Table} {before text : List Char} {pieces : List Piece} {tokens : List Token}

/-- Tokens are behind all that is in front of the text. -/
theorem exists_pos_eq (h : Lexed table before text pieces tokens) :
    ∀ t ∈ tokens, ∃ front, t.pos = .behind (before ++ front) := by
  induction h with
  | done blanks =>
    rw [List.forall_mem_singleton]
    exact ⟨_, rfl⟩
  | @lexeme before gap lexeme after type value pieces tokens blanks token rest ih =>
    rw [List.forall_mem_cons]
    constructor
    · exact ⟨gap, rfl⟩
    · intro t ht
      obtain ⟨front, hpos⟩ := ih t ht
      exact ⟨gap ++ (lexeme ++ front), by simpa using hpos⟩

/-- The tokens of a text are at places one behind the other. -/
theorem pairwise_pos (h : Lexed table before text pieces tokens) :
    tokens.Pairwise (·.pos < ·.pos) := by
  induction h with
  | done blanks => exact List.pairwise_singleton _ _
  | @lexeme before gap lexeme after type value pieces tokens blanks token rest ih =>
    rw [List.pairwise_cons]
    refine ⟨?_, ih⟩
    intro t ht
    obtain ⟨front, hpos⟩ := rest.exists_pos_eq t ht
    -- The lexeme of the first token is between the two places.
    have hmore : lexeme ++ front ≠ [] := by
      obtain ⟨ch, run, rfl, -⟩ := token.token_eq
      exact List.cons_ne_nil _ _
    have hlt := Position.behind_lt_append (before ++ gap) hmore
    rw [hpos, List.append_assoc (before ++ gap)]
    exact hlt

/-- Every token of a text but the one that ends it has been cut from the text. -/
theorem cutFrom (h : Lexed .standard before text pieces tokens)
    (hletters : Seam isLetter before text) (hdigits : Seam isDigit before text) :
    ∀ t ∈ tokens, t.isEof = false → ∃ front, t.CutFrom (before ++ text) front := by
  induction h with
  | done blanks =>
    rw [List.forall_mem_singleton]
    intro hend
    simp [Token.eof, Token.isEof] at hend
  | @lexeme before gap lexeme after type value pieces tokens blanks token rest ih =>
    rw [List.append_assoc] at hletters hdigits
    rw [List.forall_mem_cons]
    constructor
    · intro _
      refine ⟨before ++ gap, rfl, lexeme, after, by simp, token, ?_, ?_⟩
      · exact hletters.append fun c hc =>
          CharClass.excludes .blank .letter (by decide) (blanks c hc)
      · exact hdigits.append fun c hc =>
          CharClass.excludes .blank .digit (by decide) (blanks c hc)
    · intro t ht hend
      have htext : before ++ gap ++ lexeme ++ after = before ++ (gap ++ lexeme ++ after) := by simp
      rw [← htext]
      exact ih (token.seam_letters _) (token.seam_digits _) t ht hend

end Lexed

/-! ## Nodes -/

/-- What a text has behind `before` for a node: a plus sign for an addition; for a name the name
itself, which is no keyword; for a number a numeral of its value, within the range of the language.
No letter or digit stands next to them that would prolong them. -/
inductive Tree.StandsBehind (text before : List Char) : Tree → Prop where
  | plus {node : Tree} (kind : node.kind = addKind) (value : node.value = plusSign)
      (sign : ∃ after, text = before ++ '+' :: after) : StandsBehind text before node
  | name {name : String} {pos : Position} (free : IsName name)
      (run : IsRun isLetter text before name.toList) :
      StandsBehind text before (.identifier (.text name) pos)
  | number {run : List Char} {pos : Position} (numeral : IsNumeral text before run)
      (least : 0 ≤ valueOf run) (greatest : valueOf run ≤ greatestNumber) :
      StandsBehind text before (.integer (.int (valueOf run)) pos)

/-- The only lexeme of the language that is a plus is the sign. -/
theorem IsLexeme.eq_sign_of_plus {lexeme after : List Char} {value : Scalar}
    (h : IsLexeme .standard lexeme after TokenType.plus value) : lexeme = ['+'] := by
  have hentries : ∀ entry ∈ Table.standard.entries,
      entry.2 = TokenType.plus → entry.1 = String.ofList ['+'] := by decide
  have hsign : ∀ {text : String}, Table.standard.find? text = some TokenType.plus →
      text = String.ofList ['+'] := by
    intro text hfind
    obtain ⟨before, after, hsplit, -⟩ := List.lookup_eq_some_iff.mp hfind
    have hmem : (text, TokenType.plus) ∈ Table.standard.entries := by
      rw [hsplit]
      simp
    exact hentries _ hmem rfl
  generalize htype : TokenType.plus = type at h
  cases h with
  | word nonempty members longest =>
    cases hfind : Table.standard.find? (String.ofList lexeme) with
    | none =>
      rw [hfind] at htype
      exact absurd htype (by decide)
    | some found =>
      obtain rfl : TokenType.plus = found := by simpa [hfind] using htype
      exact String.ofList_injective (hsign hfind)
  | symbol blank letter entry =>
    subst htype
    exact String.ofList_injective (hsign entry)
  | number members entry longest short small => exact absurd htype (by decide)
  | illegal blank letter entry digit => exact absurd htype (by decide)

/-- Where a token has been cut from a text, the text has what its node stands for. -/
theorem Token.CutFrom.standsBehind {text before : List Char} {t : Token} {node : Tree}
    (h : t.CutFrom text before) (hlabels : t.Labels node) : node.StandsBehind text before := by
  obtain ⟨type, value, pos⟩ := t
  obtain ⟨lexeme, after, rfl, hlexeme, hletters, hdigits⟩ := h.lexeme
  rcases hlabels.node with ⟨hoperand, rfl⟩ | ⟨hplus, hkind, hvalue⟩
  · rcases hlexeme.name_or_number hoperand with
      ⟨hname, hstops, -, rfl, hleaf⟩ | ⟨hne, hrun, hstops, hsmall, -, rfl, hleaf⟩
    · rw [hleaf]
      have hword := hname.letters
      have hnonempty := hname.nonempty
      rw [String.toList_ofList] at hword hnonempty
      refine .name hname ?_
      rw [String.toList_ofList]
      exact hletters.isRun hnonempty hword hstops
    · rw [hleaf]
      have hnumeral := (hdigits.isRun hne hrun hstops).isNumeral
      exact .number hnumeral (Int.natCast_nonneg _) hsmall
  · obtain rfl : type = TokenType.plus := by simpa [Token.isPlus] using hplus
    obtain rfl := hlexeme.eq_sign_of_plus
    exact .plus hkind hvalue ⟨after, by simp⟩

/-- Tokens of nodes do not end a text. -/
theorem Token.Labels.isEof_eq {t : Token} {node : Tree} (h : t.Labels node) :
    t.isEof = false := by
  rcases h.node with ⟨hoperand, -⟩ | ⟨hplus, -⟩
  · exact Part.excludes .operand .eof (by decide) hoperand
  · exact Part.excludes .plus .eof (by decide) hplus

/-- Nodes have the places of their tokens. -/
theorem map_pos_of_labels {tokens : List Token} {nodes : List Tree}
    (h : List.Forall₂ Token.Labels tokens nodes) :
    nodes.map Tree.pos = tokens.map Token.pos := by
  induction h with
  | nil => rfl
  | cons hfirst hrest ih => rw [List.map_cons, List.map_cons, hfirst.pos, ih]

/-- All nodes of the trees of a text, one tree behind the other and each in order, are at places
one behind the other.  The place of a node is behind one beginning of the text only, and there the
text has what the node stands for. -/
theorem parseSource_nodes_stand_in_text {mode : Mode} {source : String} {trees : Array Tree}
    (h : parseSource mode source = .ok trees) :
    (trees.toList.flatMap Tree.inOrder).Pairwise (·.pos < ·.pos) ∧
      ∀ node ∈ trees.toList.flatMap Tree.inOrder, ∃ before, before <+: source.toList ∧
        node.pos = .behind before ∧
        (∀ other, other <+: source.toList → node.pos = .behind other → other = before) ∧
        node.StandsBehind source.toList before := by
  obtain ⟨pieces, tokens, blocks, hlexed, htrees, hsublist⟩ := exists_blocks_of_parseSource h
  have hlabels := Block.labels_inOrder blocks
  rw [← htrees] at hlabels
  constructor
  · have hsorted := hlexed.pairwise_pos.sublist hsublist
    rw [← List.pairwise_map, ← map_pos_of_labels hlabels, List.pairwise_map] at hsorted
    exact hsorted
  · intro node hnode
    obtain ⟨t, ht, hlabel⟩ := exists_labels_of_mem hlabels hnode
    obtain ⟨before, hcut⟩ := hlexed.cutFrom (.nil _ _) (.nil _ _) t (hsublist.subset ht)
      hlabel.isEof_eq
    have hpos : node.pos = .behind before := hlabel.pos.trans hcut.pos
    have hprefix : before <+: source.toList := by
      obtain ⟨lexeme, after, htext, -⟩ := hcut.lexeme
      exact ⟨lexeme ++ after, by simpa using htext.symm⟩
    refine ⟨before, hprefix, hpos, ?_, hcut.standsBehind hlabel⟩
    intro other hother heq
    exact Position.behind_inj hother hprefix (heq.symm.trans hpos)

/-- A carriage return is a column, `lets` is a name although it begins with a keyword, and the
unfinished sum of the first line leaves no node. -/
theorem parseSource_nodes_second_line :
    ∃ trees : Array Tree, parseSource .lenient "1+ ;\n\rlets + 07?" = .ok trees ∧
      (trees.toList.flatMap Tree.inOrder).map Tree.pos = [⟨2, 2⟩, ⟨2, 7⟩, ⟨2, 9⟩] ∧
      (trees.toList.flatMap Tree.inOrder).Pairwise (·.pos < ·.pos) ∧
      ∀ node ∈ trees.toList.flatMap Tree.inOrder, ∃ before,
        node.pos = .behind before ∧ node.StandsBehind "1+ ;\n\rlets + 07?".toList before := by
  have hplaces : (parseSource .lenient "1+ ;\n\rlets + 07?").map (fun trees =>
      (trees.toList.flatMap Tree.inOrder).map Tree.pos) = .ok [⟨2, 2⟩, ⟨2, 7⟩, ⟨2, 9⟩] := by
    decide +kernel
  cases htrees : parseSource .lenient "1+ ;\n\rlets + 07?" with
  | error e => simp [htrees, Except.map] at hplaces
  | ok trees =>
    rw [htrees] at hplaces
    obtain ⟨hsorted, hstands⟩ := parseSource_nodes_stand_in_text htrees
    refine ⟨trees, rfl, Except.ok.inj hplaces, hsorted, ?_⟩
    intro node hnode
    obtain ⟨before, -, hpos, -, hbehind⟩ := hstands node hnode
    exact ⟨before, hpos, hbehind⟩

end SumLang
