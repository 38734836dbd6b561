import SumLang.Proofs.Quoting
import SumLang.Proofs.Unambiguity
import SumLang.Tree.Display

/-!
# Displays show the shape

Two trees have the same display only if they have the same shape, whatever their values are and
however many children their nodes have.  Texts among the values may hold anything that a display
is made of; they are quoted, and so they end where they do.  Kinds are not quoted, so they must be
free of commas and closing parentheses, as all words are.

Displays are read from the front.  What stands at the front decides what comes next, and where it
ends, whatever stands behind it.

A tree with a number that is too long has no display.  What there is to be displayed of a tree is
a text for every tree, though, and the proofs are about that.

## Main definitions

* `Tree.shown`: what there is to be displayed of a tree.
* `Tree.KindsIn`: the kinds of a tree consist of characters of a set.

## Main statements

* `Tree.displayBy_eq_writeIf`: a tree is displayed if its values can be.
* `Scalar.quoted_append_inj`: the value of a node is determined by its display.
* `Tree.shownHead_append_inj`: so is all of a node but its children.
* `Tree.shown_append_inj`: so is the shape of a tree.
* `Tree.displayBy_eq_iff_shape_eq`: trees have the same display if they have the same shape, and
  only then.
* `Tree.not_displayBy_eq_iff_shape_eq`: with a number that is too long there is no display.
-/
namespace SumLang

/-! ## Values -/

namespace Scalar

/-- Whether a scalar is displayed between quotes. -/
def isText : Scalar → Bool
  | text _ => true
  | int _ | bool _ | null => false

theorem exists_text_of_isText {v : Scalar} (h : v.isText = true) : ∃ s, v = text s := by
  cases v with
  | text s => exact ⟨s, rfl⟩
  | int | bool | null => cases h

theorem quoted_of_not_isText (printable : Char → Bool) {v : Scalar} (h : v.isText = false) :
    v.quoted printable = v.plain := by
  cases v with
  | text s => cases h
  | int | bool | null => rfl

theorem isLetter_of_mem_truthWord {b : Bool} : ∀ c ∈ (truthWord b).toList, isLetter c = true :=
  List.all_eq_true.mp (by cases b <;> decide)

theorem isLetter_of_mem_nullWord : ∀ c ∈ nullWord.toList, isLetter c = true :=
  List.all_eq_true.mp (by decide)

/-- The text of a scalar that is not quoted is no empty one, and consists of such characters as
leaves do. -/
theorem plain_of_not_isText {v : Scalar} (h : v.isText = false) :
    v.plain.toList ≠ [] ∧ ∀ c ∈ v.plain.toList, Tree.isAtomChar c = true := by
  have hword : ∀ {word : List Char}, (∀ c ∈ word, isLetter c = true) →
      ∀ c ∈ word, Tree.isAtomChar c = true := by
    intro word hletters c hc
    rw [Tree.isAtomChar, hletters c hc, Bool.true_or, Bool.true_or]
  cases v with
  | text s => cases h
  | int n => exact ⟨Tree.plain_int_ne_nil n, fun c hc => Tree.isAtomChar_of_mem_plain_int hc⟩
  | bool b =>
    refine ⟨?_, hword isLetter_of_mem_truthWord⟩
    cases b <;> decide
  | null => exact ⟨by decide, hword isLetter_of_mem_nullWord⟩

/-- Scalars that are not quoted have different texts. -/
theorem eq_of_plain_eq {v w : Scalar} (hv : v.isText = false) (hw : w.isText = false)
    (h : v.plain.toList = w.plain.toList) : v = w := by
  cases v with
  | text s => cases hv
  | int m =>
    cases w with
    | text s => cases hw
    | int n => rw [plain_int_inj h]
    | bool b => exact absurd h (Tree.plain_int_ne isLetter_of_mem_truthWord)
    | null => exact absurd h (Tree.plain_int_ne isLetter_of_mem_nullWord)
  | bool b =>
    cases w with
    | text s => cases hw
    | int n => exact absurd h.symm (Tree.plain_int_ne isLetter_of_mem_truthWord)
    | bool b' => revert b b'; decide
    | null => revert b; decide
  | null =>
    cases w with
    | text s => cases hw
    | int n => exact absurd h.symm (Tree.plain_int_ne isLetter_of_mem_nullWord)
    | bool b => revert b; decide
    | null => rfl

/-- The display of a text is no run of such characters as leaves consist of. -/
theorem quoted_text_append_ne (printable : Char → Bool) (s : String) {v : Scalar}
    (hv : v.isText = false) (rest rest' : List Char) :
    ((text s).quoted printable).toList ++ rest ≠ v.plain.toList ++ rest' := by
  intro heq
  obtain ⟨hne, hchars⟩ := plain_of_not_isText hv
  obtain ⟨c, tail, hcons⟩ := List.exists_cons_of_ne_nil hne
  have hc := hchars c (by simp [hcons])
  have hquote : Text.quoteFor s.toList = c := by
    simp only [quoted, Text.quoted, Text.quotedChars, String.toList_ofList, hcons,
      List.cons_append] at heq
    exact (List.cons.inj heq).1
  rcases Text.isQuote_quoteFor s.toList with hapostrophe | hdouble
  · rw [← hquote, hapostrophe] at hc
    exact absurd hc (by decide)
  · rw [← hquote, hdouble] at hc
    exact absurd hc (by decide)

/-- A scalar is determined by a text that begins with its display, where nothing that could belong
to it stands behind. -/
theorem quoted_append_inj (printable : Char → Bool) {v w : Scalar} {rest rest' : List Char}
    (hrest : Stops Tree.isAtomChar rest) (hrest' : Stops Tree.isAtomChar rest')
    (h : (v.quoted printable).toList ++ rest = (w.quoted printable).toList ++ rest') :
    v = w ∧ rest = rest' := by
  cases hv : v.isText with
  | false =>
    rw [quoted_of_not_isText printable hv] at h
    cases hw : w.isText with
    | false =>
      rw [quoted_of_not_isText printable hw] at h
      obtain ⟨hwritten, hbehind⟩ := run_append_inj (plain_of_not_isText hv).2
        (plain_of_not_isText hw).2 hrest hrest' h
      exact ⟨eq_of_plain_eq hv hw hwritten, hbehind⟩
    | true =>
      obtain ⟨s, rfl⟩ := exists_text_of_isText hw
      exact absurd h.symm (quoted_text_append_ne printable s hv _ _)
  | true =>
    obtain ⟨s, rfl⟩ := exists_text_of_isText hv
    cases hw : w.isText with
    | false =>
      rw [quoted_of_not_isText printable hw] at h
      exact absurd h (quoted_text_append_ne printable s hw _ _)
    | true =>
      obtain ⟨s', rfl⟩ := exists_text_of_isText hw
      simp only [quoted, Text.quoted, String.toList_ofList] at h
      obtain ⟨htext, hbehind⟩ := Text.quotedChars_append_inj printable h
      exact ⟨congrArg text (String.toList_injective htext), hbehind⟩

end Scalar

namespace Tree

/-! ## Nodes -/

variable (printable : Char → Bool)

/-- What there is to be displayed of the value of a node. -/
def shownValue (v : Scalar) : String := if v = .null then "" else ", value=" ++ v.quoted printable

/-- What there is to be displayed of a tree, by the rule of its display. -/
def shown : Tree → String := fold fun t texts =>
  "ASTNode(" ++ t.kind ++ shownValue printable t.value ++
    (if t.children = [] then "" else ", children=[" ++ ", ".intercalate texts ++ "]") ++ ")"

theorem shown_eq (t : Tree) :
    t.shown printable =
      "ASTNode(" ++ t.kind ++ shownValue printable t.value ++
        (if t.children = [] then ""
          else ", children=[" ++ ", ".intercalate (t.children.map (shown printable)) ++ "]") ++
        ")" := by
  rw [shown, fold_eq]

theorem displayValue_eq_writeIf (v : Scalar) :
    displayValue printable v = Text.writeIf v.isWritable (shownValue printable v) := by
  rw [displayValue, shownValue]
  split
  · next hnull =>
    rw [hnull]
    rfl
  · exact Text.writeIf_map v.isWritable (v.quoted printable) (", value=" ++ ·)

/-- A tree is displayed if all its values can be, and then as what there is to be displayed. -/
theorem displayBy_eq_writeIf (t : Tree) :
    t.displayBy printable = Text.writeIf t.isWritable (t.shown printable) := by
  induction t using Tree.induction with
  | node t ih =>
    rw [displayBy_eq, displayValue_eq_writeIf, Text.mapM_writeIf ih, isWritable_eq, shown_eq]
    apply Text.writeIf_bind
    exact Text.writeIf_map _ _ _

/-- What there is to be displayed of a node up to its first child, or of all of it if it has none. -/
def shownHead (t : Tree) : String :=
  "ASTNode(" ++ t.kind ++ shownValue printable t.value ++
    if t.children = [] then ")" else ", children=["

/-- The value of a node behind its kind. -/
def valuePart (v : Scalar) : List Char :=
  if v = .null then [] else ", value=".toList ++ (v.quoted printable).toList

/-- What stands behind the value of a node: its end, or the beginning of its children. -/
def openingPart (t : Tree) : List Char :=
  if t.children = [] then ")".toList else ", children=[".toList

theorem toList_shownHead (t : Tree) :
    (shownHead printable t).toList =
      "ASTNode(".toList ++ (t.kind.toList ++ (valuePart printable t.value ++ openingPart t)) := by
  unfold shownHead shownValue valuePart openingPart
  split <;> split <;> simp

/-- Behind a kind stands a comma or a closing parenthesis. -/
theorem stops_behind_kind {member : Char → Bool} (hcomma : member ',' = false)
    (hclose : member ')' = false) (v : Scalar) (t : Tree) (rest : List Char) :
    Stops member (valuePart printable v ++ (openingPart t ++ rest)) := by
  intro c hc
  have hcases : c = ',' ∨ c = ')' := by
    by_cases hv : v = .null
    · by_cases ht : t.children = []
      · exact .inr (by simpa [valuePart, openingPart, hv, ht] using hc.symm)
      · exact .inl (by simpa [valuePart, openingPart, hv, ht] using hc.symm)
    · exact .inl (by simpa [valuePart, hv] using hc.symm)
  rcases hcases with rfl | rfl
  · exact hcomma
  · exact hclose

/-- What stands behind the value says whether there are children. -/
theorem openingPart_append_inj {t u : Tree} {rest rest' : List Char}
    (h : openingPart t ++ rest = openingPart u ++ rest') :
    (t.children = [] ↔ u.children = []) ∧ rest = rest' := by
  by_cases ht : t.children = []
  · by_cases hu : u.children = []
    · simpa [openingPart, ht, hu] using h
    · simp [openingPart, ht, hu] at h
  · by_cases hu : u.children = []
    · simp [openingPart, ht, hu] at h
    · simpa [openingPart, ht, hu] using h

/-- What stands behind the kind says whether there is a value, and which. -/
theorem valuePart_append_inj {v w : Scalar} {t u : Tree} {rest rest' : List Char}
    (h : valuePart printable v ++ (openingPart t ++ rest) =
      valuePart printable w ++ (openingPart u ++ rest')) :
    v = w ∧ openingPart t ++ rest = openingPart u ++ rest' := by
  -- The beginning of the children is not that of a value.
  have hnone : ∀ (w : Scalar) (t u : Tree) (rest rest' : List Char), w ≠ .null →
      openingPart t ++ rest ≠ valuePart printable w ++ (openingPart u ++ rest') := by
    intro w t u rest rest' hw heq
    rw [valuePart, if_neg hw, openingPart, List.append_assoc] at heq
    split at heq
    · simp at heq
    · simp at heq
  have hstops : ∀ (t : Tree) (rest : List Char), Stops isAtomChar (openingPart t ++ rest) :=
    fun t rest => stops_behind_kind printable (by decide) (by decide) .null t rest
  by_cases hv : v = .null
  · by_cases hw : w = .null
    · subst hv hw
      exact ⟨rfl, h⟩
    · subst hv
      exact absurd h (hnone w t u rest rest' hw)
  · by_cases hw : w = .null
    · subst hw
      exact absurd h.symm (hnone v u t rest' rest hv)
    · simp only [valuePart, if_neg hv, if_neg hw, List.append_assoc] at h
      exact Scalar.quoted_append_inj printable (hstops t rest) (hstops u rest')
        (List.append_cancel_left h)

/-- The kind and the value of a node, and whether it has children, are determined by a text that
begins with its display. -/
theorem shownHead_append_inj {member : Char → Bool} (hcomma : member ',' = false)
    (hclose : member ')' = false) {t u : Tree} (ht : ∀ c ∈ t.kind.toList, member c = true)
    (hu : ∀ c ∈ u.kind.toList, member c = true) {rest rest' : List Char}
    (h : (shownHead printable t).toList ++ rest = (shownHead printable u).toList ++ rest') :
    t.kind = u.kind ∧ t.value = u.value ∧ (t.children = [] ↔ u.children = []) ∧
      rest = rest' := by
  simp only [toList_shownHead, List.append_assoc] at h
  obtain ⟨hkind, hbehind⟩ := run_append_inj ht hu
    (stops_behind_kind printable hcomma hclose t.value t rest)
    (stops_behind_kind printable hcomma hclose u.value u rest') (List.append_cancel_left h)
  obtain ⟨hvalue, hopening⟩ := valuePart_append_inj printable hbehind
  obtain ⟨hchildren, hrest⟩ := openingPart_append_inj hopening
  exact ⟨String.toList_injective hkind, hvalue, hchildren, hrest⟩

/-! ## Trees -/

/-- All kinds in the tree consist of characters of a set. -/
inductive KindsIn (member : Char → Bool) : Tree → Prop where
  | node {t : Tree} (kind : ∀ c ∈ t.kind.toList, member c = true)
      (children : ∀ c ∈ t.children, KindsIn member c) : KindsIn member t

/-- The test for `KindsIn`. -/
def kindsIn (member : Char → Bool) : Tree → Bool :=
  fold fun t children => t.kind.toList.all member && children.all id

theorem kindsIn_iff {member : Char → Bool} {t : Tree} :
    t.kindsIn member = true ↔ t.KindsIn member := by
  induction t using Tree.induction with
  | node t ih =>
    have hchildren : (t.children.map (kindsIn member)).all id = true ↔
        ∀ c ∈ t.children, c.KindsIn member := by
      rw [List.all_map, List.all_eq_true]
      exact forall₂_congr ih
    have hfold : t.kindsIn member =
        (t.kind.toList.all member && (t.children.map (kindsIn member)).all id) := fold_eq _ t
    rw [hfold, Bool.and_eq_true, List.all_eq_true, hchildren]
    constructor
    · rintro ⟨hkind, hbelow⟩
      exact .node hkind hbelow
    · rintro ⟨hkind, hbelow⟩
      exact ⟨hkind, hbelow⟩

instance (member : Char → Bool) (t : Tree) : Decidable (t.KindsIn member) :=
  decidable_of_iff _ kindsIn_iff

/-- The shape of a tree is determined by a text that begins with what is displayed of it, and so is
what stands behind it. -/
def ShownDetermines (member : Char → Bool) (t : Tree) : Prop :=
  ∀ {u : Tree}, u.KindsIn member → ∀ {rest rest' : List Char},
    (t.shown printable).toList ++ rest = (u.shown printable).toList ++ rest' →
      t.shape = u.shape ∧ rest = rest'

/-- What is displayed of children behind the first, and of the end of the node. -/
def behindPart : List Tree → List Char
  | [] => "])".toList
  | c :: cs => ", ".toList ++ ((c.shown printable).toList ++ behindPart cs)

/-- Children behind the first are determined as far as each of them is. -/
theorem behindPart_append_inj {member : Char → Bool} {cs ds : List Tree}
    (hcs : ∀ c ∈ cs, ShownDetermines printable member c) (hds : ∀ d ∈ ds, d.KindsIn member)
    {rest rest' : List Char}
    (h : behindPart printable cs ++ rest = behindPart printable ds ++ rest') :
    cs.map shape = ds.map shape ∧ rest = rest' := by
  induction cs generalizing ds with
  | nil =>
    cases ds with
    | nil => exact ⟨rfl, by simpa [behindPart] using h⟩
    | cons d ds => simp [behindPart] at h
  | cons c cs ih =>
    cases ds with
    | nil => simp [behindPart] at h
    | cons d ds =>
      rw [List.forall_mem_cons] at hcs hds
      simp only [behindPart, List.append_assoc] at h
      obtain ⟨hfirst, hbehind⟩ := hcs.1 hds.1 (List.append_cancel_left h)
      obtain ⟨hothers, hrest⟩ := ih hcs.2 hds.2 hbehind
      exact ⟨by rw [List.map_cons, List.map_cons, hfirst, hothers], hrest⟩

/-- What is displayed of the children of a node, up to its end. -/
def belowPart : List Tree → List Char
  | [] => []
  | c :: cs => (c.shown printable).toList ++ behindPart printable cs

theorem toList_behindPart (cs : List Tree) :
    (String.join ((cs.map (shown printable)).map (", " ++ ·)) ++ "]" ++ ")").toList =
      behindPart printable cs := by
  induction cs with
  | nil => rfl
  | cons c cs ih =>
    rw [behindPart, ← ih]
    simp [String.join_cons, String.append_assoc]

theorem toList_shown (t : Tree) :
    (t.shown printable).toList =
      (shownHead printable t).toList ++ belowPart printable t.children := by
  rw [shown_eq, shownHead]
  match t.children with
  | [] => simp [belowPart]
  | c :: cs =>
    rw [if_neg (List.cons_ne_nil c cs), if_neg (List.cons_ne_nil c cs), belowPart,
      ← toList_behindPart, List.map_cons, intercalate_comma_cons]
    simp [String.append_assoc]

theorem belowPart_append_inj {member : Char → Bool} {cs ds : List Tree}
    (hcs : ∀ c ∈ cs, ShownDetermines printable member c) (hds : ∀ d ∈ ds, d.KindsIn member)
    (hnone : cs = [] ↔ ds = []) {rest rest' : List Char}
    (h : belowPart printable cs ++ rest = belowPart printable ds ++ rest') :
    cs.map shape = ds.map shape ∧ rest = rest' := by
  cases cs with
  | nil =>
    obtain rfl : ds = [] := hnone.mp rfl
    exact ⟨rfl, h⟩
  | cons c cs =>
    obtain ⟨d, ds, rfl⟩ :=
      List.exists_cons_of_ne_nil fun hnil => List.cons_ne_nil c cs (hnone.mpr hnil)
    rw [List.forall_mem_cons] at hcs hds
    simp only [belowPart, List.append_assoc] at h
    obtain ⟨hfirst, hbehind⟩ := hcs.1 hds.1 h
    obtain ⟨hothers, hrest⟩ := behindPart_append_inj printable hcs.2 hds.2 hbehind
    exact ⟨by rw [List.map_cons, List.map_cons, hfirst, hothers], hrest⟩

/-- What is displayed of a tree is determined from the root on, node by node. -/
theorem shown_append_inj {member : Char → Bool} (hcomma : member ',' = false)
    (hclose : member ')' = false) {t : Tree} (ht : t.KindsIn member) :
    ShownDetermines printable member t := by
  induction t using Tree.induction with
  | node t ih =>
    intro u hu rest rest' h
    obtain ⟨hkind, hchildren⟩ := ht
    obtain ⟨hkind', hchildren'⟩ := hu
    rw [toList_shown, toList_shown, List.append_assoc, List.append_assoc] at h
    obtain ⟨hkinds, hvalues, hnone, hbelow⟩ :=
      shownHead_append_inj printable hcomma hclose hkind hkind' h
    obtain ⟨hshapes, hrest⟩ := belowPart_append_inj printable
      (fun c hc => ih c hc (hchildren c hc)) hchildren' hnone hbelow
    exact ⟨by rw [shape_eq t, shape_eq u, hkinds, hvalues, hshapes], hrest⟩

/-- What is displayed of a tree is that of its shape: places are not displayed. -/
theorem shown_shape (t : Tree) : t.shape.shown printable = t.shown printable := by
  induction t using Tree.induction with
  | node t ih =>
    have hchildren : (t.children.map shape).map (shown printable) =
        t.children.map (shown printable) := by
      rw [List.map_map]
      exact List.map_congr_left ih
    rw [shown_eq, shown_eq, shape_eq t, hchildren]
    simp only [List.map_eq_nil_iff]

theorem isWritable_shape (t : Tree) : t.shape.isWritable = t.isWritable := by
  induction t using Tree.induction with
  | node t ih =>
    have hchildren : (t.children.map shape).map isWritable = t.children.map isWritable := by
      rw [List.map_map]
      exact List.map_congr_left ih
    rw [isWritable, fold_eq, fold_eq, ← isWritable, shape_eq t, hchildren]

/-- Trees whose kinds are words.  Such a tree has a display exactly if all numbers among its values
can be written.  It has then the same display as another one exactly if they are the same but for
the places: kinds, values, and children one by one.  Values are the same only if they are
identical, so that a truth value is no number, and they may be any texts, whatever characters are
displayed as they are. -/
theorem displayBy_eq_iff_shape_eq {t u : Tree} (ht : t.KindsIn Char.isAlpha)
    (hu : u.KindsIn Char.isAlpha) :
    ((∃ text, t.displayBy printable = .ok text) ↔ t.isWritable = true) ∧
      (t.isWritable = true → (t.displayBy printable = u.displayBy printable ↔ t.shape = u.shape)) := by
  rw [displayBy_eq_writeIf, displayBy_eq_writeIf]
  refine ⟨⟨?_, ?_⟩, fun hwritable => ⟨?_, ?_⟩⟩
  · rintro ⟨text, htext⟩
    exact (Text.writeIf_eq_ok_iff.mp htext).1
  · intro hwritable
    exact ⟨t.shown printable, by rw [hwritable, Text.writeIf_true]⟩
  · intro h
    rw [hwritable, Text.writeIf_true] at h
    have htext := (Text.writeIf_eq_ok_iff.mp h.symm).2
    have hchars : (t.shown printable).toList ++ [] = (u.shown printable).toList ++ [] := by
      rw [htext]
    exact (shown_append_inj printable (by decide) (by decide) ht hu hchars).1
  · intro h
    rw [← shown_shape, ← isWritable_shape, h, shown_shape, isWritable_shape]

/-- A text that reads like the rest of a display is not taken for it, a truth value is displayed
unlike its number, and only places are left out. -/
theorem displayBy_eq_iff_shape_eq_delimiters :
    let text : Tree := ⟨"note", .text "', children=[ASTNode(x, value=True)]", ⟨1, 1⟩, []⟩
    let truth : Tree := ⟨"note", .text "", ⟨1, 1⟩, [⟨"x", .bool true, ⟨1, 7⟩, []⟩]⟩
    let number : Tree := ⟨"note", .text "", ⟨1, 1⟩, [⟨"x", .int 1, ⟨1, 7⟩, []⟩]⟩
    let moved : Tree := ⟨"note", .text "", ⟨2, 5⟩, [⟨"x", .bool true, ⟨3, 1⟩, []⟩]⟩
    (∀ t ∈ [text, truth, number, moved], t.KindsIn Char.isAlpha) ∧ text.display ≠ truth.display ∧
      truth.display ≠ number.display ∧ truth.display = moved.display := by
  intro text truth number moved
  have htext : text.KindsIn Char.isAlpha := by decide
  have htruth : truth.KindsIn Char.isAlpha := by decide
  have hnumber : number.KindsIn Char.isAlpha := by decide
  have hmoved : moved.KindsIn Char.isAlpha := by decide
  refine ⟨by simp [htext, htruth, hnumber, hmoved], ?_, ?_, ?_⟩
  · rw [Ne, display, (displayBy_eq_iff_shape_eq _ htext htruth).2 (by decide +kernel)]
    intro h
    exact absurd (congrArg (fun t => t.children.length) h) (by decide)
  · rw [Ne, display, (displayBy_eq_iff_shape_eq _ htruth hnumber).2 (by decide +kernel)]
    intro h
    exact absurd (congrArg (fun t => t.children.map Tree.value) h) (by decide)
  · rw [display, (displayBy_eq_iff_shape_eq _ htruth hmoved).2 (by decide +kernel)]
    rfl

/-- Not all trees of the same shape have the same display: there is none if a number is too
long. -/
theorem not_displayBy_eq_iff_shape_eq :
    ¬ ∀ t u : Tree, t.KindsIn Char.isAlpha → u.KindsIn Char.isAlpha →
      ((∃ text, t.display = .ok text ∧ u.display = .ok text) ↔ t.shape = u.shape) := by
  intro hall
  let huge : Tree := ⟨"x", .int Text.leastUnwritable, .start, []⟩
  have hkind : "x".toList.all Char.isAlpha = true := by decide
  have hkinds : huge.KindsIn Char.isAlpha :=
    .node (List.all_eq_true.mp hkind) (List.forall_mem_nil _)
  have hunwritable : huge.isWritable = false := by
    rw [isWritable_eq]
    exact congrArg (· && true) Text.isWritable_leastUnwritable
  obtain ⟨text, htext, -⟩ := (hall huge huge hkinds hkinds).mpr rfl
  rw [display, displayBy_eq_writeIf, hunwritable] at htext
  cases htext

end Tree
end SumLang
