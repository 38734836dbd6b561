import SumLang.Tree.Agreement
import SumLang.Tree.Record
import Mathlib.Data.List.Forall2

/-!
# Agreement is structural

Two trees are the same when their kinds and places are equal, their values have one normal form, and
they have equally many children, which are the same one by one.  Two records are the same when
their five fields are.  The comparison that goes down the left spine decides the first, and so does
a comparison of records decide it.

As a truth value is equal to a number, agreement is coarser than equality.  It is still an
equivalence, for it is equality of canonical trees: those with numbers in place of truth values.

## Main definitions

* `Tree.Same`, `Record.Same`: sameness by recursion on children.
* `Tree.canonical`: the tree with numbers in place of truth values.

## Main statements

* `Tree.agrees_iff_canonical`: two trees agree when their canonical trees are equal.
* `Tree.agrees_structural`: agreement of trees is sameness of trees and of records.
-/
namespace SumLang

/-! ## Sameness -/

/-- The trees are the same up to the difference between truth values and numbers. -/
inductive Tree.Same : Tree → Tree → Prop where
  | node {a b : Tree} (kind : a.kind = b.kind) (value : a.value.normal = b.value.normal)
      (pos : a.pos = b.pos) (children : List.Forall₂ Same a.children b.children) : Same a b

/-- The records are the same up to the difference between truth values and numbers. -/
inductive Record.Same : Record → Record → Prop where
  | fields {r s : Record} (kind : r.kind = s.kind) (value : r.value.normal = s.value.normal)
      (line : r.line = s.line) (column : r.column = s.column)
      (children : List.Forall₂ Same r.children s.children) : Same r s

/-- Relations that hold of the same pairs with members of a list hold of the same lists. -/
theorem forall₂_congr_of_mem {α β : Type} {R S : α → β → Prop} {as : List α} {bs : List β}
    (h : ∀ a ∈ as, ∀ b, R a b ↔ S a b) : List.Forall₂ R as bs ↔ List.Forall₂ S as bs := by
  induction as generalizing bs with
  | nil => simp
  | cons a as ih =>
    have hrest : ∀ bs, List.Forall₂ R as bs ↔ List.Forall₂ S as bs := fun bs =>
      ih fun a' ha' => h a' (List.mem_cons_of_mem a ha')
    simp [List.forall₂_cons_left_iff, h a List.mem_cons_self, hrest]

namespace Tree

theorem same_iff {a b : Tree} :
    a.Same b ↔ a.kind = b.kind ∧ a.value.normal = b.value.normal ∧ a.pos = b.pos ∧
      List.Forall₂ Same a.children b.children := by
  constructor
  · rintro ⟨kind, value, pos, children⟩
    exact ⟨kind, value, pos, children⟩
  · rintro ⟨kind, value, pos, children⟩
    exact ⟨kind, value, pos, children⟩

theorem agreesAll_iff {ts us : List Tree} :
    agreesAll ts us = true ↔ List.Forall₂ (fun t u => t.agrees u = true) ts us := by
  induction ts generalizing us with
  | nil => cases us <;> simp [agreesAll]
  | cons t ts ih => cases us <;> simp [agreesAll, ih]

/-- One step of the comparison: the roots, and all children. -/
theorem agrees_iff {a b : Tree} :
    a.agrees b = true ↔ a.kind = b.kind ∧ a.value.normal = b.value.normal ∧ a.pos = b.pos ∧
      List.Forall₂ (fun c d => c.agrees d = true) a.children b.children := by
  rw [← Scalar.agrees_iff]
  match a, b with
  | ⟨kind, value, pos, []⟩, ⟨kind', value', pos', []⟩ => simp [agrees, agreesAtRoot, and_assoc]
  | ⟨kind, value, pos, []⟩, ⟨kind', value', pos', d :: ds⟩ => simp [agrees, agreesAtRoot]
  | ⟨kind, value, pos, c :: cs⟩, ⟨kind', value', pos', []⟩ => simp [agrees]
  | ⟨kind, value, pos, c :: cs⟩, ⟨kind', value', pos', d :: ds⟩ =>
    simp only [agrees, agreesAtRoot, Bool.and_eq_true, beq_iff_eq, agreesAll_iff,
      List.forall₂_cons]
    constructor
    · rintro ⟨⟨⟨⟨hkind, hvalue⟩, hpos⟩, -⟩, hothers, hfirst⟩
      exact ⟨hkind, hvalue, hpos, hfirst, hothers⟩
    · rintro ⟨hkind, hvalue, hpos, hfirst, hothers⟩
      have hlength : (c :: cs).length = (d :: ds).length := by
        rw [List.length_cons, List.length_cons, hothers.length_eq]
      exact ⟨⟨⟨⟨hkind, hvalue⟩, hpos⟩, hlength⟩, hothers, hfirst⟩

/-! ## Canonical trees -/

/-- The tree with a number in place of each truth value. -/
def canonical : Tree → Tree :=
  fold fun t children => ⟨t.kind, t.value.normal, t.pos, children⟩

theorem canonical_eq (t : Tree) :
    t.canonical = ⟨t.kind, t.value.normal, t.pos, t.children.map canonical⟩ :=
  fold_eq _ t

/-- Two trees agree when their canonical trees are equal. -/
theorem agrees_iff_canonical (a b : Tree) : a.agrees b = true ↔ a.canonical = b.canonical := by
  induction a using Tree.induction generalizing b with
  | node a ih =>
    have hchildren : List.Forall₂ (fun c d => c.agrees d = true) a.children b.children ↔
        a.children.map canonical = b.children.map canonical := by
      rw [forall₂_congr_of_mem ih, ← List.forall₂_eq_eq_eq, List.forall₂_map_left_iff,
        List.forall₂_map_right_iff]
    rw [agrees_iff, hchildren, canonical_eq a, canonical_eq b, mk.injEq]

/-- Truth values agree with numbers at any depth. -/
example :
    agrees ⟨"row", .bool true, .start, [⟨"cell", .null, .start, []⟩, ⟨"cell", .int 0, .start, []⟩]⟩
      ⟨"row", .int 1, .start, [⟨"cell", .null, .start, []⟩, ⟨"cell", .bool false, .start, []⟩]⟩ =
        true := by decide

theorem agrees_equivalence : Equivalence fun a b : Tree => a.agrees b = true where
  refl a := (agrees_iff_canonical a a).mpr rfl
  symm h := (agrees_iff_canonical _ _).mpr ((agrees_iff_canonical _ _).mp h).symm
  trans h h' := (agrees_iff_canonical _ _).mpr
    (((agrees_iff_canonical _ _).mp h).trans ((agrees_iff_canonical _ _).mp h'))

/-! ## Agreement -/

theorem agrees_iff_same (a b : Tree) : a.agrees b = true ↔ a.Same b := by
  induction a using Tree.induction generalizing b with
  | node a ih => rw [agrees_iff, same_iff, forall₂_congr_of_mem ih]

theorem same_toRecord_iff (a b : Tree) : a.toRecord.Same b.toRecord ↔ a.Same b := by
  induction a using Tree.induction generalizing b with
  | node a ih =>
    have hchildren : List.Forall₂ Record.Same (a.children.map toRecord) (b.children.map toRecord) ↔
        List.Forall₂ Same a.children b.children := by
      rw [List.forall₂_map_left_iff, List.forall₂_map_right_iff, forall₂_congr_of_mem ih]
    rw [toRecord_eq a, toRecord_eq b]
    constructor
    · rintro ⟨hkind, hvalue, hline, hcolumn, hrecords⟩
      have hpos : a.pos = b.pos := congrArg₂ Position.mk hline hcolumn
      exact ⟨hkind, hvalue, hpos, hchildren.mp hrecords⟩
    · rintro ⟨hkind, hvalue, hpos, hsame⟩
      exact ⟨hkind, hvalue, congrArg Position.line hpos, congrArg Position.column hpos,
        hchildren.mpr hsame⟩

/-- Agreement of trees is sameness by recursion on children, and sameness of their records.  It is
an equivalence.  A comparison says so: the trees are equal exactly if they are the same, unequal
exactly if they are not, it makes no difference which of them is asked, and each is equal to
itself. -/
theorem agrees_structural (a b : Tree) :
    (a.agrees b = true ↔ a.Same b) ∧ (a.agrees b = true ↔ a.toRecord.Same b.toRecord) ∧
      Equivalence (fun a b : Tree => a.agrees b = true) ∧
      ((a.compare (.tree b)).equal = true ↔ a.Same b) ∧
      ((a.compare (.tree b)).unequal = true ↔ ¬a.Same b) ∧
      (a.compare (.tree b)).converse = (a.compare (.tree b)).equal ∧
      (a.compare (.tree b)).reflexive = true := by
  have hrecords : a.agrees b = true ↔ a.toRecord.Same b.toRecord := by
    rw [agrees_iff_same, same_toRecord_iff]
  have hunequal : (!a.agrees b) = true ↔ ¬a.Same b := by
    rw [← agrees_iff_same, Bool.not_eq_true', Bool.not_eq_true]
  have hconverse : b.agrees a = a.agrees b :=
    Bool.eq_iff_iff.mpr ⟨agrees_equivalence.symm, agrees_equivalence.symm⟩
  exact ⟨agrees_iff_same a b, hrecords, agrees_equivalence, agrees_iff_same a b, hunequal,
    hconverse, agrees_equivalence.refl a⟩

end Tree
end SumLang
