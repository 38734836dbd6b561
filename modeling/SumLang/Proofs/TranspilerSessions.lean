import SumLang.Proofs.Writing

/-!
# Sessions with a transpiler

What a transpiler answers does not depend on what it was asked before, whether that failed or not.
What it holds does, but only as far as statements are added: a list is written on a new sheet, or
it is refused before that and nothing is changed.

## Main definitions

* `Transpiler.Writing`: what comes of a list of trees.
* `Transpiler.Answers`: what comes of a call, by what is asked and what is held.
* `Transpiler.Runs`: what comes of calls one after the other.

## Main statements

* `exists_written_front`: a list is written to its end, or up to a first tree that cannot be.
* `Answers.perform_eq`, `Uniform.answers`: what comes of a call is just that.
* `session_independent`: what comes of any calls on a fresh transpiler.
-/
namespace SumLang

/-- A list is written to its end, or up to a first tree that cannot be written. -/
theorem Format.exists_written_front (format : Format) (trees : List Tree) :
    (∃ lines, List.Forall₂ format.Writes trees lines) ∨
      ∃ front t behind lines e, trees = front ++ t :: behind ∧
        List.Forall₂ format.Writes front lines ∧ format.renderStatement t = .error e := by
  induction trees with
  | nil => exact .inl ⟨[], .nil⟩
  | cons t trees ih =>
    cases hline : format.renderStatement t with
    | error e => exact .inr ⟨[], t, trees, [], e, rfl, .nil, hline⟩
    | ok line =>
      rcases ih with ⟨lines, hlines⟩ | ⟨front, u, behind, lines, e, rfl, hfront, hu⟩
      · exact .inl ⟨line :: lines, .cons hline hlines⟩
      · exact .inr ⟨t :: front, u, behind, line :: lines, e, rfl, .cons hline hfront, hu⟩

/-! ## Lists of items -/

namespace Item

theorem mapM_tree? (trees : List Tree) : (trees.map tree).mapM tree? = some trees := by
  induction trees with
  | nil => rfl
  | cons t trees ih => simp [tree?, ih]

theorem mapM_tree?_of_other {items : List Item} (h : .other ∈ items) :
    items.mapM tree? = none := by
  induction items with
  | nil => cases h
  | cons item items ih =>
    cases item with
    | other => rfl
    | tree t =>
      have hrest : .other ∈ items := by simpa using h
      simp [ih hrest]

/-- Items are trees, if there is nothing else among them. -/
theorem exists_trees {items : List Item} (h : .other ∉ items) :
    ∃ trees : List Tree, items = trees.map tree := by
  induction items with
  | nil => exact ⟨[], rfl⟩
  | cons item items ih =>
    cases item with
    | other => exact absurd List.mem_cons_self h
    | tree t =>
      obtain ⟨trees, rfl⟩ := ih fun hrest => h (List.mem_cons_of_mem _ hrest)
      exact ⟨t :: trees, rfl⟩

end Item

namespace Transpiler

/-! ## Calls -/

/-- The transpiler for the same target that holds other lines. -/
def holding (tr : Transpiler) (lines : List String) : Transpiler :=
  { tr with sheet := ⟨tr.target.format, lines.toArray⟩ }

/-- What comes of a list of trees: either all of them are written and the answer is the text that
is held then, or there is a first one that cannot be written, and the trees before it are held.
What was held before has no part in it. -/
inductive Writing (tr : Transpiler) :
    List Tree → Outcome Transpiler Failure (Option String) → Prop where
  | finished {trees : List Tree} {lines : List String}
      (hlines : List.Forall₂ tr.target.format.Writes trees lines) :
      Writing tr trees (.ok (some (tr.holding lines).sheet.text), tr.holding lines)
  | brokenOff {front behind : List Tree} {t : Tree} {lines : List String} {e : TreeError}
      (hfront : List.Forall₂ tr.target.format.Writes front lines)
      (ht : tr.target.format.renderStatement t = .error e) :
      Writing tr (front ++ t :: behind) (.error (.tree e), tr.holding lines)

/-- What comes of a call. -/
inductive Answers (tr : Transpiler) : Call → Outcome Transpiler Failure (Option String) → Prop where
  | refused {items : List Item} (hother : .other ∈ items) :
      Answers tr (.transpile items) (.error .notATree, tr)
  | transpiled {trees : List Tree} {outcome : Outcome Transpiler Failure (Option String)}
      (hwriting : tr.Writing trees outcome) :
      Answers tr (.transpile (trees.map .tree)) outcome
  | unread {source : String} {e : Failure} (hread : parseSource .strict source = .error e) :
      Answers tr (.transpileSource source) (.error e, tr)
  | read {source : String} {trees : Array Tree}
      {outcome : Outcome Transpiler Failure (Option String)}
      (hread : parseSource .strict source = .ok trees)
      (hwriting : tr.Writing trees.toList outcome) :
      Answers tr (.transpileSource source) outcome
  | added {t : Tree} {line : String} (hline : tr.target.format.Writes t line) :
      Answers tr (.writeStatement t) (.ok none, tr.holding (tr.sheet.lines.toList ++ [line]))
  | notAdded {t : Tree} {e : TreeError} (ht : tr.target.format.renderStatement t = .error e) :
      Answers tr (.writeStatement t) (.error (.tree e), tr)
  | target : Answers tr .target (.ok (some tr.target.name), tr)

/-- What comes of calls made one after the other. -/
inductive Runs :
    Transpiler → List Call → List (Outcome Transpiler Failure (Option String)) → Prop where
  | nil {tr : Transpiler} : Runs tr [] []
  | cons {tr : Transpiler} {call : Call} {calls : List Call}
      {outcome : Outcome Transpiler Failure (Option String)}
      {outcomes : List (Outcome Transpiler Failure (Option String))}
      (hcall : tr.Answers call outcome) (hcalls : Runs outcome.2 calls outcomes) :
      Runs tr (call :: calls) (outcome :: outcomes)

variable {tr tr' : Transpiler} {call : Call}
variable {outcome : Outcome Transpiler Failure (Option String)}

/-- What is written on the sheet that is held is written in the form of the target. -/
def Uniform (tr : Transpiler) : Prop := tr.sheet.format = tr.target.format

theorem uniform_ofTarget (target : Target) : (ofTarget target).Uniform := rfl

theorem uniform_holding (tr : Transpiler) (lines : List String) : (tr.holding lines).Uniform := rfl

theorem exists_writing (tr : Transpiler) (trees : List Tree) :
    ∃ outcome, tr.Writing trees outcome := by
  rcases tr.target.format.exists_written_front trees with
    ⟨lines, hlines⟩ | ⟨front, t, behind, lines, e, rfl, hfront, ht⟩
  · exact ⟨_, .finished hlines⟩
  · exact ⟨_, .brokenOff hfront ht⟩

theorem exists_answers (tr : Transpiler) (call : Call) : ∃ outcome, tr.Answers call outcome := by
  cases call with
  | transpile items =>
    by_cases hother : .other ∈ items
    · exact ⟨_, .refused hother⟩
    · obtain ⟨trees, rfl⟩ := Item.exists_trees hother
      obtain ⟨outcome, hwriting⟩ := tr.exists_writing trees
      exact ⟨outcome, .transpiled hwriting⟩
  | transpileSource source =>
    cases hread : parseSource .strict source with
    | error e => exact ⟨_, .unread hread⟩
    | ok trees =>
      obtain ⟨outcome, hwriting⟩ := tr.exists_writing trees.toList
      exact ⟨outcome, .read hread hwriting⟩
  | writeStatement t =>
    cases hline : tr.target.format.renderStatement t with
    | ok line => exact ⟨_, .added hline⟩
    | error e => exact ⟨_, .notAdded hline⟩
  | target => exact ⟨_, .target⟩

/-- Trees that are written on a new sheet are held, and the others go on behind them. -/
theorem writeAll_blank {front : List Tree} {lines : List String}
    (h : List.Forall₂ tr.target.format.Writes front lines) (behind : List Tree) :
    (Sheet.blank tr.target.format).writeAll (front ++ behind) =
      (tr.holding lines).sheet.writeAll behind := by
  have hfront : List.Forall₂ (Sheet.blank tr.target.format).format.Writes front lines := h
  have hlines : (Sheet.blank tr.target.format).lines ++ lines.toArray = lines.toArray :=
    Array.empty_append
  rw [Sheet.writeAll_append hfront behind, hlines]
  rfl

theorem Writing.writeTrees_eq {trees : List Tree} (h : tr.Writing trees outcome) :
    ((tr.writeTrees trees).1.map some, (tr.writeTrees trees).2) = outcome := by
  cases h with
  | @finished trees lines hlines =>
    have hall := writeAll_blank hlines []
    rw [List.append_nil, Sheet.writeAll] at hall
    rw [writeTrees, hall]
    rfl
  | @brokenOff front behind t lines e hfront ht =>
    have hall := writeAll_blank hfront (t :: behind)
    have hwrite : (tr.holding lines).sheet.write t = (.error e, (tr.holding lines).sheet) := by
      rw [Sheet.write, uniform_holding, holding, ht]
    rw [Sheet.writeAll, hwrite] at hall
    rw [writeTrees, hall]
    rfl

/-- A call comes to what it answers. -/
theorem Answers.perform_eq (h : tr.Answers call outcome) (huniform : tr.Uniform) :
    perform call tr = outcome := by
  cases h with
  | refused hother =>
    simp only [perform, transpile, Item.mapM_tree?_of_other hother]
    rfl
  | transpiled hwriting =>
    simp only [perform, transpile, Item.mapM_tree?]
    exact hwriting.writeTrees_eq
  | unread hread =>
    simp only [perform, transpileSource, hread]
    rfl
  | read hread hwriting =>
    simp only [perform, transpileSource, hread]
    exact hwriting.writeTrees_eq
  | @added t line hline =>
    -- A statement is written in the form of the sheet, which is that of the target.
    have hwrite : tr.sheet.write t =
        (.ok (), (tr.holding (tr.sheet.lines.toList ++ [line])).sheet) := by
      rw [Sheet.write, huniform, hline, holding, ← Array.toList_push, ← huniform]
    simp only [perform, writeStatement, hwrite]
    rfl
  | @notAdded t e ht =>
    have hwrite : tr.sheet.write t = (.error e, tr.sheet) := by
      rw [Sheet.write, huniform, ht]
    simp only [perform, writeStatement, hwrite]
    rfl
  | target => rfl

/-- Each call answers something, and so what it comes to. -/
theorem Uniform.answers (h : tr.Uniform) (call : Call) : tr.Answers call (perform call tr) := by
  obtain ⟨outcome, hanswers⟩ := tr.exists_answers call
  rwa [hanswers.perform_eq h]

/-! ## What calls keep -/

theorem Writing.uniform {trees : List Tree} (h : tr.Writing trees outcome) : outcome.2.Uniform := by
  cases h <;> exact uniform_holding tr _

theorem Writing.target_eq {trees : List Tree} (h : tr.Writing trees outcome) :
    outcome.2.target = tr.target := by
  cases h <;> rfl

theorem Answers.uniform (h : tr.Answers call outcome) (huniform : tr.Uniform) :
    outcome.2.Uniform := by
  cases h with
  | transpiled hwriting | read _ hwriting => exact hwriting.uniform
  | added => exact uniform_holding tr _
  | refused | unread | notAdded | target => exact huniform

theorem Answers.target_eq (h : tr.Answers call outcome) : outcome.2.target = tr.target := by
  cases h with
  | transpiled hwriting | read _ hwriting => exact hwriting.target_eq
  | added | refused | unread | notAdded | target => rfl

/-- Transpilers for one target answer a list with the same. -/
theorem Writing.transfer {trees : List Tree} (h : tr.Writing trees outcome)
    (htarget : tr.target = tr'.target) : ∃ after, tr'.Writing trees (outcome.1, after) := by
  cases h with
  | @finished trees lines hlines =>
    rw [htarget] at hlines
    exact ⟨_, .finished hlines⟩
  | brokenOff hfront ht =>
    rw [htarget] at hfront ht
    exact ⟨_, .brokenOff hfront ht⟩

/-- Transpilers for one target answer any call with the same. -/
theorem Answers.transfer (h : tr.Answers call outcome) (htarget : tr.target = tr'.target) :
    ∃ after, tr'.Answers call (outcome.1, after) := by
  cases h with
  | refused hother => exact ⟨_, .refused hother⟩
  | transpiled hwriting =>
    obtain ⟨after, hafter⟩ := hwriting.transfer htarget
    exact ⟨after, .transpiled hafter⟩
  | unread hread => exact ⟨_, .unread hread⟩
  | read hread hwriting =>
    obtain ⟨after, hafter⟩ := hwriting.transfer htarget
    exact ⟨after, .read hread hafter⟩
  | added hline =>
    rw [htarget] at hline
    exact ⟨_, .added hline⟩
  | notAdded ht =>
    rw [htarget] at ht
    exact ⟨_, .notAdded ht⟩
  | target =>
    rw [htarget]
    exact ⟨_, .target⟩

/-! ## All calls -/

theorem Uniform.perform_fst_eq (h : tr.Uniform) (h' : tr'.Uniform)
    (htarget : tr.target = tr'.target) (call : Call) : (perform call tr).1 = (perform call tr').1 := by
  obtain ⟨after, hafter⟩ := (h.answers call).transfer htarget
  rw [hafter.perform_eq h']

theorem Uniform.session_eq_iff (h : tr.Uniform) {calls : List Call}
    {outcomes : List (Outcome Transpiler Failure (Option String))} :
    session perform calls tr = outcomes ↔ tr.Runs calls outcomes := by
  constructor
  · rintro rfl
    induction calls generalizing tr with
    | nil => exact .nil
    | cons call calls ih =>
      exact .cons (h.answers call) (ih ((h.answers call).uniform h))
  · intro hruns
    induction hruns with
    | nil => rfl
    | @cons tr call calls outcome outcomes hcall _ ih =>
      rw [session_cons, hcall.perform_eq h, ih (hcall.uniform h)]

theorem Uniform.map_fst_session (h : tr.Uniform) (h' : tr'.Uniform)
    (htarget : tr.target = tr'.target) (calls : List Call) :
    (session perform calls tr).map Prod.fst = calls.map fun call => (perform call tr').1 := by
  induction calls generalizing tr with
  | nil => rfl
  | cons call calls ih =>
    have hcall := h.answers call
    rw [session_cons, List.map_cons, List.map_cons, h.perform_fst_eq h' htarget,
      ih (hcall.uniform h) (hcall.target_eq.trans htarget)]

/-- Whatever is asked of a fresh transpiler, and whichever calls fail, each call is answered as if
it were the first.  What is held after each of them is what comes of it: nothing is changed by what
is refused, a list leaves its own lines, up to the first tree that cannot be written, and a
statement is added behind the lines before it. -/
theorem session_independent {name : String} {fresh : Transpiler} (h : ofName name = .ok fresh)
    (calls : List Call) :
    (session perform calls fresh).map Prod.fst = calls.map (fun call => (perform call fresh).1) ∧
      ∀ outcomes, session perform calls fresh = outcomes ↔ fresh.Runs calls outcomes := by
  have huniform : fresh.Uniform := by
    unfold ofName at h
    split at h
    · cases h
      exact uniform_ofTarget _
    · cases h
  exact ⟨huniform.map_fst_session huniform rfl calls, fun _ => huniform.session_eq_iff⟩

/-- A list breaks off behind its first tree, which is held; a statement is added to it; a list with
something else than trees, a statement that cannot be written and a text that cannot be parsed
change nothing; and what can be parsed is written on a new sheet. -/
theorem session_independent_leftovers :
    let sum : Tree := .add (.integer (.int 1) ⟨1, 1⟩) (.identifier (.text "x") ⟨1, 5⟩) ⟨1, 3⟩
    let odd : Tree := ⟨"call", .null, ⟨2, 1⟩, []⟩
    let calls : List Call :=
      [.transpile [.tree sum, .tree (.add sum odd ⟨2, 2⟩), .tree sum], .writeStatement odd,
        .writeStatement sum, .transpile [.tree odd, .other], .transpileSource "1 +",
        .transpileSource "1 + 2; x"]
    let fresh := ofTarget .sexpr
    let outcomes := session perform calls fresh
    ofName "SExpr" = .ok fresh ∧ fresh.Runs calls outcomes ∧
      outcomes.map Prod.fst = calls.map (fun call => (perform call fresh).1) ∧
      outcomes.map (fun outcome => outcome.2.sheet.text) =
        ["(+ 1 x)", "(+ 1 x)", "(+ 1 x)\n(+ 1 x)", "(+ 1 x)\n(+ 1 x)", "(+ 1 x)\n(+ 1 x)",
          "(+ 1 2)\nx"] := by
  intro sum odd calls fresh outcomes
  have hfresh : ofName "SExpr" = .ok fresh := by decide +kernel
  obtain ⟨hanswers, hruns⟩ := session_independent hfresh calls
  exact ⟨hfresh, (hruns outcomes).mp rfl, hanswers, by decide +kernel⟩

end Transpiler
end SumLang
