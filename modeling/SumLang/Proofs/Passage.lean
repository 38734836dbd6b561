import SumLang.Proofs.Place
import SumLang.Token.Reader

/-!
# Where reading leads

Whatever is asked of a reader, its cursor moves by reading characters one after the other, and by
nothing else.  So the place of the cursor is that of the characters it has passed over: the index is
counted on by their number, and line and column are those behind them.  This holds from any index,
also from a negative one, where characters are found from the end of the text first, and it holds
behind calls that fail.

## Main definitions

* `Cursor.ReadsTo`: a cursor reads a run of characters and is then at another.
* `Cursor.Reaches`: some run leads from a cursor to another.

## Main statements

* `Cursor.ReadsTo.eq_stepAll`, `Cursor.ReadsTo.getElem?`: the run decides where it leads, and the
  index says which run it is.
* `Reader.reaches_perform`: each call moves the cursor by reading.
* `Reader.place_after_calls`: the place of the cursor after any calls.
-/
namespace SumLang

namespace Cursor

/-- Reading the characters of a run one after the other leads from a cursor to another. -/
inductive ReadsTo : Cursor → List Char → Cursor → Prop where
  | nil (c : Cursor) : ReadsTo c [] c
  | cons {c d e : Cursor} {ch : Char} {run : List Char} (first : c.next = .ok (ch, d))
      (rest : ReadsTo d run e) : ReadsTo c (ch :: run) e

namespace ReadsTo

variable {c d e : Cursor} {run more : List Char}

theorem append (h : c.ReadsTo run d) (hmore : d.ReadsTo more e) : c.ReadsTo (run ++ more) e := by
  induction h with
  | nil c => exact hmore
  | cons first rest ih => exact .cons first (ih hmore)

/-- The run alone decides where it leads. -/
theorem eq_stepAll (h : c.ReadsTo run d) : d = c.stepAll run := by
  induction h with
  | nil c => rw [stepAll_nil]
  | cons first rest ih =>
    obtain ⟨-, -, rfl⟩ := next_eq_ok_iff.mp first
    rw [stepAll_cons, ih]

/-- The run stands in the text at the indexes from that of the cursor on. -/
theorem getElem? (h : c.ReadsTo run d) {k : Nat} (hk : k < run.length) :
    run[k]? = signedGet? c.source (c.index + k) := by
  induction h generalizing k with
  | nil c => exact absurd hk (Nat.not_lt_zero k)
  | @cons c d e ch run first rest ih =>
    obtain ⟨-, hunder, rfl⟩ := next_eq_ok_iff.mp first
    cases k with
    | zero => simpa [under?] using hunder.symm
    | succ k =>
      have hindex : c.index + 1 + k = c.index + (k + 1 : Nat) := by omega
      have hrest := ih (Nat.lt_of_succ_lt_succ hk)
      simp only [step, hindex] at hrest
      rw [List.getElem?_cons_succ, hrest]

/-- Reading does not lead further than to the end of the text. -/
theorem index_le (h : c.ReadsTo run d) : d.index ≤ max c.index c.source.size := by
  induction h with
  | nil c => exact Int.le_max_left _ _
  | @cons c d e ch run first rest ih =>
    obtain ⟨hend, -, rfl⟩ := next_eq_ok_iff.mp first
    rw [atEnd_eq_false_iff] at hend
    simp only [step] at ih
    omega

end ReadsTo

/-- Reading some characters leads from a cursor to another. -/
def Reaches (c d : Cursor) : Prop := ∃ run, c.ReadsTo run d

namespace Reaches

variable {c d e : Cursor}

theorem refl (c : Cursor) : c.Reaches c := ⟨[], .nil c⟩

theorem trans (h : c.Reaches d) (h' : d.Reaches e) : c.Reaches e := by
  obtain ⟨run, hrun⟩ := h
  obtain ⟨more, hmore⟩ := h'
  exact ⟨run ++ more, hrun.append hmore⟩

theorem of_next {ch : Char} (h : c.next = .ok (ch, d)) : c.Reaches d := ⟨[ch], .cons h (.nil d)⟩

end Reaches

/-! ## Scans and tokens -/

theorem reaches_readOnto {member : Char → Bool} {text run : String} {c d : Cursor}
    (h : readOnto member text c = .ok (run, d)) : c.Reaches d := by
  fun_induction readOnto member text c with
  | case1 text c hstop =>
    obtain ⟨-, rfl⟩ : text = run ∧ c = d := by simpa using h
    exact .refl c
  | case2 text c hgo ch next hnext ih => exact (Reaches.of_next hnext).trans (ih h)
  | case3 text c hgo e hnext => simp at h

theorem reaches_readWhile {member : Char → Bool} {run : String} {c d : Cursor}
    (h : c.readWhile member = .ok (run, d)) : c.Reaches d :=
  reaches_readOnto h

theorem reaches_skipBlanks {c d : Cursor} (h : c.skipBlanks = .ok d) : c.Reaches d := by
  unfold skipBlanks at h
  cases hread : c.readWhile isBlank with
  | error e => simp [hread, Except.map] at h
  | ok result =>
    simp only [hread, Except.map, Except.ok.injEq] at h
    subst h
    exact reaches_readWhile hread

/-- A lexeme is read or left alone. -/
theorem reaches_ofLexeme {α : Type} {start : Cursor} {read : Except ScanError (α × Cursor)}
    (token : α → Except ScanError Token) (hread : ∀ a d, read = .ok (a, d) → start.Reaches d) :
    start.Reaches (Token.ofLexeme start read token).2 := by
  cases read with
  | ok lexeme => exact hread lexeme.1 lexeme.2 rfl
  | error e => exact .refl start

theorem reaches_read (table : Table) (start : Cursor) (cls : Token.Class) :
    start.Reaches (Token.read table start cls).2 := by
  cases cls with
  | word | number => exact reaches_ofLexeme _ fun _ _ => reaches_readWhile
  | symbol | illegal => exact reaches_ofLexeme _ fun _ _ => Reaches.of_next

theorem reaches_nextToken (table : Table) (c : Cursor) : c.Reaches (c.nextToken table).2 := by
  unfold nextToken
  split
  · exact .refl c
  · next start hskip =>
    have hstart := reaches_skipBlanks hskip
    split
    · exact hstart
    · exact hstart.trans (reaches_read table start _)

theorem reaches_drainOnto (table : Table) (tokens : Array Token) (c : Cursor) :
    c.Reaches (c.drainOnto table tokens).2 := by
  fun_induction drainOnto table tokens c with
  | case1 tokens c e d hnext | case2 tokens c t d hnext hend =>
    have hd := reaches_nextToken table c
    rwa [hnext] at hd
  | case3 tokens c t d hnext hend ih =>
    have hd := reaches_nextToken table c
    rw [hnext] at hd
    exact hd.trans ih

theorem next_of_le {c : Cursor} (h : c.source.size ≤ c.index) :
    c.next = .error (.pastEnd c.index c.pos.line) := by
  have hend : c.atEnd = true := by simpa [atEnd] using h
  rw [next, if_pos hend]

theorem next_of_lt {c : Cursor} (h : c.index < -c.source.size) : c.next = .error .beforeStart := by
  have hend : ¬ c.atEnd = true := by
    rw [Bool.not_eq_true, atEnd_eq_false_iff]
    omega
  have hunder : c.under? = none := by
    have hsome := (isSome_signedGet? c.source c.index).mp
    rw [← Option.not_isSome_iff_eq_none, under?]
    intro hget
    have hle := (hsome hget).1
    omega
  rw [next, if_neg hend, hunder]

/-- Reading a character fails at the end of the text and behind it, and further in front of the
text than it is long. -/
theorem next_eq_error_iff (c : Cursor) :
    (∃ e, c.next = .error e) ↔ c.source.size ≤ c.index ∨ c.index < -c.source.size := by
  constructor
  · rintro ⟨e, he⟩
    by_contra hinside
    have hget : c.under?.isSome := (isSome_signedGet? c.source c.index).mpr (by omega)
    obtain ⟨ch, hch⟩ := Option.isSome_iff_exists.mp hget
    have hend : c.atEnd = false := by
      rw [atEnd_eq_false_iff]
      omega
    rw [next_eq_ok_iff.mpr ⟨hend, hch, rfl⟩] at he
    exact absurd he (by simp)
  · rintro (hle | hlt)
    · exact ⟨_, next_of_le hle⟩
    · exact ⟨_, next_of_lt hlt⟩

end Cursor

namespace Reader

open Cursor

/-! ## Calls -/

/-- A call that moves the cursor if it succeeds fails where its reading does. -/
theorem moveTo_eq_error_iff {α : Type} {r : Reader} {reply : α → Reply}
    {read : Except ScanError (α × Cursor)} {e : ScanError} :
    (r.moveTo reply read).1 = .error e ↔ read = .error e := by
  cases read with
  | ok result => simp [moveTo]
  | error e' => simp [moveTo]

theorem reaches_moveTo {α : Type} (r : Reader) (reply : α → Reply)
    {read : Except ScanError (α × Cursor)}
    (hread : ∀ a d, read = .ok (a, d) → r.cursor.Reaches d) :
    r.cursor.Reaches (r.moveTo reply read).2.cursor := by
  cases read with
  | ok result => exact hread result.1 result.2 rfl
  | error e => exact .refl r.cursor

theorem reaches_advance (table : Table) (r : Reader) :
    r.cursor.Reaches (r.advance table).2.cursor := by
  have hnext := reaches_nextToken table r.cursor
  unfold advance
  split
  · exact .refl r.cursor
  · split
    · next t c hread => rwa [hread] at hnext
    · next e c hread => rwa [hread] at hnext

/-- Each call moves the cursor by reading, whether it answers or fails. -/
theorem reaches_perform (table : Table) (call : Call) (r : Reader) :
    r.cursor.Reaches (perform table call r).2.cursor := by
  cases call with
  | peek | current | atEnd | restart => exact .refl r.cursor
  | next => exact reaches_moveTo r _ fun _ _ => Reaches.of_next
  | readWhile set => exact reaches_moveTo r _ fun _ _ => reaches_readWhile
  | skipBlanks =>
    refine reaches_moveTo r _ ?_
    intro a d hskip
    cases hread : r.cursor.skipBlanks with
    | error e => simp [hread, Except.map] at hskip
    | ok c =>
      obtain rfl : c = d := by simpa [hread, Except.map] using hskip
      exact reaches_skipBlanks hread
  | nextToken => exact reaches_nextToken table r.cursor
  | drain => exact reaches_drainOnto table #[] r.cursor
  | advance => exact reaches_advance table r

theorem reaches_stateAfter (table : Table) (calls : List Call) (r : Reader) :
    r.cursor.Reaches (stateAfter (perform table) calls r).cursor := by
  refine stateAfter_induction (motive := fun state : Reader => r.cursor.Reaches state.cursor) ?_
    (.refl r.cursor)
  intro call _ state hstate
  exact hstate.trans (reaches_perform table call state)

/-- Wherever a cursor starts and whatever is asked of its reader, with calls that fail among it, the
cursor has passed over the characters at the indexes from that of the start on, where a negative
index counts from the end of the text.  It is not in front of the start, and behind the end of the
text only if the start is.  A line feed passed opens a line, and the column counts the characters
behind the last of them, or goes on from that of the start if there is none.  Reading a further
character fails outside the text, and then nothing is moved. -/
theorem place_after_calls (table : Table) (calls : List Call) (r : Reader) :
    let r' := stateAfter (perform table) calls r
    let c := r.cursor
    let d := r'.cursor
    d.source = c.source ∧ c.index ≤ d.index ∧ d.index ≤ max c.index c.source.size ∧
      (∃ passed : List Char, passed.length = d.index - c.index ∧
        (∀ k < passed.length, passed[k]? = signedGet? c.source (c.index + k)) ∧
        d.pos.line = c.pos.line + passed.count '\n' ∧
        d.pos.column =
          (if '\n' ∈ passed then 1 + (Position.lastLineLength passed : Int)
            else c.pos.column + passed.length)) ∧
      ((∃ e, (perform table .next r').1 = .error e) ↔
        c.source.size ≤ d.index ∨ d.index < -c.source.size) ∧
      ∀ e, (perform table .next r').1 = .error e → (perform table .next r').2 = r' := by
  intro r' c d
  obtain ⟨passed, hpassed⟩ : c.Reaches d := reaches_stateAfter table calls r
  have hd := hpassed.eq_stepAll
  have hsource : d.source = c.source := by rw [hd]; rfl
  have hindex : d.index = c.index + passed.length := by rw [hd]; rfl
  have hpos : d.pos = c.pos.advanceAll passed := by rw [hd]; rfl
  rw [Position.advanceAll_eq] at hpos
  refine ⟨hsource, by omega, hpassed.index_le, ⟨passed, by omega, ?_, ?_, ?_⟩, ?_, ?_⟩
  · intro k hk
    exact hpassed.getElem? hk
  · rw [hpos]
  · rw [hpos]
  · rw [← hsource, ← next_eq_error_iff]
    exact exists_congr fun e => moveTo_eq_error_iff
  · intro e he
    have hnext : d.next = .error e := moveTo_eq_error_iff.mp he
    rw [perform, hnext]
    rfl

/-- From `-2` on, the last two characters are passed before the first two: two line feeds, of which
the second stands at the end. -/
example :
    (stateAfter (perform .standard) [.next, .nextToken, .next]
      (ofCursor ⟨#['a', '\n', 'b'], -2, ⟨7, 3⟩⟩)).cursor = ⟨#['a', '\n', 'b'], 2, ⟨9, 1⟩⟩ := by
  decide +kernel

end Reader
end SumLang
