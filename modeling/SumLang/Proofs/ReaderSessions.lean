import SumLang.Proofs.Lexing
import SumLang.Token.Reader

/-!
# Sessions with a reader

Several callers may take tokens from one reader: by single calls, all at once, or by going through
them, where going through them may begin anew at any time.  All of them share the cursor.  At any
time some tokens of the text are still to come, and then the one that ends it, over and over.  A
call takes what it delivers from the front of these, so that in the order of the calls no token is
left out and none comes twice.  Whether going through the tokens is finished is another matter: it
is when it has itself come to the end since it was begun, and not because another caller has.

## Main definitions

* `Cursor.Yields`: the tokens that are still to come at a cursor.
* `Reader.HasEnded`: going through the tokens has come to their end.

## Main statements

* `Cursor.Yields.nextToken`, `Cursor.Yields.drain`: what is taken from the tokens to come.
* `Reader.perform_yields`: each call takes what it delivers.
* `Reader.finished_iff_hasEnded`: when going through the tokens is finished.
* `Reader.session_delivers`: all of it for any calls on a fresh reader.
-/
namespace SumLang

namespace Cursor

/-- Calls for tokens at a cursor will answer with the tokens in `ahead`, none of which ends a text,
and from then on with the one that ends the text at the place `stop`. -/
structure Yields (c : Cursor) (ahead : List Token) (stop : Position) : Prop where
  index_nonneg : 0 ≤ c.index
  scan_eq : scan .standard c.pos c.rest = (ahead ++ [Token.eof stop]).map .ok
  isEof : ∀ t ∈ ahead, t.isEof = false

variable {c : Cursor} {ahead : List Token} {stop : Position} {t : Token}

/-- A text that is tokenized yields its tokens. -/
theorem yields_ofString {text : String} {front : Array Token}
    (h : tokenize .standard text = .ok (front.push (.eof stop)))
    (hfront : ∀ t ∈ front, t.isEof = false) : (ofString text).Yields front.toList stop := by
  obtain ⟨pieces, hlexed⟩ := lexed_of_tokenize Table.neverEnds_standard h
  have hscan := hlexed.scan_eq
  rw [← Position.advanceAll_start] at hscan
  refine ⟨Int.le_refl 0, ?_, by simpa using hfront⟩
  rw [rest_ofString, ← Array.toList_push]
  exact hscan

/-- A token that is to come is the answer to the next call, and then the others are to come. -/
theorem Yields.nextToken_cons (h : c.Yields (t :: ahead) stop) :
    ∃ d, c.nextToken .standard = (.ok t, d) ∧ d.Yields ahead stop := by
  have hscan := h.scan_eq
  rcases nextToken_scan .standard h.index_nonneg with
    ⟨d, -, hend⟩ | ⟨ch, answer, d, hnext, hd, hcons, -⟩
  · rw [hend] at hscan
    simp at hscan
  · obtain ⟨rfl, hrest⟩ : answer = .ok t ∧
        scan .standard d.pos d.rest = (ahead ++ [Token.eof stop]).map .ok := by
      rw [hcons] at hscan
      simpa using hscan
    exact ⟨d, hnext, hd, hrest, (List.forall_mem_cons.mp h.isEof).2⟩

/-- At the end every call answers so, at the same place. -/
theorem Yields.nextToken_nil (h : c.Yields [] stop) :
    ∃ d, c.nextToken .standard = (.ok (.eof stop), d) ∧ d.Yields [] stop := by
  have hscan := h.scan_eq
  rcases blank_or_split c.rest with hblank | ⟨gap, ch, tail, hrest, hgap, hch⟩
  · rw [scan_of_blank .standard c.pos hblank] at hscan
    obtain rfl : c.pos.advanceAll c.rest = stop := by simpa [Token.eof] using hscan
    have hnone : (c.stepAll c.rest).rest = [] :=
      rest_stepAll_of_append h.index_nonneg (List.append_nil _).symm
    refine ⟨c.stepAll c.rest, nextToken_of_blank .standard h.index_nonneg hblank,
      index_stepAll_nonneg h.index_nonneg _, ?_, h.isEof⟩
    rw [hnone, scan_of_blank .standard _ (List.forall_mem_nil _)]
    rfl
  · -- A lexeme makes a token of another type.
    rw [hrest, scan_of_lexeme .standard c.pos hgap hch] at hscan
    have htoken := Token.Class.isEof_token Table.neverEnds_standard (List.cons.inj hscan).1
    simp [Token.eof, Token.isEof] at htoken

/-- A call for a token takes it from what is to come, where the end comes over and over. -/
theorem Yields.nextToken (h : c.Yields ahead stop) :
    ∃ t d ahead' n, c.nextToken .standard = (.ok t, d) ∧ d.Yields ahead' stop ∧
      t :: ahead' = ahead ++ List.replicate n (.eof stop) := by
  cases ahead with
  | nil =>
    obtain ⟨d, hnext, hd⟩ := h.nextToken_nil
    exact ⟨_, d, [], 1, hnext, hd, rfl⟩
  | cons t ahead =>
    obtain ⟨d, hnext, hd⟩ := h.nextToken_cons
    exact ⟨t, d, ahead, 0, hnext, hd, by simp⟩

/-- Draining takes all that is to come, and the end once. -/
theorem Yields.drainOnto (h : c.Yields ahead stop) (tokens : Array Token) :
    ∃ d, c.drainOnto .standard tokens = (.ok (tokens ++ ahead.toArray.push (.eof stop)), d) ∧
      d.Yields [] stop := by
  induction ahead generalizing c tokens with
  | nil =>
    obtain ⟨d, hnext, hd⟩ := h.nextToken_nil
    refine ⟨d, ?_, hd⟩
    rw [Cursor.drainOnto]
    split
    · next hfails => simp [hnext] at hfails
    · next t d' hreads =>
      obtain ⟨rfl, rfl⟩ : .eof stop = t ∧ d = d' := by simpa [hnext] using hreads
      have heof : (Token.eof stop).isEof = true := rfl
      rw [dif_pos heof]
      simp
  | cons u ahead ih =>
    obtain ⟨d, hnext, hd⟩ := h.nextToken_cons
    have hu := h.isEof u List.mem_cons_self
    obtain ⟨d', hdrain, hd'⟩ := ih hd (tokens.push u)
    refine ⟨d', ?_, hd'⟩
    rw [Cursor.drainOnto]
    split
    · next hfails => simp [hnext] at hfails
    · next t e hreads =>
      obtain ⟨rfl, rfl⟩ : u = t ∧ d = e := by simpa [hnext] using hreads
      rw [dif_neg (by simp [hu]), hdrain]
      simp

theorem Yields.drain (h : c.Yields ahead stop) :
    ∃ d, c.drain .standard = (.ok (ahead.toArray.push (.eof stop)), d) ∧ d.Yields [] stop := by
  obtain ⟨d, hdrain, hd⟩ := h.drainOnto #[]
  exact ⟨d, by simpa [Cursor.drain] using hdrain, hd⟩

/-- In a text there is always an answer about the current character. -/
theorem exists_current_eq_ok (h : 0 ≤ c.index) : ∃ answer, c.current = .ok answer := by
  by_cases hend : c.atEnd = true
  · exact ⟨none, by simp [current, hend]⟩
  · have hne : c.rest ≠ [] := fun hnil => hend ((atEnd_iff_rest h).mpr hnil)
    obtain ⟨ch, tail, hrest⟩ := List.exists_cons_of_ne_nil hne
    have hunder : c.under? = some ch := by
      rw [under?_eq_peek h, peek_zero h, hrest]
      rfl
    exact ⟨some ch, by simp [current, hend, hunder]⟩

end Cursor

namespace Reader

/-! ## Calls -/

/-- Whether a call reads characters, and not tokens. -/
def Call.readsCharacters : Call → Bool
  | next | skipBlanks | readWhile _ => true
  | peek _ | current | atEnd | nextToken | drain | restart | advance => false

/-- The tokens that a reader delivers with an answer. -/
def Reply.delivered : Reply → List Token
  | token t => [t]
  | tokens ts => ts.toList
  | nothing | text _ | truth _ | finished => []

@[simp] theorem Reply.delivered_ofPeek (answer : Option Char) :
    (Reply.ofPeek answer).delivered = [] := by
  cases answer <;> rfl

@[simp] theorem Reply.delivered_ofCurrent (answer : Option Char) :
    (Reply.ofCurrent answer).delivered = [] := by
  cases answer <;> rfl

/-- The tokens that a reader delivers with the outcome of a call. -/
def deliveredBy (outcome : Outcome Reader ScanError Reply) : List Token :=
  match outcome.1 with
  | .ok reply => reply.delivered
  | .error _ => []

variable {r : Reader} {ahead : List Token} {stop : Position} {call : Call}

/-- Going through tokens that is finished stays so. -/
theorem advance_of_finished (table : Table) (h : r.finished = true) :
    r.advance table = (.ok .finished, r) := by
  rw [advance, if_pos h]

/-- Going through tokens that is not finished takes one of those to come. -/
theorem advance_yields (h : r.cursor.Yields ahead stop) (hfinished : ¬ r.finished = true) :
    ∃ t d ahead' n, r.advance .standard = (.ok (.token t), ⟨d, t.isEof⟩) ∧ d.Yields ahead' stop ∧
      t :: ahead' = ahead ++ List.replicate n (.eof stop) := by
  obtain ⟨t, d, ahead', n, hnext, hd, htaken⟩ := h.nextToken
  refine ⟨t, d, ahead', n, ?_, hd, htaken⟩
  rw [advance, if_neg hfinished, hnext]

/-- Draining takes all tokens to come. -/
theorem drain_yields (h : r.cursor.Yields ahead stop) :
    ∃ d, perform .standard .drain r =
      (.ok (.tokens (ahead.toArray.push (.eof stop))), { r with cursor := d }) ∧
        d.Yields [] stop := by
  obtain ⟨d, hdrain, hd⟩ := h.drain
  refine ⟨d, ?_, hd⟩
  rw [perform, hdrain]
  rfl

/-- Each call that reads no characters answers.  It takes what it delivers from what is to come. -/
theorem perform_yields (h : r.cursor.Yields ahead stop) (hcall : call.readsCharacters = false) :
    ∃ reply r' ahead' n, perform .standard call r = (.ok reply, r') ∧
      r'.cursor.Yields ahead' stop ∧
      reply.delivered ++ ahead' = ahead ++ List.replicate n (.eof stop) := by
  cases call with
  | next | skipBlanks | readWhile => simp [Call.readsCharacters] at hcall
  | peek offset => exact ⟨.ofPeek (r.cursor.peek offset), r, ahead, 0, rfl, h, by simp⟩
  | current =>
    obtain ⟨answer, hcurrent⟩ := Cursor.exists_current_eq_ok h.index_nonneg
    exact ⟨.ofCurrent answer, r, ahead, 0, by simp [perform, hcurrent, Except.map], h, by simp⟩
  | atEnd => exact ⟨.truth r.cursor.atEnd, r, ahead, 0, rfl, h, by simp [Reply.delivered]⟩
  | nextToken =>
    obtain ⟨t, d, ahead', n, hnext, hd, htaken⟩ := h.nextToken
    exact ⟨.token t, { r with cursor := d }, ahead', n, by simp [perform, hnext, Except.map], hd,
      htaken⟩
  | drain =>
    obtain ⟨d, hdrain, hd⟩ := drain_yields h
    exact ⟨_, _, [], 1, hdrain, hd, by simp [Reply.delivered]⟩
  | restart =>
    exact ⟨.nothing, { r with finished := false }, ahead, 0, rfl, h, by simp [Reply.delivered]⟩
  | advance =>
    by_cases hfinished : r.finished = true
    · exact ⟨_, r, ahead, 0, advance_of_finished .standard hfinished, h, by simp [Reply.delivered]⟩
    · obtain ⟨t, d, ahead', n, hadvance, hd, htaken⟩ := advance_yields h hfinished
      exact ⟨_, _, ahead', n, hadvance, hd, htaken⟩

/-- Calls one after the other answer, and deliver what is to come, where the end comes over and
over. -/
theorem session_yields (h : r.cursor.Yields ahead stop) {calls : List Call}
    (hcalls : ∀ call ∈ calls, call.readsCharacters = false) :
    (∀ outcome ∈ session (perform .standard) calls r, ∃ reply, outcome.1 = .ok reply) ∧
    ∃ ahead' n, (stateAfter (perform .standard) calls r).cursor.Yields ahead' stop ∧
      (session (perform .standard) calls r).flatMap deliveredBy ++ ahead' =
        ahead ++ List.replicate n (.eof stop) := by
  induction calls generalizing r ahead with
  | nil => exact ⟨by simp, ahead, 0, h, by simp⟩
  | cons call calls ih =>
    rw [List.forall_mem_cons] at hcalls
    obtain ⟨reply, r', between, n, hperform, hyields, htaken⟩ := perform_yields h hcalls.1
    obtain ⟨hanswers, ahead', m, hafter, hrest⟩ := ih hyields hcalls.2
    rw [session_cons, stateAfter_cons, hperform]
    refine ⟨List.forall_mem_cons.mpr ⟨⟨reply, rfl⟩, hanswers⟩, ahead', m + n, hafter, ?_⟩
    calc
      reply.delivered ++ (session (perform .standard) calls r').flatMap deliveredBy ++ ahead' =
          reply.delivered ++ between ++ List.replicate m (.eof stop) := by
        rw [List.append_assoc, hrest, List.append_assoc]
      _ = ahead ++ List.replicate (m + n) (.eof stop) := by
        rw [htaken, List.append_assoc, List.replicate_append_replicate, Nat.add_comm]

/-! ## Going through the tokens -/

/-- Going through the tokens has come to their end: of the calls on a reader one has answered with
the token that ends the text when it was to go on, and since then none has begun anew. -/
def HasEnded (table : Table) (calls : List Call) (r : Reader) : Prop :=
  ∃ front behind t, calls = front ++ .advance :: behind ∧ .restart ∉ behind ∧
    (perform table .advance (stateAfter (perform table) front r)).1 = .ok (.token t) ∧
    t.isEof = true

/-- The last call decides, or leaves it as it was. -/
theorem hasEnded_append_singleton (table : Table) (calls : List Call) (call : Call) (r : Reader) :
    HasEnded table (calls ++ [call]) r ↔
      (call = .advance ∧ ∃ t,
        (perform table .advance (stateAfter (perform table) calls r)).1 = .ok (.token t) ∧
          t.isEof = true) ∨
      call ≠ .restart ∧ HasEnded table calls r := by
  constructor
  · rintro ⟨front, behind, t, hsplit, hbehind, hanswer, ht⟩
    rcases List.eq_nil_or_concat behind with rfl | ⟨behind, last, rfl⟩
    · obtain ⟨rfl, hlast⟩ := List.append_inj' hsplit rfl
      obtain rfl : call = .advance := by simpa using hlast
      exact .inl ⟨rfl, t, hanswer, ht⟩
    · rw [List.concat_eq_append] at hsplit hbehind
      rw [← List.cons_append, ← List.append_assoc] at hsplit
      obtain ⟨rfl, hlast⟩ := List.append_inj' hsplit rfl
      obtain rfl : call = last := by simpa using hlast
      simp only [List.mem_append, List.mem_singleton, not_or] at hbehind
      exact .inr ⟨Ne.symm hbehind.2, front, behind, t, rfl, hbehind.1, hanswer, ht⟩
  · rintro (⟨rfl, t, hanswer, ht⟩ | ⟨hcall, front, behind, t, rfl, hbehind, hanswer, ht⟩)
    · exact ⟨calls, [], t, rfl, List.not_mem_nil, hanswer, ht⟩
    · refine ⟨front, behind ++ [call], t, by simp, ?_, hanswer, ht⟩
      simp only [List.mem_append, List.mem_singleton, not_or]
      exact ⟨hbehind, Ne.symm hcall⟩

/-- Where tokens are yielded, going through them is finished exactly if it has ended. -/
theorem finished_iff_hasEnded {c : Cursor} (h : c.Yields ahead stop) {calls : List Call}
    (hcalls : ∀ call ∈ calls, call.readsCharacters = false) :
    (stateAfter (perform .standard) calls (ofCursor c)).finished = true ↔
      HasEnded .standard calls (ofCursor c) := by
  -- The last call decides, so the induction is from the end.
  induction calls using List.reverseRecOn with
  | nil => simp [HasEnded, ofCursor]
  | append_singleton calls call ih =>
    obtain ⟨hbefore, hcall⟩ := List.forall_mem_append.mp hcalls
    obtain ⟨-, ahead', n, hyields, -⟩ := session_yields (r := ofCursor c) h hbefore
    rw [hasEnded_append_singleton, ← ih hbefore, stateAfter_append]
    generalize stateAfter (perform .standard) calls (ofCursor c) = r at hyields
    cases call with
    | next | skipBlanks | readWhile => simp [Call.readsCharacters] at hcall
    | peek | current | atEnd | nextToken | drain => simp [perform]
    | restart => simp [perform]
    | advance =>
      by_cases hfinished : r.finished = true
      · simp [perform, advance_of_finished .standard hfinished, hfinished]
      · obtain ⟨t, d, -, -, hadvance, -⟩ := advance_yields hyields hfinished
        simp [perform, hadvance, hfinished]

/-! ## All calls -/

/-- However a fresh reader of a text that is tokenized is driven, short of reading characters, no
call fails, and what the calls deliver comes in the order of the tokens, with the end of the text
over and over, always at the same place.  Going through the tokens is finished exactly if it has
itself come to the end, and then changes nothing; else it goes on with a token.  Draining always
delivers the tokens that are still to come, and the end once. -/
theorem session_delivers {source : String} {tokens : Array Token}
    (h : tokenize .standard source = .ok tokens) (calls : List Call)
    (hcalls : ∀ call ∈ calls, call.readsCharacters = false) :
    let fresh := ofCursor (.ofString source)
    let outcomes := session (perform .standard) calls fresh
    let r := stateAfter (perform .standard) calls fresh
    ∃ (front : Array Token) (stop : Position), tokens = front.push (.eof stop) ∧
      (∀ t ∈ front, t.isEof = false) ∧
      (∀ outcome ∈ outcomes, ∃ reply, outcome.1 = .ok reply) ∧
      (∃ n, outcomes.flatMap deliveredBy <+: tokens.toList ++ List.replicate n (.eof stop)) ∧
      (HasEnded .standard calls fresh → perform .standard .advance r = (.ok .finished, r)) ∧
      (¬ HasEnded .standard calls fresh →
        ∃ t, (perform .standard .advance r).1 = .ok (.token t)) ∧
      ∃ (rest : Array Token) (n : Nat), (∀ t ∈ rest, t.isEof = false) ∧
        (perform .standard .drain r).1 = .ok (.tokens (rest.push (.eof stop))) ∧
        outcomes.flatMap deliveredBy ++ (rest.push (.eof stop)).toList =
          tokens.toList ++ List.replicate n (.eof stop) := by
  intro fresh outcomes r
  obtain ⟨front, rfl, hfront⟩ := exists_push_eof_of_tokenize Table.neverEnds_standard h
  have hfresh := Cursor.yields_ofString h hfront
  generalize Position.behind source.toList = stop at h hfresh
  have hended : r.finished = true ↔ HasEnded .standard calls fresh :=
    finished_iff_hasEnded hfresh hcalls
  obtain ⟨hanswers, ahead, n, hyields, hdelivered⟩ := session_yields (r := fresh) hfresh hcalls
  have hyields : r.cursor.Yields ahead stop := hyields
  have hwhole : outcomes.flatMap deliveredBy ++ (ahead.toArray.push (.eof stop)).toList =
      (front.push (.eof stop)).toList ++ List.replicate n (.eof stop) := by
    rw [Array.toList_push, ← List.append_assoc, hdelivered, Array.toList_push, List.append_assoc,
      List.append_assoc, ← List.replicate_succ', List.singleton_append, ← List.replicate_succ]
  refine ⟨front, stop, rfl, hfront, hanswers, ⟨n, ?_⟩, ?_, ?_, ahead.toArray, n, ?_, ?_, hwhole⟩
  · rw [← hwhole]
    exact List.prefix_append _ _
  · intro hhas
    exact advance_of_finished .standard (hended.mpr hhas)
  · intro hhas
    obtain ⟨t, d, -, -, hadvance, -⟩ := advance_yields hyields (mt hended.mp hhas)
    exact ⟨t, congrArg Prod.fst hadvance⟩
  · simpa using hyields.isEof
  · obtain ⟨d, hdrain, -⟩ := drain_yields hyields
    exact congrArg Prod.fst hdrain

/-- In `a 1;` one caller goes through the tokens while others take some in between: the first token
comes to it, the second to a single call, and the others to one who drains the reader.  It has not
come to the end by this, and is given the end once more before it is finished. -/
theorem session_delivers_shared :
    let source := "a 1;"
    let fresh := ofCursor (.ofString source)
    let calls : List Call := [.advance, .peek 0, .nextToken, .drain, .advance, .current]
    let tokens : Array Token :=
      #[⟨TokenType.ident, .text "a", ⟨1, 1⟩⟩, ⟨TokenType.int, .int 1, ⟨1, 3⟩⟩,
        ⟨TokenType.semicolon, .text ";", ⟨1, 4⟩⟩, .eof ⟨1, 5⟩]
    let r := stateAfter (perform .standard) calls fresh
    tokenize .standard source = .ok tokens ∧ (∀ call ∈ calls, call.readsCharacters = false) ∧
      (∃ n, (session (perform .standard) calls fresh).flatMap deliveredBy <+:
        tokens.toList ++ List.replicate n (.eof ⟨1, 5⟩)) ∧
      (session (perform .standard) calls fresh).map deliveredBy =
        [[⟨TokenType.ident, .text "a", ⟨1, 1⟩⟩], [], [⟨TokenType.int, .int 1, ⟨1, 3⟩⟩],
          [⟨TokenType.semicolon, .text ";", ⟨1, 4⟩⟩, .eof ⟨1, 5⟩], [.eof ⟨1, 5⟩], []] ∧
      perform .standard .advance r = (.ok .finished, r) := by
  intro source fresh calls tokens r
  have htokens : tokenize .standard source = .ok tokens := by decide +kernel
  have hcalls : ∀ call ∈ calls, call.readsCharacters = false := by decide
  obtain ⟨front, stop, hpush, -, -, hprefix, hfinished, -⟩ := session_delivers htokens calls hcalls
  obtain ⟨hstop, -⟩ := Array.push_eq_push.mp (show tokens.pop.push (.eof ⟨1, 5⟩) = _ from hpush)
  obtain rfl : ⟨1, 5⟩ = stop := congrArg Token.pos hstop
  have hended : HasEnded .standard calls fresh :=
    ⟨[.advance, .peek 0, .nextToken, .drain], [.current], .eof ⟨1, 5⟩, rfl, by decide,
      by decide +kernel, rfl⟩
  exact ⟨htokens, hcalls, hprefix, by decide +kernel, hfinished hended⟩

end Reader
end SumLang
