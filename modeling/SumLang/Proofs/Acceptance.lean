import SumLang.Proofs.Separation

/-!
# Which tokens make a program

A list of tokens is a program if it has no tokens but semicolons, plus signs and operands, and
every plus stands between two operands.  This is a condition on neighbours, and says nothing of
statements; going through the tokens once, with one of three phases in mind, decides it.

The phases also tell how far a list that is no program can be read: up to the last prefix that
some tokens would complete.  The first failure that is found among tokens is at that place.

## Main statements

* `accepted_iff_run`, `viable_iff_run`: programs and the beginnings of programs, by phases.
* `Grammar.explains_firstFault`: where nothing fails the tokens are a program, and else they
  break off where the first failure is.
-/
namespace SumLang

/-- The tokens are a program. -/
structure Accepted (tokens : List Token) : Prop where
  known : ∀ t ∈ tokens, t.isSemicolon = true ∨ t.isPlus = true ∨ t.isOperand = true
  between : ∀ before t after, tokens = before ++ t :: after → t.isPlus = true →
    before.getLast?.any Token.isOperand = true ∧ after.head?.any Token.isOperand = true

/-- What has just been read of a program. -/
inductive Phase where
  /-- Nothing of a statement. -/
  | fresh
  /-- An operand. -/
  | complete
  /-- A plus, which needs an operand. -/
  | pending
deriving DecidableEq

namespace Phase

/-- The phase behind a token, if it may stand there. -/
def next (p : Phase) (t : Token) : Option Phase :=
  if t.isOperand then some complete
  else if t.isPlus then if p = complete then some pending else none
  else if t.isSemicolon then if p = pending then none else some fresh
  else none

/-- The phase behind tokens, if they may stand there. -/
def run (p : Phase) : List Token → Option Phase
  | [] => some p
  | t :: ts => (p.next t).bind fun q => run q ts

@[simp] theorem run_nil (p : Phase) : p.run [] = some p := rfl

theorem run_cons (p : Phase) (t : Token) (ts : List Token) :
    p.run (t :: ts) = (p.next t).bind fun q => q.run ts := rfl

theorem run_append (p : Phase) (ts us : List Token) :
    p.run (ts ++ us) = (p.run ts).bind fun q => q.run us := by
  induction ts generalizing p with
  | nil => rfl
  | cons t ts ih =>
    rw [List.cons_append, run_cons, run_cons, Option.bind_assoc]
    congr 1
    funext q
    exact ih q

theorem next_of_operand (p : Phase) {t : Token} (ht : t.isOperand = true) :
    p.next t = some complete := by
  rw [next, if_pos ht]

theorem next_of_plus (p : Phase) {t : Token} (ht : t.isPlus = true) :
    p.next t = if p = complete then some pending else none := by
  have hoperand : t.isOperand = false := Token.Part.excludes .plus .operand (by decide) ht
  rw [next, if_neg (by simp [hoperand]), if_pos ht]

theorem next_of_semicolon (p : Phase) {t : Token} (ht : t.isSemicolon = true) :
    p.next t = if p = pending then none else some fresh := by
  have hoperand : t.isOperand = false := Token.Part.excludes .semicolon .operand (by decide) ht
  have hplus : t.isPlus = false := Token.Part.excludes .semicolon .plus (by decide) ht
  rw [next, if_neg (by simp [hoperand]), if_neg (by simp [hplus]), if_pos ht]

/-- Behind a plus nothing but an operand may stand. -/
theorem pending_next {t : Token} (ht : t.isOperand = false) : pending.next t = none := by
  simp [next, ht]

/-- Where a statement may begin, only a semicolon may stand if not an operand. -/
theorem fresh_next {t : Token} (ht : t.isOperand = false) (hsemicolon : t.isSemicolon = false) :
    fresh.next t = none := by
  simp [next, ht, hsemicolon]

/-- Behind an operand, everything but a plus goes on as where a statement may begin. -/
theorem complete_next {t : Token} (ht : t.isPlus = false) : complete.next t = fresh.next t := by
  simp [next, ht]

/-- Chains are read in every phase. -/
theorem run_allTokens (more : List Addition) :
    complete.run (Addition.allTokens more) = some complete := by
  induction more with
  | nil => rfl
  | cons a more ih =>
    have hoperand := a.operand.isOperand
    rw [Addition.allTokens_cons, run_cons, next_of_plus _ a.isPlus, if_pos rfl, Option.bind_some,
      run_cons, next_of_operand _ hoperand, Option.bind_some, ih]

theorem run_tokens (p : Phase) (c : Chain) : p.run c.tokens = some complete := by
  have hoperand := c.first.isOperand
  rw [Chain.tokens, run_cons, next_of_operand p hoperand, Option.bind_some, run_allTokens]

end Phase

open Phase

/-! ## Programs by phases -/

/-- A property of all ways to point at a token of a list: of the first token, and of all ways
to point at one of the rest. -/
theorem forall_split_cons {motive : List Token → Token → List Token → Prop} {x : Token}
    {xs : List Token} :
    (∀ before t after, x :: xs = before ++ t :: after → motive before t after) ↔
      motive [] x xs ∧
        ∀ before t after, xs = before ++ t :: after → motive (x :: before) t after := by
  constructor
  · intro h
    refine ⟨h [] x xs rfl, fun before t after heq => h (x :: before) t after ?_⟩
    rw [heq, List.cons_append]
  · rintro ⟨hfirst, hrest⟩ before t after heq
    rcases List.cons_eq_append_iff.mp heq with ⟨rfl, heq⟩ | ⟨before, rfl, rfl⟩
    · obtain ⟨rfl, rfl⟩ : x = t ∧ xs = after := by simpa using heq
      exact hfirst
    · exact hrest before t after rfl

/-- The tokens complete a program of which the last token read was an operand or was none. -/
structure AcceptedFrom (operand : Bool) (tokens : List Token) : Prop where
  known : ∀ t ∈ tokens, t.isSemicolon = true ∨ t.isPlus = true ∨ t.isOperand = true
  between : ∀ before t after, tokens = before ++ t :: after → t.isPlus = true →
    (before.getLast?.map Token.isOperand).getD operand = true ∧
      after.head?.any Token.isOperand = true

theorem accepted_iff_acceptedFrom (tokens : List Token) :
    Accepted tokens ↔ AcceptedFrom false tokens := by
  have hlast : ∀ before : List Token,
      (before.getLast?.map Token.isOperand).getD false = before.getLast?.any Token.isOperand := by
    intro before
    cases before.getLast? <;> rfl
  constructor
  · intro h
    refine ⟨h.known, ?_⟩
    intro before t after heq ht
    rw [hlast]
    exact h.between before t after heq ht
  · intro h
    refine ⟨h.known, ?_⟩
    intro before t after heq ht
    rw [← hlast]
    exact h.between before t after heq ht

theorem acceptedFrom_nil (operand : Bool) : AcceptedFrom operand [] :=
  ⟨by simp, by simp⟩

theorem acceptedFrom_cons (operand : Bool) (t : Token) (ts : List Token) :
    AcceptedFrom operand (t :: ts) ↔
      (t.isSemicolon = true ∨ t.isPlus = true ∨ t.isOperand = true) ∧
        (t.isPlus = true → operand = true ∧ ts.head?.any Token.isOperand = true) ∧
        AcceptedFrom t.isOperand ts := by
  have hlast : ∀ before : List Token, ((t :: before).getLast?.map Token.isOperand).getD operand =
      (before.getLast?.map Token.isOperand).getD t.isOperand := by
    intro before
    rw [List.getLast?_cons]
    cases before.getLast? <;> rfl
  constructor
  · intro h
    obtain ⟨hknown, hrest⟩ := List.forall_mem_cons.mp h.known
    obtain ⟨hfirst, hbetween⟩ := forall_split_cons.mp h.between
    refine ⟨hknown, hfirst, hrest, ?_⟩
    intro before u after heq hu
    rw [← hlast]
    exact hbetween before u after heq hu
  · rintro ⟨hknown, hfirst, hrest⟩
    refine ⟨List.forall_mem_cons.mpr ⟨hknown, hrest.known⟩, forall_split_cons.mpr ⟨hfirst, ?_⟩⟩
    intro before u after heq hu
    rw [hlast]
    exact hrest.between before u after heq hu

/-- Going on from a phase, the tokens complete a program exactly if they may stand there and
leave no plus without its operand. -/
theorem acceptedFrom_iff_run (p : Phase) (tokens : List Token) :
    (AcceptedFrom (p = complete) tokens ∧
        (p = pending → tokens.head?.any Token.isOperand = true)) ↔
      ∃ q, p.run tokens = some q ∧ q ≠ pending := by
  induction tokens generalizing p with
  | nil => simp [acceptedFrom_nil]
  | cons t ts ih =>
    rw [acceptedFrom_cons, run_cons]
    -- The next phase forgets all but whether the token was an operand, and so does `AcceptedFrom`.
    by_cases hoperand : t.isOperand = true
    · have hplus : t.isPlus = false := Token.Part.excludes .operand .plus (by decide) hoperand
      rw [next_of_operand p hoperand, Option.bind_some, ← ih]
      simp [hoperand, hplus]
    · by_cases hplus : t.isPlus = true
      · rw [next_of_plus p hplus]
        by_cases hp : p = complete
        · rw [if_pos hp, Option.bind_some, ← ih]
          simp [hoperand, hplus, hp, and_comm]
        · simp [hplus, hp]
      · by_cases hsemicolon : t.isSemicolon = true
        · rw [next_of_semicolon p hsemicolon]
          by_cases hp : p = pending
          · simp [hp, hoperand]
          · rw [if_neg hp, Option.bind_some, ← ih]
            simp [hoperand, hplus, hsemicolon, hp]
        · simp [next, hoperand, hplus, hsemicolon]

/-- The tokens are a program exactly if they may stand at its beginning and leave no plus
without its operand. -/
theorem accepted_iff_run (tokens : List Token) :
    Accepted tokens ↔ ∃ p, fresh.run tokens = some p ∧ p ≠ pending := by
  rw [accepted_iff_acceptedFrom, ← acceptedFrom_iff_run]
  simp

/-- The first `k` tokens are the beginning of a program, and that is as far as it goes: the next
one may not stand there, or there is none although a plus needs an operand. -/
structure BreaksAt (tokens : List Token) (k : Nat) : Prop where
  le_length : k ≤ tokens.length
  before : ∃ p, fresh.run (tokens.take k) = some p
  next : k < tokens.length → fresh.run (tokens.take (k + 1)) = none
  last : k = tokens.length → fresh.run tokens = some pending

namespace BreaksAt

/-- Where something other than an operand or a semicolon begins a statement, or stands behind a
chain and a plus, the tokens break off. -/
theorem of_read_eq_error {t : Token} {ts : List Token} {k : Nat}
    (hsemicolon : t.isSemicolon = false) (hread : Chain.read (t :: ts) = .error k) :
    BreaksAt (t :: ts) k := by
  rcases Chain.read_eq_error hread with ⟨rfl, hhead⟩ | ⟨c, plus, rest, hsplit, hplus, rfl, hhead⟩
  · have hnone : fresh.next t = none := fresh_next (by simpa using hhead) hsemicolon
    refine ⟨Nat.zero_le _, ⟨fresh, rfl⟩, fun _ => ?_, fun hk => absurd hk (by simp)⟩
    simp [run_cons, hnone]
  · -- Up to the plus the tokens may stand there, and an operand is needed.
    have hpending : fresh.run (c.tokens ++ [plus]) = some pending := by
      rw [run_append, run_tokens, Option.bind_some, run_cons, next_of_plus _ hplus, if_pos rfl]
      rfl
    have hlength : (c.tokens ++ [plus]).length = c.tokens.length + 1 := List.length_append
    rw [hsplit, List.append_cons, ← hlength]
    refine ⟨by simp, ⟨pending, ?_⟩, ?_, ?_⟩
    · rw [List.take_left, hpending]
    · intro hlt
      cases rest with
      | nil => simp at hlt
      | cons u rest =>
        have hnone : pending.next u = none := pending_next (by simpa using hhead)
        rw [List.take_length_add_append, run_append, hpending, Option.bind_some,
          List.take_succ_cons, run_cons, hnone]
        rfl
    · intro heq
      obtain rfl : rest = [] := by simpa using heq
      rw [List.append_nil, hpending]

/-- What stands in front of tokens that break off only moves the place, if the phase behind it
goes on like the first. -/
theorem append {front behind : List Token} {k : Nat} {p : Phase} (h : BreaksAt behind k)
    (hfront : fresh.run front = some p)
    (hsame : ∀ t ∈ behind.head?, p.next t = fresh.next t) :
    BreaksAt (front ++ behind) (front.length + k) := by
  cases behind with
  | nil =>
    have hlast := h.last (Nat.le_zero.mp h.le_length)
    simp at hlast
  | cons t ts =>
    have hnext : p.next t = fresh.next t := hsame t rfl
    have hrun : ∀ us : List Token, fresh.run (front ++ t :: us) = fresh.run (t :: us) := by
      intro us
      rw [run_append, hfront, Option.bind_some, run_cons, run_cons, hnext]
    refine ⟨?_, ?_, ?_, ?_⟩
    · rw [List.length_append]
      exact Nat.add_le_add_left h.le_length _
    · rw [List.take_length_add_append]
      cases k with
      | zero => exact ⟨p, by rw [List.take_zero, List.append_nil, hfront]⟩
      | succ k =>
        rw [List.take_succ_cons, hrun, ← List.take_succ_cons]
        exact h.before
    · intro hlt
      rw [List.length_append] at hlt
      rw [Nat.add_assoc, List.take_length_add_append, List.take_succ_cons, hrun,
        ← List.take_succ_cons]
      exact h.next (by omega)
    · intro heq
      rw [List.length_append] at heq
      rw [hrun]
      exact h.last (by omega)

end BreaksAt

/-- What the first failure says of tokens of which the first has the index `i`: without one they
are a program, and else they break off where it is, for want of an operand. -/
def Explains (i : Nat) (tokens : List Token) : Option (Nat × ParseError) → Prop
  | none => ∃ p, fresh.run tokens = some p ∧ p ≠ pending
  | some (_, e) =>
    ∃ k, BreaksAt tokens k ∧ e = ⟨TokenType.operands, tokens[k]?, ((i + k : Nat) : Int)⟩

/-- Tokens that leave no plus without its operand may be put in front. -/
theorem Explains.append {i : Nat} {front behind : List Token} {fault : Option (Nat × ParseError)}
    {p : Phase} (h : Explains (i + front.length) behind fault) (hfront : fresh.run front = some p)
    (hp : p ≠ pending) (hsame : ∀ t ∈ behind.head?, p.next t = fresh.next t) :
    Explains i (front ++ behind) fault := by
  cases fault with
  | none =>
    obtain ⟨q, hq, hpending⟩ := h
    cases behind with
    | nil => exact ⟨p, by rw [List.append_nil, hfront], hp⟩
    | cons t ts =>
      refine ⟨q, ?_, hpending⟩
      rw [run_append, hfront, Option.bind_some, run_cons, hsame t rfl, ← run_cons, hq]
  | some fault =>
    obtain ⟨k, hbreaks, herror⟩ := h
    refine ⟨front.length + k, hbreaks.append hfront hsame, ?_⟩
    rw [herror, List.getElem?_append_right (Nat.le_add_right _ _), Nat.add_sub_cancel_left,
      Nat.add_assoc]

namespace Grammar

/-- Where nothing fails the tokens are a program; else they break off at the first failure. -/
theorem explains_firstFault (i : Nat) {tokens : List Token}
    (heof : ∀ t ∈ tokens, t.isEof = false) :
    Explains i tokens (Finding.firstFault (findings i tokens)) := by
  induction i, tokens using findings_induction with
  | nil i =>
    rw [findings_nil]
    exact ⟨fresh, rfl, by simp⟩
  | semicolon i t ts ht ih =>
    have hfresh : fresh.run [t] = some fresh := by
      rw [run_cons, next_of_semicolon _ ht]
      rfl
    rw [List.forall_mem_cons] at heof
    have happend : Explains i ([t] ++ ts) (Finding.firstFault (findings (i + 1) ts)) :=
      (ih heof.2).append hfresh (by simp) fun _ _ => rfl
    rw [findings_of_semicolon i ht]
    exact happend
  | eof i t ts ht => exact absurd ht (by simp [heof t List.mem_cons_self])
  | sum i c rest hrest ih =>
    have hbehind := ih (List.forall_mem_append.mp heof).2
    rw [findings_tokens_append i c hrest]
    apply hbehind.append (run_tokens fresh c) (by simp)
    intro u hu
    apply complete_next
    simpa [Option.mem_def.mp hu] using hrest
  | fault i t ts k hsemicolon hend hread ih =>
    rw [findings_of_fault i hsemicolon hend hread]
    exact ⟨k, .of_read_eq_error hsemicolon hread, rfl⟩

end Grammar
end SumLang
