/-!
# Sessions

Readers, parsers and transpilers are states that a caller drives by one call after another.
A call may fail, and a failed call may have moved the state before it failed; so its outcome
is the answer or the error together with the state that is left.  A session runs a list of
calls, each from the state that the one before left, whether that one failed or not.
-/
namespace SumLang

/-- The answer to a call, or its error, and in either case the state afterwards. -/
abbrev Outcome (σ ε α : Type) : Type := Except ε α × σ

/-- The outcomes of calls made one after the other, each from the state left so far. -/
def session {κ σ ε α : Type} (perform : κ → σ → Outcome σ ε α) :
    List κ → σ → List (Outcome σ ε α)
  | [], _ => []
  | call :: calls, state =>
    let outcome := perform call state
    outcome :: session perform calls outcome.2

@[simp] theorem session_nil {κ σ ε α : Type} (perform : κ → σ → Outcome σ ε α) (state : σ) :
    session perform [] state = [] := rfl

@[simp] theorem session_cons {κ σ ε α : Type} (perform : κ → σ → Outcome σ ε α) (call : κ)
    (calls : List κ) (state : σ) :
    session perform (call :: calls) state =
      perform call state :: session perform calls (perform call state).2 := rfl

@[simp] theorem length_session {κ σ ε α : Type} (perform : κ → σ → Outcome σ ε α)
    (calls : List κ) (state : σ) : (session perform calls state).length = calls.length := by
  induction calls generalizing state with
  | nil => rfl
  | cons call calls ih => simp [ih]

/-- The state that calls made one after the other leave. -/
def stateAfter {κ σ ε α : Type} (perform : κ → σ → Outcome σ ε α) (calls : List κ)
    (state : σ) : σ :=
  calls.foldl (fun state call => (perform call state).2) state

@[simp] theorem stateAfter_nil {κ σ ε α : Type} (perform : κ → σ → Outcome σ ε α) (state : σ) :
    stateAfter perform [] state = state := rfl

@[simp] theorem stateAfter_cons {κ σ ε α : Type} (perform : κ → σ → Outcome σ ε α) (call : κ)
    (calls : List κ) (state : σ) :
    stateAfter perform (call :: calls) state =
      stateAfter perform calls (perform call state).2 := rfl

theorem stateAfter_append {κ σ ε α : Type} (perform : κ → σ → Outcome σ ε α)
    (calls more : List κ) (state : σ) :
    stateAfter perform (calls ++ more) state =
      stateAfter perform more (stateAfter perform calls state) :=
  List.foldl_append

/-- What each call keeps is kept by all of them. -/
theorem stateAfter_induction {κ σ ε α : Type} {perform : κ → σ → Outcome σ ε α}
    {motive : σ → Prop} {calls : List κ}
    (hstep : ∀ call ∈ calls, ∀ state, motive state → motive (perform call state).2) {state : σ}
    (h : motive state) : motive (stateAfter perform calls state) := by
  induction calls generalizing state with
  | nil => exact h
  | cons call calls ih =>
    have hrest : ∀ later ∈ calls, ∀ state, motive state → motive (perform later state).2 :=
      fun later hlater => hstep later (List.mem_cons_of_mem call hlater)
    exact ih hrest (hstep call List.mem_cons_self state h)

end SumLang
