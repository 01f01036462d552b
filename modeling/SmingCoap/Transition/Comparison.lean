/-! # Comparing two runs

A machine that answers: a call gives an outcome and the state after it, and of a state its callers see
a view.  `outcomes` is what a caller sees of a sequence of calls, and two states are alike for it when
each call returns the same on both and leaves states that look the same.
-/

namespace Transition

universe u v w x

variable {State : Type u} {Call : Type v} {Outcome : Type w} {View : Type x}

/-- The outcome of each call and what is seen after it. -/
def outcomes (perform : State → Call → Outcome × State) (view : State → View) :
    State → List Call → List (Outcome × View)
  | _, [] => []
  | state, call :: rest =>
    let (outcome, after) := perform state call
    (outcome, view after) :: outcomes perform view after rest

/-- The state after all calls. -/
def final (perform : State → Call → Outcome × State) (state : State) (calls : List Call) : State :=
  calls.foldl (fun before call => (perform before call).2) state

/-- The calls have the same outcomes, and what is seen after each of them and in the end is the same. -/
structure Alike (perform : State → Call → Outcome × State) (view : State → View) (left right : State)
    (calls : List Call) : Prop where
  outcomes : outcomes perform view left calls = outcomes perform view right calls
  final : view (final perform left calls) = view (final perform right calls)

/-- Every call of the sequence has an outcome of this kind. -/
def AllHave (good : Outcome → Prop) (perform : State → Call → Outcome × State) (view : State → View)
    (state : State) (calls : List Call) : Prop :=
  ∀ seen ∈ outcomes perform view state calls, good seen.1

variable {perform : State → Call → Outcome × State} {view : State → View} {left right : State}

theorem Alike.of_eq (same : left = right) (calls : List Call) : Alike perform view left right calls := by
  rw [same]
  exact ⟨rfl, rfl⟩

theorem Alike.symm {calls : List Call} (alike : Alike perform view left right calls) :
    Alike perform view right left calls :=
  ⟨alike.outcomes.symm, alike.final.symm⟩

/-- The first call returns the same and leaves the same to be seen, and so on from there. -/
theorem Alike.head {call : Call} {rest : List Call} (alike : Alike perform view left right (call :: rest)) :
    (perform left call).1 = (perform right call).1 ∧
      view (perform left call).2 = view (perform right call).2 ∧
        Alike perform view (perform left call).2 (perform right call).2 rest := by
  obtain ⟨same, last⟩ := alike
  simp only [Transition.outcomes, List.cons.injEq, Prod.mk.injEq] at same
  exact ⟨same.1.1, same.1.2, same.2, last⟩

theorem allHave_nil {good : Outcome → Prop} (state : State) : AllHave good perform view state ([] : List Call) :=
  nofun

theorem allHave_cons {good : Outcome → Prop} {state : State} {call : Call} {rest : List Call} :
    AllHave good perform view state (call :: rest) ↔
      good (perform state call).1 ∧ AllHave good perform view (perform state call).2 rest := by
  simp [AllHave, outcomes]

end Transition
