/-! # Runs of a state machine

A machine is a partial step function on states and events; a step that the
program does not survive, or an event that cannot happen, has no result.  `Run`
is what a sequence of steps reaches when each of them meets a condition on the
state before it and the event, and `Run.invariant` is the induction over it.
-/

namespace Transition

universe u v w

variable {State : Type u} {Event : Type v} {step : State → Event → Option State}

/-- The states reached from `start` by steps that are all allowed. -/
inductive Run (step : State → Event → Option State) (allowed : State → Event → Prop) (start : State) :
    State → Prop
  | refl : Run step allowed start start
  | next {state after : State} (before : Run step allowed start state) (event : Event)
      (permitted : allowed state event) (taken : step state event = some after) :
      Run step allowed start after

/-- What holds at the start and is kept by each allowed step holds everywhere. -/
theorem Run.invariant {allowed : State → Event → Prop} {start state : State} {invariant : State → Prop}
    (initially : invariant start)
    (preserved : ∀ before event after, invariant before → allowed before event →
      step before event = some after → invariant after)
    (run : Run step allowed start state) : invariant state := by
  induction run with
  | refl => exact initially
  | next _ event permitted taken inductionHypothesis =>
    exact preserved _ event _ inductionHypothesis permitted taken

/-- A run under a condition is a run under any weaker one. -/
theorem Run.weaken {allowed weaker : State → Event → Prop} {start state : State}
    (implies : ∀ before event, allowed before event → weaker before event)
    (run : Run step allowed start state) : Run step weaker start state := by
  induction run with
  | refl => exact .refl
  | next _ event permitted taken inductionHypothesis =>
    exact .next inductionHypothesis event (implies _ _ permitted) taken

/-- A run of a machine that carries more in its state. -/
theorem Run.map {Other : Type w} {other : Other → Event → Option Other} {allowed : Other → Event → Prop}
    {start state : State} (project : State → Other)
    (steps : ∀ before event after, step before event = some after → other (project before) event = some (project after))
    (run : Run step (fun before event => allowed (project before) event) start state) :
    Run other allowed (project start) (project state) := by
  induction run with
  | refl => exact .refl
  | next _ event permitted taken inductionHypothesis =>
    exact .next inductionHypothesis event permitted (steps _ _ _ taken)

/-- Events that are allowed in any state and go through one after the other make a run. -/
theorem Run.of_permitted {allowed : State → Event → Prop} {start before after : State}
    (run : Run step allowed start before) (events : List Event)
    (permitted : ∀ event ∈ events, ∀ state, allowed state event)
    (taken : events.foldlM step before = some after) : Run step allowed start after := by
  induction events generalizing before with
  | nil =>
    cases taken
    exact run
  | cons event rest inductionHypothesis =>
    rw [List.foldlM_cons] at taken
    obtain ⟨middle, first, taken⟩ := Option.bind_eq_some_iff.mp taken
    have stepped := run.next event (permitted event List.mem_cons_self before) first
    exact inductionHypothesis stepped (fun later member => permitted later (List.mem_cons_of_mem _ member)) taken

/-- Events that go through one after the other make a run. -/
theorem Run.of_events {start before after : State} (events : List Event)
    (run : Run step (fun _ _ => True) start before) (taken : events.foldlM step before = some after) :
    Run step (fun _ _ => True) start after :=
  run.of_permitted events (fun _ _ _ => trivial) taken

/-! ## Conditions along a sequence of events -/

/-- A condition on each event of a sequence and the state before it. -/
def Along (step : State → Event → Option State) (condition : State → Event → Prop) : State → List Event → Prop
  | _, [] => True
  | state, event :: rest =>
    condition state event ∧ ∀ after, step state event = some after → Along step condition after rest

theorem Along.always {condition : State → Event → Prop} (holds : ∀ state event, condition state event) (start : State)
    (events : List Event) : Along step condition start events := by
  induction events generalizing start with
  | nil => trivial
  | cons event rest inductionHypothesis => exact ⟨holds start event, fun after _ => inductionHypothesis after⟩

/-- The condition holds of the event behind those that go through. -/
theorem Along.last {condition : State → Event → Prop} {start state : State} {events : List Event} {event : Event}
    (along : Along step condition start (events ++ [event])) (taken : events.foldlM step start = some state) :
    condition state event := by
  induction events generalizing start with
  | nil =>
    cases taken
    exact along.1
  | cons first rest inductionHypothesis =>
    rw [List.foldlM_cons] at taken
    obtain ⟨middle, here, taken⟩ := Option.bind_eq_some_iff.mp taken
    exact inductionHypothesis (along.2 middle here) taken

/-- Two conditions that are the same for each step from a state in order, which they keep, are the same along all of
them. -/
theorem Along.iff {stated first second : State → Event → Prop} {invariant : State → Prop} {start : State}
    {events : List Event} (initially : invariant start)
    (preserved : ∀ before event after, invariant before → stated before event → second before event →
      step before event = some after → invariant after)
    (same : ∀ state event, invariant state → stated state event → (first state event ↔ second state event))
    (along : Along step stated start events) : Along step first start events ↔ Along step second start events := by
  induction events generalizing start with
  | nil => exact Iff.rfl
  | cons event rest inductionHypothesis =>
    obtain ⟨here, later⟩ := along
    have tails : second start event → ∀ after, step start event = some after →
        (Along step first after rest ↔ Along step second after rest) := fun holds after taken =>
      inductionHypothesis (preserved start event after initially here holds taken) (later after taken)
    constructor
    · rintro ⟨holds, follows⟩
      have second := (same start event initially here).mp holds
      exact ⟨second, fun after taken => (tails second after taken).mp (follows after taken)⟩
    · rintro ⟨second, follows⟩
      exact ⟨(same start event initially here).mpr second,
        fun after taken => (tails second after taken).mpr (follows after taken)⟩

end Transition
