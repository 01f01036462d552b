import SmingCoap.Client.EngineSteps
import SmingCoap.Transition.Runs

/-! # The timer is armed while something is queued

The timer is stopped and started again in the middle of requests, responses and
ticks, and callbacks make requests in between.  A request that is queued leaves
the timer armed, so at the end of a step it is armed when there is an entry; the
other direction needs that the entry a response removes is not the last one that
a callback has armed the timer for.
-/

namespace SmingCoap

open Transition (Run)

namespace CoapClient

/-- The timer is armed exactly when there is an entry. -/
def Attended (this : CoapClient) : Prop := this.retransmissionTimer.isSome = true ↔ this.pQueue ≠ []

theorem dueFirst_isSome (now : Nat) (queue : List CoapQueueNode) : (dueFirst now queue).isSome = true ↔ queue ≠ [] := by
  cases queue with
  | nil => simp [dueFirst]
  | cons first rest => simp [dueFirst]

/-- A timer that is only armed over entries is started again. -/
theorem restarted_isSome {now : Nat} {queue : List CoapQueueNode} {timer : Option Nat}
    (armed : timer.isSome = true → queue ≠ []) : ((dueFirst now queue).or timer).isSome = true ↔ queue ≠ [] := by
  cases queue with
  | nil =>
    have stopped : timer.isSome = false := Bool.eq_false_iff.mpr fun running => armed running rfl
    simpa [dueFirst] using stopped
  | cons first rest => simp [dueFirst]

theorem advanceFirst_ne_nil {diff : Nat} {queue : List CoapQueueNode} : advanceFirst diff queue ≠ [] ↔ queue ≠ [] := by
  cases queue with
  | nil => exact Iff.rfl
  | cons first rest => simp [advanceFirst]

theorem length_advanceFirst (diff : Nat) (queue : List CoapQueueNode) : (advanceFirst diff queue).length = queue.length := by
  have same := congrArg List.length (map_waiting_advanceFirst diff queue)
  rwa [List.length_map, List.length_map] at same

theorem Skips.attended {this after : CoapClient} {call : RequestCall} (skips : Skips this after call)
    (attended : this.Attended) : after.Attended := by
  rw [Attended, skips.timer, skips.pQueue]
  exact attended

theorem Queues.attended {this after : CoapClient} {node : CoapQueueNode} {issued : Issued} {call : RequestCall}
    (queues : Queues this after node issued call) : after.Attended := by
  rw [Attended, queues.timer]
  exact dueFirst_isSome _ _

/-- While a callback makes requests there are at least `count` entries, and another one when the timer is armed. -/
structure Covered (count : Nat) (this : CoapClient) : Prop where
  entries : count ≤ this.pQueue.length
  armed : this.retransmissionTimer.isSome = true → count + 1 ≤ this.pQueue.length

theorem requests_covered {count : Nat} {calls : List RequestCall} {this after : CoapClient} (covered : Covered count this)
    (runs : calls.foldlM request this = some after) : Covered count after := by
  apply requests_invariant (fun _ => Covered count) _ _ covered runs
  · intro call rest before later holds skips
    refine ⟨?_, ?_⟩
    · rw [skips.pQueue]
      exact holds.entries
    · rw [skips.pQueue, skips.timer]
      exact holds.armed
  · intro call rest before later node issued holds queues
    have longer : later.pQueue.length = before.pQueue.length + 1 := by
      rw [queues.pQueue, length_coapAddNode, length_advanceFirst]
    have entries := holds.entries
    exact ⟨by omega, fun _ => by omega⟩

theorem response_attended {this after : CoapClient} {successful : Bool} {req : Nat} {pdu : CoapPDU} {now : Nat}
    {nested : List RequestCall} (attended : this.Attended)
    (responds : this.onResponse successful req pdu now nested = some after) : after.Attended := by
  obtain ⟨issued, _, ⟨rfl, _⟩ | ⟨_, node, member, _, ⟨_, rfl⟩ | ⟨callback, called, _, answers⟩⟩⟩ := onResponse_cases responds
  · exact attended
  · exact dueFirst_isSome _ _
  · -- the callback runs over the entry that is answered
    have filled : 1 ≤ this.pQueue.length := List.length_pos_iff.mpr (List.ne_nil_of_mem member)
    have begun : Covered 1 { this with retransmissionTimer := none, log := .called callback true pdu :: this.log } :=
      ⟨filled, fun armed => by cases armed⟩
    have covered := requests_covered begun answers.runs
    rw [answers.after_eq]
    apply restarted_isSome
    intro armed
    have left := length_coapRemoveNode called.pQueue issued.request.tid
    have entries := covered.armed armed
    apply advanceFirst_ne_nil.mpr
    apply List.ne_nil_of_length_pos
    omega

theorem tick_attended {this after : CoapClient} {now : Nat} {connects : Bool} {nested : List RequestCall}
    (taken : this.step (.tick now connects nested) = some after) : after.Attended := by
  obtain ⟨node, rest, _, ⟨_, id, sent, resends⟩ | ⟨_, informed, drops⟩⟩ := tick_cases taken
  · rw [resends.after_eq]
    exact dueFirst_isSome _ _
  · have covered : Covered 0 informed := by
      rcases drops.informs with ⟨_, rfl⟩ | ⟨callback, _, runs⟩
      · exact ⟨Nat.zero_le _, fun armed => by cases armed⟩
      · exact requests_covered ⟨Nat.zero_le _, fun armed => by cases armed⟩ runs
    rw [drops.after_eq]
    apply restarted_isSome
    intro armed
    exact List.ne_nil_of_length_pos (covered.armed armed)

theorem step_attended {this after : CoapClient} {event : Event} (attended : this.Attended)
    (taken : this.step event = some after) : after.Attended := by
  cases event with
  | request call =>
    cases request_cases taken with
    | inl skips => exact skips.attended attended
    | inr queues =>
      obtain ⟨node, issued, queues⟩ := queues
      exact queues.attended
  | datagram req payload totLen now nested =>
    obtain ⟨successful, pdu, _, responds⟩ := datagram_cases taken
    exact response_attended attended responds
  | tick now connects nested => exact tick_attended taken

/-- In every run the timer is armed exactly while there is an entry, so there is one to take out when it fires. -/
theorem timer_attended (messageID : UInt16) (this : CoapClient) (run : Run step (fun _ _ => True) (new messageID) this) :
    (this.retransmissionTimer.isSome = true ↔ this.pQueue ≠ []) ∧
      (this.retransmissionTimer.isSome = true → ∃ node rest, this.timerStop.pQueue = node :: rest) := by
  have initially : (new messageID).Attended := by simp [Attended, new]
  have attended : this.Attended := run.invariant initially fun _ _ _ before _ taken => step_attended before taken
  exact ⟨attended, fun armed => List.exists_cons_of_ne_nil (attended.mp armed)⟩

/-- A confirmable request that was sent again is still attended to. -/
theorem timer_attended_retry : ∃ this : CoapClient, this.pQueue.length = 1 ∧
    this.retransmissionTimer.isSome = true ∧ ∃ node rest, this.timerStop.pQueue = node :: rest := by
  have run : Run step (fun _ _ => True) (new 0) _ :=
    .next (.next .refl (.request (rootGet .confirmable 1 0)) trivial rfl) (.tick 2000 true []) trivial rfl
  have armed := (timer_attended 0 _ run).1.mpr (List.cons_ne_nil _ _)
  exact ⟨_, rfl, armed, (timer_attended 0 _ run).2 armed⟩

end CoapClient

end SmingCoap
