import SmingCoap.Client.ScheduleSoundness

/-! # Transmissions are counted

`retransmit_cnt` is advanced in the tick while entries are taken out, put back
by their time and mixed with those of other requests.  An entry was sent once
more than it says (`Counts`): its request is its own, so nothing else that
happens sends for it.
-/

namespace SmingCoap

open Transition (Run)

namespace CoapClient

def Effect.sends (req : Nat) : Effect → Bool
  | .sent other _ => other = req
  | .called .. => false

/-- How often the PDU of a request was sent. -/
def sends (req : Nat) (log : List Effect) : Nat := log.countP (Effect.sends req)

theorem sends_sent (req other time : Nat) (log : List Effect) :
    sends req (.sent other time :: log) = sends req log + if other = req then 1 else 0 := by
  simp [sends, Effect.sends, List.countP_cons]

@[simp]
theorem sends_called (req other : Nat) (successful : Bool) (pdu : CoapPDU) (log : List Effect) :
    sends req (.called other successful pdu :: log) = sends req log := by
  simp [sends, Effect.sends]

/-! ## Entries apart from their times -/

/-- Everything in an entry but its time. -/
def timeless (node : CoapQueueNode) : CoapQueueNode := { node with t := 0 }

theorem mem_added {queue : List CoapQueueNode} {node other : CoapQueueNode} (member : other ∈ coapAddNode queue node) :
    timeless other = timeless node ∨ ∃ old ∈ queue, timeless other = timeless old := by
  induction queue generalizing node with
  | nil =>
    rw [List.mem_singleton.mp member]
    exact .inl rfl
  | cons q rest inductionHypothesis =>
    rw [coapAddNode] at member
    split at member
    next =>
      rcases List.mem_cons.mp member with rfl | member
      · exact .inl rfl
      · rcases List.mem_cons.mp member with rfl | member
        · exact .inr ⟨q, List.mem_cons_self, rfl⟩
        · exact .inr ⟨other, List.mem_cons_of_mem _ member, rfl⟩
    next =>
      rcases List.mem_cons.mp member with rfl | member
      · exact .inr ⟨other, List.mem_cons_self, rfl⟩
      · rcases inductionHypothesis member with same | ⟨old, inside, same⟩
        · exact .inl same
        · exact .inr ⟨old, List.mem_cons_of_mem _ inside, same⟩

theorem mem_removed {queue : List CoapQueueNode} {nodeId : CoapTid} {other : CoapQueueNode}
    (member : other ∈ coapRemoveNode queue nodeId) : ∃ old ∈ queue, timeless other = timeless old := by
  induction queue with
  | nil => cases member
  | cons q rest inductionHypothesis =>
    rw [coapRemoveNode] at member
    split at member
    next =>
      cases rest with
      | nil => cases member
      | cons behind rest =>
        rcases List.mem_cons.mp member with rfl | member
        · exact ⟨behind, List.mem_cons_of_mem _ List.mem_cons_self, rfl⟩
        · exact ⟨other, List.mem_cons_of_mem _ (List.mem_cons_of_mem _ member), rfl⟩
    next =>
      rcases List.mem_cons.mp member with rfl | member
      · exact ⟨other, List.mem_cons_self, rfl⟩
      · obtain ⟨old, inside, same⟩ := inductionHypothesis member
        exact ⟨old, List.mem_cons_of_mem _ inside, same⟩

theorem mem_advanced {queue : List CoapQueueNode} {diff : Nat} {other : CoapQueueNode}
    (member : other ∈ advanceFirst diff queue) : ∃ old ∈ queue, timeless other = timeless old := by
  cases queue with
  | nil => cases member
  | cons first rest =>
    rcases List.mem_cons.mp member with rfl | member
    · exact ⟨first, List.mem_cons_self, rfl⟩
    · exact ⟨other, List.mem_cons_of_mem _ member, rfl⟩

/-! ## The count -/

/-- The entry was sent once more than its counter says, and a non-confirmable one is never sent again. -/
structure Counts (log : List Effect) (node : CoapQueueNode) : Prop where
  sent : sends node.req log = node.retransmitCnt + 1
  bound : node.retransmitCnt ≤ coapDefaultMaxRetransmit
  once : node.pdu.getType = .nonConfirmable → node.retransmitCnt = 0

theorem Counts.congr {log later : List Effect} {node other : CoapQueueNode} (counts : Counts log node)
    (same : timeless other = timeless node) (sent : sends node.req later = sends node.req log) : Counts later other := by
  simp only [timeless, CoapQueueNode.mk.injEq] at same
  obtain ⟨_, retransmitCnt, _, _, pdu, req⟩ := same
  refine ⟨?_, ?_, ?_⟩
  · rw [req, sent, retransmitCnt, counts.sent]
  · rw [retransmitCnt]
    exact counts.bound
  · rw [pdu, retransmitCnt]
    exact counts.once

theorem Counts.kept {log : List Effect} {queue later : List CoapQueueNode} (counts : ∀ node ∈ queue, Counts log node)
    (among : ∀ other ∈ later, ∃ old ∈ queue, timeless other = timeless old) : ∀ node ∈ later, Counts log node := by
  intro other member
  obtain ⟨old, inside, same⟩ := among other member
  exact (counts old inside).congr same rfl

/-- A request has one entry at most, and a request to come was not sent. -/
structure Counted (this : CoapClient) : Prop where
  known : ∀ node ∈ this.pQueue, node.req < this.requests.length
  distinct : (this.pQueue.map CoapQueueNode.req).Nodup
  counts : ∀ node ∈ this.pQueue, Counts this.log node
  unsent : ∀ req, this.requests.length ≤ req → sends req this.log = 0

theorem Skips.counted {this after : CoapClient} {call : RequestCall} (skips : Skips this after call)
    (counted : Counted this) : Counted after := by
  have grows : this.requests.length ≤ after.requests.length := by
    rcases skips.requests with same | ⟨_, _, longer⟩
    · rw [same]
    · rw [longer, List.length_append]
      exact Nat.le_add_right ..
  constructor
  · rw [skips.pQueue]
    exact fun node member => (counted.known node member).trans_le grows
  · rw [skips.pQueue]
    exact counted.distinct
  · rw [skips.pQueue, skips.log]
    exact counted.counts
  · rw [skips.log]
    exact fun req more => counted.unsent req (grows.trans more)

/-- An entry that was just sent goes into the queue. -/
theorem counts_added {log : List Effect} {queue : List CoapQueueNode} {node : CoapQueueNode} {now : Nat}
    (counts : ∀ old ∈ queue, Counts log old) (others : ∀ old ∈ queue, old.req ≠ node.req)
    (own : Counts (.sent node.req now :: log) node) :
    ∀ other ∈ coapAddNode queue node, Counts (.sent node.req now :: log) other := by
  intro other member
  rcases mem_added member with same | ⟨old, inside, same⟩
  · exact own.congr same rfl
  · apply (counts old inside).congr same
    rw [sends_sent, if_neg (others old inside).symm]
    rfl

theorem Queues.counted {this after : CoapClient} {node : CoapQueueNode} {issued : Issued} {call : RequestCall}
    (queues : Queues this after node issued call) (counted : Counted this) : Counted after := by
  have new := counted.unsent node.req queues.req.ge
  refine ⟨queues.known counted.known, queues.distinct counted.known counted.distinct, ?_, ?_⟩
  · rw [queues.pQueue, queues.log]
    apply counts_added
    · exact Counts.kept counted.counts fun _ member => mem_advanced member
    · exact fun old member => Nat.ne_of_lt (queues.earlier counted.known old member)
    · refine ⟨?_, ?_, fun _ => queues.first⟩
      · rw [sends_sent, if_pos rfl, new, queues.first]
      · rw [queues.first]
        exact Nat.zero_le _
  · intro req more
    rw [queues.requests, List.length_append, List.length_singleton, ← queues.req] at more
    rw [queues.log, sends_sent, if_neg (by omega), counted.unsent req (queues.req ▸ by omega)]

/-- Calls one after the other keep the counts, and only send. -/
theorem requests_counted {calls : List RequestCall} {this after : CoapClient} (counted : Counted this)
    (runs : calls.foldlM request this = some after) :
    Counted after ∧ this.requests.length ≤ after.requests.length ∧
      (∀ node ∈ after.pQueue, this.requests.length ≤ node.req ∨ node.req ∈ this.pQueue.map CoapQueueNode.req) ∧
      ∃ front, after.log = front ++ this.log ∧ ∀ effect ∈ front, ∃ req time, this.requests.length ≤ req ∧ effect = .sent req time := by
  apply requests_invariant (fun _ client => Counted client ∧ this.requests.length ≤ client.requests.length ∧
      (∀ node ∈ client.pQueue, this.requests.length ≤ node.req ∨ node.req ∈ this.pQueue.map CoapQueueNode.req) ∧
      ∃ front, client.log = front ++ this.log ∧
        ∀ effect ∈ front, ∃ req time, this.requests.length ≤ req ∧ effect = .sent req time) _ _ _ runs
  -- a call that fails leaves queue and log as they are
  · intro call rest before later holds skips
    obtain ⟨counted, grows, among, front, log, only⟩ := holds
    refine ⟨skips.counted counted, ?_, ?_, front, skips.log.trans log, only⟩
    · rcases skips.requests with same | ⟨_, _, longer⟩
      · rw [same]
        exact grows
      · rw [longer, List.length_append]
        exact grows.trans (Nat.le_add_right ..)
    · rw [skips.pQueue]
      exact among
  -- a call that succeeds sends once, for the request that is new
  · intro call rest before later node issued holds queues
    obtain ⟨counted, grows, among, front, log, only⟩ := holds
    refine ⟨queues.counted counted, ?_, ?_, .sent node.req call.now :: front, ?_, ?_⟩
    · rw [queues.requests, List.length_append]
      exact grows.trans (Nat.le_add_right ..)
    · intro other member
      rw [queues.pQueue] at member
      have perm := perm_coapAddNode (advanceFirst (elapsed before.basetime call.now) before.pQueue) node
      rcases List.mem_cons.mp (perm.subset (List.mem_map_of_mem member)) with own | old
      · rw [req_of_waiting own, queues.req]
        exact .inl grows
      · rw [map_waiting_advanceFirst] at old
        obtain ⟨older, inside, same⟩ := mem_map_waiting old
        rw [← same]
        exact among older inside
    · rw [queues.log, log, List.cons_append]
    · intro effect member
      rcases List.mem_cons.mp member with rfl | member
      · exact ⟨node.req, call.now, queues.req ▸ grows, rfl⟩
      · exact only effect member
  · exact ⟨counted, Nat.le_refl _, fun node member => .inr (List.mem_map_of_mem member), [], rfl, fun _ member => by cases member⟩

/-! ## Steps -/

theorem Counted.called {this : CoapClient} (counted : Counted this) (callback : Nat) (successful : Bool) (pdu : CoapPDU)
    (timer : Option Nat) :
    Counted { this with retransmissionTimer := timer, log := .called callback successful pdu :: this.log } where
  known := counted.known
  distinct := counted.distinct
  counts := fun node member => (counted.counts node member).congr rfl (sends_called ..)
  unsent := fun req more => (sends_called ..).trans (counted.unsent req more)

theorem response_counted {this after : CoapClient} {successful : Bool} {req : Nat} {pdu : CoapPDU} {now : Nat}
    {nested : List RequestCall} (counted : Counted this)
    (responds : this.onResponse successful req pdu now nested = some after) :
    Counted after ∧ ∃ front, after.log = front ++ this.log ∧ ∀ effect ∈ front, ∀ callback pdu, effect ≠ .called callback false pdu := by
  obtain ⟨issued, _, ⟨rfl, _⟩ | ⟨_, node, _, _, ⟨_, rfl⟩ | ⟨callback, called, _, answers⟩⟩⟩ := onResponse_cases responds
  · exact ⟨counted, [], rfl, fun _ member => by cases member⟩
  · refine ⟨⟨known_of_waiting counted.known mem_advanceFirst, ?_, ?_, counted.unsent⟩, [], rfl, fun _ member => by cases member⟩
    · exact distinct_advanced _ counted.distinct
    · exact Counts.kept counted.counts fun _ member => mem_advanced member
  · obtain ⟨calledCounted, _, _, front, log, only⟩ := requests_counted (counted.called callback true pdu none) answers.runs
    rw [answers.after_eq]
    refine ⟨⟨?_, ?_, ?_, ?_⟩, front ++ [.called callback true pdu], ?_, ?_⟩
    · rw [List.length_modify]
      exact known_of_waiting (known_of_waiting calledCounted.known mem_coapRemoveNode) mem_advanceFirst
    · exact distinct_advanced _ (distinct_removed _ calledCounted.distinct)
    · apply Counts.kept (Counts.kept calledCounted.counts fun _ member => mem_removed member)
      exact fun _ member => mem_advanced member
    · rw [List.length_modify]
      exact calledCounted.unsent
    · rw [log, List.append_assoc]
      rfl
    · intro effect member callback pdu
      rcases List.mem_append.mp member with sent | last
      · obtain ⟨_, _, _, rfl⟩ := only effect sent
        exact Effect.noConfusion
      · rw [List.mem_singleton.mp last]
        simp

/-- The first entry leaves the queue. -/
theorem Counted.popped {this : CoapClient} {node : CoapQueueNode} {rest : List CoapQueueNode} (counted : Counted this)
    (queue : this.pQueue = node :: rest) :
    (∀ old ∈ rest, old.req ≠ node.req) ∧ Counted { this with pQueue := rest } := by
  have distinct := counted.distinct
  rw [queue, List.map_cons, List.nodup_cons] at distinct
  refine ⟨?_, ?_, distinct.2, ?_, counted.unsent⟩
  · intro old member same
    exact distinct.1 (same ▸ List.mem_map_of_mem member)
  · exact fun old member => counted.known old (queue ▸ List.mem_cons_of_mem _ member)
  · exact fun old member => counted.counts old (queue ▸ List.mem_cons_of_mem _ member)

theorem Resends.counted {this after sent : CoapClient} {node : CoapQueueNode} {rest : List CoapQueueNode} {now : Nat}
    {id : CoapTid} (resends : Resends this after node rest now id sent) (counted : Counted this)
    (queue : this.pQueue = node :: rest) (goesOn : ¬ node.Expires) : Counted after := by
  obtain ⟨others, popped⟩ := counted.popped queue
  have counts := counted.counts node (queue ▸ List.mem_cons_self)
  obtain ⟨issued, request, _, _, _, _, requests⟩ := resends.transmits.request
  have length : sent.requests.length = this.requests.length := by rw [requests, List.length_set]
  have log : sent.log = .sent node.req now :: this.log := resends.transmits.log
  simp only [CoapQueueNode.Expires, not_or, Nat.not_le] at goesOn
  rw [resends.after_eq]
  constructor
  · rw [length]
    exact known_added (counted.known node (queue ▸ List.mem_cons_self)) popped.known
  · exact distinct_added others popped.distinct
  · rw [log]
    have own : Counts (.sent node.req now :: this.log) (node.again id) := by
      refine ⟨?_, goesOn.2, fun non => absurd non goesOn.1⟩
      rw [sends_sent, if_pos (show node.req = (node.again id).req from rfl)]
      exact congrArg (· + 1) counts.sent
    exact counts_added popped.counts others own
  · rw [length, log]
    intro req more
    have bound := counted.known node (queue ▸ List.mem_cons_self)
    rw [sends_sent, if_neg (by omega), counted.unsent req more]

/-- The first entry is dropped: its request has no entry any more, and its callback hears of it if anyone's does. -/
theorem Drops.counted {this after informed : CoapClient} {node : CoapQueueNode} {rest : List CoapQueueNode} {now : Nat}
    {nested : List RequestCall} (drops : Drops this after node rest now nested informed) (counted : Counted this)
    (queue : this.pQueue = node :: rest) :
    Counted after ∧ node.req ∉ after.pQueue.map CoapQueueNode.req ∧
      ∃ front, after.log = front ++ this.log ∧ (∀ effect ∈ front, ∀ callback pdu, effect = .called callback false pdu →
        pdu = node.pdu) ∧ sends node.req front = 0 := by
  obtain ⟨others, popped⟩ := counted.popped queue
  have gone : node.req ∉ rest.map CoapQueueNode.req := by
    intro member
    obtain ⟨old, inside, same⟩ := List.mem_map.mp member
    exact others old inside same
  have known := counted.known node (queue ▸ List.mem_cons_self)
  rcases drops.informs with ⟨_, rfl⟩ | ⟨callback, _, runs⟩
  · rw [drops.after_eq]
    refine ⟨⟨popped.known, popped.distinct, popped.counts, popped.unsent⟩, gone, [], rfl, ?_, rfl⟩
    intro effect member
    cases member
  · obtain ⟨informedCounted, _, among, front, log, only⟩ :=
      requests_counted (popped.called callback false node.pdu this.retransmissionTimer) runs
    rw [drops.after_eq]
    refine ⟨⟨informedCounted.known, informedCounted.distinct, informedCounted.counts, informedCounted.unsent⟩, ?_,
      front ++ [.called callback false node.pdu], ?_, ?_, ?_⟩
    · intro member
      obtain ⟨other, inside, same⟩ := List.mem_map.mp member
      rcases among other inside with new | old
      · have bound : this.requests.length ≤ other.req := new
        omega
      · exact gone (same ▸ old)
    · rw [List.append_assoc]
      exact log
    · intro effect member callback pdu failure
      rcases List.mem_append.mp member with sent | last
      · obtain ⟨_, _, _, same⟩ := only effect sent
        rw [failure] at same
        cases same
      · rw [List.mem_singleton.mp last] at failure
        cases failure
        rfl
    · rw [sends, List.countP_eq_zero]
      intro effect member
      rcases List.mem_append.mp member with sent | last
      · obtain ⟨req, time, new, rfl⟩ := only effect sent
        have bound : this.requests.length ≤ req := new
        simp only [Effect.sends, decide_eq_true_eq]
        omega
      · rw [List.mem_singleton.mp last]
        simp [Effect.sends]

theorem step_counted {this after : CoapClient} {event : Event} (counted : Counted this)
    (taken : this.step event = some after) : Counted after := by
  cases event with
  | request call =>
    cases request_cases taken with
    | inl skips => exact skips.counted counted
    | inr queues =>
      obtain ⟨node, issued, queues⟩ := queues
      exact queues.counted counted
  | datagram req payload totLen now nested =>
    obtain ⟨successful, pdu, _, responds⟩ := datagram_cases taken
    exact (response_counted counted responds).1
  | tick now connects nested =>
    have stopped : Counted this.timerStop := ⟨counted.known, counted.distinct, counted.counts, counted.unsent⟩
    obtain ⟨node, rest, queue, ⟨goesOn, id, sent, resends⟩ | ⟨_, informed, drops⟩⟩ := tick_cases taken
    · exact resends.counted stopped queue goesOn
    · exact (drops.counted stopped queue).1

/-! ## Runs -/

/-- An entry goes in where the times in front of it and its own make up its delay. -/
theorem delay_added (queue : List CoapQueueNode) (node : CoapQueueNode) :
    ∃ front t behind, coapAddNode queue node = front ++ { node with t } :: behind ∧
      (front.map CoapQueueNode.t).sum + t = node.t := by
  induction queue generalizing node with
  | nil => exact ⟨[], node.t, [], rfl, Nat.zero_add _⟩
  | cons q rest inductionHypothesis =>
    rw [coapAddNode]
    split
    next => exact ⟨[], node.t, _, rfl, Nat.zero_add _⟩
    next later =>
      obtain ⟨front, t, behind, added, delay⟩ := inductionHypothesis { node with t := node.t - q.t }
      refine ⟨q :: front, t, behind, by rw [added]; rfl, ?_⟩
      simp only at delay
      rw [List.map_cons, List.sum_cons]
      omega

/-- The entry of a request waits for `delay` from now on, and the timer is set for the first entry. -/
def Programs (this : CoapClient) (now req retransmitCnt delay : Nat) : Prop :=
  this.retransmissionTimer = dueFirst now this.pQueue ∧
    ∃ front node behind, this.pQueue = front ++ node :: behind ∧ node.req = req ∧ node.retransmitCnt = retransmitCnt ∧
      (front.map CoapQueueNode.t).sum + node.t = delay

/-- Transmissions, delays and failures are as the counters say. -/
structure Attempts (this : CoapClient) : Prop where
  con : ∀ node ∈ this.pQueue, node.pdu.getType ≠ .nonConfirmable →
    sends node.req this.log = node.retransmitCnt + 1 ∧ node.retransmitCnt ≤ coapDefaultMaxRetransmit
  non : ∀ node ∈ this.pQueue, node.pdu.getType = .nonConfirmable → sends node.req this.log = 1
  backoff : ∀ now connects nested after node rest, this.step (.tick now connects nested) = some after →
    this.pQueue = node :: rest → node.pdu.getType ≠ .nonConfirmable → node.retransmitCnt < coapDefaultMaxRetransmit →
      sends node.req after.log = sends node.req this.log + 1 ∧
        Programs after now node.req (sends node.req this.log) (node.timeout <<< sends node.req this.log)
  failure : ∀ event after, this.step event = some after → ∃ front, after.log = front ++ this.log ∧
    ∀ callback pdu, .called callback false pdu ∈ front → ∃ now connects nested node rest,
      event = .tick now connects nested ∧ this.pQueue = node :: rest ∧ pdu = node.pdu ∧
      node.req ∉ after.pQueue.map CoapQueueNode.req ∧
      sends node.req after.log =
        if node.pdu.getType = .nonConfirmable then 1 else coapDefaultMaxRetransmit + 1

theorem Resends.programs {this after sent : CoapClient} {node : CoapQueueNode} {rest : List CoapQueueNode} {now : Nat}
    {id : CoapTid} (resends : Resends this after node rest now id sent) :
    Programs after now node.req (node.retransmitCnt + 1) (node.timeout <<< (node.retransmitCnt + 1)) := by
  obtain ⟨front, t, behind, added, delay⟩ := delay_added rest (node.again id)
  rw [resends.after_eq]
  exact ⟨rfl, front, _, behind, added, rfl, rfl, delay⟩

theorem Counted.failure {this after : CoapClient} {event : Event} (counted : Counted this)
    (taken : this.step event = some after) : ∃ front, after.log = front ++ this.log ∧
      ∀ callback pdu, .called callback false pdu ∈ front → ∃ now connects nested node rest,
        event = .tick now connects nested ∧ this.pQueue = node :: rest ∧ pdu = node.pdu ∧
        node.req ∉ after.pQueue.map CoapQueueNode.req ∧
        sends node.req after.log =
          if node.pdu.getType = .nonConfirmable then 1 else coapDefaultMaxRetransmit + 1 := by
  cases event with
  | request call =>
    cases request_cases taken with
    | inl skips => exact ⟨[], skips.log, fun _ _ member => by cases member⟩
    | inr queues =>
      obtain ⟨node, issued, queues⟩ := queues
      refine ⟨[.sent node.req call.now], queues.log, fun callback pdu member => ?_⟩
      cases List.mem_singleton.mp member
  | datagram req payload totLen now nested =>
    obtain ⟨successful, pdu, _, responds⟩ := datagram_cases taken
    obtain ⟨_, front, log, only⟩ := response_counted counted responds
    exact ⟨front, log, fun callback pdu member => absurd rfl (only _ member callback pdu)⟩
  | tick now connects nested =>
    have stopped : Counted this.timerStop := ⟨counted.known, counted.distinct, counted.counts, counted.unsent⟩
    obtain ⟨node, rest, queue, ⟨_, id, sent, resends⟩ | ⟨expires, informed, drops⟩⟩ := tick_cases taken
    · refine ⟨[.sent node.req now], ?_, fun callback pdu member => by cases List.mem_singleton.mp member⟩
      rw [resends.after_eq]
      exact resends.transmits.log
    · obtain ⟨_, gone, front, log, only, none⟩ := drops.counted stopped queue
      refine ⟨front, log, fun callback pdu member => ?_⟩
      refine ⟨now, connects, nested, node, rest, rfl, queue, only _ member callback pdu rfl, gone, ?_⟩
      -- sent for the first time, and once more for each retransmission that is counted
      have counts := counted.counts node (queue ▸ List.mem_cons_self)
      have sent : sends node.req after.log = node.retransmitCnt + 1 := by
        rw [log, sends, List.countP_append]
        rw [sends] at none
        rw [none, Nat.zero_add]
        exact counts.sent
      rw [sent]
      split
      next non => rw [counts.once non]
      next con =>
        have last := expires.resolve_left con
        have bound := counts.bound
        omega

theorem Counted.attempts {this : CoapClient} (counted : Counted this) : Attempts this where
  con := fun node member _ => ⟨(counted.counts node member).sent, (counted.counts node member).bound⟩
  non := by
    intro node member non
    rw [(counted.counts node member).sent, (counted.counts node member).once non]
  backoff := by
    intro now connects nested after node rest taken queue con below
    have counts := counted.counts node (queue ▸ List.mem_cons_self)
    obtain ⟨first, others, queueToo, ⟨_, id, sent, resends⟩ | ⟨expires, _⟩⟩ := tick_cases taken
    · rw [queue] at queueToo
      cases queueToo
      rw [counts.sent]
      refine ⟨?_, resends.programs⟩
      rw [resends.after_eq, show sent.log = .sent node.req now :: this.log from resends.transmits.log]
      rw [sends_sent, if_pos rfl, counts.sent]
    · rw [queue] at queueToo
      cases queueToo
      rcases expires with non | last
      · exact absurd non con
      · exact absurd below (Nat.not_lt.mpr last)
  failure := fun _ _ taken => counted.failure taken

/-- Transmissions are counted in every run. -/
theorem attempts_counted (messageID : UInt16) (this : CoapClient) (run : Run step (fun _ _ => True) (new messageID) this) :
    Attempts this := by
  have none : ∀ node ∈ (new messageID).pQueue, False := fun _ member => List.not_mem_nil member
  have initially : Counted (new messageID) :=
    ⟨fun node member => (none node member).elim, .nil, fun node member => (none node member).elim, fun _ _ => rfl⟩
  have counted : Counted this := run.invariant initially fun _ _ _ before _ taken => step_counted before taken
  exact counted.attempts

/-- A confirmable request that was sent twice. -/
theorem attempts_counted_retry : ∃ this : CoapClient, this.pQueue.map CoapQueueNode.retransmitCnt = [1] ∧
    sends 0 this.log = 2 ∧ Attempts this := by
  have run : Run step (fun _ _ => True) (new 0) _ :=
    .next (.next .refl (.request (rootGet .confirmable 1 0)) trivial rfl) (.tick 2000 true []) trivial rfl
  exact ⟨_, rfl, rfl, attempts_counted 0 _ run⟩

end CoapClient

end SmingCoap
