import SmingCoap.Client.EngineSteps
import SmingCoap.Transition.Runs

/-! # The schedule in the delta queue

`OnTime` says that the sums of a queue, counted from a base, are the times at
which its entries are due.  Insertion, removal and `timerUpdate` keep it, and so
does every step except a tick: `timerTick` takes the first entry out and counts
from the present on, but leaves `basetime` where it was.  A run in which this
makes no difference keeps every schedule (`schedule_kept`).
-/

namespace SmingCoap

open Transition (Run)

namespace CoapClient

/-! ## Sums and due times -/

section Queue

variable {due : CoapQueueNode → Nat → Prop}

/-- Counted from `base`, every entry is due when its sum says. -/
def OnTime (due : CoapQueueNode → Nat → Prop) : Nat → List CoapQueueNode → Prop
  | _, [] => True
  | base, node :: rest => due node (base + node.t) ∧ OnTime due (base + node.t) rest

theorem OnTime.weaken {other : CoapQueueNode → Nat → Prop} {base : Nat} {queue : List CoapQueueNode}
    (implies : ∀ node ∈ queue, ∀ time, due node time → other node time) (onTime : OnTime due base queue) :
    OnTime other base queue := by
  induction queue generalizing base with
  | nil => trivial
  | cons node rest inductionHypothesis =>
    exact ⟨implies node (List.mem_cons_self ..) _ onTime.1,
      inductionHypothesis (fun other member => implies other (List.mem_cons_of_mem _ member)) onTime.2⟩

/-- The sum of the `t` fields up to an entry, in front of it. -/
theorem OnTime.sum {base : Nat} {front behind : List CoapQueueNode} {node : CoapQueueNode}
    (onTime : OnTime due base (front ++ node :: behind)) :
    due node (base + ((front.map CoapQueueNode.t).sum + node.t)) := by
  induction front generalizing base with
  | nil =>
    rw [List.map_nil, List.sum_nil, Nat.zero_add]
    exact onTime.1
  | cons first rest inductionHypothesis =>
    have behind := inductionHypothesis onTime.2
    rw [List.map_cons, List.sum_cons, Nat.add_assoc, ← Nat.add_assoc base]
    exact behind

variable (ignores : ∀ node t time, due { node with t } time ↔ due node time)

include ignores

theorem OnTime.add {base : Nat} {queue : List CoapQueueNode} {node : CoapQueueNode}
    (onTime : OnTime due base queue) (fits : due node (base + node.t)) :
    OnTime due base (coapAddNode queue node) := by
  induction queue generalizing base node with
  | nil => exact ⟨fits, trivial⟩
  | cons q rest inductionHypothesis =>
    rw [coapAddNode]
    split
    next earlier =>
      have same : base + node.t + (q.t - node.t) = base + q.t := by omega
      refine ⟨fits, (ignores q _ _).mpr ?_, ?_⟩
      · rw [same]
        exact onTime.1
      · simp only [same]
        exact onTime.2
    next later =>
      have same : base + q.t + (node.t - q.t) = base + node.t := by omega
      refine ⟨onTime.1, inductionHypothesis onTime.2 ((ignores node _ _).mpr ?_)⟩
      rw [same]
      exact fits

theorem OnTime.remove {base : Nat} {queue : List CoapQueueNode} (onTime : OnTime due base queue)
    (nodeId : CoapTid) : OnTime due base (coapRemoveNode queue nodeId) := by
  induction queue generalizing base with
  | nil => trivial
  | cons q rest inductionHypothesis =>
    rw [coapRemoveNode]
    split
    next =>
      cases rest with
      | nil => trivial
      | cons behind rest =>
        have same : base + (behind.t + q.t) = base + q.t + behind.t := by omega
        refine ⟨(ignores behind _ _).mpr ?_, ?_⟩
        · rw [same]
          exact onTime.2.1
        · simp only [same]
          exact onTime.2.2
    next => exact ⟨onTime.1, inductionHypothesis onTime.2⟩

/-- The base moves up to the first entry at most. -/
theorem OnTime.advance {base now : Nat} {queue : List CoapQueueNode} (onTime : OnTime due base queue)
    (after : base ≤ now) (before : ∀ first ∈ queue.head?, now ≤ base + first.t) :
    OnTime due now (advanceFirst (elapsed base now) queue) := by
  cases queue with
  | nil => trivial
  | cons first rest =>
    have bound := before first rfl
    have same : now + (first.t - elapsed base now) = base + first.t := by
      rw [elapsed, if_pos after]
      omega
    refine ⟨(ignores first _ _).mpr ?_, ?_⟩
    · rw [same]
      exact onTime.1
    · simp only [same]
      exact onTime.2

end Queue

/-! ## Transmissions and the clock -/

/-- When the PDU of a request was last sent. -/
def lastSent (req : Nat) : List Effect → Option Nat
  | [] => none
  | .sent other time :: log => if other = req then some time else lastSent req log
  | .called .. :: log => lastSent req log

/-- The time at which an entry is due: its timeout, doubled with each retransmission, behind its last
transmission. -/
def Due (log : List Effect) (node : CoapQueueNode) (time : Nat) : Prop :=
  ∃ sent, lastSent node.req log = some sent ∧ time = sent + node.timeout <<< node.retransmitCnt

theorem due_ignores (log : List Effect) (node : CoapQueueNode) (t time : Nat) :
    Due log { node with t } time ↔ Due log node time :=
  Iff.rfl

theorem due_sent {log : List Effect} {req now : Nat} {node : CoapQueueNode} (other : node.req ≠ req) {time : Nat}
    (due : Due log node time) : Due (.sent req now :: log) node time := by
  obtain ⟨sent, last, timeEq⟩ := due
  exact ⟨sent, by rw [lastSent, if_neg (Ne.symm other), last], timeEq⟩

/-- The delta queue keeps every schedule: for each entry, `basetime` and the sum of the `t` fields up
to it are the time of its last transmission and its current timeout. -/
def KeepsSchedule (this : CoapClient) : Prop :=
  ∀ front node behind, this.pQueue = front ++ node :: behind →
    ∃ sent, lastSent node.req this.log = some sent ∧
      this.basetime + ((front.map CoapQueueNode.t).sum + node.t) =
        sent + node.timeout <<< node.retransmitCnt

/-- The timer fires exactly when due, and the clock does not wrap.  A callback makes its requests
before the clock goes on. -/
def Timely (this : CoapClient) : Event → Prop
  | .request call => this.basetime ≤ call.now ∧ ∀ due ∈ this.retransmissionTimer, call.now ≤ due
  | .datagram _ _ _ now nested =>
    this.basetime ≤ now ∧ (∀ due ∈ this.retransmissionTimer, now ≤ due) ∧ ∀ call ∈ nested, call.now = now
  | .tick now _ nested => this.retransmissionTimer = some now ∧ ∀ call ∈ nested, call.now = now

/-- At a tick the clock still reads `basetime`, or the entry that fires is the only one and is not
sent again. -/
def Rebased (this : CoapClient) : Event → Prop
  | .tick now _ _ => now = this.basetime ∨ ∃ node, this.pQueue = [node] ∧ node.Expires
  | _ => True

/-! ## The invariant -/

/-- Between the parts of a step at time `now`: the timer may be stopped, and at least `size` entries
are queued once it is armed again. -/
structure Current (now size : Nat) (this : CoapClient) : Prop where
  onTime : OnTime (Due this.log) this.basetime this.pQueue
  known : ∀ node ∈ this.pQueue, node.req < this.requests.length
  distinct : (this.pQueue.map CoapQueueNode.req).Nodup
  after : this.basetime ≤ now
  before : ∀ first ∈ this.pQueue.head?, now ≤ this.basetime + first.t
  timer : this.retransmissionTimer = none ∨
    this.retransmissionTimer = dueFirst this.basetime this.pQueue ∧ size ≤ this.pQueue.length
  room : size ≤ this.pQueue.length + 1

/-- Between two steps. -/
structure Scheduled (this : CoapClient) : Prop where
  onTime : OnTime (Due this.log) this.basetime this.pQueue
  known : ∀ node ∈ this.pQueue, node.req < this.requests.length
  distinct : (this.pQueue.map CoapQueueNode.req).Nodup
  timer : this.retransmissionTimer = dueFirst this.basetime this.pQueue

theorem Scheduled.keepsSchedule {this : CoapClient} (scheduled : Scheduled this) : this.KeepsSchedule := by
  intro front node behind queue
  have onTime := scheduled.onTime
  rw [queue] at onTime
  exact onTime.sum

theorem map_req (queue : List CoapQueueNode) :
    queue.map CoapQueueNode.req = (queue.map waiting).map Waiting.req := by
  rw [List.map_map]
  rfl

theorem Skips.current {this after : CoapClient} {call : RequestCall} {now size : Nat}
    (skips : Skips this after call) (current : Current now size this) : Current now size after := by
  obtain ⟨queue, base, timer, _, requests, _, log, _⟩ := skips
  have grows : this.requests.length ≤ after.requests.length := by
    rcases requests with same | ⟨_, _, longer⟩
    · rw [same]
    · rw [longer, List.length_append]
      exact Nat.le_add_right ..
  refine ⟨?_, ?_, ?_, ?_, ?_, ?_, ?_⟩
  · rw [log, base, queue]
    exact current.onTime
  · intro node member
    rw [queue] at member
    exact Nat.lt_of_lt_of_le (current.known node member) grows
  · rw [queue]
    exact current.distinct
  · rw [base]
    exact current.after
  · rw [queue, base]
    exact current.before
  · rw [timer, base, queue]
    exact current.timer
  · rw [queue]
    exact current.room

theorem known_of_waiting {queue other : List CoapQueueNode} {bound : Nat}
    (known : ∀ node ∈ queue, node.req < bound) (same : ∀ node ∈ other, waiting node ∈ queue.map waiting) :
    ∀ node ∈ other, node.req < bound := by
  intro node member
  obtain ⟨old, inside, reqEq⟩ := mem_map_waiting (same node member)
  rw [← reqEq]
  exact known old inside

theorem mem_advanceFirst {diff : Nat} {queue : List CoapQueueNode} :
    ∀ node ∈ advanceFirst diff queue, waiting node ∈ queue.map waiting := by
  intro node member
  rw [← map_waiting_advanceFirst diff]
  exact List.mem_map_of_mem member

theorem mem_coapRemoveNode {queue : List CoapQueueNode} {nodeId : CoapTid} :
    ∀ node ∈ coapRemoveNode queue nodeId, waiting node ∈ queue.map waiting := by
  intro node member
  exact (sublist_coapRemoveNode queue nodeId).subset (List.mem_map_of_mem member)

/-- An entry that was just sent goes into a queue on time. -/
theorem OnTime.sent {log : List Effect} {req now : Nat} {queue : List CoapQueueNode} {node : CoapQueueNode}
    (onTime : OnTime (Due log) now queue) (other : ∀ old ∈ queue, old.req ≠ req) (sends : node.req = req)
    (due : node.t = node.timeout <<< node.retransmitCnt) :
    OnTime (Due (.sent req now :: log)) now (coapAddNode queue node) := by
  apply OnTime.add (due_ignores _)
  · exact onTime.weaken fun old member _ => due_sent (other old member)
  · exact ⟨now, by rw [lastSent, if_pos sends.symm], by rw [due]⟩

theorem known_added {queue : List CoapQueueNode} {node : CoapQueueNode} {bound : Nat} (own : node.req < bound)
    (known : ∀ old ∈ queue, old.req < bound) : ∀ other ∈ coapAddNode queue node, other.req < bound := by
  intro other member
  rcases List.mem_cons.mp ((perm_coapAddNode queue node).subset (List.mem_map_of_mem member)) with new | old
  · rw [req_of_waiting new]
    exact own
  · obtain ⟨older, inside, same⟩ := mem_map_waiting old
    rw [← same]
    exact known older inside

/-- A request that has no entry gets one. -/
theorem distinct_added {queue : List CoapQueueNode} {node : CoapQueueNode} (others : ∀ old ∈ queue, old.req ≠ node.req)
    (distinct : (queue.map CoapQueueNode.req).Nodup) : ((coapAddNode queue node).map CoapQueueNode.req).Nodup := by
  rw [map_req, ((perm_coapAddNode queue node).map Waiting.req).nodup_iff, List.map_cons, ← map_req, List.nodup_cons]
  refine ⟨?_, distinct⟩
  intro member
  obtain ⟨old, inside, same⟩ := List.mem_map.mp member
  exact others old inside same

theorem distinct_advanced {queue : List CoapQueueNode} (diff : Nat) (distinct : (queue.map CoapQueueNode.req).Nodup) :
    ((advanceFirst diff queue).map CoapQueueNode.req).Nodup := by
  rw [map_req, map_waiting_advanceFirst, ← map_req]
  exact distinct

theorem distinct_removed {queue : List CoapQueueNode} (nodeId : CoapTid)
    (distinct : (queue.map CoapQueueNode.req).Nodup) : ((coapRemoveNode queue nodeId).map CoapQueueNode.req).Nodup := by
  rw [map_req] at distinct ⊢
  exact distinct.sublist ((sublist_coapRemoveNode _ _).map _)

section

variable {this after : CoapClient} {node : CoapQueueNode} {issued : Issued} {call : RequestCall}

/-- The entries that were there are for earlier requests. -/
theorem Queues.earlier (queues : Queues this after node issued call)
    (known : ∀ old ∈ this.pQueue, old.req < this.requests.length) :
    ∀ old ∈ advanceFirst (elapsed this.basetime call.now) this.pQueue, old.req < node.req := by
  rw [queues.req]
  exact known_of_waiting known mem_advanceFirst

theorem Queues.known (queues : Queues this after node issued call)
    (known : ∀ old ∈ this.pQueue, old.req < this.requests.length) :
    ∀ other ∈ after.pQueue, other.req < after.requests.length := by
  rw [queues.pQueue, queues.requests, List.length_append, List.length_singleton, ← queues.req]
  exact known_added (Nat.lt_succ_self _) fun old member => Nat.lt_succ_of_lt (queues.earlier known old member)

/-- The new entry is the only one for its request. -/
theorem Queues.distinct (queues : Queues this after node issued call)
    (known : ∀ old ∈ this.pQueue, old.req < this.requests.length)
    (distinct : (this.pQueue.map CoapQueueNode.req).Nodup) : (after.pQueue.map CoapQueueNode.req).Nodup := by
  rw [queues.pQueue]
  exact distinct_added (fun old member => Nat.ne_of_lt (queues.earlier known old member))
    (distinct_advanced _ distinct)

end

theorem Queues.current {this after : CoapClient} {node : CoapQueueNode} {issued : Issued} {call : RequestCall}
    {size : Nat} (queues : Queues this after node issued call) (current : Current call.now size this) :
    Current call.now size after := by
  have advanced := OnTime.advance (due_ignores _) current.onTime current.after current.before
  have count := length_coapAddNode (advanceFirst (elapsed this.basetime call.now) this.pQueue) node
  have advancedCount : (advanceFirst (elapsed this.basetime call.now) this.pQueue).length = this.pQueue.length := by
    rw [← List.length_map waiting, map_waiting_advanceFirst, List.length_map]
  have room := current.room
  refine ⟨?_, ?_, ?_, ?_, ?_, Or.inr ⟨?_, ?_⟩, ?_⟩
  · rw [queues.log, queues.basetime, queues.pQueue]
    apply advanced.sent (fun old member => Nat.ne_of_lt (queues.earlier current.known old member)) rfl
    rw [queues.due, queues.first, Nat.shiftLeft_zero]
  · exact queues.known current.known
  · exact queues.distinct current.known current.distinct
  · rw [queues.basetime]
  · rw [queues.basetime]
    exact fun first _ => Nat.le_add_right ..
  · rw [queues.basetime]
    exact queues.timer
  · rw [queues.pQueue, count, advancedCount]
    exact room
  · rw [queues.pQueue, count, advancedCount]
    omega

/-- Requests made one after the other at one time. -/
theorem requests_current {now size : Nat} {calls : List RequestCall} (timely : ∀ call ∈ calls, call.now = now)
    {this after : CoapClient} (current : Current now size this)
    (runs : calls.foldlM request this = some after) : Current now size after := by
  refine (requests_invariant (fun calls this => (∀ call ∈ calls, call.now = now) ∧ Current now size this)
    ?_ ?_ ⟨timely, current⟩ runs).2
  · intro call rest before later holds skips
    exact ⟨fun other member => holds.1 other (List.mem_cons_of_mem _ member), skips.current holds.2⟩
  · intro call rest before later node issued holds queues
    refine ⟨fun other member => holds.1 other (List.mem_cons_of_mem _ member), ?_⟩
    cases holds.1 call (List.mem_cons_self ..)
    exact queues.current holds.2

/-- The base is the present, or nothing counts from it. -/
def AtBase (now : Nat) (this : CoapClient) : Prop := this.basetime = now ∨ this.pQueue = []

theorem requests_atBase {now : Nat} {calls : List RequestCall} (timely : ∀ call ∈ calls, call.now = now)
    {this after : CoapClient} (atBase : AtBase now this) (runs : calls.foldlM request this = some after) :
    AtBase now after := by
  refine (requests_invariant (fun calls this => (∀ call ∈ calls, call.now = now) ∧ AtBase now this)
    ?_ ?_ ⟨timely, atBase⟩ runs).2
  · intro call rest before later holds skips
    refine ⟨fun other member => holds.1 other (List.mem_cons_of_mem _ member), ?_⟩
    rw [AtBase, skips.basetime, skips.pQueue]
    exact holds.2
  · intro call rest before later node issued holds queues
    refine ⟨fun other member => holds.1 other (List.mem_cons_of_mem _ member), Or.inl ?_⟩
    rw [queues.basetime]
    exact holds.1 call (List.mem_cons_self ..)

/-! ## One step -/

/-- When the timer is armed it is due no later than the first entry. -/
theorem Scheduled.before {this : CoapClient} {now : Nat} (scheduled : Scheduled this)
    (armed : ∀ due ∈ this.retransmissionTimer, now ≤ due) :
    ∀ first ∈ this.pQueue.head?, now ≤ this.basetime + first.t := by
  intro first member
  apply armed
  rw [scheduled.timer, dueFirst]
  exact Option.mem_map_of_mem _ member

theorem Scheduled.current {this : CoapClient} {now : Nat} (scheduled : Scheduled this)
    (after : this.basetime ≤ now) (armed : ∀ due ∈ this.retransmissionTimer, now ≤ due) :
    Current now 0 this where
  onTime := scheduled.onTime
  known := scheduled.known
  distinct := scheduled.distinct
  after := after
  before := scheduled.before armed
  timer := Or.inr ⟨scheduled.timer, Nat.zero_le _⟩
  room := Nat.zero_le _

theorem head_coapRemoveNode (queue : List CoapQueueNode) (nodeId : CoapTid) :
    ∀ first ∈ (coapRemoveNode queue nodeId).head?, ∃ old ∈ queue.head?, old.t ≤ first.t := by
  intro first member
  cases queue with
  | nil => cases member
  | cons q rest =>
    refine ⟨q, rfl, ?_⟩
    rw [coapRemoveNode] at member
    split at member
    next =>
      cases rest with
      | nil => cases member
      | cons behind rest =>
        cases member
        exact Nat.le_add_left ..
    next =>
      cases member
      exact Nat.le_refl _

/-- The clock goes on over a queue on time. -/
theorem advanced_scheduled {this : CoapClient} {base now : Nat} {queue : List CoapQueueNode}
    (onTime : OnTime (Due this.log) base queue) (known : ∀ node ∈ queue, node.req < this.requests.length)
    (distinct : (queue.map CoapQueueNode.req).Nodup) (after : base ≤ now)
    (before : ∀ first ∈ queue.head?, now ≤ base + first.t) (baseEq : this.basetime = now)
    (queueEq : this.pQueue = advanceFirst (elapsed base now) queue)
    (timer : this.retransmissionTimer = dueFirst now this.pQueue) : Scheduled this := by
  refine ⟨?_, ?_, ?_, ?_⟩
  · rw [baseEq, queueEq]
    exact onTime.advance (due_ignores _) after before
  · rw [queueEq]
    exact known_of_waiting known mem_advanceFirst
  · rw [queueEq]
    exact distinct_advanced _ distinct
  · rw [timer, baseEq]

theorem response_scheduled {this after : CoapClient} {successful : Bool} {req : Nat} {pdu : CoapPDU} {now : Nat}
    {nested : List RequestCall} (scheduled : Scheduled this)
    (timely : this.basetime ≤ now ∧ (∀ due ∈ this.retransmissionTimer, now ≤ due) ∧
      ∀ call ∈ nested, call.now = now)
    (responds : this.onResponse successful req pdu now nested = some after) : Scheduled after := by
  obtain ⟨later, armed, atNow⟩ := timely
  have before := scheduled.before armed
  obtain ⟨issued, _, ⟨rfl, _⟩ | ⟨_, node, member, _, ⟨_, rfl⟩ | ⟨callback, called, _, answers⟩⟩⟩ :=
    onResponse_cases responds
  · exact scheduled
  · exact advanced_scheduled scheduled.onTime scheduled.known scheduled.distinct later before rfl rfl rfl
  · -- While the callback runs the timer is stopped, and the answered entry is still queued.
    have filled : 0 < this.pQueue.length := List.length_pos_of_mem member
    have running : Current now 2 { this with
        retransmissionTimer := none, log := .called callback true pdu :: this.log } :=
      ⟨scheduled.onTime, scheduled.known, scheduled.distinct, later, before, Or.inl rfl,
        Nat.succ_le_succ filled⟩
    have current := requests_current atNow running answers.runs
    have count := length_coapRemoveNode called.pQueue issued.request.tid
    have headBefore : ∀ first ∈ (coapRemoveNode called.pQueue issued.request.tid).head?,
        now ≤ called.basetime + first.t := by
      intro first inside
      obtain ⟨old, oldest, earlier⟩ := head_coapRemoveNode _ _ first inside
      exact Nat.le_trans (current.before old oldest) (Nat.add_le_add_left earlier _)
    have known : ∀ entry ∈ coapRemoveNode called.pQueue issued.request.tid,
        entry.req < called.requests.length := known_of_waiting current.known mem_coapRemoveNode
    have distinct := distinct_removed issued.request.tid current.distinct
    rw [answers.after_eq]
    refine advanced_scheduled (current.onTime.remove (due_ignores _) issued.request.tid) ?_ distinct
      current.after headBefore rfl rfl ?_
    · simpa only [List.length_modify] using known
    · cases queue : coapRemoveNode called.pQueue issued.request.tid with
      | nil =>
        rw [queue] at count
        rcases current.timer with stopped | ⟨_, two⟩
        · exact stopped
        · exact absurd (Nat.le_trans two count) (by decide)
      | cons first rest => exact dueFirst_or (List.cons_ne_nil _ _) called.retransmissionTimer

/-- What is known of the queue when the timer fires for its first entry. -/
structure Fires (this : CoapClient) (node : CoapQueueNode) (rest : List CoapQueueNode) (now : Nat) : Prop where
  now_eq : now = this.basetime + node.t
  onTime : OnTime (Due this.log) now rest
  knownFirst : node.req < this.requests.length
  known : ∀ entry ∈ rest, entry.req < this.requests.length
  other : ∀ entry ∈ rest, entry.req ≠ node.req
  distinct : (rest.map CoapQueueNode.req).Nodup

theorem Scheduled.fires {this : CoapClient} {node : CoapQueueNode} {rest : List CoapQueueNode} {now : Nat}
    (scheduled : Scheduled this) (fires : this.retransmissionTimer = some now)
    (queue : this.pQueue = node :: rest) : Fires this node rest now := by
  obtain ⟨onTime, known, distinct, timer⟩ := scheduled
  rw [fires, queue] at timer
  have now_eq : now = this.basetime + node.t := Option.some.inj timer
  rw [queue] at onTime known distinct
  obtain ⟨apart, distinct⟩ := List.nodup_cons.mp distinct
  refine ⟨now_eq, ?_, known node (List.mem_cons_self ..),
    fun entry member => known entry (List.mem_cons_of_mem _ member), ?_, distinct⟩
  · rw [now_eq]
    exact onTime.2
  · intro entry member same
    apply apart
    rw [← same]
    exact List.mem_map_of_mem member

/-- An entry that is sent again counts from the present, which therefore has to be the base. -/
theorem resends_scheduled {this after sent : CoapClient} {node : CoapQueueNode} {rest : List CoapQueueNode}
    {now : Nat} {id : CoapTid} (fires : Fires this node rest now) (still : now = this.basetime)
    (resends : Resends this.timerStop after node rest now id sent) : Scheduled after := by
  have transmits := resends.transmits
  obtain ⟨issued, request, _, _, _, _, requests⟩ := transmits.request
  have again : OnTime (Due (.sent node.req now :: this.log)) now (coapAddNode rest (node.again id)) :=
    OnTime.sent fires.onTime fires.other rfl rfl
  rw [resends.after_eq]
  refine ⟨?_, ?_, ?_, ?_⟩
  · show OnTime (Due sent.log) sent.basetime (coapAddNode rest (node.again id))
    rw [transmits.log, transmits.basetime]
    show OnTime _ this.basetime _
    rw [← still]
    exact again
  · have bound : sent.requests.length = this.requests.length := by
      rw [requests, List.length_set]
      rfl
    show ∀ entry ∈ coapAddNode rest (node.again id), entry.req < sent.requests.length
    rw [bound]
    exact known_added (show (node.again id).req < _ from fires.knownFirst) fires.known
  · exact distinct_added fires.other fires.distinct
  · show dueFirst now _ = dueFirst sent.basetime _
    rw [transmits.basetime, still]
    rfl

/-- The rest of the queue when the first entry is dropped; `log` is the old one, or the old one and
the call of the callback. -/
theorem Fires.dropped {this : CoapClient} {node : CoapQueueNode} {rest : List CoapQueueNode} {now : Nat}
    (fires : Fires this node rest now) (base : now = this.basetime ∨ rest = []) (log : List Effect)
    (logged : ∀ entry time, Due this.log entry time → Due log entry time) :
    Current now 0 { this.timerStop with pQueue := rest, log } ∧
      AtBase now { this.timerStop with pQueue := rest, log } := by
  have after : this.basetime ≤ now := by
    rw [fires.now_eq]
    exact Nat.le_add_right ..
  rcases base with still | rfl
  · refine ⟨⟨?_, fires.known, fires.distinct, after, ?_, Or.inl rfl, Nat.zero_le _⟩, Or.inl still.symm⟩
    · show OnTime (Due log) this.basetime rest
      rw [← still]
      exact fires.onTime.weaken fun entry _ => logged entry
    · intro first _
      show now ≤ this.basetime + first.t
      rw [← still]
      exact Nat.le_add_right ..
  · refine ⟨⟨trivial, fires.known, fires.distinct, after, ?_, Or.inl rfl, Nat.zero_le _⟩, Or.inr rfl⟩
    intro first member
    cases member

theorem drops_scheduled {this after informed : CoapClient} {node : CoapQueueNode} {rest : List CoapQueueNode}
    {now : Nat} {nested : List RequestCall} (fires : Fires this node rest now)
    (base : now = this.basetime ∨ rest = []) (atNow : ∀ call ∈ nested, call.now = now)
    (drops : Drops this.timerStop after node rest now nested informed) : Scheduled after := by
  have current : Current now 0 informed ∧ AtBase now informed := by
    rcases drops.informs with ⟨_, rfl⟩ | ⟨callback, _, runs⟩
    · exact fires.dropped base this.log fun _ _ due => due
    · have start := fires.dropped base (.called callback false node.pdu :: this.log) fun _ _ due => due
      exact ⟨requests_current atNow start.1 runs, requests_atBase atNow start.2 runs⟩
  obtain ⟨current, atBase⟩ := current
  rw [drops.after_eq]
  refine ⟨current.onTime, current.known, current.distinct, ?_⟩
  cases queue : informed.pQueue with
  | nil =>
    rcases current.timer with stopped | ⟨timer, _⟩
    · simpa [queue, dueFirst] using stopped
    · simpa [queue, dueFirst] using timer
  | cons first rest =>
    rcases atBase with base | empty
    · simp [dueFirst, base]
    · simp [queue] at empty

theorem tick_scheduled {this after : CoapClient} {now : Nat} {connects : Bool} {nested : List RequestCall}
    (scheduled : Scheduled this) (timely : Timely this (.tick now connects nested))
    (rebased : Rebased this (.tick now connects nested))
    (taken : this.step (.tick now connects nested) = some after) : Scheduled after := by
  obtain ⟨armed, atNow⟩ := timely
  obtain ⟨node, rest, queue, ⟨goesOn, id, sent, resends⟩ | ⟨_, informed, drops⟩⟩ := tick_cases taken
  · cases rebased with
    | inl still => exact resends_scheduled (scheduled.fires armed queue) still resends
    | inr single =>
      obtain ⟨only, single, expires⟩ := single
      rw [queue] at single
      cases single
      exact absurd expires goesOn
  · apply drops_scheduled (scheduled.fires armed queue) _ atNow drops
    cases rebased with
    | inl still => exact Or.inl still
    | inr single =>
      obtain ⟨only, single, _⟩ := single
      rw [queue] at single
      exact Or.inr (List.cons.inj single).2

theorem step_scheduled {this after : CoapClient} {event : Event} (scheduled : Scheduled this)
    (timely : Timely this event) (rebased : Rebased this event) (taken : this.step event = some after) :
    Scheduled after := by
  cases event with
  | request call =>
    have current := scheduled.current timely.1 timely.2
    cases request_cases taken with
    | inl skips =>
      refine ⟨?_, (skips.current current).known, (skips.current current).distinct, ?_⟩
      · exact (skips.current current).onTime
      · rw [skips.timer, skips.basetime, skips.pQueue]
        exact scheduled.timer
    | inr queues =>
      obtain ⟨node, issued, queues⟩ := queues
      have current := queues.current current
      refine ⟨current.onTime, current.known, current.distinct, ?_⟩
      rw [queues.timer, queues.basetime]
  | datagram req payload totLen now nested =>
    obtain ⟨successful, pdu, _, responds⟩ := datagram_cases taken
    exact response_scheduled scheduled timely responds
  | tick now connects nested => exact tick_scheduled scheduled timely rebased taken

/-! ## Runs -/

theorem new_scheduled (messageID : UInt16) : Scheduled (new messageID) :=
  ⟨trivial, fun _ member => absurd member List.not_mem_nil, List.nodup_nil, rfl⟩

end CoapClient

end SmingCoap
