import SmingCoap.Client.Engine

/-! # What a step of the client can do

One inversion lemma for each part of a step: `request` queues one entry or
leaves the queue alone (`request_cases`), a response removes the entry whose
callback it calls (`onResponse_cases`), and a tick sends the first entry again
or drops it (`timerTick_cases`).  The properties of runs are derived from these
alone.
-/

namespace SmingCoap

/-- The entry as it goes back into the queue. -/
def CoapQueueNode.again (node : CoapQueueNode) (id : CoapTid) : CoapQueueNode :=
  { node with
    retransmitCnt := node.retransmitCnt + 1
    t := node.timeout <<< (node.retransmitCnt + 1)
    id }

/-- Whether the entry is dropped when it fires. -/
def CoapQueueNode.Expires (node : CoapQueueNode) : Prop :=
  node.pdu.getType = .nonConfirmable ∨ node.retransmitCnt ≥ coapDefaultMaxRetransmit

namespace CoapClient

/-- A request for the root of the host with this address. -/
def rootGet (connType : CoapPDU.MessageType) (ip : UInt32) (now : Nat) : RequestCall where
  connType := connType
  method := CoapPDU.get
  host := [0x68]
  port := coapDefaultPort
  pathWithQuery := [0x2F]
  format := CoapPDU.contentFormatTextPlain
  payload := []
  dns := .ok ip
  block := 0
  memory := fun _ => 0
  heap := fun _ => some ⟨1, fun _ => 0⟩
  nodeAvailable := true
  connects := true
  rand := 0
  now := now

/-! ## Transmissions -/

theorem createTransactionID_ne (ip port : UInt32) (pdu : CoapPDU) :
    createTransactionID ip port pdu ≠ coapInvalidTid := by
  intro same
  have positive : 0 ≤ createTransactionID ip port pdu := Int.natCast_nonneg _
  rw [same] at positive
  exact absurd positive (by decide)

/-- The transaction id of a request's transmissions. -/
def transactionOf (request : CoapRequest) (pdu : CoapPDU) : CoapTid :=
  createTransactionID request.remoteIp request.remotePort.toUInt32 pdu

/-- Two states of one request: the endpoint is the same. -/
def SameEndpoint (request other : CoapRequest) : Prop :=
  other.remoteIp = request.remoteIp ∧ other.remotePort = request.remotePort

theorem request_sendPDU_cases {request sent : CoapRequest} {connects : Bool} {pdu : CoapPDU}
    (sends : request.sendPDU connects pdu = some sent) :
    SameEndpoint request sent ∧ sent.tid = transactionOf request pdu := by
  simp only [CoapRequest.sendPDU] at sends
  split at sends
  · split at sends
    · cases sends
      exact ⟨⟨rfl, rfl⟩, rfl⟩
    · cases sends
      exact ⟨⟨rfl, rfl⟩, rfl⟩
  · split at sends
    · cases sends
    · cases sends
      exact ⟨⟨rfl, rfl⟩, rfl⟩

/-- A transmission changes the request it belongs to and is noted. -/
structure Transmits (this after : CoapClient) (req : Nat) (now : Nat) (id : CoapTid) (pdu : CoapPDU) :
    Prop where
  messageID : after.messageID = this.messageID
  request : ∃ issued sent, this.requests[req]? = some issued ∧ SameEndpoint issued.request sent ∧
    sent.tid = id ∧ id = transactionOf issued.request pdu ∧
    after.requests = this.requests.set req { issued with request := sent }
  pQueue : after.pQueue = this.pQueue
  basetime : after.basetime = this.basetime
  timer : after.retransmissionTimer = this.retransmissionTimer
  callbacks : after.callbacks = this.callbacks
  log : after.log = .sent req now :: this.log

theorem sendPDU_cases {this after : CoapClient} {req : Nat} {connects : Bool} {now : Nat} {pdu : CoapPDU}
    {id : CoapTid} (sends : this.sendPDU req connects now pdu = some (id, after)) :
    Transmits this after req now id pdu := by
  simp only [sendPDU, Option.bind_eq_bind, Option.bind_eq_some_iff, Option.some.injEq, Prod.mk.injEq] at sends
  obtain ⟨issued, found, sent, sends, rfl, rfl⟩ := sends
  obtain ⟨same, tid⟩ := request_sendPDU_cases sends
  exact ⟨rfl, ⟨issued, sent, found, same, rfl, tid, rfl⟩, rfl, rfl, rfl, rfl, rfl⟩

/-! ## The timer -/

/-- When the timer is due for the first entry of a queue. -/
def dueFirst (now : Nat) (queue : List CoapQueueNode) : Option Nat :=
  queue.head?.map fun first => now + first.t

theorem timerRestart_eq (this : CoapClient) (now : Nat) :
    this.timerRestart now = { this with
      retransmissionTimer := (dueFirst now this.pQueue).or this.retransmissionTimer } := by
  obtain ⟨queue, _, _, _, _, _, _⟩ := this
  cases queue with
  | nil => rfl
  | cons first rest => rfl

/-- The time since `basetime` as the client computes it. -/
def elapsed (base now : Nat) : Nat := if now ≥ base then now - base else now + sysTimeMax - base

/-- The queue with `diff` taken off its first entry, as far as that goes. -/
def advanceFirst (diff : Nat) : List CoapQueueNode → List CoapQueueNode
  | [] => []
  | first :: rest => { first with t := first.t - diff } :: rest

theorem timerUpdate_eq (this : CoapClient) (now : Nat) :
    this.timerUpdate now = { this with
      pQueue := advanceFirst (elapsed this.basetime now) this.pQueue, basetime := now } := by
  obtain ⟨queue, _, _, _, _, _, _⟩ := this
  cases queue with
  | nil => rfl
  | cons first rest =>
    have clamp : ∀ diff, (if first.t ≥ diff then first.t - diff else 0) = first.t - diff := by
      intro diff
      split <;> omega
    simp only [timerUpdate, timerElapsed, clamp]
    rfl

/-! ## Entries apart from their times -/

/-- What of an entry stays the same as long as it is queued. -/
structure Waiting where
  id : CoapTid
  pdu : CoapPDU
  req : Nat

def waiting (node : CoapQueueNode) : Waiting := ⟨node.id, node.pdu, node.req⟩

theorem req_of_waiting {node other : CoapQueueNode} (same : waiting other = waiting node) :
    other.req = node.req := by
  have reqEq : (waiting other).req = (waiting node).req := by rw [same]
  exact reqEq

theorem mem_map_waiting {node : CoapQueueNode} {queue : List CoapQueueNode}
    (member : waiting node ∈ queue.map waiting) : ∃ other ∈ queue, other.req = node.req := by
  obtain ⟨other, inside, same⟩ := List.mem_map.mp member
  exact ⟨other, inside, req_of_waiting same⟩

theorem map_waiting_advanceFirst (diff : Nat) (queue : List CoapQueueNode) :
    (advanceFirst diff queue).map waiting = queue.map waiting := by
  cases queue with
  | nil => rfl
  | cons first rest => rfl

theorem perm_coapAddNode (queue : List CoapQueueNode) (node : CoapQueueNode) :
    ((coapAddNode queue node).map waiting).Perm (waiting node :: queue.map waiting) := by
  induction queue generalizing node with
  | nil => exact .refl _
  | cons q rest inductionHypothesis =>
    rw [coapAddNode]
    split
    next => exact .refl _
    next => exact (List.Perm.cons _ (inductionHypothesis _)).trans (.swap ..)

theorem sublist_coapAddNode (queue : List CoapQueueNode) (node : CoapQueueNode) :
    (queue.map waiting).Sublist ((coapAddNode queue node).map waiting) := by
  induction queue generalizing node with
  | nil => exact List.nil_sublist _
  | cons q rest inductionHypothesis =>
    rw [coapAddNode]
    split
    next => exact .cons _ (.refl _)
    next => exact .cons_cons _ (inductionHypothesis _)

theorem map_waiting_coapRemoveNode (queue : List CoapQueueNode) (nodeId : CoapTid) :
    (coapRemoveNode queue nodeId).map waiting = (queue.map waiting).eraseP fun entry => entry.id = nodeId := by
  induction queue with
  | nil => rfl
  | cons q rest inductionHypothesis =>
    rw [coapRemoveNode, List.map_cons, List.eraseP_cons]
    by_cases same : q.id = nodeId
    · simp only [same, waiting, decide_true, if_true, cond_true]
      cases rest with
      | nil => rfl
      | cons behind rest => rfl
    · simp only [same, waiting, decide_false, if_false, cond_false, List.map_cons]
      rw [← inductionHypothesis]

theorem sublist_coapRemoveNode (queue : List CoapQueueNode) (nodeId : CoapTid) :
    ((coapRemoveNode queue nodeId).map waiting).Sublist (queue.map waiting) := by
  rw [map_waiting_coapRemoveNode]
  exact List.eraseP_sublist

theorem length_coapAddNode (queue : List CoapQueueNode) (node : CoapQueueNode) :
    (coapAddNode queue node).length = queue.length + 1 := by
  have count := (perm_coapAddNode queue node).length_eq
  rwa [List.length_map, List.length_cons, List.length_map] at count

theorem length_coapRemoveNode (queue : List CoapQueueNode) (nodeId : CoapTid) :
    queue.length ≤ (coapRemoveNode queue nodeId).length + 1 := by
  have count := congrArg List.length (map_waiting_coapRemoveNode queue nodeId)
  have shorter := @List.le_length_eraseP _ (fun entry => entry.id = nodeId) (queue.map waiting)
  rw [← count, List.length_map, List.length_map] at shorter
  exact Nat.le_add_of_sub_le shorter

/-! ## Requests -/

/-- The `message_id` behind a call. -/
def messageIDAfter (messageID : UInt16) (call : RequestCall) : UInt16 :=
  match call.host.length, call.dns with
  | _ + 1, .ok _ => messageID + 1
  | _, _ => messageID

/-- The PDU of a call. -/
def requestPDU (messageID : UInt16) (call : RequestCall) : CoapPDU :=
  (builPDU call.block call.memory call.heap messageID
    (if call.connType ≠ .confirmable ∧ call.connType ≠ .nonConfirmable then .confirmable else call.connType)
    call.method call.pathWithQuery call.format call.payload).1

/-- The transaction id of a call that gets as far as the queue. -/
def queuedAs (messageID : UInt16) (call : RequestCall) : Option CoapTid :=
  match call.host.length, call.dns, call.nodeAvailable with
  | _ + 1, .ok resolvedIP, true =>
    some (createTransactionID resolvedIP (if call.port = 80 then coapDefaultPort else call.port).toUInt32
      (requestPDU messageID call))
  | _, _, _ => none

/-- A call that puts `node` into the queue. -/
structure Queues (this after : CoapClient) (node : CoapQueueNode) (issued : Issued) (call : RequestCall) :
    Prop where
  pQueue : after.pQueue = coapAddNode (advanceFirst (elapsed this.basetime call.now) this.pQueue) node
  basetime : after.basetime = call.now
  timer : after.retransmissionTimer = dueFirst call.now after.pQueue
  messageID : after.messageID = messageIDAfter this.messageID call
  requests : after.requests = this.requests ++ [issued]
  callbacks : after.callbacks = Function.update this.callbacks node.id (some node.req)
  log : after.log = .sent node.req call.now :: this.log
  req : node.req = this.requests.length
  due : node.t = node.timeout
  first : node.retransmitCnt = 0
  pdu : issued.pdu = node.pdu
  tid : issued.request.tid = node.id
  transaction : node.id = transactionOf issued.request node.pdu
  queuedAs : queuedAs this.messageID call = some node.id

/-- A call that does not: name resolution or the allocation of the entry failed. -/
structure Skips (this after : CoapClient) (call : RequestCall) : Prop where
  pQueue : after.pQueue = this.pQueue
  basetime : after.basetime = this.basetime
  timer : after.retransmissionTimer = this.retransmissionTimer
  messageID : after.messageID = messageIDAfter this.messageID call
  requests : after.requests = this.requests ∨
    ∃ issued : Issued, issued.request.tid = coapInvalidTid ∧ after.requests = this.requests ++ [issued]
  callbacks : ∀ tid, tid ≠ coapInvalidTid → after.callbacks tid = this.callbacks tid
  log : after.log = this.log
  queuedAs : queuedAs this.messageID call = none

theorem coapAddNode_ne_nil (queue : List CoapQueueNode) (node : CoapQueueNode) : coapAddNode queue node ≠ [] := by
  cases queue with
  | nil => exact List.cons_ne_nil _ _
  | cons q rest =>
    rw [coapAddNode]
    split
    · exact List.cons_ne_nil _ _
    · exact List.cons_ne_nil _ _

theorem dueFirst_or {now : Nat} {queue : List CoapQueueNode} (filled : queue ≠ []) (timer : Option Nat) :
    (dueFirst now queue).or timer = dueFirst now queue := by
  obtain ⟨first, rest, rfl⟩ := List.exists_cons_of_ne_nil filled
  rfl

theorem doRequest_cases {this after : CoapClient} {req : Nat} {pdu : CoapPDU} {call : RequestCall}
    {tid : CoapTid} (queues : this.doRequest req pdu call = some (tid, after)) :
    (call.nodeAvailable = false ∧ tid = coapInvalidTid ∧ after = this) ∨
      call.nodeAvailable = true ∧
      ∃ sent node, Transmits this sent req call.now tid pdu ∧ node.id = tid ∧ node.req = req ∧
        node.pdu = pdu ∧ node.t = node.timeout ∧ node.retransmitCnt = 0 ∧
        after = { sent with
          pQueue := coapAddNode (advanceFirst (elapsed sent.basetime call.now) sent.pQueue) node
          basetime := call.now
          retransmissionTimer := dueFirst call.now
            (coapAddNode (advanceFirst (elapsed sent.basetime call.now) sent.pQueue) node) } := by
  simp only [doRequest, Option.bind_eq_bind] at queues
  split at queues
  next unavailable =>
    cases queues
    exact Or.inl ⟨unavailable, rfl, rfl⟩
  next available =>
    simp only [Option.bind_eq_some_iff, Option.some.injEq, Prod.mk.injEq] at queues
    obtain ⟨⟨id, sent⟩, sends, rfl, rfl⟩ := queues
    refine Or.inr ⟨by simpa using available, sent,
      ⟨responseTimeout pdu call.rand, 0, responseTimeout pdu call.rand, id, pdu, req⟩,
      sendPDU_cases sends, rfl, rfl, rfl, rfl, rfl, ?_⟩
    simp only [timerUpdate_eq, timerStop, timerRestart_eq, Option.or_none]

theorem request_cases {this after : CoapClient} {call : RequestCall}
    (requests : this.request call = some after) :
    Skips this after call ∨ ∃ node issued, Queues this after node issued call := by
  simp only [request] at requests
  cases hosts : call.host.length with
  | zero =>
    rw [if_pos hosts] at requests
    cases requests
    exact Or.inl ⟨rfl, rfl, rfl, by simp [messageIDAfter, hosts], Or.inl rfl, fun _ _ => rfl, rfl,
      by simp [queuedAs, hosts]⟩
  | succ more =>
    rw [if_neg (by simp [hosts])] at requests
    cases resolved : call.dns with
    | ok resolvedIP =>
      simp only [resolved, Option.bind_eq_bind, Option.bind_eq_some_iff, Option.some.injEq] at requests
      obtain ⟨⟨tid, queued⟩, queues, rfl⟩ := requests
      rcases doRequest_cases queues with ⟨unavailable, rfl, rfl⟩ |
        ⟨available, sent, node, transmits, id, req, pdu, due, first, rfl⟩
      · refine Or.inl ⟨rfl, rfl, rfl, by simp [messageIDAfter, hosts, resolved, builPDU],
          Or.inr ⟨_, rfl, rfl⟩, ?_, rfl, by simp [queuedAs, unavailable]⟩
        intro tid valid
        exact Function.update_of_ne valid ..
      · refine Or.inr ⟨node, ?_⟩
        obtain ⟨issued, request, found, same, requestTid, transaction, requestsEq⟩ := transmits.request
        -- the request was appended, so it is the one that was issued
        have last : issued = ⟨⟨resolvedIP, if call.port = 80 then coapDefaultPort else call.port, coapInvalidTid,
            false, false⟩, node.pdu⟩ := by
          simpa [pdu] using found.symm
        have pduEq : issued.pdu = node.pdu := by rw [last]
        have transactionEq : node.id = transactionOf request node.pdu := by
          rw [id, transaction, ← pdu, transactionOf, transactionOf, same.1, same.2]
        refine ⟨{ issued with request }, ?_, rfl, rfl, ?_, ?_, ?_, ?_, req, due, first, pduEq, ?_,
          transactionEq, ?_⟩
        · simp only [transmits.pQueue, transmits.basetime]
        · simp only [transmits.messageID, messageIDAfter, hosts, resolved, builPDU]
        · simp only [requestsEq, List.set_append_right _ _ (Nat.le_refl _), Nat.sub_self, List.set_cons_zero]
        · simp only [transmits.callbacks, id, req]
        · simp only [transmits.log, req]
        · exact requestTid.trans id.symm
        · rw [id, transaction, last, queuedAs]
          simp only [hosts, resolved, available, requestPDU, transactionOf]
    | inProgress =>
      simp only [resolved, Option.some.injEq] at requests
      subst requests
      exact Or.inl ⟨rfl, rfl, rfl, by simp [messageIDAfter, resolved], Or.inl rfl, fun _ _ => rfl, rfl,
        by simp [queuedAs, resolved]⟩
    | error =>
      simp only [resolved, Option.some.injEq] at requests
      subst requests
      exact Or.inl ⟨rfl, rfl, rfl, by simp [messageIDAfter, resolved], Or.inl rfl, fun _ _ => rfl, rfl,
        by simp [queuedAs, resolved]⟩

/-- Calls one after the other; `holds` may speak of the calls still to come.  Induction on the list. -/
theorem requests_invariant (holds : List RequestCall → CoapClient → Prop)
    (skips : ∀ call rest this after, holds (call :: rest) this → Skips this after call → holds rest after)
    (queues : ∀ call rest this after node issued, holds (call :: rest) this →
      Queues this after node issued call → holds rest after)
    {calls : List RequestCall} {this after : CoapClient} (initially : holds calls this)
    (runs : calls.foldlM request this = some after) : holds [] after := by
  induction calls generalizing this with
  | nil =>
    cases runs
    exact initially
  | cons call rest inductionHypothesis =>
    simp only [List.foldlM_cons, Option.bind_eq_bind, Option.bind_eq_some_iff] at runs
    obtain ⟨next, requested, runs⟩ := runs
    apply inductionHypothesis _ runs
    rcases request_cases requested with skipped | ⟨node, issued, queued⟩
    · exact skips _ _ _ _ initially skipped
    · exact queues _ _ _ _ _ _ initially queued

/-! ## Responses -/

theorem coapGetNodeById_some {queue : List CoapQueueNode} {nodeId : CoapTid} {node : CoapQueueNode}
    (found : coapGetNodeById queue nodeId = some (some node)) : node ∈ queue ∧ node.id = nodeId := by
  cases queue with
  | nil => cases found
  | cons head rest =>
    simp only [coapGetNodeById, Option.map_eq_some_iff, Option.some.injEq, exists_eq_right] at found
    exact ⟨List.mem_of_find?_eq_some found, by simpa using List.find?_some found⟩

theorem coapGetNodeById_none {queue : List CoapQueueNode} {nodeId : CoapTid}
    (found : coapGetNodeById queue nodeId = some none) : queue = [] := by
  cases queue with
  | nil => rfl
  | cons head rest => simp [coapGetNodeById] at found

/-- A response that reaches a callback: the callback is called, the requests it makes are made, and
the entry is removed. -/
structure Answers (this after : CoapClient) (req : Nat) (pdu : CoapPDU) (now : Nat)
    (nested : List RequestCall) (tid : CoapTid) (callback : Nat) (called : CoapClient) : Prop where
  runs : nested.foldlM request { this with
    retransmissionTimer := none, log := .called callback true pdu :: this.log } = some called
  after_eq : after = { called with
    pQueue := advanceFirst (elapsed called.basetime now) (coapRemoveNode called.pQueue tid)
    callbacks := Function.update called.callbacks tid none
    retransmissionTimer := (dueFirst now (advanceFirst (elapsed called.basetime now)
      (coapRemoveNode called.pQueue tid))).or called.retransmissionTimer
    basetime := now
    requests := called.requests.modify req fun issued =>
      { issued with request := { issued.request with closed := true } } }

theorem onResponse_cases {this after : CoapClient} {successful : Bool} {req : Nat} {pdu : CoapPDU} {now : Nat}
    {nested : List RequestCall} (responds : this.onResponse successful req pdu now nested = some after) :
    ∃ issued, this.requests[req]? = some issued ∧
      ((after = this ∧ (successful = true → this.pQueue = [])) ∨
        (successful = true ∧ ∃ node ∈ this.pQueue, node.id = issued.request.tid ∧
          ((this.callbacks issued.request.tid = none ∧
              after = { this with
                pQueue := advanceFirst (elapsed this.basetime now) this.pQueue
                retransmissionTimer := dueFirst now (advanceFirst (elapsed this.basetime now) this.pQueue)
                basetime := now }) ∨
            ∃ callback called, this.callbacks issued.request.tid = some callback ∧
              Answers this after req pdu now nested issued.request.tid callback called))) := by
  simp only [onResponse, Option.bind_eq_bind, Option.bind_eq_some_iff] at responds
  obtain ⟨issued, found, responds⟩ := responds
  refine ⟨issued, found, ?_⟩
  -- a failed request is left to the timer
  split at responds
  next unsuccessful =>
    cases responds
    exact Or.inl ⟨rfl, fun successful => absurd successful (by simp [unsuccessful])⟩
  next successful =>
    simp only [Option.bind_eq_some_iff] at responds
    obtain ⟨entry, lookup, responds⟩ := responds
    cases entry with
    | none =>
      cases responds
      exact Or.inl ⟨rfl, fun _ => coapGetNodeById_none lookup⟩
    | some node =>
      obtain ⟨member, id⟩ := coapGetNodeById_some lookup
      refine Or.inr ⟨by simpa using successful, node, member, id, ?_⟩
      cases registered : this.callbacks issued.request.tid with
      -- the entry stays where no callback is registered for its id
      | none =>
        simp only [timerStop, registered, Option.bind_some, Option.some.injEq] at responds
        subst responds
        refine Or.inl ⟨rfl, ?_⟩
        simp only [timerUpdate_eq, timerRestart_eq, Option.or_none]
      | some callback =>
        simp only [timerStop, registered, Option.bind_eq_some_iff, Option.bind_some, Option.some.injEq] at responds
        obtain ⟨called, calls, rfl⟩ := responds
        exact Or.inr ⟨callback, called, rfl, calls, by
          simp only [timerUpdate_eq, timerRestart_eq, close]⟩

/-! ## Ticks -/

/-- The first entry is sent again. -/
structure Resends (this after : CoapClient) (node : CoapQueueNode) (rest : List CoapQueueNode) (now : Nat)
    (id : CoapTid) (sent : CoapClient) : Prop where
  transmits : Transmits { this with pQueue := rest } sent node.req now id node.pdu
  after_eq : after = { sent with
    pQueue := coapAddNode rest (node.again id)
    retransmissionTimer := dueFirst now (coapAddNode rest (node.again id)) }

/-- The first entry is dropped, and the callback under its id is told. -/
structure Drops (this after : CoapClient) (node : CoapQueueNode) (rest : List CoapQueueNode) (now : Nat)
    (nested : List RequestCall) (informed : CoapClient) : Prop where
  informs : (this.callbacks node.id = none ∧ informed = { this with pQueue := rest }) ∨
    ∃ callback, this.callbacks node.id = some callback ∧
      nested.foldlM request { this with
        pQueue := rest, log := .called callback false node.pdu :: this.log } = some informed
  after_eq : after = { informed with
    retransmissionTimer := (dueFirst now informed.pQueue).or informed.retransmissionTimer }

theorem inform_cases {this informed : CoapClient} {node : CoapQueueNode} {nested : List RequestCall}
    (informs : this.inform node nested = some informed) :
    (this.callbacks node.id = none ∧ informed = this) ∨
      ∃ callback, this.callbacks node.id = some callback ∧
        nested.foldlM request { this with log := .called callback false node.pdu :: this.log } =
          some informed := by
  rw [inform] at informs
  cases registered : this.callbacks node.id with
  | none =>
    simp only [registered, Option.some.injEq] at informs
    exact Or.inl ⟨rfl, informs.symm⟩
  | some callback =>
    simp only [registered] at informs
    exact Or.inr ⟨callback, rfl, informs⟩

theorem timerTick_cases {this after : CoapClient} {now : Nat} {connects : Bool} {nested : List RequestCall}
    (ticks : this.timerTick now connects nested = some after) :
    ∃ node rest, this.pQueue = node :: rest ∧
      ((¬ node.Expires ∧ ∃ id sent, Resends this after node rest now id sent) ∨
        (node.Expires ∧ ∃ informed, Drops this after node rest now nested informed)) := by
  cases queue : this.pQueue with
  | nil => simp [timerTick, queue] at ticks
  | cons node rest =>
    refine ⟨node, rest, rfl, ?_⟩
    simp only [timerTick, queue, Option.bind_eq_bind] at ticks
    -- both ways to give up end in the same calls
    have dropped : (inform { this with pQueue := rest } node nested).bind
        (fun informed => some (informed.timerRestart now)) = some after →
        ∃ informed, Drops this after node rest now nested informed := by
      intro informs
      simp only [Option.bind_eq_some_iff, Option.some.injEq] at informs
      obtain ⟨informed, informs, rfl⟩ := informs
      exact ⟨informed, inform_cases informs, timerRestart_eq informed now⟩
    split at ticks
    next non => exact Or.inr ⟨Or.inl non, dropped ticks⟩
    next con =>
      split at ticks
      next again =>
        have goesOn : ¬ node.Expires := by
          rw [CoapQueueNode.Expires, not_or]
          exact ⟨con, Nat.not_le.mpr again⟩
        simp only [Option.bind_eq_some_iff] at ticks
        obtain ⟨⟨id, sent⟩, sends, ticks⟩ := ticks
        have transmits := sendPDU_cases sends
        -- the id that comes back is that of the message, which is never the invalid one
        have valid : id ≠ coapInvalidTid := by
          obtain ⟨issued, _, _, _, _, transaction, _⟩ := transmits.request
          rw [transaction]
          exact createTransactionID_ne _ _ _
        simp only [if_neg valid, Option.bind_some, Option.some.injEq] at ticks
        refine Or.inl ⟨goesOn, id, sent, transmits, ?_⟩
        rw [← ticks, timerRestart_eq, dueFirst_or (coapAddNode_ne_nil _ _), transmits.pQueue]
        rfl
      next exhausted => exact Or.inr ⟨Or.inr (Nat.not_lt.mp exhausted), dropped ticks⟩

/-! ## Steps -/

/-- The PDU of a datagram that passes `validate`. -/
def accepted (payload : Wire.Memory) (totLen : Nat) : Option CoapPDU :=
  match (CoapPDU.ofBytes 0 payload totLen).validate with
  | (valid, recvPDU) => if valid = 1 then some recvPDU else none

theorem datagram_cases {this after : CoapClient} {req : Nat} {payload : Wire.Memory} {totLen now : Nat}
    {nested : List RequestCall} (taken : this.step (.datagram req payload totLen now nested) = some after) :
    ∃ successful pdu, accepted payload totLen = (if successful then some pdu else none) ∧
      this.onResponse successful req pdu now nested = some after := by
  simp only [step, onReceive, Option.bind_eq_bind, Option.bind_eq_some_iff] at taken
  obtain ⟨issued, _, taken⟩ := taken
  split at taken
  next => cases taken
  next =>
    split at taken
    next malformed =>
      refine ⟨false, _, ?_, taken⟩
      simp only [accepted, if_neg malformed]
      rfl
    next valid =>
      refine ⟨true, _, ?_, taken⟩
      simp only [accepted, if_pos (Decidable.not_not.mp valid)]
      rfl

theorem tick_cases {this after : CoapClient} {now : Nat} {connects : Bool} {nested : List RequestCall}
    (taken : this.step (.tick now connects nested) = some after) :
    ∃ node rest, this.pQueue = node :: rest ∧
      ((¬ node.Expires ∧ ∃ id sent, Resends this.timerStop after node rest now id sent) ∨
        (node.Expires ∧ ∃ informed, Drops this.timerStop after node rest now nested informed)) := by
  simp only [step] at taken
  split at taken
  next => cases taken
  next => exact timerTick_cases taken

end CoapClient

end SmingCoap
