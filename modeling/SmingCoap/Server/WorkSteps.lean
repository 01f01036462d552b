import SmingCoap.Server.CallSteps

/-! # What `CoAP_doWork` can do

One turn takes the first interaction of the list.  Its handler or callback makes
calls, its request may register or remove an observer, and in the end the
interaction is deleted, put at the end of the list or, sent once more, left in
front.  `Works` says what became of it; all that is proved about runs is derived
from `doWork_cases` and `doWork_turn`.
-/

namespace SmingCoap.Server

namespace CoapServer

/-! ## Sending -/

/-- A message as it is when it was sent. -/
def transmitted (now : UInt32) (msg : CoapMessage) : CoapMessage :=
  { (if msg.code = empty then { msg with payload := [] } else msg) with timestamp := now.toNat }

@[simp] theorem transmitted_type (now : UInt32) (msg : CoapMessage) : (transmitted now msg).type = msg.type := by
  unfold transmitted
  split <;> rfl

@[simp] theorem transmitted_code (now : UInt32) (msg : CoapMessage) : (transmitted now msg).code = msg.code := by
  unfold transmitted
  split <;> rfl

@[simp] theorem transmitted_messageID (now : UInt32) (msg : CoapMessage) :
    (transmitted now msg).messageID = msg.messageID := by
  unfold transmitted
  split <;> rfl

@[simp] theorem transmitted_token64 (now : UInt32) (msg : CoapMessage) :
    (transmitted now msg).token64 = msg.token64 := by
  unfold transmitted
  split <;> rfl

@[simp] theorem transmitted_options (now : UInt32) (msg : CoapMessage) :
    (transmitted now msg).options = msg.options := by
  unfold transmitted
  split <;> rfl

/-- The transmission of a message of an interaction. -/
def sending (now : UInt32) (pIA : CoapInteraction) (msg : CoapMessage) : Effect :=
  .sent (some pIA) pIA.origin pIA.ifID pIA.remoteEp (transmitted now msg)

theorem sendMsg_sent {env : Env} {this : CoapServer} (now : UInt32) (ia : Option CoapInteraction)
    (origin : Option NetPacket) (msg : CoapMessage) (ifID : UInt8) (receiver : NetEp)
    (success : env.transmit this.transmissions = true) :
    this.sendMsg env now ia origin msg ifID receiver = (true, transmitted now msg,
      { this with
        transmissions := this.transmissions + 1
        log := .sent ia origin ifID receiver (transmitted now msg) :: this.log }) := by
  simp [sendMsg, success, transmitted]

theorem sendMsg_failed {env : Env} {this : CoapServer} (now : UInt32) (ia : Option CoapInteraction)
    (origin : Option NetPacket) (msg : CoapMessage) (ifID : UInt8) (receiver : NetEp)
    (failure : env.transmit this.transmissions = false) :
    ∃ msg', this.sendMsg env now ia origin msg ifID receiver =
      (false, msg', { this with transmissions := this.transmissions + 1 }) := by
  simp [sendMsg, failure]

/-! ## Ends of a turn -/

/-- The list is replaced and effects are noted. -/
structure Places (this after : CoapServer) (effects : List Effect) (list : List CoapInteraction) : Prop where
  pInteractions : after.pInteractions = list
  resources : after.resources = this.resources
  interactions : after.interactions = this.interactions
  log : after.log = effects ++ this.log

/-- An interaction whose response was sent. -/
def responded (now : UInt32) (pIA : CoapInteraction) (resp : CoapMessage) (next : InteractionState) :
    CoapInteraction :=
  let pIA := { pIA with pRespMsg := some (transmitted now resp), state := next }
  match resp.type with
  | .ack => { pIA with reqReliabilityState := .ackSet }
  | .con => enableAckTimeout now pIA pIA.retransCounter
  | _ => pIA

/-- An interaction whose request was sent. -/
def requested (now : UInt32) (pIA : CoapInteraction) (req : CoapMessage) : CoapInteraction :=
  let pIA := { pIA with pReqMsg := some (transmitted now req), state := .waitingResponse }
  if req.type = .con then enableAckTimeout now pIA pIA.retransCounter else pIA

/-- An interaction whose response was sent once more. -/
def repeated (now : UInt32) (pIA : CoapInteraction) (resp : CoapMessage) : CoapInteraction :=
  enableAckTimeout now { pIA with
    pRespMsg := some (transmitted now resp), retransCounter := pIA.retransCounter + 1 } (pIA.retransCounter + 1)

/-- An interaction whose request was sent once more. -/
def requestedAgain (now : UInt32) (pIA : CoapInteraction) (req : CoapMessage) : CoapInteraction :=
  enableAckTimeout now { pIA with
    pReqMsg := some (transmitted now req), retransCounter := pIA.retransCounter + 1 } (pIA.retransCounter + 1)

/-- The state of a request that is still to be answered. -/
def Unanswered (pIA : CoapInteraction) : Prop :=
  pIA.state = .handleRequest ∨ pIA.state = .resourcePostponeEmptyAckSent

/-- What `CoAP_AllocRespMsg` makes for a request. -/
structure Allocated (req : CoapMessage) (code : UInt8) (resp : CoapMessage) : Prop where
  token64 : resp.token64 = req.token64
  code : resp.code = code
  piggybacked : req.type = .con → resp.type = .ack ∧ resp.messageID = req.messageID

/-- The message that a handler is given. -/
def Offered (pIA : CoapInteraction) (req : CoapMessage) (resp : Option CoapMessage) : Prop :=
  resp = pIA.pRespMsg ∧ pIA.pRespMsg ≠ none ∨
    pIA.pRespMsg = none ∧ ∀ msg, resp = some msg → Allocated req empty msg

/-- A response that a handler left is complete. -/
structure Answers (log : List Effect) (pIA : CoapInteraction) (req handled resp : CoapMessage) : Prop where
  token64 : resp.token64 = handled.token64
  code : resp.code ≠ empty
  separate : req.type = .con → pIA.reqReliabilityState = .ackSet →
    resp.type = .con ∧ .nextMid resp.messageID ∈ log
  piggybacked : req.type = .con → pIA.reqReliabilityState ≠ .ackSet →
    resp.type = .ack ∧ resp.messageID = handled.messageID

/-- The token of a notification is the notifier's. -/
def Refreshes (env : Env) (resp refreshed : CoapMessage) : Prop :=
  ∃ turn pRes pObserver mid, refreshed.token64 =
    (env.notifier turn pRes pObserver { resp with messageID := mid }).resp.token64

/-- What becomes of an interaction, and what is noted of it. -/
inductive Works (env : Env) (now : UInt32) (resources : List CoapResource) (log : List Effect)
    (pIA : CoapInteraction) :
    List Effect → CoapInteraction → Prop
  | waits : Works env now resources log pIA [] pIA
  | refuses {req resp : CoapMessage} {pRes : Nat} {resource : CoapResource} (role : pIA.role = .server)
      (state : Unanswered pIA) (request : pIA.pReqMsg = some req) (asked : pIA.pRes = some pRes)
      (found : resources[pRes]? = some resource)
      (refused : methodNotAllowed req.code resource.flags = true)
      (allocated : Allocated req respMethodNotAllowed resp) :
      Works env now resources log pIA [sending now { pIA with pRespMsg := some resp } resp]
        (responded now { pIA with pRespMsg := some resp } resp .responseSent)
  | answers {req offered resp : CoapMessage} {turn pRes : Nat} (role : pIA.role = .server)
      (state : Unanswered pIA) (request : pIA.pReqMsg = some req) (offers : Offered pIA req (some offered))
      (complete : Answers log pIA req (env.handler turn pRes req (some offered)).resp resp) :
      Works env now resources log pIA [sending now { pIA with pRespMsg := some resp } resp]
        (responded now { pIA with pRespMsg := some resp } resp .responseSent)
  | postpones {req : CoapMessage} {offered resp : Option CoapMessage} {turn pRes : Nat}
      {resource : CoapResource} (role : pIA.role = .server) (state : Unanswered pIA)
      (request : pIA.pReqMsg = some req) (asked : pIA.pRes = some pRes)
      (found : resources[pRes]? = some resource)
      (supported : methodNotAllowed req.code resource.flags = false) (offers : Offered pIA req offered)
      (handled : resp = offered.map fun _ => (env.handler turn pRes req offered).resp)
      (confirmable : req.type = .con) (first : pIA.reqReliabilityState ≠ .ackSet) :
      Works env now resources log pIA
        [sending now { pIA with pRespMsg := resp } { coapInitToEmptyResetMsg with
          type := .ack, messageID := req.messageID }]
        { pIA with
          pRespMsg := resp
          reqReliabilityState := .ackSet
          state := .resourcePostponeEmptyAckSent
          sleepUntil := now + postponeWaitTimeSek }
  | sleeps {req : CoapMessage} {offered resp : Option CoapMessage} {turn pRes : Nat}
      (role : pIA.role = .server) (state : Unanswered pIA) (request : pIA.pReqMsg = some req)
      (offers : Offered pIA req offered)
      (handled : resp = offered.map fun _ => (env.handler turn pRes req offered).resp)
      (later : req.type = .con → pIA.reqReliabilityState = .ackSet) :
      Works env now resources log pIA [] { pIA with pRespMsg := resp, sleepUntil := now + postponeWaitTimeSek }
  | repeats {resp : CoapMessage}
      (role : pIA.role = .server ∧ pIA.state = .responseSent ∨
        pIA.role = .notification ∧ pIA.state = .notificationSent)
      (response : pIA.pRespMsg = some resp) (confirmable : resp.type = .con)
      (pending : pIA.respReliabilityState = .notSet) (attempts : pIA.retransCounter < maxRetransmit) :
      Works env now resources log pIA [sending now pIA resp] (repeated now pIA resp)
  | notifies {resp : CoapMessage} (role : pIA.role = .notification) (state : pIA.state = .readyToNotify)
      (response : pIA.pRespMsg = some resp) :
      Works env now resources log pIA [sending now pIA resp] (responded now pIA resp .notificationSent)
  | repeatsRefreshed {resp refreshed : CoapMessage} (role : pIA.role = .notification)
      (state : pIA.state = .notificationSent) (response : pIA.pRespMsg = some resp)
      (confirmable : resp.type = .con) (pending : pIA.respReliabilityState = .notSet)
      (fresh : Refreshes env resp refreshed) (attempts : pIA.retransCounter < maxRetransmit) :
      Works env now resources log pIA
        [sending now { pIA with
            updatePendingNotification := false, pRespMsg := some { refreshed with type := .con } }
          { refreshed with type := .con }]
        (repeated now { pIA with
            updatePendingNotification := false, pRespMsg := some { refreshed with type := .con } }
          { refreshed with type := .con })
  | refreshes {resp refreshed : CoapMessage} (role : pIA.role = .notification)
      (state : pIA.state = .notificationSent) (response : pIA.pRespMsg = some resp)
      (fresh : Refreshes env resp refreshed) :
      Works env now resources log pIA [] { pIA with
        state := .readyToNotify
        retransCounter := 0
        updatePendingNotification := false
        respReliabilityState := .notSet
        pRespMsg := some refreshed }
  | requests {req : CoapMessage} (role : pIA.role = .client) (state : pIA.state = .readyToRequest)
      (request : pIA.pReqMsg = some req) :
      Works env now resources log pIA [sending now pIA req] (requested now pIA req)
  | requestsAgain {req : CoapMessage} (role : pIA.role = .client) (state : pIA.state = .waitingResponse)
      (request : pIA.pReqMsg = some req) (confirmable : req.type = .con)
      (pending : pIA.reqReliabilityState = .notSet) (attempts : pIA.retransCounter < maxRetransmit) :
      Works env now resources log pIA [sending now pIA req] (requestedAgain now pIA req)

/-- What sending a response does not touch. -/
theorem responded_fields (now : UInt32) (pIA : CoapInteraction) (resp : CoapMessage) (next : InteractionState) :
    (responded now pIA resp next).ref = pIA.ref ∧ (responded now pIA resp next).role = pIA.role ∧
      (responded now pIA resp next).state = next ∧ (responded now pIA resp next).pRes = pIA.pRes ∧
      (responded now pIA resp next).pReqMsg = pIA.pReqMsg ∧
      (responded now pIA resp next).pRespMsg = some (transmitted now resp) ∧
      (responded now pIA resp next).remoteEp = pIA.remoteEp ∧ (responded now pIA resp next).ifID = pIA.ifID ∧
      (responded now pIA resp next).origin = pIA.origin ∧
      (responded now pIA resp next).respReliabilityState = pIA.respReliabilityState := by
  unfold responded
  cases resp.type with
  | con => exact ⟨rfl, rfl, rfl, rfl, rfl, rfl, rfl, rfl, rfl, rfl⟩
  | non => exact ⟨rfl, rfl, rfl, rfl, rfl, rfl, rfl, rfl, rfl, rfl⟩
  | ack => exact ⟨rfl, rfl, rfl, rfl, rfl, rfl, rfl, rfl, rfl, rfl⟩
  | rst => exact ⟨rfl, rfl, rfl, rfl, rfl, rfl, rfl, rfl, rfl, rfl⟩

/-- What sending a request does not touch. -/
theorem requested_fields (now : UInt32) (pIA : CoapInteraction) (req : CoapMessage) :
    (requested now pIA req).ref = pIA.ref ∧ (requested now pIA req).role = pIA.role ∧
      (requested now pIA req).state = .waitingResponse ∧
      (requested now pIA req).pReqMsg = some (transmitted now req) ∧
      (requested now pIA req).remoteEp = pIA.remoteEp ∧ (requested now pIA req).ifID = pIA.ifID ∧
      (requested now pIA req).reqReliabilityState = pIA.reqReliabilityState := by
  unfold requested
  simp only
  split
  next => exact ⟨rfl, rfl, rfl, rfl, rfl, rfl, rfl⟩
  next => exact ⟨rfl, rfl, rfl, rfl, rfl, rfl, rfl⟩

theorem Works.ref {env : Env} {now : UInt32} {resources : List CoapResource} {log effects : List Effect} {pIA worked : CoapInteraction}
    (works : Works env now resources log pIA effects worked) : worked.ref = pIA.ref := by
  cases works with
  | refuses => exact (responded_fields ..).1
  | answers => exact (responded_fields ..).1
  | notifies => exact (responded_fields ..).1
  | requests => exact (requested_fields ..).1
  | _ => rfl

/-- What work does not touch; a client's request changes its time stamp. -/
theorem Works.identity {env : Env} {now : UInt32} {resources : List CoapResource} {log effects : List Effect} {pIA worked : CoapInteraction}
    (works : Works env now resources log pIA effects worked) : worked.role = pIA.role ∧ worked.remoteEp = pIA.remoteEp ∧
      worked.ifID = pIA.ifID ∧
      (pIA.role ≠ .client → worked.pRes = pIA.pRes ∧ worked.origin = pIA.origin ∧
        worked.pReqMsg = pIA.pReqMsg) := by
  cases works with
  | refuses =>
    obtain ⟨_, role, _, pRes, pReqMsg, _, remoteEp, ifID, origin, _⟩ := responded_fields now
      { pIA with pRespMsg := some _ } _ .responseSent
    exact ⟨role, remoteEp, ifID, fun _ => ⟨pRes, origin, pReqMsg⟩⟩
  | answers =>
    obtain ⟨_, role, _, pRes, pReqMsg, _, remoteEp, ifID, origin, _⟩ := responded_fields now
      { pIA with pRespMsg := some _ } _ .responseSent
    exact ⟨role, remoteEp, ifID, fun _ => ⟨pRes, origin, pReqMsg⟩⟩
  | notifies =>
    obtain ⟨_, role, _, pRes, pReqMsg, _, remoteEp, ifID, origin, _⟩ := responded_fields now pIA _ .notificationSent
    exact ⟨role, remoteEp, ifID, fun _ => ⟨pRes, origin, pReqMsg⟩⟩
  | requests isClient =>
    obtain ⟨_, role, _, _, remoteEp, ifID, _⟩ := requested_fields now pIA _
    exact ⟨role, remoteEp, ifID, fun other => absurd isClient other⟩
  | requestsAgain isClient => exact ⟨rfl, rfl, rfl, fun other => absurd isClient other⟩
  | _ => exact ⟨rfl, rfl, rfl, fun _ => ⟨rfl, rfl, rfl⟩⟩

/-- What is noted are messages of the interaction. -/
theorem Works.sends {env : Env} {now : UInt32} {resources : List CoapResource} {log effects : List Effect}
    {pIA worked : CoapInteraction} (works : Works env now resources log pIA effects worked) :
    ∀ effect ∈ effects, ∃ other msg, effect = sending now other msg ∧ other.ref = pIA.ref ∧
      other.role = pIA.role ∧ other.origin = pIA.origin ∧ other.remoteEp = pIA.remoteEp ∧
      other.ifID = pIA.ifID := by
  intro effect member
  cases works with
  | waits => cases member
  | sleeps => cases member
  | refreshes => cases member
  | _ => exact ⟨_, _, List.mem_singleton.mp member, rfl, rfl, rfl, rfl, rfl⟩

theorem Works.actor {env : Env} {now : UInt32} {resources : List CoapResource} {log effects : List Effect}
    {pIA worked : CoapInteraction} (works : Works env now resources log pIA effects worked) :
    ∀ effect ∈ effects, effect.actor = some pIA.ref := by
  intro effect member
  obtain ⟨other, msg, rfl, ref, _⟩ := works.sends effect member
  exact congrArg some ref

/-- At most one message is sent. -/
theorem Works.effects {env : Env} {now : UInt32} {resources : List CoapResource} {log effects : List Effect} {pIA worked : CoapInteraction}
    (works : Works env now resources log pIA effects worked) : effects = [] ∨ ∃ effect, effects = [effect] := by
  cases works with
  | waits => exact .inl rfl
  | sleeps => exact .inl rfl
  | refreshes => exact .inl rfl
  | _ => exact .inr ⟨_, rfl⟩

/-- How a turn ends for the interaction it was about. -/
inductive Ends (env : Env) (now : UInt32) (resources : List CoapResource) (pIA : CoapInteraction)
    (this after : CoapServer) : Prop
  | deleted (placed : Places this after [] (this.pInteractions.eraseP fun other => other.ref = pIA.ref))
  | last {effects : List Effect} {worked : CoapInteraction} (works : Works env now resources this.log pIA effects worked)
      (placed : Places this after effects
        ((this.pInteractions.eraseP fun other => other.ref = worked.ref) ++ [worked]))
  | first {effect : Effect} {worked : CoapInteraction} (works : Works env now resources this.log pIA [effect] worked)
      (again : worked.retransCounter = pIA.retransCounter + 1)
      (placed : Places this after [effect]
        (this.pInteractions.map fun other => if other.ref = worked.ref then worked else other))

/-- Whether the resource handler was called. -/
inductive Begins (pIA : CoapInteraction) (this after : CoapServer) : Prop
  | nothing (same : Silent this after)
  | handled {req : CoapMessage} (role : pIA.role = .server) (state : Unanswered pIA)
      (request : pIA.pReqMsg = some req) (list : after.pInteractions = this.pInteractions)
      (resources : after.resources = this.resources) (interactions : after.interactions = this.interactions)
      (transmissions : after.transmissions = this.transmissions)
      (log : after.log = .handled pIA req :: this.log)

/-- The observer that a request registers. -/
structure Registers (pIA : CoapInteraction) (req : CoapMessage) (pObserver : CoapObserver) : Prop where
  role : pIA.role = .server
  request : pIA.pReqMsg = some req
  origin : pIA.origin = some pObserver.origin
  token : pObserver.token = req.token64
  ifID : pObserver.ifID = pIA.ifID
  ep : pObserver.ep = pIA.remoteEp

/-- The request asks to be taken off the list of observers. -/
def Deregisters (pIA : CoapInteraction) : Prop :=
  pIA.role = .server ∧ ∃ req, pIA.pReqMsg = some req ∧ req.code = reqGet ∧
    getObserveOptionFromMsg req = some observeOptDeregister

/-- What the Observe option of a request does. -/
inductive Observes (pIA : CoapInteraction) (this after : CoapServer) : Prop
  | nothing (same : Silent this after)
  | registered {req : CoapMessage} {pObserver : CoapObserver} {pRes : Nat}
      (registers : Registers pIA req pObserver) (resource : pIA.pRes = some pRes)
      (middle : CoapServer) (same : Silent this middle)
      (changed : after = middle.modifyResource pRes fun resource =>
        (resource.removeObserver pIA.ifID pIA.remoteEp req.token64).appendObserver pObserver)
  | removed (token : UInt64) (deregisters : Deregisters pIA)
      (changed : after = this.removeInteractionsObserver pIA token)
  | aborted (token : UInt64) (deregisters : Deregisters pIA) {pending : CoapInteraction}
      (member : pending ∈ this.pInteractions) (role : pending.role = .notification)
      (changed : after = (this.removeInteractionsObserver pIA token).deleteInteraction pending.ref)

/-- One turn of `CoAP_doWork` for the first interaction. -/
def Turn (env : Env) (known : CoapObserver → Prop) (now : UInt32) (pIA : CoapInteraction)
    (this after : CoapServer) : Prop :=
  ∃ prepared begun called observed ready,
    Calls env known this prepared ∧ Begins pIA prepared begun ∧ Calls env known begun called ∧
    Observes pIA called observed ∧ Calls env known observed ready ∧ Ends env now this.resources pIA ready after

theorem Silent.refl (this : CoapServer) : Silent this this := ⟨rfl, rfl, rfl, rfl, rfl⟩

theorem Ends.turn {env : Env} {known : CoapObserver → Prop} {now : UInt32} {pIA : CoapInteraction}
    {this after : CoapServer} (ends : Ends env now this.resources pIA this after) : Turn env known now pIA this after :=
  ⟨this, this, this, this, this, calls_refl, .nothing (.refl this), calls_refl, .nothing (.refl this),
    calls_refl, ends⟩

/-- Calls in front of the end. -/
theorem Ends.turn_calls {env : Env} {known : CoapObserver → Prop} {now : UInt32} {pIA : CoapInteraction}
    {this ready after : CoapServer} (calls : Calls env known this ready) (ends : Ends env now this.resources pIA ready after) :
    Turn env known now pIA this after :=
  ⟨ready, ready, ready, ready, ready, calls, .nothing (.refl ready), calls_refl, .nothing (.refl ready),
    calls_refl, ends⟩

theorem deleteInteraction_ends {env : Env} {now : UInt32} {resources : List CoapResource} {pIA : CoapInteraction} {this : CoapServer} :
    Ends env now resources pIA this (this.deleteInteraction pIA.ref) :=
  .deleted ⟨rfl, rfl, rfl, rfl⟩

theorem enqueueLastInteraction_ends {env : Env} {now : UInt32} {resources : List CoapResource}
    {pIA worked : CoapInteraction} {this : CoapServer} (works : Works env now resources this.log pIA [] worked) :
    Ends env now resources pIA this (this.enqueueLastInteraction worked) :=
  .last works ⟨rfl, rfl, rfl, rfl⟩

/-! ## The four ways to send -/

section
variable {env : Env} {now : UInt32} {resources : List CoapResource} {pIA local' : CoapInteraction}
  {this after : CoapServer}

theorem sendResp_sent {resp : CoapMessage} {next : InteractionState} (response : pIA.pRespMsg = some resp)
    (success : env.transmit this.transmissions = true) (sent : this.sendResp env now pIA next = some after) :
    Places this after [sending now pIA resp]
      ((this.pInteractions.eraseP fun other => other.ref = (responded now pIA resp next).ref) ++
        [responded now pIA resp next]) := by
  simp only [sendResp, response, Option.bind_eq_bind, Option.bind_some] at sent
  rw [sendMsg_sent now _ _ resp _ _ success] at sent
  simp only [transmitted_type] at sent
  cases type : resp.type with
  | con =>
    simp only [type, Option.some.injEq] at sent
    subst sent
    simp only [responded, type]
    exact ⟨rfl, rfl, rfl, rfl⟩
  | non =>
    simp only [type, Option.some.injEq] at sent
    subst sent
    simp only [responded, type]
    exact ⟨rfl, rfl, rfl, rfl⟩
  | ack =>
    simp only [type, Option.some.injEq] at sent
    subst sent
    simp only [responded, type]
    exact ⟨rfl, rfl, rfl, rfl⟩
  | rst =>
    simp only [type, Option.some.injEq] at sent
    subst sent
    simp only [responded, type]
    exact ⟨rfl, rfl, rfl, rfl⟩

theorem sendResp_failed {next : InteractionState} (failure : env.transmit this.transmissions = false)
    (sent : this.sendResp env now pIA next = some after) :
    Places this after [] (this.pInteractions.eraseP fun other => other.ref = pIA.ref) := by
  simp only [sendResp, Option.bind_eq_bind] at sent
  obtain ⟨resp, _, sent⟩ := Option.bind_eq_some_iff.mp sent
  obtain ⟨_, failed⟩ := sendMsg_failed now (some pIA) pIA.origin resp pIA.ifID pIA.remoteEp failure
  simp only [failed, Option.bind_eq_some_iff] at sent
  obtain ⟨_, _, deleted⟩ := sent
  cases deleted
  exact ⟨rfl, rfl, rfl, rfl⟩

/-- `SendResp` sends the response and queues the interaction again, or deletes it. -/
theorem sendResp_places {resp : CoapMessage} {next : InteractionState} (response : pIA.pRespMsg = some resp)
    (sent : this.sendResp env now pIA next = some after) :
    Places this after [] (this.pInteractions.eraseP fun other => other.ref = pIA.ref) ∨
      Places this after [sending now pIA resp]
        ((this.pInteractions.eraseP fun other => other.ref = (responded now pIA resp next).ref) ++
          [responded now pIA resp next]) := by
  cases success : env.transmit this.transmissions with
  | true => exact .inr (sendResp_sent response success sent)
  | false => exact .inl (sendResp_failed success sent)

theorem sendReq_sent {req : CoapMessage} (request : pIA.pReqMsg = some req)
    (success : env.transmit this.transmissions = true) (sent : this.sendReq env now pIA .waitingResponse = some after) :
    Places this after [sending now pIA req]
      ((this.pInteractions.eraseP fun other => other.ref = (requested now pIA req).ref) ++ [requested now pIA req]) := by
  simp only [sendReq, request, Option.bind_eq_bind, Option.bind_some] at sent
  rw [sendMsg_sent now _ _ req _ _ success] at sent
  simp only [transmitted_type] at sent
  split at sent
  next confirmable =>
    cases sent
    rw [requested, if_pos confirmable]
    exact ⟨rfl, rfl, rfl, rfl⟩
  next other =>
    cases sent
    rw [requested, if_neg other]
    exact ⟨rfl, rfl, rfl, rfl⟩

theorem sendReq_failed (failure : env.transmit this.transmissions = false)
    (sent : this.sendReq env now pIA .waitingResponse = some after) :
    Places this after [] (this.pInteractions.eraseP fun other => other.ref = pIA.ref) := by
  simp only [sendReq, Option.bind_eq_bind] at sent
  obtain ⟨req, _, sent⟩ := Option.bind_eq_some_iff.mp sent
  obtain ⟨_, failed⟩ := sendMsg_failed now (some pIA) pIA.origin req pIA.ifID pIA.remoteEp failure
  simp only [failed] at sent
  cases sent
  exact ⟨rfl, rfl, rfl, rfl⟩

/-- `SendReq` does the same with a request. -/
theorem sendReq_places {req : CoapMessage} (request : pIA.pReqMsg = some req)
    (sent : this.sendReq env now pIA .waitingResponse = some after) :
    Places this after [] (this.pInteractions.eraseP fun other => other.ref = pIA.ref) ∨
      Places this after [sending now pIA req]
        ((this.pInteractions.eraseP fun other => other.ref = (requested now pIA req).ref) ++
          [requested now pIA req]) := by
  cases success : env.transmit this.transmissions with
  | true => exact .inr (sendReq_sent request success sent)
  | false => exact .inl (sendReq_failed success sent)

theorem retryResp_sent {resp : CoapMessage} (response : pIA.pRespMsg = some resp)
    (success : env.transmit this.transmissions = true) (sent : this.retryResp env now pIA = some after) :
    Places this after [sending now pIA resp] (this.pInteractions.map fun other =>
      if other.ref = (repeated now pIA resp).ref then repeated now pIA resp else other) := by
  simp only [retryResp, response, Option.bind_eq_bind, Option.bind_some] at sent
  rw [sendMsg_sent now _ _ resp _ _ success] at sent
  cases sent
  exact ⟨rfl, rfl, rfl, rfl⟩

theorem retryResp_failed (failure : env.transmit this.transmissions = false)
    (sent : this.retryResp env now pIA = some after) :
    Places this after [] (this.pInteractions.eraseP fun other => other.ref = pIA.ref) := by
  simp only [retryResp, Option.bind_eq_bind] at sent
  obtain ⟨resp, _, sent⟩ := Option.bind_eq_some_iff.mp sent
  obtain ⟨_, failed⟩ := sendMsg_failed now (some pIA) pIA.origin resp pIA.ifID pIA.remoteEp failure
  simp only [failed, Option.bind_eq_some_iff] at sent
  obtain ⟨_, _, deleted⟩ := sent
  cases deleted
  exact ⟨rfl, rfl, rfl, rfl⟩

/-- A retry sends the response again and leaves the interaction where it is, or deletes it. -/
theorem retryResp_places {resp : CoapMessage} (response : pIA.pRespMsg = some resp)
    (sent : this.retryResp env now pIA = some after) :
    Places this after [] (this.pInteractions.eraseP fun other => other.ref = pIA.ref) ∨
      Places this after [sending now pIA resp] (this.pInteractions.map fun other =>
        if other.ref = (repeated now pIA resp).ref then repeated now pIA resp else other) := by
  cases success : env.transmit this.transmissions with
  | true => exact .inr (retryResp_sent response success sent)
  | false => exact .inl (retryResp_failed success sent)

theorem retryReq_sent {req : CoapMessage} (request : pIA.pReqMsg = some req)
    (success : env.transmit this.transmissions = true) (sent : this.retryReq env now pIA = some after) :
    Places this after [sending now pIA req] (this.pInteractions.map fun other =>
      if other.ref = (requestedAgain now pIA req).ref then requestedAgain now pIA req else other) := by
  simp only [retryReq, request, Option.bind_eq_bind, Option.bind_some] at sent
  rw [sendMsg_sent now _ _ req _ _ success] at sent
  cases sent
  exact ⟨rfl, rfl, rfl, rfl⟩

theorem retryReq_failed (failure : env.transmit this.transmissions = false)
    (sent : this.retryReq env now pIA = some after) :
    Places this after [] (this.pInteractions.eraseP fun other => other.ref = pIA.ref) := by
  simp only [retryReq, Option.bind_eq_bind] at sent
  obtain ⟨req, _, sent⟩ := Option.bind_eq_some_iff.mp sent
  obtain ⟨_, failed⟩ := sendMsg_failed now (some pIA) pIA.origin req pIA.ifID pIA.remoteEp failure
  simp only [failed] at sent
  cases sent
  exact ⟨rfl, rfl, rfl, rfl⟩

theorem retryReq_places {req : CoapMessage} (request : pIA.pReqMsg = some req)
    (sent : this.retryReq env now pIA = some after) :
    Places this after [] (this.pInteractions.eraseP fun other => other.ref = pIA.ref) ∨
      Places this after [sending now pIA req] (this.pInteractions.map fun other =>
        if other.ref = (requestedAgain now pIA req).ref then requestedAgain now pIA req else other) := by
  cases success : env.transmit this.transmissions with
  | true => exact .inr (retryReq_sent request success sent)
  | false => exact .inl (retryReq_failed success sent)

theorem sendResp_ends {resp : CoapMessage} {next : InteractionState}
    (sent : this.sendResp env now local' next = some after) (ref : local'.ref = pIA.ref)
    (response : local'.pRespMsg = some resp)
    (works : Works env now resources this.log pIA [sending now local' resp] (responded now local' resp next)) :
    Ends env now resources pIA this after := by
  cases sendResp_places response sent with
  | inl deleted =>
    rw [ref] at deleted
    exact .deleted deleted
  | inr placed => exact .last works placed

theorem sendReq_ends {req : CoapMessage} (sent : this.sendReq env now pIA .waitingResponse = some after)
    (request : pIA.pReqMsg = some req)
    (works : Works env now resources this.log pIA [sending now pIA req] (requested now pIA req)) : Ends env now resources pIA this after := by
  cases sendReq_places request sent with
  | inl deleted => exact .deleted deleted
  | inr placed => exact .last works placed

theorem retryResp_ends {resp : CoapMessage} (sent : this.retryResp env now local' = some after)
    (ref : local'.ref = pIA.ref) (counter : local'.retransCounter = pIA.retransCounter)
    (response : local'.pRespMsg = some resp)
    (works : Works env now resources this.log pIA [sending now local' resp] (repeated now local' resp)) : Ends env now resources pIA this after := by
  cases retryResp_places response sent with
  | inl deleted =>
    rw [ref] at deleted
    exact .deleted deleted
  | inr placed => exact .first works (congrArg (· + 1) counter) placed

theorem retryReq_ends {req : CoapMessage} (sent : this.retryReq env now pIA = some after)
    (request : pIA.pReqMsg = some req)
    (works : Works env now resources this.log pIA [sending now pIA req] (requestedAgain now pIA req)) : Ends env now resources pIA this after := by
  cases retryReq_places request sent with
  | inl deleted => exact .deleted deleted
  | inr placed => exact .first works rfl placed

end

/-! ## Making a response -/

/-- What is added to a message leaves its header and token alone. -/
structure Keeps (msg after : CoapMessage) : Prop where
  type : after.type = msg.type
  code : after.code = msg.code
  messageID : after.messageID = msg.messageID
  token64 : after.token64 = msg.token64

theorem Keeps.refl (msg : CoapMessage) : Keeps msg msg := ⟨rfl, rfl, rfl, rfl⟩

theorem Silent.trans {this middle after : CoapServer} (same : Silent this middle) (too : Silent middle after) :
    Silent this after :=
  ⟨too.1.trans same.1, too.2.trans same.2, too.3.trans same.3, too.4.trans same.4, too.5.trans same.5⟩

theorem Begins.pInteractions {pIA : CoapInteraction} {this after : CoapServer} (begins : Begins pIA this after) : after.pInteractions = this.pInteractions := by
  cases begins with
  | nothing same => exact same.pInteractions
  | handled _ _ _ list => exact list

/-- Only a resource is changed. -/
theorem removeInteractionsObserver_frame (this : CoapServer) (pIA : CoapInteraction) (token : UInt64) :
    (this.removeInteractionsObserver pIA token).pInteractions = this.pInteractions ∧
      (this.removeInteractionsObserver pIA token).interactions = this.interactions ∧
        (this.removeInteractionsObserver pIA token).log = this.log := by
  unfold removeInteractionsObserver
  cases pIA.pRes with
  | none => exact ⟨rfl, rfl, rfl⟩
  | some pRes => exact ⟨rfl, rfl, rfl⟩

theorem removeInteractionsObserver_pInteractions (this : CoapServer) (pIA : CoapInteraction) (token : UInt64) :
    (this.removeInteractionsObserver pIA token).pInteractions = this.pInteractions :=
  (removeInteractionsObserver_frame this pIA token).1

theorem Begins.interactions {pIA : CoapInteraction} {this after : CoapServer} (begins : Begins pIA this after) :
    after.interactions = this.interactions := by
  cases begins with
  | nothing same => exact same.interactions
  | handled _ _ _ _ _ interactions => exact interactions

theorem Observes.interactions {pIA : CoapInteraction} {this after : CoapServer} (observes : Observes pIA this after) :
    after.interactions = this.interactions := by
  cases observes with
  | nothing same => exact same.interactions
  | registered _ _ middle same changed => rw [changed]; exact same.interactions
  | removed token _ changed =>
    rw [changed]
    exact (removeInteractionsObserver_frame ..).2.1
  | aborted token _ _ _ changed =>
    rw [changed]
    exact (removeInteractionsObserver_frame ..).2.1

theorem Observes.log {pIA : CoapInteraction} {this after : CoapServer} (observes : Observes pIA this after) :
    after.log = this.log := by
  cases observes with
  | nothing same => exact same.log
  | registered _ _ middle same changed => rw [changed]; exact same.log
  | removed token _ changed =>
    rw [changed]
    exact (removeInteractionsObserver_frame ..).2.2
  | aborted token _ _ _ changed =>
    rw [changed]
    exact (removeInteractionsObserver_frame ..).2.2

section
variable {env : Env} {known : CoapObserver → Prop}

theorem allocRespMsg_calls (this : CoapServer) (req : CoapMessage) (code : UInt8) (payloadMaxSize : Nat) :
    Calls env known this (this.allocRespMsg env req code payloadMaxSize).2 := by
  unfold allocRespMsg
  split
  next => exact (createMessage_silent ..).calls
  next => exact (nextMid_calls env known this).trans (createMessage_silent ..).calls

theorem allocRespMsg_allocated {this : CoapServer} {req resp : CoapMessage} {code : UInt8} {payloadMaxSize : Nat}
    (made : (this.allocRespMsg env req code payloadMaxSize).1 = some resp) : Allocated req code resp := by
  unfold allocRespMsg at made
  split at made
  next =>
    obtain ⟨type, code, messageID, token⟩ := createMessage_eq made
    exact ⟨token, code, fun _ => ⟨type, messageID⟩⟩
  next other =>
    obtain ⟨_, code, _, token⟩ := createMessage_eq made
    exact ⟨token, code, fun confirmable => absurd confirmable other⟩

theorem copyObserverOptions_silent (env : Env) (options kept : List Wire.Opt) (this : CoapServer) :
    Silent this (copyObserverOptions env this kept options).2 := by
  induction options generalizing kept this with
  | nil => exact .refl this
  | cons option rest inductionHypothesis =>
    rw [copyObserverOptions]
    split
    next =>
      simp only
      split
      next kept _ => exact (memGet_silent env this).trans (inductionHypothesis kept _)
      next => exact memGet_silent env this
    next => exact inductionHypothesis kept this

theorem registerObserver_observes {this : CoapServer} {pIA : CoapInteraction} {pRes : Nat} {req : CoapMessage}
    {origin : NetPacket} (role : pIA.role = .server) (resource : pIA.pRes = some pRes)
    (request : pIA.pReqMsg = some req) (packet : pIA.origin = some origin) (pRespMsg : Option CoapMessage) :
    Observes pIA this (this.registerObserver env { pIA with pRespMsg } pRes req origin).2 := by
  unfold registerObserver memGet
  cases env.alloc this.allocs with
  | false => exact .nothing ⟨rfl, rfl, rfl, rfl, rfl⟩
  | true =>
    simp only
    have copied := copyObserverOptions_silent env req.options []
      { this with allocs := this.allocs + 1, observers := this.observers + 1 }
    split
    next after failed =>
      rw [failed] at copied
      exact .nothing ⟨copied.1, copied.2, copied.3, copied.4, copied.5⟩
    next options after made =>
      rw [made] at copied
      exact .registered ⟨role, request, packet, rfl, rfl, rfl⟩ resource after
        ⟨copied.1, copied.2, copied.3, copied.4, copied.5⟩ rfl

theorem handleObservationInReq_observes (env : Env) (this : CoapServer) {pIA : CoapInteraction} {pRes : Nat}
    {req : CoapMessage} {origin : NetPacket} (role : pIA.role = .server) (resource : pIA.pRes = some pRes)
    (request : pIA.pReqMsg = some req) (packet : pIA.origin = some origin) (get : req.code = reqGet)
    (pRespMsg : Option CoapMessage) :
    Observes pIA this (this.handleObservationInReq env { pIA with pRespMsg } pRes req origin).2 := by
  unfold handleObservationInReq
  split
  next => exact .nothing (.refl this)
  next =>
    split
    next => exact .nothing (.refl this)
    next =>
      split
      next => exact .nothing (.refl this)
      next obsVal observe =>
        split
        next => exact registerObserver_observes role resource request packet pRespMsg
        next =>
          split
          next value =>
            -- the observer is taken out, and a notification it waits for is aborted
            have deregisters : Deregisters pIA := ⟨role, req, request, get, value ▸ observe⟩
            simp only
            split
            next => exact .removed req.token64 deregisters rfl
            next pending found =>
              have member := List.mem_of_find?_eq_some found
              have pends := List.find?_some found
              simp only [CoapInteraction.isPendingFor, Bool.and_eq_true, decide_eq_true_eq] at pends
              apply Observes.aborted req.token64 deregisters _ pends.1.1.1 rfl
              rw [removeInteractionsObserver, resource] at member
              exact member
          next => exact .nothing (.refl this)

theorem addObservation_observes (env : Env) (this : CoapServer) {pIA : CoapInteraction} {pRes : Nat}
    {req : CoapMessage} (resp : CoapMessage) (role : pIA.role = .server) (resource : pIA.pRes = some pRes) (request : pIA.pReqMsg = some req)
    (pRespMsg : Option CoapMessage) :
    ∃ observed, Observes pIA this observed ∧
      Silent observed (this.addObservation env { pIA with pRespMsg } pRes req resp).2 ∧
      Keeps resp (this.addObservation env { pIA with pRespMsg } pRes req resp).1 := by
  unfold addObservation
  simp only
  split
  next => exact ⟨this, .nothing (.refl this), .refl this, .refl resp⟩
  next origin packet =>
    split
    next content =>
      have observes := handleObservationInReq_observes env this role resource request packet
        content.1 pRespMsg
      split
      next after ok =>
        rw [ok] at observes
        exact ⟨after, observes, memGet_silent env after, ⟨rfl, rfl, rfl, rfl⟩⟩
      next after _ other =>
        rw [other] at observes
        exact ⟨after, observes, .refl after, .refl resp⟩
    next => exact ⟨this, .nothing (.refl this), .refl this, .refl resp⟩

theorem addPathOption_silent (env : Env) (this : CoapServer) (metaInfo : MetaInfo) (resp : CoapMessage) :
    Silent this (this.addPathOption env metaInfo resp).2 ∧ Keeps resp (this.addPathOption env metaInfo resp).1 := by
  cases metaInfo with
  | none => exact ⟨.refl this, .refl resp⟩
  | rfPath hopCount rssi => exact ⟨memGet_silent env this, ⟨rfl, rfl, rfl, rfl⟩⟩

theorem setRespType_calls (env : Env) (known : CoapObserver → Prop) (this : CoapServer) (pIA : CoapInteraction) (req resp : CoapMessage) :
    Calls env known this (this.setRespType pIA req resp).2 := by
  unfold setRespType
  split
  next =>
    split
    next => exact nextMid_calls env known this
    next => exact calls_refl
  next => exact calls_refl

theorem setRespType_answers (this : CoapServer) (pIA : CoapInteraction) (req : CoapMessage) {resp : CoapMessage}
    (code : resp.code ≠ empty) :
    Answers (this.setRespType pIA req resp).2.log pIA req resp (this.setRespType pIA req resp).1 := by
  unfold setRespType
  split
  next confirmable =>
    split
    next acked => exact ⟨rfl, code, fun _ _ => ⟨rfl, List.mem_cons_self⟩, fun _ unacked => absurd acked unacked⟩
    next unacked => exact ⟨rfl, code, fun _ acked => absurd acked unacked, fun _ _ => ⟨rfl, rfl⟩⟩
  next other =>
    exact ⟨rfl, code, fun confirmable => absurd confirmable other, fun confirmable => absurd confirmable other⟩

theorem Answers.keeps {log : List Effect} {pIA : CoapInteraction} {req handled resp after : CoapMessage}
    (answers : Answers log pIA req handled resp) (keeps : Keeps resp after) :
    Answers log pIA req handled after where
  token64 := keeps.token64.trans answers.token64
  code := by rw [keeps.code]; exact answers.code
  separate := by rw [keeps.type, keeps.messageID]; exact answers.separate
  piggybacked := by rw [keeps.type, keeps.messageID]; exact answers.piggybacked

/-- The end of a turn in which the handler left a response. -/
theorem respond_ends {now : UInt32} {resources : List CoapResource} {this after : CoapServer} {pIA : CoapInteraction} {pRes turn : Nat}
    {req offered resp : CoapMessage} {pRespMsg : Option CoapMessage}
    (sent : this.respond env now { pIA with pRespMsg } pRes req resp = some after) (role : pIA.role = .server)
    (state : Unanswered pIA) (resource : pIA.pRes = some pRes) (request : pIA.pReqMsg = some req)
    (offers : Offered pIA req (some offered))
    (header : ∀ log after, Answers log pIA req resp after →
      Answers log pIA req (env.handler turn pRes req (some offered)).resp after) (code : resp.code ≠ empty) :
    ∃ called observed ready, Calls env known this called ∧ Observes pIA called observed ∧
      Calls env known observed ready ∧ Ends env now resources pIA ready after := by
  have typed := setRespType_calls env known this { pIA with pRespMsg } req resp
  have answers : Answers (this.setRespType { pIA with pRespMsg } req resp).2.log pIA req resp
      (this.setRespType { pIA with pRespMsg } req resp).1 := by
    obtain ⟨token, code, separate, piggybacked⟩ :=
      setRespType_answers this { pIA with pRespMsg } req code
    exact ⟨token, code, separate, piggybacked⟩
  simp only [respond] at sent
  obtain ⟨path, pathKeeps⟩ := addPathOption_silent env
    (this.setRespType { pIA with pRespMsg } req resp).2 pIA.reqMetaInfo
    (this.setRespType { pIA with pRespMsg } req resp).1
  generalize (this.setRespType { pIA with pRespMsg } req resp) = first at *
  generalize addPathOption env first.2 pIA.reqMetaInfo first.1 = second at *
  obtain ⟨observed, observes, silent, observeKeeps⟩ := addObservation_observes env second.2 second.1
    role resource request pRespMsg
  generalize addObservation env second.2 { pIA with pRespMsg } pRes req second.1 = third at *
  have logs : third.2.log = first.2.log := by rw [silent.log, observes.log, path.log]
  have complete := header _ _ ((answers.keeps pathKeeps).keeps observeKeeps)
  rw [← logs] at complete
  refine ⟨second.2, observed, third.2, typed.trans path.calls, observes, silent.calls, ?_⟩
  exact sendResp_ends sent rfl rfl (Works.answers role state request offers complete)

/-- Header and token are those the handler left. -/
theorem Answers.completed {log : List Effect} {pIA : CoapInteraction} {req handled resp after : CoapMessage}
    (token64 : resp.token64 = handled.token64) (messageID : resp.messageID = handled.messageID)
    (answers : Answers log pIA req resp after) : Answers log pIA req handled after where
  token64 := answers.token64.trans token64
  code := answers.code
  separate := answers.separate
  piggybacked := by rw [← messageID]; exact answers.piggybacked

theorem completeCode_keeps (result : HandlerResult) (resp : CoapMessage) :
    (completeCode result resp).token64 = resp.token64 ∧ (completeCode result resp).messageID = resp.messageID := by
  unfold completeCode
  split
  next => exact ⟨rfl, rfl⟩
  next =>
    split
    next => exact ⟨rfl, rfl⟩
    next => exact ⟨rfl, rfl⟩

theorem completeCode_ne {result : HandlerResult} (final : result ≠ .postpone) (resp : CoapMessage) :
    (completeCode result resp).code ≠ empty := by
  unfold completeCode
  split
  next =>
    show respSuccessContent ≠ empty
    decide
  next forgot =>
    split
    next =>
      show respInternalServerError ≠ empty
      decide
    next too =>
      intro none
      cases result with
      | ok => exact forgot ⟨rfl, none⟩
      | postpone => exact final rfl
      | error => exact too ⟨rfl, none⟩

section
variable {now : UInt32} {resources : List CoapResource} {pIA : CoapInteraction} {this after : CoapServer}
  {pRes turn : Nat} {req : CoapMessage} {resource : CoapResource}

/-- The end of a turn in which the handler asked for more time. -/
theorem postpone_ends {offered resp : Option CoapMessage} (role : pIA.role = .server) (state : Unanswered pIA)
    (asked : pIA.pRes = some pRes) (request : pIA.pReqMsg = some req) (found : resources[pRes]? = some resource)
    (supported : methodNotAllowed req.code resource.flags = false) (offers : Offered pIA req offered)
    (handled : resp = offered.map fun _ => (env.handler turn pRes req offered).resp)
    (worked : this.postpone env now pIA pRes req resp = some after) :
    ∃ called observed ready, Calls env known this called ∧ Observes pIA called observed ∧
      Calls env known observed ready ∧ Ends env now resources pIA ready after := by
  -- without a response nothing comes before the end
  have rests : ∀ {after}, Ends env now resources pIA this after →
      ∃ called observed ready, Calls env known this called ∧ Observes pIA called observed ∧
        Calls env known observed ready ∧ Ends env now resources pIA ready after :=
    fun ends => ⟨this, this, this, calls_refl, .nothing (.refl this), calls_refl, ends⟩
  simp only [postpone] at worked
  split at worked
  next early =>
    have postpones : Works env now resources this.log pIA _ _ :=
      .postpones role state request asked found supported offers handled early.1 early.2
    simp only [sendEmptyAck, sendShortResp] at worked
    cases success : env.transmit this.transmissions with
    | true =>
      rw [sendMsg_sent now _ _ _ _ _ success] at worked
      cases worked
      exact rests (.last postpones ⟨rfl, rfl, rfl, rfl⟩)
    | false =>
      obtain ⟨_, failed⟩ := sendMsg_failed now (some { pIA with pRespMsg := resp }) pIA.origin
        { coapInitToEmptyResetMsg with type := .ack, code := empty, messageID := req.messageID, token64 := 0 }
        pIA.ifID pIA.remoteEp success
      simp only [failed] at worked
      cases worked
      exact rests (.deleted ⟨rfl, rfl, rfl, rfl⟩)
  next late =>
    split at worked
    next =>
      obtain ⟨left, same, sent⟩ := Option.bind_eq_some_iff.mp worked
      rw [same] at handled
      obtain ⟨given, rfl, rfl⟩ := Option.map_eq_some_iff.mp handled.symm
      have unavailable : respServiceUnavailable ≠ empty := by decide
      exact respond_ends sent role state asked request offers
        (fun log after answers => ⟨answers.1, answers.2, answers.3, answers.4⟩) unavailable
    next =>
      cases worked
      apply rests
      apply enqueueLastInteraction_ends
      apply Works.sleeps role state request offers handled
      intro confirmable
      by_contra unacked
      exact late ⟨confirmable, unacked⟩

/-- The turn from the call of the handler on. -/
theorem handled_turn {middle begun called : CoapServer} {offered : Option CoapMessage} {handled : Handled}
    (calls : Calls env known this middle) (knows : ∀ pObserver, this.IsObserver pObserver → known pObserver)
    (worked : (if handled.result = .postpone then
        called.postpone env now pIA pRes req (offered.map fun _ => handled.resp)
      else (offered.map fun _ => handled.resp).bind fun resp =>
        called.respond env now pIA pRes req (completeCode handled.result resp)) = some after)
    (result : env.handler turn pRes req offered = handled)
    (calling : handled.calls.foldl (call env) begun = called)
    (begins : Begins pIA middle begun) (same : begun.resources = middle.resources)
    (role : pIA.role = .server) (state : Unanswered pIA) (asked : pIA.pRes = some pRes)
    (request : pIA.pReqMsg = some req) (found : this.resources[pRes]? = some resource)
    (supported : methodNotAllowed req.code resource.flags = false) (offers : Offered pIA req offered) :
    Turn env known now pIA this after := by
  have knowsNow : ∀ pObserver, begun.IsObserver pObserver → known pObserver := by
    intro pObserver observer
    rw [IsObserver, same] at observer
    exact knows pObserver (calls.isObserver observer)
  have callings : Calls env known begun called := calling ▸ calls_calls knowsNow handled.calls
  subst result
  -- a handler postpones, or its message is completed and sent
  split at worked
  next =>
    obtain ⟨further, observed, ready, more, observes, rest, ends⟩ :=
      postpone_ends role state asked request found supported offers rfl worked
    exact ⟨middle, begun, further, observed, ready, calls, begins, callings.trans more, observes, rest, ends⟩
  next final =>
    obtain ⟨left, same, sent⟩ := Option.bind_eq_some_iff.mp worked
    obtain ⟨given, rfl, rfl⟩ := Option.map_eq_some_iff.mp same
    have keeps := completeCode_keeps (env.handler turn pRes req (some given)).result
      (env.handler turn pRes req (some given)).resp
    obtain ⟨further, observed, ready, more, observes, rest, ends⟩ :=
      respond_ends sent role state asked request offers
        (fun log after answers => answers.completed keeps.1 keeps.2) (completeCode_ne final _)
    exact ⟨middle, begun, further, observed, ready, calls, begins, callings.trans more, observes, rest, ends⟩

/-- The states `HANDLE_REQUEST` and `RESOURCE_POSTPONE_EMPTY_ACK_SENT`. -/
theorem handleRequest_turn (knows : ∀ pObserver, this.IsObserver pObserver → known pObserver)
    (role : pIA.role = .server) (state : Unanswered pIA)
    (worked : this.handleRequest env now pIA = some after) : Turn env known now pIA this after := by
  simp only [handleRequest, Option.bind_eq_bind, Option.bind_eq_some_iff] at worked
  obtain ⟨req, request, pRes, pResOf, resource, found, worked⟩ := worked
  split at worked
  next refused =>
    have allocated : Calls env known this (this.allocRespMsg env req respMethodNotAllowed 0).2 :=
      allocRespMsg_calls this req respMethodNotAllowed 0
    cases made : this.allocRespMsg env req respMethodNotAllowed 0 with
    | mk resp middle =>
      rw [made] at allocated
      simp only [made] at worked
      cases resp with
      | none => simp [sendResp] at worked
      | some resp =>
        exact Ends.turn_calls allocated (sendResp_ends worked rfl rfl
          (Works.refuses role state request pResOf found refused (allocRespMsg_allocated (congrArg Prod.fst made))))
  next allowed =>
    have supported : methodNotAllowed req.code resource.flags = false := Bool.eq_false_iff.mpr allowed
    cases earlier : pIA.pRespMsg with
    | some resp =>
      -- the message of an earlier turn
      simp only [earlier] at worked
      exact handled_turn calls_refl knows worked rfl rfl (.handled role state request rfl rfl rfl rfl rfl) rfl
        role state pResOf request found supported (.inl ⟨earlier.symm, by simp [earlier]⟩)
    | none =>
      simp only [earlier] at worked
      have allocated : Calls env known this (this.allocRespMsg env req empty preferedPayloadSize).2 :=
        allocRespMsg_calls this req empty preferedPayloadSize
      exact handled_turn allocated knows worked rfl rfl (.handled role state request rfl rfl rfl rfl rfl) rfl
        role state pResOf request found supported (.inr ⟨earlier, fun msg made => allocRespMsg_allocated made⟩)

/-- A message is sent again while the attempts are not used up. -/
theorem checkAckTimeout_retry (status : checkAckTimeout now pIA = .retry) : pIA.retransCounter < maxRetransmit := by
  unfold checkAckTimeout at status
  split at status
  next =>
    split at status
    next => cases status
    next attempts => omega
  next => cases status

/-- Only a confirmable response that nobody acknowledged is sent again. -/
theorem checkRespStatus_retry {resp : CoapMessage} (response : pIA.pRespMsg = some resp)
    (status : checkRespStatus now pIA = some .retry) :
    resp.type = .con ∧ pIA.respReliabilityState = .notSet ∧ pIA.retransCounter < maxRetransmit := by
  simp only [checkRespStatus, response, Option.bind_eq_bind, Option.bind_some] at status
  split at status
  next => cases status
  next noReset =>
    cases type : resp.type with
    | con =>
      simp only [type] at status
      split at status
      next => cases status
      next unacked =>
        refine ⟨rfl, ?_, checkAckTimeout_retry (Option.some.inj status)⟩
        cases reliability : pIA.respReliabilityState with
        | notSet => rfl
        | ackSet => exact absurd reliability unacked
        | rstSet => exact absurd reliability noReset
    | non =>
      simp only [type] at status
      split at status <;> cases status
    | ack =>
      simp only [type] at status
      split at status <;> cases status
    | rst =>
      simp only [type] at status
      cases status

theorem checkReqStatus_retry {req : CoapMessage} (request : pIA.pReqMsg = some req)
    (status : checkReqStatus now pIA = some .retry) :
    req.type = .con ∧ pIA.reqReliabilityState = .notSet ∧ pIA.retransCounter < maxRetransmit := by
  simp only [checkReqStatus, request, Option.bind_eq_bind, Option.bind_some] at status
  split at status
  next => cases status
  next noReset =>
    split at status
    next pending =>
      refine ⟨pending.1, ?_, checkAckTimeout_retry (Option.some.inj status)⟩
      cases reliability : pIA.reqReliabilityState with
      | notSet => rfl
      | ackSet => exact absurd reliability pending.2
      | rstSet => exact absurd reliability noReset
    next =>
      split at status <;> cases status

/-- A response that was sent waits on, is sent again, or is done with. -/
theorem checkResponse_cases (worked : this.checkResponse env now pIA = some after) :
    after = this.enqueueLastInteraction pIA ∨
      checkRespStatus now pIA = some .retry ∧ this.retryResp env now pIA = some after ∨
      after = this.deleteInteraction pIA.ref := by
  simp only [checkResponse, Option.bind_eq_bind, Option.bind_eq_some_iff] at worked
  obtain ⟨status, checked, worked⟩ := worked
  split at worked
  next => exact .inl (Option.some.inj worked).symm
  next => exact .inl (Option.some.inj worked).symm
  next => exact .inr (.inl ⟨checked, worked⟩)
  next => exact .inr (.inr (Option.some.inj worked).symm)

/-- The state `RESPONSE_SENT`. -/
theorem checkResponse_turn (role : pIA.role = .server) (state : pIA.state = .responseSent)
    (worked : this.checkResponse env now pIA = some after) : Turn env known now pIA this after := by
  rcases checkResponse_cases worked with rfl | ⟨checked, again⟩ | rfl
  · exact (enqueueLastInteraction_ends .waits).turn
  · cases response : pIA.pRespMsg with
    | none => simp [retryResp, response] at again
    | some resp =>
      obtain ⟨confirmable, pending, attempts⟩ := checkRespStatus_retry response checked
      exact (retryResp_ends again rfl rfl response
        (.repeats (.inl ⟨role, state⟩) response confirmable pending attempts)).turn
  · exact deleteInteraction_ends.turn

theorem removeInteractionsObserver_calls (this : CoapServer) (pIA : CoapInteraction) (token : UInt64) :
    Calls env known this (this.removeInteractionsObserver pIA token) := by
  unfold removeInteractionsObserver
  cases pIA.pRes with
  | none => exact calls_refl
  | some pRes => exact (CallAct.removeObserver pRes _ _ _).calls

theorem refresh_calls {resp refreshed : CoapMessage}
    (asked : this.refresh env pIA resp = some (refreshed, after)) :
    Calls env known this after ∧ Refreshes env resp refreshed := by
  simp only [refresh, Option.bind_eq_bind, Option.bind_eq_some_iff] at asked
  obtain ⟨pRes, _, resource, _, asked⟩ := asked
  split at asked
  next => cases asked
  next =>
    have called : Calls env known this (this.getNextMid.2.callNotifier env pRes
        (pIA.pObserver.bind fun ref => resource.observers.find? fun observer => observer.ref = ref)
        { resp with messageID := this.getNextMid.1 }).2 :=
      (nextMid_calls env known this).trans (callNotifier_calls _ _ _ _)
    split at asked
    next =>
      cases asked
      exact ⟨called.trans (removeInteractionsObserver_calls _ _ _), _, _, _, _, rfl⟩
    next =>
      cases asked
      exact ⟨called.trans (memGet_silent env _).calls, _, _, _, _, rfl⟩

/-- What the turn of a notification that was sent comes to. -/
inductive CheckedNotification (env : Env) (now : UInt32) (pIA : CoapInteraction) (this after : CoapServer) : Prop
  | waits (same : after = this.enqueueLastInteraction pIA)
  | repeats (status : checkRespStatus now pIA = some .retry) (sent : this.retryResp env now pIA = some after)
  | repeatsRefreshed {resp refreshed : CoapMessage} {middle : CoapServer}
      (status : checkRespStatus now pIA = some .retry) (flag : pIA.updatePendingNotification = true)
      (response : pIA.pRespMsg = some resp)
      (refreshes : this.refresh env { pIA with updatePendingNotification := false } resp = some (refreshed, middle))
      (sent : middle.retryResp env now { pIA with
        updatePendingNotification := false
        pRespMsg := some { refreshed with type := resp.type } } = some after)
  | refreshes {resp refreshed : CoapMessage} {middle : CoapServer} (flag : pIA.updatePendingNotification = true)
      (response : pIA.pRespMsg = some resp)
      (refreshes : this.refresh env { pIA with
        state := .readyToNotify
        retransCounter := 0
        updatePendingNotification := false
        respReliabilityState := .notSet } resp = some (refreshed, middle))
      (same : after = middle.enqueueLastInteraction { pIA with
        state := .readyToNotify
        retransCounter := 0
        updatePendingNotification := false
        respReliabilityState := .notSet
        pRespMsg := some refreshed })
  | givesUp {resp : CoapMessage} (response : pIA.pRespMsg = some resp)
      (same : after = (this.removeInteractionsObserver pIA resp.token64).deleteInteraction pIA.ref)
  | ends (same : after = this.deleteInteraction pIA.ref)

theorem checkNotification_cases (worked : this.checkNotification env now pIA = some after) :
    CheckedNotification env now pIA this after := by
  simp only [checkNotification, Option.bind_eq_bind, Option.bind_eq_some_iff] at worked
  obtain ⟨status, checked, worked⟩ := worked
  split at worked
  next => exact .waits (Option.some.inj worked).symm
  next => exact .waits (Option.some.inj worked).symm
  next =>
    split at worked
    next flag =>
      obtain ⟨resp, response, further⟩ := Option.bind_eq_some_iff.mp worked
      obtain ⟨⟨refreshed, middle⟩, refreshes, sent⟩ := Option.bind_eq_some_iff.mp further
      exact .repeatsRefreshed checked flag response refreshes sent
    next => exact .repeats checked worked
  next =>
    split at worked
    next flag =>
      obtain ⟨resp, response, further⟩ := Option.bind_eq_some_iff.mp worked
      obtain ⟨⟨refreshed, middle⟩, refreshes, moved⟩ := Option.bind_eq_some_iff.mp further
      exact .refreshes flag response refreshes (Option.some.inj moved).symm
    next => exact .ends (Option.some.inj worked).symm
  next =>
    obtain ⟨resp, response, deleted⟩ := Option.bind_eq_some_iff.mp worked
    exact .givesUp response (Option.some.inj deleted).symm
  next =>
    obtain ⟨resp, response, deleted⟩ := Option.bind_eq_some_iff.mp worked
    exact .givesUp response (Option.some.inj deleted).symm
  next => exact .ends (Option.some.inj worked).symm

/-- The state `NOTIFICATION_SENT`. -/
theorem checkNotification_turn (role : pIA.role = .notification) (state : pIA.state = .notificationSent)
    (worked : this.checkNotification env now pIA = some after) : Turn env known now pIA this after := by
  cases checkNotification_cases worked with
  | waits same =>
    subst same
    exact (enqueueLastInteraction_ends .waits).turn
  | repeats checked sent =>
    cases response : pIA.pRespMsg with
    | none => simp [retryResp, response] at sent
    | some resp =>
      obtain ⟨confirmable, pending, attempts⟩ := checkRespStatus_retry response checked
      exact (retryResp_ends sent rfl rfl response
        (.repeats (.inr ⟨role, state⟩) response confirmable pending attempts)).turn
  | repeatsRefreshed checked flag response asked sent =>
    -- a newer value goes out in the place of the one to be sent again
    obtain ⟨confirmable, pending, attempts⟩ := checkRespStatus_retry response checked
    obtain ⟨calls, fresh⟩ := refresh_calls asked
    rw [confirmable] at sent
    exact Ends.turn_calls calls (retryResp_ends sent rfl rfl rfl
      (.repeatsRefreshed role state response confirmable pending fresh attempts))
  | refreshes flag response asked same =>
    subst same
    obtain ⟨calls, fresh⟩ := refresh_calls asked
    exact Ends.turn_calls calls (enqueueLastInteraction_ends (.refreshes role state response fresh))
  | @givesUp resp response same =>
    subst same
    exact Ends.turn_calls (removeInteractionsObserver_calls this pIA resp.token64) deleteInteraction_ends
  | ends same =>
    subst same
    exact deleteInteraction_ends.turn

/-- A request that was sent waits on, is sent again, or is given up. -/
theorem checkRequest_cases (worked : this.checkRequest env now pIA = some after) :
    after = this.enqueueLastInteraction pIA ∨
      checkReqStatus now pIA = some .retry ∧ this.retryReq env now pIA = some after ∨
      after = this.deleteInteraction pIA.ref := by
  simp only [checkRequest, Option.bind_eq_bind, Option.bind_eq_some_iff] at worked
  obtain ⟨status, checked, worked⟩ := worked
  split at worked
  next => exact .inl (Option.some.inj worked).symm
  next => exact .inr (.inl ⟨checked, worked⟩)
  next => exact .inr (.inr (Option.some.inj worked).symm)

/-- The state `WAITING_RESPONSE`. -/
theorem checkRequest_turn (role : pIA.role = .client) (state : pIA.state = .waitingResponse)
    (worked : this.checkRequest env now pIA = some after) : Turn env known now pIA this after := by
  rcases checkRequest_cases worked with rfl | ⟨checked, again⟩ | rfl
  · exact (enqueueLastInteraction_ends .waits).turn
  · cases request : pIA.pReqMsg with
    | none => simp [retryReq, request] at again
    | some req =>
      obtain ⟨confirmable, pending, attempts⟩ := checkReqStatus_retry request checked
      exact (retryReq_ends again request (.requestsAgain role state request confirmable pending attempts)).turn
  · exact deleteInteraction_ends.turn

/-- The callback is called when there is one; either way the interaction is done with. -/
theorem handleResponse_cases (worked : this.handleResponse env pIA = some after) :
    (pIA.respCB = true ∧ ∃ resp, pIA.pRespMsg = some resp ∧
      after = ((env.respCB this.callbacks resp pIA.remoteEp).foldl (call env)
        { this with callbacks := this.callbacks + 1 }).deleteInteraction pIA.ref) ∨
      after = this.deleteInteraction pIA.ref := by
  unfold handleResponse at worked
  split at worked
  next callback =>
    obtain ⟨resp, response, deleted⟩ := Option.bind_eq_some_iff.mp worked
    exact .inl ⟨callback, resp, response, (Option.some.inj deleted).symm⟩
  next => exact .inr (Option.some.inj worked).symm

/-- The state `HANDLE_RESPONSE`. -/
theorem handleResponse_turn (knows : ∀ pObserver, this.IsObserver pObserver → known pObserver)
    (worked : this.handleResponse env pIA = some after) : Turn env known now pIA this after := by
  rcases handleResponse_cases worked with ⟨_, resp, _, rfl⟩ | rfl
  · have called : Calls env known this { this with callbacks := this.callbacks + 1 } :=
      Silent.calls ⟨rfl, rfl, rfl, rfl, rfl⟩
    exact Ends.turn_calls
      (called.trans (calls_calls (fun pObserver observer => knows pObserver (called.isObserver observer))
        (env.respCB this.callbacks resp pIA.remoteEp))) deleteInteraction_ends
  · exact deleteInteraction_ends.turn

end

/-- The states an interaction of each role can be in. -/
def Staged (pIA : CoapInteraction) : Prop :=
  match pIA.role with
  | .server => Unanswered pIA ∨ pIA.state = .responseSent
  | .notification => pIA.state = .readyToNotify ∨ pIA.state = .notificationSent
  | .client => pIA.state = .readyToRequest ∨ pIA.state = .waitingResponse ∨ pIA.state = .handleResponse

/-- As long as a request is unanswered its turn is that of the handler. -/
theorem work_unanswered {now : UInt32} {pIA : CoapInteraction} {this : CoapServer} (role : pIA.role = .server)
    (unanswered : Unanswered pIA) : this.work env now pIA = this.handleRequest env now pIA := by
  cases unanswered with
  | inl state => simp only [work, role, state]
  | inr state => simp only [work, role, state]

/-- The function that the turn of an interaction is, by its role and its state. -/
inductive Worked (env : Env) (now : UInt32) (pIA : CoapInteraction) (this after : CoapServer) : Prop
  | handlesRequest (role : pIA.role = .server) (unanswered : Unanswered pIA)
      (done : this.handleRequest env now pIA = some after)
  | checksResponse (role : pIA.role = .server) (state : pIA.state = .responseSent)
      (done : this.checkResponse env now pIA = some after)
  | notifies (role : pIA.role = .notification) (state : pIA.state = .readyToNotify)
      (done : this.sendResp env now pIA .notificationSent = some after)
  | checksNotification (role : pIA.role = .notification) (state : pIA.state = .notificationSent)
      (done : this.checkNotification env now pIA = some after)
  | requests (role : pIA.role = .client) (state : pIA.state = .readyToRequest)
      (done : this.sendReq env now pIA .waitingResponse = some after)
  | checksRequest (role : pIA.role = .client) (state : pIA.state = .waitingResponse)
      (done : this.checkRequest env now pIA = some after)
  | handlesResponse (role : pIA.role = .client) (state : pIA.state = .handleResponse)
      (done : this.handleResponse env pIA = some after)

theorem work_cases {now : UInt32} {pIA : CoapInteraction} {this after : CoapServer} (staged : Staged pIA)
    (worked : this.work env now pIA = some after) : Worked env now pIA this after := by
  unfold Staged at staged
  cases role : pIA.role with
  | server =>
    simp only [role] at staged
    cases staged with
    | inl unanswered => exact .handlesRequest role unanswered (work_unanswered role unanswered ▸ worked)
    | inr state =>
      simp only [work, role, state] at worked
      exact .checksResponse role state worked
  | notification =>
    simp only [role] at staged
    simp only [work, role] at worked
    cases staged with
    | inl state =>
      simp only [state] at worked
      exact .notifies role state worked
    | inr state =>
      simp only [state] at worked
      exact .checksNotification role state worked
  | client =>
    simp only [role] at staged
    simp only [work, role] at worked
    rcases staged with state | state | state
    · simp only [state] at worked
      exact .requests role state worked
    · simp only [state] at worked
      exact .checksRequest role state worked
    · simp only [state] at worked
      exact .handlesResponse role state worked

theorem work_turn {now : UInt32} {pIA : CoapInteraction} {this after : CoapServer} (staged : Staged pIA)
    (knows : ∀ pObserver, this.IsObserver pObserver → known pObserver)
    (worked : this.work env now pIA = some after) : Turn env known now pIA this after := by
  cases work_cases staged worked with
  | handlesRequest role unanswered done => exact handleRequest_turn knows role unanswered done
  | checksResponse role state done => exact checkResponse_turn role state done
  | notifies role state done =>
    cases response : pIA.pRespMsg with
    | none => simp [sendResp, response] at done
    | some resp => exact (sendResp_ends done rfl response (.notifies role state response)).turn
  | checksNotification role state done => exact checkNotification_turn role state done
  | requests role state done =>
    cases request : pIA.pReqMsg with
    | none => simp [sendReq, request] at done
    | some req => exact (sendReq_ends done request (.requests role state request)).turn
  | checksRequest role state done => exact checkRequest_turn role state done
  | handlesResponse role state done => exact handleResponse_turn knows done

/-- One call of `CoAP_doWork`: there is nothing to do, or the first interaction sleeps on, or it is due. -/
theorem doWork_cases {now : UInt32} {this after : CoapServer} (worked : this.doWork env now = some after) :
    (this.pInteractions = [] ∧ after = this) ∨ ∃ pIA rest, this.pInteractions = pIA :: rest ∧
      (pIA.sleepUntil > now ∧ after = this.enqueueLastInteraction pIA ∨
        ¬ pIA.sleepUntil > now ∧ this.work env now pIA = some after) := by
  unfold doWork at worked
  split at worked
  next empty => exact .inl ⟨empty, (Option.some.inj worked).symm⟩
  next pIA rest list =>
    refine .inr ⟨pIA, rest, list, ?_⟩
    split at worked
    next asleep => exact .inl ⟨asleep, (Option.some.inj worked).symm⟩
    next due => exact .inr ⟨due, worked⟩

/-- What one call of `CoAP_doWork` does for the first interaction. -/
theorem doWork_turn {now : UInt32} {pIA : CoapInteraction} {rest : List CoapInteraction} {this after : CoapServer}
    (list : this.pInteractions = pIA :: rest) (staged : Staged pIA) (worked : this.doWork env now = some after) :
    Turn env this.IsObserver now pIA this after := by
  rcases doWork_cases worked with ⟨idle, _⟩ | ⟨first, others, same, asleep | due⟩
  · cases list.symm.trans idle
  · cases list.symm.trans same
    rw [asleep.2]
    exact (enqueueLastInteraction_ends .waits).turn
  · cases list.symm.trans same
    exact work_turn staged (fun _ observer => observer) due.2

end

end CoapServer

end SmingCoap.Server
