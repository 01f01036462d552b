import SmingCoap.Server.Interaction

/-! # The server stack

`coap_main.c`: the handler for received packets and `CoAP_doWork`, which takes
the first interaction of the list one step further.  `pIA` is the record of that
interaction; it goes back into the list where the source moves the interaction
or leaves it in front.
-/

namespace SmingCoap.Server

open Wire (Opt)

def respMethodNotAllowed : UInt8 := 0x85
def respServiceUnavailable : UInt8 := 0xA3

def postponeWaitTimeSek : UInt32 := 3
def postponeMaxWaitTime : UInt32 := 30
def clientMaxRespWaitTime : UInt32 := 45
def holdtimeAfterNonTransactionEnd : UInt32 := 0
def maxRetransmit : Nat := 4
def optNumPath : Nat := 10000

namespace CoapServer

/-! ## Received packets -/

/-- The message that `CoAP_ParseMessageFromDatagram` makes of a packet. -/
def parsePacket (env : Env) (this : CoapServer) (now : UInt32) (pckt : NetPacket) : Option CoapMessage :=
  match coapParseMessageFromDatagram (fun i => env.alloc (this.allocs + i)) now.toNat pckt.data
    pckt.size.toNat with
  | some (.ok, pMsg) => pMsg
  | _ => none

/-- The search for the request that a separate response answers. -/
def findRequest (this : CoapServer) (pMsg : CoapMessage) (sender : NetEp) : Option CoapInteraction :=
  this.pInteractions.find? fun pIA =>
    pIA.role = .client && pIA.pReqMsg.any (fun msg => msg.token64 = pMsg.token64) &&
      epAreEqual sender pIA.remoteEp

/-- A response goes into a client interaction. -/
def attachResponse (pIA : CoapInteraction) (pMsg : CoapMessage) : CoapInteraction :=
  { pIA with pRespMsg := some pMsg, state := .handleResponse }

/-- The message is an acknowledgement. -/
def onAck (this : CoapServer) (pckt : NetPacket) (pMsg : CoapMessage) : CoapServer :=
  match this.applyReliabilityState .ackSet pMsg.messageID pckt.sender with
  | (none, this) => this
  | (some pIA, this) =>
    if pMsg.code ≠ empty ∧ pIA.role = .client ∧ pIA.pReqMsg.any (fun msg => msg.token64 = pMsg.token64) ∧
        pIA.state = .waitingResponse then
      this.storeInteraction (attachResponse pIA pMsg)
    else this

/-- The message is a request, which has a resource. -/
def onRequest (env : Env) (this : CoapServer) (now : UInt32) (pckt : NetPacket) (pMsg : CoapMessage)
    (pRes : Nat) : CoapServer :=
  match this.startNewServerInteraction env now pMsg pRes pckt with
  | (.errOutOfMemory, this) =>
    if pMsg.type = .con then
      (this.sendShortResp env now none (some pckt) .ack respInternalServerError pMsg.messageID pMsg.token64
        pckt.ifID pckt.sender).2
    else this
  | (_, this) => this

/-- The message is a separate response. -/
def onSeparateResponse (env : Env) (this : CoapServer) (now : UInt32) (pckt : NetPacket)
    (pMsg : CoapMessage) : CoapServer :=
  match this.findRequest pMsg pckt.sender with
  | some pIA =>
    let pIA :=
      if pIA.state = .waitingResponse ∨ pIA.state = .handleResponse then attachResponse pIA pMsg else pIA
    if pMsg.type = .con then
      match this.sendShortResp env now none (some pckt) .ack empty pMsg.messageID pMsg.token64 pckt.ifID
        pckt.sender with
      | (true, this) => this.storeInteraction { pIA with respReliabilityState := .ackSet }
      | (false, this) => this.storeInteraction pIA
    else this.storeInteraction pIA
  | none =>
    (this.sendShortResp env now none (some pckt) .rst empty pMsg.messageID pMsg.token64 pckt.ifID
      pckt.sender).2

/-- Behind the checks: into a new or an existing interaction. -/
def dispatch (env : Env) (this : CoapServer) (now : UInt32) (pckt : NetPacket) (pMsg : CoapMessage)
    (pRes : Option Nat) : CoapServer :=
  match pMsg.type with
  | .rst => (this.applyReliabilityState .rstSet pMsg.messageID pckt.sender).2
  | .ack => this.onAck pckt pMsg
  | _ =>
    match pRes with
    | some pRes => this.onRequest env now pckt pMsg pRes
    | none => this.onSeparateResponse env now pckt pMsg

/-- The check for unknown critical options; none of them are left behind it. -/
def checkOptions (env : Env) (this : CoapServer) (now : UInt32) (pckt : NetPacket) (pMsg : CoapMessage)
    (pRes : Option Nat) : CoapServer :=
  if checkForUnknownCriticalOption pMsg.options ≠ 0 then
    if pMsg.type = .con then
      if pMsg.isRequest then
        (this.sendShortResp env now none (some pckt) .ack respBadOption pMsg.messageID pMsg.token64 pckt.ifID
          pckt.sender).2
      else
        (this.sendShortResp env now none (some pckt) .rst empty pMsg.messageID 0 pckt.ifID pckt.sender).2
    else this
  else this.dispatch env now pckt pMsg pRes

/-- A message that could be parsed. -/
def onMessage (env : Env) (this : CoapServer) (now : UInt32) (pckt : NetPacket) (pMsg : CoapMessage) :
    CoapServer :=
  if pMsg.type = .con ∧ pMsg.code = empty then
    (this.sendShortResp env now none (some pckt) .rst empty pMsg.messageID 0 pckt.ifID pckt.sender).2
  else if pMsg.type = .ack ∧ pMsg.isRequest then this
  else if pMsg.type = .rst ∧ pMsg.code ≠ empty then this
  else if pMsg.isRequest then
    match (findResourceByUri this.resources pMsg.options).filter fun pRes =>
      this.resources[pRes]?.any CoapResource.handler with
    | none =>
      if pMsg.type = .con then
        (this.sendShortResp env now none (some pckt) .ack respNotFound pMsg.messageID pMsg.token64 pckt.ifID
          pckt.sender).2
      else
        let (messageID, this) := this.getNextMid
        (this.sendShortResp env now none (some pckt) .non respNotFound messageID pMsg.token64 pckt.ifID
          pckt.sender).2
    | some pRes => this.checkOptions env now pckt pMsg (some pRes)
  else this.checkOptions env now pckt pMsg none

/-- `CoAP_onNewPacketHandler`.  A packet has at most one allocation for each of its bytes and one for
the message. -/
def onNewPacketHandler (env : Env) (this : CoapServer) (now : UInt32) (pckt : NetPacket) : CoapServer :=
  match this.parsePacket env now pckt with
  | none => { this with allocs := this.allocs + pckt.size.toNat + 1 }
  | some pMsg =>
    { this with
      allocs := this.allocs + pckt.size.toNat + 1
      log := .received pckt pMsg :: this.log }.onMessage env now pckt pMsg

/-! ## Sending -/

/-- `SendResp`.  The text of its error names the message id of the request. -/
def sendResp (env : Env) (this : CoapServer) (now : UInt32) (pIA : CoapInteraction)
    (nextIAState : InteractionState) : Option CoapServer := do
  let pRespMsg ← pIA.pRespMsg
  match this.sendMsg env now (some pIA) pIA.origin pRespMsg pIA.ifID pIA.remoteEp with
  | (true, pRespMsg, this) =>
    let pIA := { pIA with pRespMsg := some pRespMsg, state := nextIAState }
    match pRespMsg.type with
    | .ack => some (this.enqueueLastInteraction { pIA with reqReliabilityState := .ackSet })
    | .con => some (this.enqueueLastInteraction (enableAckTimeout now pIA pIA.retransCounter))
    | _ => some (this.enqueueLastInteraction pIA)
  | (false, _, this) => do
    let _ ← pIA.pReqMsg
    some (this.deleteInteraction pIA.ref)

/-- `SendReq`. -/
def sendReq (env : Env) (this : CoapServer) (now : UInt32) (pIA : CoapInteraction)
    (nextIAState : InteractionState) : Option CoapServer := do
  let pReqMsg ← pIA.pReqMsg
  match this.sendMsg env now (some pIA) pIA.origin pReqMsg pIA.ifID pIA.remoteEp with
  | (true, pReqMsg, this) =>
    let pIA := { pIA with pReqMsg := some pReqMsg, state := nextIAState }
    if pReqMsg.type = .con then some (this.enqueueLastInteraction (enableAckTimeout now pIA pIA.retransCounter))
    else some (this.enqueueLastInteraction pIA)
  | (false, _, this) => some (this.deleteInteraction pIA.ref)

/-- The branch `COAP_RETRY` for a response. -/
def retryResp (env : Env) (this : CoapServer) (now : UInt32) (pIA : CoapInteraction) : Option CoapServer := do
  let pRespMsg ← pIA.pRespMsg
  match this.sendMsg env now (some pIA) pIA.origin pRespMsg pIA.ifID pIA.remoteEp with
  | (true, pRespMsg, this) =>
    let pIA := { pIA with pRespMsg := some pRespMsg, retransCounter := pIA.retransCounter + 1 }
    some (this.storeInteraction (enableAckTimeout now pIA pIA.retransCounter))
  | (false, _, this) => do
    let _ ← pIA.pReqMsg
    some (this.deleteInteraction pIA.ref)

/-- The branch `COAP_RETRY` for a request. -/
def retryReq (env : Env) (this : CoapServer) (now : UInt32) (pIA : CoapInteraction) : Option CoapServer := do
  let pReqMsg ← pIA.pReqMsg
  match this.sendMsg env now (some pIA) pIA.origin pReqMsg pIA.ifID pIA.remoteEp with
  | (true, pReqMsg, this) =>
    let pIA := { pIA with pReqMsg := some pReqMsg, retransCounter := pIA.retransCounter + 1 }
    some (this.storeInteraction (enableAckTimeout now pIA pIA.retransCounter))
  | (false, _, this) => some (this.deleteInteraction pIA.ref)

/-- The test for an acknowledgement that is overdue. -/
def checkAckTimeout (now : UInt32) (pIA : CoapInteraction) : CoapResult :=
  if now > pIA.ackTimeout then
    if pIA.retransCounter + 1 > maxRetransmit then .errOutOfAttempts else .retry
  else .waiting

/-- `CheckRespStatus`. -/
def checkRespStatus (now : UInt32) (pIA : CoapInteraction) : Option CoapResult :=
  if pIA.respReliabilityState = .rstSet then some .errRemoteRst
  else do
    let pRespMsg ← pIA.pRespMsg
    match pRespMsg.type with
    | .con =>
      if pIA.respReliabilityState = .ackSet then some .ok else some (checkAckTimeout now pIA)
    | .rst => some .errArgument
    | _ =>
      if msgIsOlderThan now pRespMsg holdtimeAfterNonTransactionEnd then some .ok else some .holdingBack

/-- `CheckReqStatus`. -/
def checkReqStatus (now : UInt32) (pIA : CoapInteraction) : Option CoapResult :=
  if pIA.reqReliabilityState = .rstSet then some .errRemoteRst
  else do
    let pReqMsg ← pIA.pReqMsg
    if pReqMsg.type = .con ∧ pIA.reqReliabilityState ≠ .ackSet then some (checkAckTimeout now pIA)
    else if msgIsOlderThan now pReqMsg clientMaxRespWaitTime then some .errTimeout
    else some .waiting

/-! ## The server role -/

def resOptGet : UInt16 := 2
def resOptPost : UInt16 := 4
def resOptPut : UInt16 := 8
def resOptDelete : UInt16 := 16

/-- The resource does not support the method. -/
def methodNotAllowed (code : UInt8) (flags : UInt16) : Bool :=
  (code = reqGet && flags &&& resOptGet = 0) || (code = reqPost && flags &&& resOptPost = 0) ||
    (code = reqPut && flags &&& resOptPut = 0) || (code = reqDelete && flags &&& resOptDelete = 0)

/-- Type and message id, whatever the handler did to them: separate behind an empty acknowledgement,
else piggybacked. -/
def setRespType (this : CoapServer) (pIA : CoapInteraction) (pReqMsg pRespMsg : CoapMessage) :
    CoapMessage × CoapServer :=
  if pReqMsg.type = .con then
    if pIA.reqReliabilityState = .ackSet then
      let (messageID, this) := this.getNextMid
      ({ pRespMsg with type := .con, messageID }, this)
    else ({ pRespMsg with type := .ack }, this)
  else (pRespMsg, this)

/-- Hop count and signal strength of a request that came over the radio. -/
def addPathOption (env : Env) (this : CoapServer) (metaInfo : MetaInfo) (pRespMsg : CoapMessage) :
    CoapMessage × CoapServer :=
  match metaInfo with
  | .none => (pRespMsg, this)
  | .rfPath hopCount rssi =>
    let (available, this) := this.memGet env
    ({ pRespMsg with
      options := (appendOptionToList available pRespMsg.options
        ⟨optNumPath, [hopCount, UInt8.ofInt (rssi * -1)]⟩).2 }, this)

/-- The response is complete but for the Observe option, which acknowledges a registration. -/
def addObservation (env : Env) (this : CoapServer) (pIA : CoapInteraction) (pRes : Nat)
    (pReqMsg pRespMsg : CoapMessage) : CoapMessage × CoapServer :=
  match pIA.origin with
  | none => (pRespMsg, this)
  | some origin =>
    if pReqMsg.code = reqGet ∧ pRespMsg.code = respSuccessContent then
      match this.handleObservationInReq env pIA pRes pReqMsg origin with
      | (.ok, this) =>
        let (available, this) := this.memGet env
        (addObserveOptionToMsg available pRespMsg 0, this)
      | (_, this) => (pRespMsg, this)
    else (pRespMsg, this)

/-- The handler has left a response that can be sent. -/
def respond (env : Env) (this : CoapServer) (now : UInt32) (pIA : CoapInteraction) (pRes : Nat)
    (pReqMsg pRespMsg : CoapMessage) : Option CoapServer :=
  let (pRespMsg, this) := this.setRespType pIA pReqMsg pRespMsg
  let (pRespMsg, this) := this.addPathOption env pIA.reqMetaInfo pRespMsg
  let (pRespMsg, this) := this.addObservation env pIA pRes pReqMsg pRespMsg
  this.sendResp env now { pIA with pRespMsg := some pRespMsg } .responseSent

/-- The handler needs more time. -/
def postpone (env : Env) (this : CoapServer) (now : UInt32) (pIA : CoapInteraction) (pRes : Nat)
    (pReqMsg : CoapMessage) (pRespMsg : Option CoapMessage) : Option CoapServer :=
  let pIA := { pIA with pRespMsg }
  if pReqMsg.type = .con ∧ pIA.reqReliabilityState ≠ .ackSet then
    match this.sendEmptyAck env now pIA pReqMsg.messageID with
    | (true, this) =>
      some (this.enqueueLastInteraction { pIA with
        reqReliabilityState := .ackSet
        state := .resourcePostponeEmptyAckSent
        sleepUntil := now + postponeWaitTimeSek })
    | (false, this) => some (this.deleteInteraction pIA.ref)
  else if msgIsOlderThan now pReqMsg postponeMaxWaitTime then do
    let pRespMsg ← pRespMsg
    this.respond env now pIA pRes pReqMsg { pRespMsg with code := respServiceUnavailable }
  else some (this.enqueueLastInteraction { pIA with sleepUntil := now + postponeWaitTimeSek })

/-- The code of a response whose handler forgot it. -/
def completeCode (result : HandlerResult) (pRespMsg : CoapMessage) : CoapMessage :=
  if result = .ok ∧ pRespMsg.code = empty then { pRespMsg with code := respSuccessContent }
  else if result = .error ∧ pRespMsg.code = empty then { pRespMsg with code := respInternalServerError }
  else pRespMsg

/-- The states `HANDLE_REQUEST` and `RESOURCE_POSTPONE_EMPTY_ACK_SENT`. -/
def handleRequest (env : Env) (this : CoapServer) (now : UInt32) (pIA : CoapInteraction) :
    Option CoapServer := do
  let pReqMsg ← pIA.pReqMsg
  let pRes ← pIA.pRes
  let resource ← this.resources[pRes]?
  if methodNotAllowed pReqMsg.code resource.flags then
    match this.allocRespMsg env pReqMsg respMethodNotAllowed 0 with
    | (pRespMsg, this) => this.sendResp env now { pIA with pRespMsg } .responseSent
  else
    let (pRespMsg, this) :=
      match pIA.pRespMsg with
      | some pRespMsg => (some pRespMsg, this)
      | none => this.allocRespMsg env pReqMsg empty preferedPayloadSize
    let handled := env.handler this.callbacks pRes pReqMsg pRespMsg
    let pRespMsg := pRespMsg.map fun _ => handled.resp
    let this := handled.calls.foldl (call env) { this with
      callbacks := this.callbacks + 1, log := .handled pIA pReqMsg :: this.log }
    if handled.result = .postpone then this.postpone env now pIA pRes pReqMsg pRespMsg
    else do
      let pRespMsg ← pRespMsg
      this.respond env now pIA pRes pReqMsg (completeCode handled.result pRespMsg)

/-- The state `RESPONSE_SENT`. -/
def checkResponse (env : Env) (this : CoapServer) (now : UInt32) (pIA : CoapInteraction) :
    Option CoapServer := do
  match ← checkRespStatus now pIA with
  | .waiting => some (this.enqueueLastInteraction pIA)
  | .holdingBack => some (this.enqueueLastInteraction pIA)
  | .retry => this.retryResp env now pIA
  | _ => some (this.deleteInteraction pIA.ref)

/-! ## The notification role -/

/-- The notifier is asked for a fresher representation, under a new message id. -/
def refresh (env : Env) (this : CoapServer) (pIA : CoapInteraction) (pRespMsg : CoapMessage) :
    Option (CoapMessage × CoapServer) := do
  let pRes ← pIA.pRes
  let resource ← this.resources[pRes]?
  if resource.notifier = false then none
  else
    let (messageID, this) := this.getNextMid
    let pRespMsg := { pRespMsg with messageID }
    let pObserver := pIA.pObserver.bind fun ref => resource.observers.find? fun observer => observer.ref = ref
    let (notified, this) := this.callNotifier env pRes pObserver pRespMsg
    if notified.result.toNat ≥ respErrorBadRequest.toNat then
      let pRespMsg := removeObserveOptionFromMsg notified.resp
      some (pRespMsg, this.removeInteractionsObserver pIA pRespMsg.token64)
    else
      let (available, this) := this.memGet env
      some (updateObserveOptionInMsg available notified.resp resource.updateCnt, this)

/-- The state `NOTIFICATION_SENT`. -/
def checkNotification (env : Env) (this : CoapServer) (now : UInt32) (pIA : CoapInteraction) :
    Option CoapServer := do
  match ← checkRespStatus now pIA with
  | .waiting => some (this.enqueueLastInteraction pIA)
  | .holdingBack => some (this.enqueueLastInteraction pIA)
  | .retry =>
    if pIA.updatePendingNotification then
      let pRespMsg ← pIA.pRespMsg
      let pIA := { pIA with updatePendingNotification := false }
      let (refreshed, this) ← this.refresh env pIA pRespMsg
      -- one confirmable among many non-confirmable ones stays confirmable
      this.retryResp env now { pIA with pRespMsg := some { refreshed with type := pRespMsg.type } }
    else this.retryResp env now pIA
  | .ok =>
    if pIA.updatePendingNotification then
      let pRespMsg ← pIA.pRespMsg
      let pIA := { pIA with
        state := .readyToNotify
        retransCounter := 0
        updatePendingNotification := false
        respReliabilityState := .notSet }
      let (refreshed, this) ← this.refresh env pIA pRespMsg
      some (this.enqueueLastInteraction { pIA with pRespMsg := some refreshed })
    else some (this.deleteInteraction pIA.ref)
  | .errOutOfAttempts => do
    let pRespMsg ← pIA.pRespMsg
    some ((this.removeInteractionsObserver pIA pRespMsg.token64).deleteInteraction pIA.ref)
  | .errRemoteRst => do
    let pRespMsg ← pIA.pRespMsg
    some ((this.removeInteractionsObserver pIA pRespMsg.token64).deleteInteraction pIA.ref)
  | _ => some (this.deleteInteraction pIA.ref)

/-! ## The client role -/

/-- The state `WAITING_RESPONSE`. -/
def checkRequest (env : Env) (this : CoapServer) (now : UInt32) (pIA : CoapInteraction) :
    Option CoapServer := do
  match ← checkReqStatus now pIA with
  | .waiting => some (this.enqueueLastInteraction pIA)
  | .retry => this.retryReq env now pIA
  | _ => some (this.deleteInteraction pIA.ref)

/-- The state `HANDLE_RESPONSE`. -/
def handleResponse (env : Env) (this : CoapServer) (pIA : CoapInteraction) : Option CoapServer :=
  if pIA.respCB then do
    let pRespMsg ← pIA.pRespMsg
    let calls := env.respCB this.callbacks pRespMsg pIA.remoteEp
    some ((calls.foldl (call env) { this with callbacks := this.callbacks + 1 }).deleteInteraction pIA.ref)
  else some (this.deleteInteraction pIA.ref)

/-! ## Work -/

/-- An interaction that is due. -/
def work (env : Env) (this : CoapServer) (now : UInt32) (pIA : CoapInteraction) : Option CoapServer :=
  match pIA.role with
  | .server =>
    match pIA.state with
    | .handleRequest => this.handleRequest env now pIA
    | .resourcePostponeEmptyAckSent => this.handleRequest env now pIA
    | .responseSent => this.checkResponse env now pIA
    | _ => some this
  | .notification =>
    match pIA.state with
    | .readyToNotify => this.sendResp env now pIA .notificationSent
    | .notificationSent => this.checkNotification env now pIA
    | _ => some this
  | .client =>
    match pIA.state with
    | .readyToRequest => this.sendReq env now pIA .waitingResponse
    | .waitingResponse => this.checkRequest env now pIA
    | .handleResponse => this.handleResponse env pIA
    | _ => some (this.deleteInteraction pIA.ref)

/-- `CoAP_doWork`. -/
def doWork (env : Env) (this : CoapServer) (now : UInt32) : Option CoapServer :=
  match this.pInteractions with
  | [] => some this
  | pIA :: _ =>
    if pIA.sleepUntil > now then some (this.enqueueLastInteraction pIA) else this.work env now pIA

/-! ## Steps -/

inductive Event where
  | packet (pckt : NetPacket) (now : UInt32)
  | doWork (now : UInt32)
  /-- Code outside the stack notifies the observers of a resource, or sends a request. -/
  | call (call : Call)

def step (env : Env) (this : CoapServer) : Event → Option CoapServer
  | .packet pckt now => some (this.onNewPacketHandler env now pckt)
  | .doWork now => this.doWork env now
  | .call call => some (this.call env call)

end CoapServer

end SmingCoap.Server
