import SmingCoap.Ownership.Ledger
import SmingCoap.Server.ObserverSoundness

/-! # Messages and interactions in memory

Which messages and interactions are allocated and released, exit by exit of the
functions of the stack: each function here follows the function of the same name
with the state that it sees.  A message is a block of memory, an interaction
another one, whose record has the pointers to its two messages.
-/

namespace SmingCoap.Server

/-- Where an interaction is, and its pointers. -/
structure Pointers where
  interaction : Nat
  pReqMsg : Option Nat
  pRespMsg : Option Nat
  deriving DecidableEq, Repr

/-- The messages of an interaction. -/
def Pointers.messages (pointers : Pointers) : List Nat := pointers.pReqMsg.toList ++ pointers.pRespMsg.toList

def Pointers.blocks (pointers : Pointers) : List Nat := pointers.messages ++ [pointers.interaction]

/-- The memory of the stack, with a record for each interaction in the list. -/
abbrev Heap := Ownership.Ledger Nat Pointers

namespace Heap

def new : Heap where
  next := 0
  live := []
  record := fun _ => ⟨0, none, none⟩
  faults := 0

/-- `CoAP_free_Message`. -/
def freeMessage (heap : Heap) (pMsg : Nat) : Heap := Ownership.Ledger.release heap pMsg

/-- `CoAP_FreeInteraction`. -/
def freeInteraction (heap : Heap) (pointers : Pointers) : Heap := Ownership.Ledger.releaseAll heap pointers.blocks

/-- `CoAP_DeleteInteraction`. -/
def deleteInteraction (heap : Heap) (ref : Nat) : Heap := heap.freeInteraction (heap.record ref)

/-- `coap_mem_get0`. -/
def memGet (heap : Heap) : Nat × Heap := Ownership.Ledger.get heap

/-- `CoAP_AppendInteractionToList`. -/
def appendInteraction (heap : Heap) (ref : Nat) (pointers : Pointers) : Heap := heap.assign ref pointers

/-- A new interaction with a request goes into the list. -/
def startInteraction (heap : Heap) (ref : Nat) (pReqMsg : Nat) : Heap :=
  let (interaction, heap) := heap.memGet
  heap.appendInteraction ref ⟨interaction, some pReqMsg, none⟩

/-- The response pointer of an interaction is written. -/
def setResponse (heap : Heap) (ref : Nat) (pRespMsg : Option Nat) : Heap :=
  heap.assign ref { heap.record ref with pRespMsg }

/-- A response that was received goes into an interaction; an older one is freed. -/
def attachResponse (heap : Heap) (ref : Nat) (pRespMsg : Nat) : Heap :=
  match (heap.record ref).pRespMsg with
  | some older => (heap.freeMessage older).setResponse ref (some pRespMsg)
  | none => heap.setResponse ref (some pRespMsg)

/-- The response pointer of an interaction gets the result of `CoAP_AllocRespMsg`. -/
def allocResponse (heap : Heap) (ref : Nat) : Option CoapMessage → Heap
  | none => heap.setResponse ref none
  | some _ =>
    let (pRespMsg, heap) := heap.memGet
    heap.setResponse ref (some pRespMsg)

end Heap

namespace CoapServer

/-! ## Received packets -/

def onAckMemory (this : CoapServer) (pckt : NetPacket) (pMsg : CoapMessage) (block : Nat) (heap : Heap) : Heap :=
  match (this.applyReliabilityState .ackSet pMsg.messageID pckt.sender).1 with
  | none => heap.freeMessage block
  | some pIA =>
    if pMsg.code ≠ empty ∧ pIA.role = .client ∧ pIA.pReqMsg.any (fun msg => msg.token64 = pMsg.token64) ∧
        pIA.state = .waitingResponse then
      heap.attachResponse pIA.ref block
    else heap.freeMessage block

def onRequestMemory (env : Env) (this : CoapServer) (now : UInt32) (pckt : NetPacket) (pMsg : CoapMessage)
    (pRes : Nat) (block : Nat) (heap : Heap) : Heap :=
  match (this.startNewServerInteraction env now pMsg pRes pckt).1 with
  | .ok => heap.startInteraction this.interactions block
  | _ => heap.freeMessage block

/-- The `return` behind the search does not ask whether the message was attached. -/
def onSeparateResponseMemory (this : CoapServer) (pckt : NetPacket) (pMsg : CoapMessage) (block : Nat)
    (heap : Heap) : Heap :=
  match this.findRequest pMsg pckt.sender with
  | some pIA =>
    if pIA.state = .waitingResponse ∨ pIA.state = .handleResponse then heap.attachResponse pIA.ref block else heap
  | none => heap.freeMessage block

def dispatchMemory (env : Env) (this : CoapServer) (now : UInt32) (pckt : NetPacket) (pMsg : CoapMessage)
    (pRes : Option Nat) (block : Nat) (heap : Heap) : Heap :=
  match pMsg.type with
  | .rst => heap.freeMessage block
  | .ack => this.onAckMemory pckt pMsg block heap
  | _ =>
    match pRes with
    | some pRes => this.onRequestMemory env now pckt pMsg pRes block heap
    | none => this.onSeparateResponseMemory pckt pMsg block heap

def checkOptionsMemory (env : Env) (this : CoapServer) (now : UInt32) (pckt : NetPacket) (pMsg : CoapMessage)
    (pRes : Option Nat) (block : Nat) (heap : Heap) : Heap :=
  if checkForUnknownCriticalOption pMsg.options ≠ 0 then heap.freeMessage block
  else this.dispatchMemory env now pckt pMsg pRes block heap

def onMessageMemory (env : Env) (this : CoapServer) (now : UInt32) (pckt : NetPacket) (pMsg : CoapMessage)
    (block : Nat) (heap : Heap) : Heap :=
  if pMsg.type = .con ∧ pMsg.code = empty then heap.freeMessage block
  else if pMsg.type = .ack ∧ pMsg.isRequest then heap.freeMessage block
  else if pMsg.type = .rst ∧ pMsg.code ≠ empty then heap.freeMessage block
  else if pMsg.isRequest then
    match (findResourceByUri this.resources pMsg.options).filter fun pRes =>
      this.resources[pRes]?.any CoapResource.handler with
    | none => heap.freeMessage block
    | some pRes => this.checkOptionsMemory env now pckt pMsg (some pRes) block heap
  else this.checkOptionsMemory env now pckt pMsg none block heap

/-- A packet that cannot be parsed leaves no message behind. -/
def onNewPacketHandlerMemory (env : Env) (this : CoapServer) (now : UInt32) (pckt : NetPacket) (heap : Heap) : Heap :=
  match this.parsePacket env now pckt with
  | none => heap
  | some pMsg =>
    let (block, heap) := heap.memGet
    { this with
      allocs := this.allocs + pckt.size.toNat + 1
      log := .received pckt pMsg :: this.log }.onMessageMemory env now pckt pMsg block heap

/-! ## User code -/

def startNewClientInteractionMemory (env : Env) (this : CoapServer) (pMsgReq : CoapMessage) (block : Nat)
    (heap : Heap) : Heap :=
  if pMsgReq.isRequest = false then heap
  else
    match (this.memGet env).1 with
    | false => heap
    | true => heap.startInteraction this.interactions block

def startNewGetRequestMemory (env : Env) (this : CoapServer) (uriString : List UInt8) (heap : Heap) : Heap :=
  let (messageID, this) := this.getNextMid
  let (token, this) := this.generateToken
  match this.createMessage env .con reqGet messageID 0 token with
  | (none, _) => heap
  | (some pReqMsg, this) =>
    let (block, heap) := heap.memGet
    let list := appendUriOptionsFromString env.alloc ⟨pReqMsg.options, this.allocs⟩ uriString
    { this with allocs := list.allocs }.startNewClientInteractionMemory env { pReqMsg with options := list.options }
      block heap

/-- A message that user code has made is still its own when no interaction is started. -/
def performMemory (env : Env) (this : CoapServer) (request : ClientRequest) (heap : Heap) : Heap :=
  match request with
  | .interaction pMsgReq _ _ _ =>
    if pMsgReq.isRequest && (this.memGet env).1 then
      let (block, heap) := heap.memGet
      this.startNewClientInteractionMemory env pMsgReq block heap
    else heap
  | .get uriString _ _ _ => this.startNewGetRequestMemory env uriString heap

def performsMemory (env : Env) : CoapServer → List ClientRequest → Heap → Heap
  | _, [], heap => heap
  | this, request :: rest, heap =>
    performsMemory env (this.perform env request) rest (this.performMemory env request heap)

/-- A call of a notifier. -/
def callNotifierMemory (env : Env) (this : CoapServer) (pRes : Nat) (pObserver : Option CoapObserver)
    (pResp : CoapMessage) (heap : Heap) : Heap :=
  { this with callbacks := this.callbacks + 1 }.performsMemory env
    (env.notifier this.callbacks pRes pObserver pResp).requests heap

/-! ## Notifications -/

/-- The `continue` behind an error response does not free the interaction. -/
def notifyObserverMemory (env : Env) (this : CoapServer) (pRes : Nat) (resource : CoapResource)
    (pObserver : CoapObserver) (heap : Heap) : Heap :=
  match this.pInteractions.find? fun pIA => pIA.notifies pRes pObserver with
  | some _ => heap
  | none =>
    match this.memGet env with
    | (false, _) => heap
    | (true, this) =>
      let (newIA, heap) := heap.memGet
      let (messageID, this) := this.getNextMid
      match this.createMessage env .con respSuccessContent messageID preferedPayloadSize pObserver.token with
      | (none, _) => heap.freeInteraction ⟨newIA, none, none⟩
      | (some pRespMsg, this) =>
        let (block, heap) := heap.memGet
        if resource.notifier = false then heap.freeInteraction ⟨newIA, none, some block⟩
        else
          let heap := this.callNotifierMemory env pRes (some pObserver) pRespMsg heap
          let (notified, this) := this.callNotifier env pRes (some pObserver) pRespMsg
          if notified.result ≠ .ok then heap.freeInteraction ⟨newIA, none, some block⟩
          else if notified.resp.code ≥ respErrorBadRequest then heap
          else heap.appendInteraction this.interactions ⟨newIA, none, some block⟩

def notifyLoopMemory (env : Env) (pRes : Nat) (resource : CoapResource) : CoapServer → List CoapObserver → Heap → Heap
  | _, [], heap => heap
  | this, pObserver :: rest, heap =>
    let heap := this.notifyObserverMemory env pRes resource pObserver heap
    match this.notifyObserver env pRes resource pObserver with
    | (false, _) => heap
    | (true, this) => notifyLoopMemory env pRes resource this rest heap

def notifyResourceObserversMemory (env : Env) (this : CoapServer) (pRes : Nat) (heap : Heap) : Heap :=
  match (this.counted pRes).resources[pRes]? with
  | none => heap
  | some resource => notifyLoopMemory env pRes resource (this.counted pRes) resource.observers heap

def callMemory (env : Env) (this : CoapServer) (request : Call) (heap : Heap) : Heap :=
  match request with
  | .notify pRes => this.notifyResourceObserversMemory env pRes heap
  | .request request => this.performMemory env request heap

def callsMemory (env : Env) : CoapServer → List Call → Heap → Heap
  | _, [], heap => heap
  | this, request :: rest, heap => callsMemory env (this.call env request) rest (this.callMemory env request heap)

/-! ## Work -/

/-- A message is sent, or its interaction deleted. -/
def sendMemory (env : Env) (this : CoapServer) (pIA : CoapInteraction) (heap : Heap) : Heap :=
  if env.transmit this.transmissions then heap else heap.deleteInteraction pIA.ref

def handleObservationInReqMemory (this : CoapServer) (pIA : CoapInteraction) (pRes : Nat) (pReqMsg : CoapMessage)
    (heap : Heap) : Heap :=
  match this.resources[pRes]? with
  | none => heap
  | some resource =>
    if resource.notifier = false then heap
    else
      match getObserveOptionFromMsg pReqMsg with
      | none => heap
      | some obsVal =>
        if obsVal = observeOptRegister then heap
        else if obsVal = observeOptDeregister then
          match this.pInteractions.find? fun pending => pending.isPendingFor pIA pReqMsg.token64 with
          | none => heap
          | some pending => heap.deleteInteraction pending.ref
        else heap

def addObservationMemory (this : CoapServer) (pIA : CoapInteraction) (pRes : Nat) (pReqMsg pRespMsg : CoapMessage)
    (heap : Heap) : Heap :=
  match pIA.origin with
  | none => heap
  | some _ =>
    if pReqMsg.code = reqGet ∧ pRespMsg.code = respSuccessContent then
      this.handleObservationInReqMemory pIA pRes pReqMsg heap
    else heap

def respondMemory (env : Env) (this : CoapServer) (pIA : CoapInteraction) (pRes : Nat)
    (pReqMsg pRespMsg : CoapMessage) (heap : Heap) : Heap :=
  let (pRespMsg, this) := this.beforeObservation env pIA pReqMsg pRespMsg
  (this.addObservation env pIA pRes pReqMsg pRespMsg).2.sendMemory env pIA
    (this.addObservationMemory pIA pRes pReqMsg pRespMsg heap)

def postponeMemory (env : Env) (this : CoapServer) (now : UInt32) (pIA : CoapInteraction) (pRes : Nat)
    (pReqMsg : CoapMessage) (pRespMsg : Option CoapMessage) (heap : Heap) : Heap :=
  if pReqMsg.type = .con ∧ pIA.reqReliabilityState ≠ .ackSet then this.sendMemory env pIA heap
  else if msgIsOlderThan now pReqMsg postponeMaxWaitTime then
    match pRespMsg with
    | none => heap
    | some pRespMsg =>
      this.respondMemory env { pIA with pRespMsg } pRes pReqMsg { pRespMsg with code := respServiceUnavailable } heap
  else heap

/-- A handler is called, and its response sent. -/
def handleMemory (env : Env) (this : CoapServer) (now : UInt32) (pIA : CoapInteraction) (pRes : Nat)
    (pReqMsg : CoapMessage) (heap : Heap) : Heap :=
  let given := handlerGiven env this pIA pReqMsg
  let handled := handlerOutcome env this pIA pRes pReqMsg
  let heap := if pIA.pRespMsg = none then heap.allocResponse pIA.ref given.1 else heap
  let heap := callsMemory env (handlerBegun env this pIA pReqMsg) handled.calls heap
  let pRespMsg := given.1.map fun _ => handled.resp
  let this := handlerCalled env this pIA pRes pReqMsg
  if handled.result = .postpone then this.postponeMemory env now pIA pRes pReqMsg pRespMsg heap
  else
    match pRespMsg with
    | none => heap
    | some pRespMsg => this.respondMemory env pIA pRes pReqMsg (completeCode handled.result pRespMsg) heap

def handleRequestMemory (env : Env) (this : CoapServer) (now : UInt32) (pIA : CoapInteraction) (heap : Heap) : Heap :=
  match pIA.pReqMsg, pIA.pRes with
  | some pReqMsg, some pRes =>
    match this.resources[pRes]? with
    | none => heap
    | some resource =>
      if methodNotAllowed pReqMsg.code resource.flags then
        match this.allocRespMsg env pReqMsg respMethodNotAllowed 0 with
        | (pRespMsg, this) => this.sendMemory env pIA (heap.allocResponse pIA.ref pRespMsg)
      else this.handleMemory env now pIA pRes pReqMsg heap
  | _, _ => heap

def checkResponseMemory (env : Env) (this : CoapServer) (now : UInt32) (pIA : CoapInteraction) (heap : Heap) : Heap :=
  match checkRespStatus now pIA with
  | none => heap
  | some .waiting => heap
  | some .holdingBack => heap
  | some .retry => this.sendMemory env pIA heap
  | some _ => heap.deleteInteraction pIA.ref

def refreshMemory (env : Env) (this : CoapServer) (pIA : CoapInteraction) (pRespMsg : CoapMessage) (heap : Heap) : Heap :=
  match pIA.pRes.bind fun pRes => this.resources[pRes]?.map fun resource => (pRes, resource) with
  | none => heap
  | some (pRes, resource) =>
    let (messageID, this) := this.getNextMid
    this.callNotifierMemory env pRes
      (pIA.pObserver.bind fun ref => resource.observers.find? fun observer => observer.ref = ref)
      { pRespMsg with messageID } heap

def checkNotificationMemory (env : Env) (this : CoapServer) (now : UInt32) (pIA : CoapInteraction)
    (heap : Heap) : Heap :=
  match checkRespStatus now pIA, pIA.pRespMsg with
  | none, _ => heap
  | some .waiting, _ => heap
  | some .holdingBack, _ => heap
  | some .retry, pRespMsg =>
    if pIA.updatePendingNotification then
      match pRespMsg with
      | none => heap
      | some pRespMsg =>
        let heap := this.refreshMemory env pIA pRespMsg heap
        match this.refresh env { pIA with updatePendingNotification := false } pRespMsg with
        | none => heap
        | some (_, this) => this.sendMemory env pIA heap
    else this.sendMemory env pIA heap
  | some .ok, pRespMsg =>
    if pIA.updatePendingNotification then
      match pRespMsg with
      | none => heap
      | some pRespMsg => this.refreshMemory env pIA pRespMsg heap
    else heap.deleteInteraction pIA.ref
  | some _, _ => heap.deleteInteraction pIA.ref

def checkRequestMemory (env : Env) (this : CoapServer) (now : UInt32) (pIA : CoapInteraction) (heap : Heap) : Heap :=
  match checkReqStatus now pIA with
  | none => heap
  | some .waiting => heap
  | some .retry => this.sendMemory env pIA heap
  | some _ => heap.deleteInteraction pIA.ref

def handleResponseMemory (env : Env) (this : CoapServer) (pIA : CoapInteraction) (heap : Heap) : Heap :=
  match pIA.respCB, pIA.pRespMsg with
  | true, none => heap
  | true, some pRespMsg =>
    (callsMemory env { this with callbacks := this.callbacks + 1 } (env.respCB this.callbacks pRespMsg pIA.remoteEp)
      heap).deleteInteraction pIA.ref
  | false, _ => heap.deleteInteraction pIA.ref

def workMemory (env : Env) (this : CoapServer) (now : UInt32) (pIA : CoapInteraction) (heap : Heap) : Heap :=
  match pIA.role, pIA.state with
  | .server, .handleRequest => this.handleRequestMemory env now pIA heap
  | .server, .resourcePostponeEmptyAckSent => this.handleRequestMemory env now pIA heap
  | .server, .responseSent => this.checkResponseMemory env now pIA heap
  | .notification, .readyToNotify => this.sendMemory env pIA heap
  | .notification, .notificationSent => this.checkNotificationMemory env now pIA heap
  | .client, .readyToRequest => this.sendMemory env pIA heap
  | .client, .waitingResponse => this.checkRequestMemory env now pIA heap
  | .client, .handleResponse => this.handleResponseMemory env pIA heap
  | .client, _ => heap.deleteInteraction pIA.ref
  | _, _ => heap

def doWorkMemory (env : Env) (this : CoapServer) (now : UInt32) (heap : Heap) : Heap :=
  match this.pInteractions with
  | [] => heap
  | pIA :: _ => if pIA.sleepUntil > now then heap else this.workMemory env now pIA heap

/-! ## Steps -/

def stepMemory (env : Env) (this : CoapServer) (event : Event) (heap : Heap) : Heap :=
  match event with
  | .packet pckt now => this.onNewPacketHandlerMemory env now pckt heap
  | .doWork now => this.doWorkMemory env now heap
  | .call request => this.callMemory env request heap

/-- A step of the stack with its memory. -/
def allocatingStep (env : Env) (state : CoapServer × Heap) (event : Event) : Option (CoapServer × Heap) :=
  (step env state.1 event).map fun after => (after, state.1.stepMemory env event state.2)

end CoapServer

end SmingCoap.Server
