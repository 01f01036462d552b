import SmingCoap.Server.Resource

/-! # Interactions

`coap_interaction.c` with the parts of `coap_message.c` that need the state of
the stack: the list of interactions, message ids, sending, and what starts an
interaction.  What user code, memory and network decide is the environment; the
n-th callback, allocation or transmission of a run finds its outcome there.
Clock values are 32 bit.  The socket of an interface is there as long as
something is sent over it.

A function without a result reads a null pointer.
-/

namespace SmingCoap.Server

open Wire (Opt)

inductive InteractionRole where
  | server
  | notification
  | client
  deriving DecidableEq, Repr

inductive InteractionState where
  | handleRequest
  | resourcePostponeEmptyAckSent
  | responseSent
  | readyToNotify
  | notificationSent
  | readyToRequest
  | waitingResponse
  | handleResponse
  deriving DecidableEq, Repr

inductive ReliabilityState where
  | notSet
  | ackSet
  | rstSet
  deriving DecidableEq, Repr

/-- `CoAP_Interaction_t`.  `ref` tells interactions apart as their addresses do; `origin` is the
packet that brought the request, or the registration of a notified observer, which no function looks
at.  `respCB` says that a client has a response callback. -/
structure CoapInteraction where
  ref : Nat
  role : InteractionRole
  state : InteractionState
  pRes : Option Nat
  pObserver : Option Nat
  remoteEp : NetEp
  ifID : UInt8
  updatePendingNotification : Bool
  retransCounter : Nat
  ackTimeout : UInt32
  sleepUntil : UInt32
  pReqMsg : Option CoapMessage
  reqReliabilityState : ReliabilityState
  reqMetaInfo : MetaInfo
  pRespMsg : Option CoapMessage
  respReliabilityState : ReliabilityState
  respCB : Bool
  origin : Option NetPacket

/-- The message whose acknowledgement an interaction waits for. -/
def CoapInteraction.ownMsg (pIA : CoapInteraction) : Option CoapMessage :=
  match pIA.role with
  | .server => pIA.pRespMsg
  | .notification => pIA.pRespMsg
  | .client => pIA.pReqMsg

namespace CoapInteraction

/-- The test of `CoAP_ApplyReliabilityStateToInteraction`; the interface is not compared. -/
def awaits (pIA : CoapInteraction) (mID : Nat) (fromEp : NetEp) : Bool :=
  pIA.ownMsg.any (fun msg => msg.messageID = mID) && epAreEqual fromEp pIA.remoteEp

/-- The test for duplicates of `CoAP_StartNewServerInteraction`. -/
def isDuplicate (pIA : CoapInteraction) (pckt : NetPacket) (pMsgReq : CoapMessage) : Bool :=
  pIA.role = .server && pIA.ifID = pckt.ifID && pIA.pReqMsg.any (fun msg => msg.messageID = pMsgReq.messageID) &&
    epAreEqual pIA.remoteEp pckt.sender

/-- The test of `CoAP_StartNotifyInteractions` for a pending notification to an observer. -/
def notifies (pIA : CoapInteraction) (pRes : Nat) (pObserver : CoapObserver) : Bool :=
  pIA.role = .notification && pIA.pRes = some pRes && pIA.ifID = pObserver.ifID &&
    epAreEqual pIA.remoteEp pObserver.ep

/-- The test of `CoAP_HandleObservationInReq` for a pending notification under the token. -/
def isPendingFor (pending pIA : CoapInteraction) (token : UInt64) : Bool :=
  pending.role = .notification && pending.pRespMsg.any (fun msg => msg.token64 = token) &&
    pending.ifID = pIA.ifID && epAreEqual pending.remoteEp pIA.remoteEp

/-- `CoAP_AllocNewInteraction` with the fields `CoAP_StartNewServerInteraction` sets. -/
def serving (pMsgReq : CoapMessage) (pRes : Nat) (pckt : NetPacket) : CoapInteraction where
  ref := 0
  role := .server
  state := .handleRequest
  pRes := some pRes
  pObserver := none
  remoteEp := pckt.sender
  ifID := pckt.ifID
  updatePendingNotification := false
  retransCounter := 0
  ackTimeout := 0
  sleepUntil := 0
  pReqMsg := some pMsgReq
  reqReliabilityState := .notSet
  reqMetaInfo := pckt.metaInfo
  pRespMsg := none
  respReliabilityState := .notSet
  respCB := false
  origin := some pckt

/-- `CoAP_AllocNewInteraction` with the fields `CoAP_StartNewClientInteraction` sets. -/
def requesting (pMsgReq : CoapMessage) (ifID : UInt8) (serverEp : NetEp) (cb : Bool) : CoapInteraction where
  ref := 0
  role := .client
  state := .readyToRequest
  pRes := none
  pObserver := none
  remoteEp := serverEp
  ifID := ifID
  updatePendingNotification := false
  retransCounter := 0
  ackTimeout := 0
  sleepUntil := 0
  pReqMsg := some pMsgReq
  reqReliabilityState := .notSet
  reqMetaInfo := .none
  pRespMsg := none
  respReliabilityState := .notSet
  respCB := cb
  origin := none

/-- `CoAP_AllocNewInteraction` with the fields `CoAP_StartNotifyInteractions` sets. -/
def notifying (pRes : Nat) (pObserver : CoapObserver) (pRespMsg : CoapMessage) : CoapInteraction where
  ref := 0
  role := .notification
  state := .readyToNotify
  pRes := some pRes
  pObserver := some pObserver.ref
  remoteEp := pObserver.ep
  ifID := pObserver.ifID
  updatePendingNotification := false
  retransCounter := 0
  ackTimeout := 0
  sleepUntil := 0
  pReqMsg := none
  reqReliabilityState := .notSet
  reqMetaInfo := .none
  pRespMsg := some pRespMsg
  respReliabilityState := .notSet
  respCB := false
  origin := some pObserver.origin

end CoapInteraction

/-- What can be observed of a run, and the message ids that were drawn. -/
inductive Effect where
  /-- A packet that could be parsed. -/
  | received (packet : NetPacket) (msg : CoapMessage)
  /-- A transmission, the interaction it belongs to as it was then, and the packet it goes back to. -/
  | sent (ia : Option CoapInteraction) (origin : Option NetPacket) (ifID : UInt8) (receiver : NetEp)
      (msg : CoapMessage)
  /-- A resource handler was called. -/
  | handled (ia : CoapInteraction) (request : CoapMessage)
  | nextMid (mid : Nat)

/-- The global variables of the stack. -/
structure CoapServer where
  pInteractions : List CoapInteraction
  resources : List CoapResource
  mid : UInt16
  token : UInt64
  /-- How many interactions, observers, allocations, transmissions and callbacks there were. -/
  interactions : Nat
  observers : Nat
  allocs : Nat
  transmissions : Nat
  callbacks : Nat
  /-- What happened so far, the latest first. -/
  log : List Effect

/-! ## User code -/

inductive HandlerResult where
  | ok
  | postpone
  | error
  deriving DecidableEq, Repr

def HandlerResult.toNat : HandlerResult → Nat
  | .ok => 0
  | .postpone => 1
  | .error => 2

/-- A request that user code wants to send: a message of its own, or a GET for a URI string. -/
inductive ClientRequest where
  | interaction (pMsgReq : CoapMessage) (ifID : UInt8) (serverEp : NetEp) (cb : Bool)
  | get (uriString : List UInt8) (ifID : UInt8) (serverEp : NetEp) (cb : Bool)

/-- What handlers and response callbacks call in the stack. -/
inductive Call where
  | notify (pRes : Nat)
  | request (request : ClientRequest)

/-- The outcome of a resource handler: its result, the response as it leaves it if there is one, its
calls. -/
structure Handled where
  result : HandlerResult
  resp : CoapMessage
  calls : List Call

/-- The outcome of a notifier, which may send requests. -/
structure Notified where
  result : HandlerResult
  resp : CoapMessage
  requests : List ClientRequest

/-- What code and hardware outside the stack do.  A handler gets a null pointer when there is no memory
for the response; a notifier finds no observer behind the pointer when the observer was freed. -/
structure Env where
  alloc : Nat → Bool
  transmit : Nat → Bool
  handler : Nat → (pRes : Nat) → (pReq : CoapMessage) → (pResp : Option CoapMessage) → Handled
  notifier : Nat → (pRes : Nat) → Option CoapObserver → (pResp : CoapMessage) → Notified
  respCB : Nat → (pRespMsg : CoapMessage) → (sender : NetEp) → List Call

namespace CoapServer

def new (resources : List CoapResource) : CoapServer where
  pInteractions := []
  resources := resources.map fun resource => { resource with observers := [], updateCnt := 0 }
  mid := 0
  token := 0xFA
  interactions := 0
  observers := 0
  allocs := 0
  transmissions := 0
  callbacks := 0
  log := []

/-! ## Messages -/

def preferedPayloadSize : Nat := 64

/-- The next allocation. -/
def memGet (env : Env) (this : CoapServer) : Bool × CoapServer :=
  (env.alloc this.allocs, { this with allocs := this.allocs + 1 })

/-- `CoAP_GetNextMid`. -/
def getNextMid (this : CoapServer) : Nat × CoapServer :=
  let mid := this.mid + 1
  (mid.toNat, { this with mid, log := .nextMid mid.toNat :: this.log })

/-- `CoAP_GenerateToken`. -/
def generateToken (this : CoapServer) : UInt64 × CoapServer :=
  let token := this.token + 1
  (token, { this with token })

/-- `CoAP_CreateMessage` without initial content. -/
def createMessage (env : Env) (this : CoapServer) (type : MessageType) (code : UInt8) (messageID : Nat)
    (payloadMaxSize : Nat) (token : UInt64) : Option CoapMessage × CoapServer :=
  match this.memGet env with
  | (false, this) => (none, this)
  | (true, this) =>
    (some { timestamp := 0, type, code, messageID, payloadBufSize := payloadMaxSize, token64 := token
            options := [], payload := [] }, this)

/-- `CoAP_AllocRespMsg`: an acknowledgement with the id of a confirmable request, or a
non-confirmable message with an id of its own. -/
def allocRespMsg (env : Env) (this : CoapServer) (reqMsg : CoapMessage) (code : UInt8) (payloadMaxSize : Nat) :
    Option CoapMessage × CoapServer :=
  if reqMsg.type = .con then
    this.createMessage env .ack code reqMsg.messageID payloadMaxSize reqMsg.token64
  else
    let (messageID, this) := this.getNextMid
    this.createMessage env .non code messageID payloadMaxSize reqMsg.token64

/-- `CoAP_SendMsg`: whether it succeeds, and the message: an empty one loses its payload, and what was
sent has a new time stamp. -/
def sendMsg (env : Env) (this : CoapServer) (now : UInt32) (ia : Option CoapInteraction)
    (origin : Option NetPacket) (msg : CoapMessage) (ifID : UInt8) (receiver : NetEp) :
    Bool × CoapMessage × CoapServer :=
  let success := env.transmit this.transmissions
  let this := { this with transmissions := this.transmissions + 1 }
  let msg := if msg.code = empty then { msg with payload := [] } else msg
  if success then
    let msg := { msg with timestamp := now.toNat }
    (true, msg, { this with log := .sent ia origin ifID receiver msg :: this.log })
  else (false, msg, this)

/-- `CoAP_SendShortResp`, and with the code `EMPTY` `CoAP_SendEmptyAck` and `CoAP_SendEmptyRST`. -/
def sendShortResp (env : Env) (this : CoapServer) (now : UInt32) (ia : Option CoapInteraction)
    (origin : Option NetPacket) (type : MessageType) (code : UInt8) (messageID : Nat) (token : UInt64)
    (ifID : UInt8) (receiver : NetEp) : Bool × CoapServer :=
  let msg := { coapInitToEmptyResetMsg with type, code, messageID, token64 := token }
  match this.sendMsg env now ia origin msg ifID receiver with
  | (success, _, this) => (success, this)

/-- `CoAP_SendEmptyAck`. -/
def sendEmptyAck (env : Env) (this : CoapServer) (now : UInt32) (ia : CoapInteraction) (messageID : Nat) :
    Bool × CoapServer :=
  this.sendShortResp env now (some ia) ia.origin .ack empty messageID 0 ia.ifID ia.remoteEp

/-- `CoAP_MsgIsOlderThan`. -/
def msgIsOlderThan (now : UInt32) (msg : CoapMessage) (timespan : UInt32) : Bool :=
  now - UInt32.ofNat msg.timestamp > timespan

/-! ## The list -/

/-- `CoAP_AppendInteractionToList`. -/
def appendInteraction (this : CoapServer) (pIA : CoapInteraction) : CoapServer :=
  { this with pInteractions := this.pInteractions ++ [pIA] }

/-- A new interaction goes into the list, under the next number. -/
def startInteraction (this : CoapServer) (pIA : CoapInteraction) : CoapServer :=
  { this with interactions := this.interactions + 1 }.appendInteraction { pIA with ref := this.interactions }

/-- `CoAP_DeleteInteraction`. -/
def deleteInteraction (this : CoapServer) (ref : Nat) : CoapServer :=
  { this with pInteractions := this.pInteractions.eraseP fun pIA => pIA.ref = ref }

/-- `CoAP_EnqueueLastInteraction`: taken out and put at the end, with the fields it has by now. -/
def enqueueLastInteraction (this : CoapServer) (pIA : CoapInteraction) : CoapServer :=
  (this.deleteInteraction pIA.ref).appendInteraction pIA

/-- The fields of an interaction that stays where it is. -/
def storeInteraction (this : CoapServer) (pIA : CoapInteraction) : CoapServer :=
  { this with pInteractions := this.pInteractions.map fun other => if other.ref = pIA.ref then pIA else other }

def ackTimeout : UInt32 := 2

/-- `CoAP_EnableAckTimeout`. -/
def enableAckTimeout (now : UInt32) (pIA : CoapInteraction) (retryNum : Nat) : CoapInteraction :=
  { pIA with ackTimeout := now + Nat.repeat (fun waitTime => waitTime * ackTimeout) retryNum ackTimeout }

/-! ## Acknowledgements -/

/-- `CoAP_ApplyReliabilityStateToInteraction`: the interaction found, if one is. -/
def applyReliabilityState (this : CoapServer) (stateToAdd : ReliabilityState) (mID : Nat) (fromEp : NetEp) :
    Option CoapInteraction × CoapServer :=
  match this.pInteractions.find? fun pIA => pIA.awaits mID fromEp with
  | none => (none, this)
  | some pIA =>
    let pIA :=
      match pIA.role with
      | .client => { pIA with reqReliabilityState := stateToAdd }
      | _ => { pIA with respReliabilityState := stateToAdd }
    (some pIA, this.storeInteraction pIA)

/-! ## Starting interactions -/

/-- `CoAP_StartNewServerInteraction` on a message that is a request. -/
def startNewServerInteraction (env : Env) (this : CoapServer) (now : UInt32) (pMsgReq : CoapMessage)
    (pRes : Nat) (pckt : NetPacket) : CoapResult × CoapServer :=
  match this.pInteractions.find? fun pIA => pIA.isDuplicate pckt pMsgReq with
  | some pIA =>
    -- a postponed resource, whose empty acknowledgement may have been lost
    match pIA.pReqMsg with
    | some pReqMsg =>
      if pReqMsg.type = .con ∧ pIA.state = .resourcePostponeEmptyAckSent then
        (.errExisting, (this.sendEmptyAck env now pIA pReqMsg.messageID).2)
      else (.errExisting, this)
    | none => (.errExisting, this)
  | none =>
    match this.memGet env with
    | (false, this) => (.errOutOfMemory, this)
    | (true, this) =>
      (.ok, this.startInteraction (.serving pMsgReq pRes pckt))

/-- `CoAP_StartNewClientInteraction`. -/
def startNewClientInteraction (env : Env) (this : CoapServer) (pMsgReq : CoapMessage) (ifID : UInt8)
    (serverEp : NetEp) (cb : Bool) : CoapServer :=
  if pMsgReq.isRequest = false then this
  else
    match this.memGet env with
    | (false, this) => this
    | (true, this) =>
      this.startInteraction (.requesting pMsgReq ifID serverEp cb)

/-- `CoAP_StartNewGetRequest`. -/
def startNewGetRequest (env : Env) (this : CoapServer) (uriString : List UInt8) (ifID : UInt8)
    (serverEp : NetEp) (cb : Bool) : CoapServer :=
  let (messageID, this) := this.getNextMid
  let (token, this) := this.generateToken
  match this.createMessage env .con reqGet messageID 0 token with
  | (none, this) => this
  | (some pReqMsg, this) =>
    let list := appendUriOptionsFromString env.alloc ⟨pReqMsg.options, this.allocs⟩ uriString
    { this with allocs := list.allocs }.startNewClientInteraction env
      { pReqMsg with options := list.options } ifID serverEp cb

def perform (env : Env) (this : CoapServer) : ClientRequest → CoapServer
  | .interaction pMsgReq ifID serverEp cb => this.startNewClientInteraction env pMsgReq ifID serverEp cb
  | .get uriString ifID serverEp cb => this.startNewGetRequest env uriString ifID serverEp cb

/-! ## Notifications -/

def modifyResource (this : CoapServer) (pRes : Nat) (change : CoapResource → CoapResource) : CoapServer :=
  { this with resources := this.resources.modify pRes change }

/-- `CoAP_RemoveInteractionsObserver`. -/
def removeInteractionsObserver (this : CoapServer) (pIA : CoapInteraction) (token : UInt64) : CoapServer :=
  match pIA.pRes with
  | none => this
  | some pRes => this.modifyResource pRes fun resource => resource.removeObserver pIA.ifID pIA.remoteEp token

/-- A call of the notifier of a resource. -/
def callNotifier (env : Env) (this : CoapServer) (pRes : Nat) (pObserver : Option CoapObserver)
    (pResp : CoapMessage) : Notified × CoapServer :=
  let notified := env.notifier this.callbacks pRes pObserver pResp
  (notified, notified.requests.foldl (perform env) { this with callbacks := this.callbacks + 1 })

/-- One turn of the loop of `CoAP_StartNotifyInteractions`; `false` ends it.  The interaction of an
error response is neither queued nor freed. -/
def notifyObserver (env : Env) (this : CoapServer) (pRes : Nat) (resource : CoapResource)
    (pObserver : CoapObserver) : Bool × CoapServer :=
  match this.pInteractions.find? fun pIA => pIA.notifies pRes pObserver with
  | some pIA => (true, this.storeInteraction { pIA with updatePendingNotification := true })
  | none =>
    match this.memGet env with
    | (false, this) => (false, this)
    | (true, this) =>
      let (messageID, this) := this.getNextMid
      match this.createMessage env .con respSuccessContent messageID preferedPayloadSize pObserver.token with
      | (none, this) => (true, this)
      | (some pRespMsg, this) =>
        if resource.notifier = false then (true, this)
        else
          let (notified, this) := this.callNotifier env pRes (some pObserver) pRespMsg
          if notified.result ≠ .ok then (true, this)
          else
            if notified.resp.code ≥ respErrorBadRequest then
              (true, this.removeInteractionsObserver (.notifying pRes pObserver notified.resp)
                notified.resp.token64)
            else
              let (available, this) := this.memGet env
              let resp := addObserveOptionToMsg available notified.resp resource.updateCnt
              let resp := if resp.type = .non ∧ resource.updateCnt % 20 = 0 then { resp with type := .con } else resp
              (true, this.startInteraction (.notifying pRes pObserver resp))

def notifyLoop (env : Env) (pRes : Nat) (resource : CoapResource) : CoapServer → List CoapObserver → CoapServer
  | this, [] => this
  | this, pObserver :: rest =>
    match this.notifyObserver env pRes resource pObserver with
    | (false, this) => this
    | (true, this) => notifyLoop env pRes resource this rest

/-- `CoAP_StartNotifyInteractions`. -/
def startNotifyInteractions (env : Env) (this : CoapServer) (pRes : Nat) : CoapServer :=
  match this.resources[pRes]? with
  | none => this
  | some resource => notifyLoop env pRes resource this resource.observers

/-- `CoAP_NotifyResourceObservers`. -/
def notifyResourceObservers (env : Env) (this : CoapServer) (pRes : Nat) : CoapServer :=
  (this.modifyResource pRes fun resource => { resource with updateCnt := resource.updateCnt + 1 }).startNotifyInteractions
    env pRes

def call (env : Env) (this : CoapServer) : Call → CoapServer
  | .notify pRes => this.notifyResourceObservers env pRes
  | .request request => this.perform env request

/-! ## Observations -/

/-- The options of a request that an observer keeps; `none` when memory runs out. -/
def copyObserverOptions (env : Env) : CoapServer → List Opt → List Opt → Option (List Opt) × CoapServer
  | this, kept, [] => (some kept, this)
  | this, kept, option :: rest =>
    if option.number = optNumUriQuery ∨ option.number = optNumObserve then
      let (available, this) := this.memGet env
      match appendOptionToList available kept option with
      | (.ok, kept) => copyObserverOptions env this kept rest
      | _ => (none, this)
    else copyObserverOptions env this kept rest

/-- Registration: the old observer of the same key goes, the new one comes last. -/
def registerObserver (env : Env) (this : CoapServer) (pIA : CoapInteraction) (pRes : Nat) (pReqMsg : CoapMessage)
    (origin : NetPacket) : CoapResult × CoapServer :=
  match this.memGet env with
  | (false, this) => (.errOutOfMemory, this)
  | (true, this) =>
    let ref := this.observers
    match copyObserverOptions env { this with observers := this.observers + 1 } [] pReqMsg.options with
    | (none, this) => (.errOutOfMemory, this)
    | (some options, this) =>
      let pObserver : CoapObserver :=
        { ref, ep := pIA.remoteEp, ifID := pIA.ifID, token := pReqMsg.token64, options, origin }
      (.ok, this.modifyResource pRes fun resource =>
        (resource.removeObserver pIA.ifID pIA.remoteEp pReqMsg.token64).appendObserver pObserver)

/-- `CoAP_HandleObservationInReq` on an interaction with a request. -/
def handleObservationInReq (env : Env) (this : CoapServer) (pIA : CoapInteraction) (pRes : Nat)
    (pReqMsg : CoapMessage) (origin : NetPacket) : CoapResult × CoapServer :=
  match this.resources[pRes]? with
  | none => (.errArgument, this)
  | some resource =>
    if resource.notifier = false then (.errNotFound, this)
    else
      match getObserveOptionFromMsg pReqMsg with
      | none => (.notFound, this)
      | some obsVal =>
        if obsVal = observeOptRegister then this.registerObserver env pIA pRes pReqMsg origin
        else if obsVal = observeOptDeregister then
          let this := this.removeInteractionsObserver pIA pReqMsg.token64
          match this.pInteractions.find? fun pending => pending.isPendingFor pIA pReqMsg.token64 with
          | none => (.errNotFound, this)
          | some pending => (.errNotFound, this.deleteInteraction pending.ref)
        else (.badOptionVal, this)

end CoapServer

end SmingCoap.Server
