import Mathlib.Logic.Function.Basic
import SmingCoap.Client.Builder
import SmingCoap.Client.Queue

/-! # The client

`CoapClient` and `CoapRequest`: requests and their connections, the
retransmission queue, the callbacks and the timer, and one step for each thing
that can happen to them.  The clock, the random numbers, name resolution,
connecting, allocation and the requests a callback makes come with the event.

A step without a result is one the program does not survive: a null pointer is
read, or a datagram is sent over a connection that was closed.
-/

namespace SmingCoap

open Wire (Memory)

def sysTimeMax : Nat := 0xFFFFFFFF / 1000

def coapDefaultResponseTimeout : Nat := 2
def coapDefaultMaxRetransmit : Nat := 4
def coapTicksPerSecond : Nat := 1000
def coapDefaultPort : UInt16 := 5683

/-! ## Requests -/

/-- `CoapRequest`; `closed` says that `UdpConnection::close` has freed the connection. -/
structure CoapRequest where
  remoteIp : UInt32
  remotePort : UInt16
  tid : CoapTid
  connected : Bool
  closed : Bool

/-- `CoapRequest::sendPDU`; `connects` is the outcome of `connect`.  The connection has the endpoint
of the request. -/
def CoapRequest.sendPDU (this : CoapRequest) (connects : Bool) (pdu : CoapPDU) : Option CoapRequest :=
  let tid := createTransactionID this.remoteIp this.remotePort.toUInt32 pdu
  if this.connected = false then
    if connects then some { this with connected := true, closed := false, tid }
    else some { this with tid }
  else if this.closed then none
  else some { this with tid }

/-- A request that was made, with the PDU it was made for. -/
structure Issued where
  request : CoapRequest
  pdu : CoapPDU

/-- What `dns_gethostbyname` answers. -/
inductive DnsResult where
  | ok (ip : UInt32)
  | inProgress
  | error

/-- A call of `CoapClient::request`: its arguments, the URL already taken apart, and what its
surroundings do. -/
structure RequestCall where
  connType : CoapPDU.MessageType
  method : UInt8
  host : List UInt8
  port : UInt16
  pathWithQuery : List UInt8
  format : Nat
  payload : List UInt8
  dns : DnsResult
  block : Nat
  memory : Memory
  heap : Heap
  /-- `coapAllocNode` succeeds. -/
  nodeAvailable : Bool
  connects : Bool
  rand : Nat
  now : Nat

/-! ## State -/

/-- What can be observed: a transmission of a request's PDU, and a call of a request's callback. -/
inductive Effect where
  | sent (req : Nat) (time : Nat)
  | called (req : Nat) (successful : Bool) (pdu : CoapPDU)

structure CoapClient where
  pQueue : List CoapQueueNode
  messageID : UInt16
  /-- The map from transaction ids to callbacks, each named by the request it was passed with. -/
  callbacks : CoapTid → Option Nat
  /-- When the one-shot timer is due. -/
  retransmissionTimer : Option Nat
  basetime : Nat
  /-- All requests so far; a request is its place in the list. -/
  requests : List Issued
  /-- What was observed so far, the latest first. -/
  log : List Effect

namespace CoapClient

/-- `CoapClient()`, with the random first message id. -/
def new (messageID : UInt16) : CoapClient where
  pQueue := []
  messageID := messageID
  callbacks := fun _ => none
  retransmissionTimer := none
  basetime := 0
  requests := []
  log := []

/-! ## Timer -/

def timerRestart (this : CoapClient) (now : Nat) : CoapClient :=
  match this.pQueue with
  | [] => this
  | first :: _ => { this with retransmissionTimer := some (now + first.t) }

def timerStop (this : CoapClient) : CoapClient := { this with retransmissionTimer := none }

/-- The time since `basetime`, which moves to `now`. -/
def timerElapsed (this : CoapClient) (now : Nat) : Nat × CoapClient :=
  (if now ≥ this.basetime then now - this.basetime else now + sysTimeMax - this.basetime,
    { this with basetime := now })

def timerUpdate (this : CoapClient) (now : Nat) : CoapClient :=
  let (diff, this) := this.timerElapsed now
  match this.pQueue with
  | [] => this
  | first :: rest =>
    { this with pQueue := { first with t := if first.t ≥ diff then first.t - diff else 0 } :: rest }

/-! ## Requests -/

/-- The randomized timeout of a confirmable PDU, and the plain one of any other. -/
def responseTimeout (pdu : CoapPDU) (rand : Nat) : Nat :=
  if pdu.getType = .confirmable then
    coapDefaultResponseTimeout * coapTicksPerSecond +
      (coapDefaultResponseTimeout >>> 1) * ((coapTicksPerSecond * (rand &&& 0xFF)) >>> 8)
  else coapDefaultResponseTimeout * coapTicksPerSecond

/-- `req.sendPDU(pdu)` on a request of the list, at a certain time. -/
def sendPDU (this : CoapClient) (req : Nat) (connects : Bool) (now : Nat) (pdu : CoapPDU) :
    Option (CoapTid × CoapClient) := do
  let issued ← this.requests[req]?
  let request ← issued.request.sendPDU connects pdu
  some (request.tid, { this with
    requests := this.requests.set req { issued with request }
    log := .sent req now :: this.log })

/-- Sends the PDU and queues it. -/
def doRequest (this : CoapClient) (req : Nat) (pdu : CoapPDU) (call : RequestCall) :
    Option (CoapTid × CoapClient) :=
  if call.nodeAvailable = false then some (coapInvalidTid, this)
  else do
    let timeout := responseTimeout pdu call.rand
    let (id, this) ← this.sendPDU req call.connects call.now pdu
    let this := this.timerStop.timerUpdate call.now
    let node : CoapQueueNode := { t := timeout, retransmitCnt := 0, timeout, id, pdu, req }
    let this := { this with pQueue := coapAddNode this.pQueue node }
    some (id, this.timerRestart call.now)

def request (this : CoapClient) (call : RequestCall) : Option CoapClient :=
  let connType :=
    if call.connType ≠ .confirmable ∧ call.connType ≠ .nonConfirmable then .confirmable
    else call.connType
  let port := if call.port = 80 then coapDefaultPort else call.port
  if call.host.length = 0 then some this
  else
    match call.dns with
    | .ok resolvedIP => do
      let (pdu, messageID) := builPDU call.block call.memory call.heap this.messageID connType
        call.method call.pathWithQuery call.format call.payload
      let req := this.requests.length
      let issued : Issued :=
        ⟨{ remoteIp := resolvedIP, remotePort := port, tid := coapInvalidTid, connected := false
           closed := false }, pdu⟩
      let this := { this with messageID, requests := this.requests ++ [issued] }
      let (tid, this) ← this.doRequest req pdu call
      some { this with callbacks := Function.update this.callbacks tid (some req) }
    | _ => some this

/-! ## Responses and expiry -/

/-- The callback of a request is called, and makes requests of its own. -/
def callback (this : CoapClient) (req : Nat) (successful : Bool) (pdu : CoapPDU)
    (nested : List RequestCall) : Option CoapClient :=
  nested.foldlM request { this with log := .called req successful pdu :: this.log }

/-- `request->close()`. -/
def close (this : CoapClient) (req : Nat) : CoapClient :=
  { this with
    requests := this.requests.modify req fun issued =>
      { issued with request := { issued.request with closed := true } } }

def onResponse (this : CoapClient) (successful : Bool) (req : Nat) (pdu : CoapPDU) (now : Nat)
    (nested : List RequestCall) : Option CoapClient := do
  let issued ← this.requests[req]?
  let tid := issued.request.tid
  if successful = false then some this
  else
    match ← coapGetNodeById this.pQueue tid with
    | some _ =>
      let this := this.timerStop
      let this ←
        match this.callbacks tid with
        | some callback => do
          let this ← this.callback callback true pdu nested
          let this := { this with callbacks := Function.update this.callbacks tid none }
          let this := this.close req
          some { this with pQueue := coapRemoveNode this.pQueue tid }
        | none => some this
      some ((this.timerUpdate now).timerRestart now)
    | none => some this

/-- `CoapRequest::onReceive`: only a valid PDU is passed on as a response. -/
def onReceive (this : CoapClient) (req : Nat) (payload : Memory) (totLen : Nat) (now : Nat)
    (nested : List RequestCall) : Option CoapClient :=
  match (CoapPDU.ofBytes 0 payload totLen).validate with
  | (valid, recvPDU) =>
    if valid ≠ 1 then this.onResponse false req recvPDU now nested
    else this.onResponse true req recvPDU now nested

/-- The callback of a request that got no answer. -/
def inform (this : CoapClient) (node : CoapQueueNode) (nested : List RequestCall) : Option CoapClient :=
  match this.callbacks node.id with
  | some callback => this.callback callback false node.pdu nested
  | none => some this

def timerTick (this : CoapClient) (now : Nat) (connects : Bool) (nested : List RequestCall) :
    Option CoapClient :=
  match this.pQueue with
  | [] => none
  | node :: rest => do
    let this := { this with pQueue := rest }
    let this ←
      if node.pdu.getType = .nonConfirmable then this.inform node nested
      else if node.retransmitCnt < coapDefaultMaxRetransmit then do
        let retransmitCnt := node.retransmitCnt + 1
        let (id, this) ← this.sendPDU node.req connects now node.pdu
        let node := { node with retransmitCnt, t := node.timeout <<< retransmitCnt, id }
        if node.id = coapInvalidTid then some this
        else some { this with pQueue := coapAddNode this.pQueue node }
      else this.inform node nested
    some (this.timerRestart now)

/-! ## Steps -/

inductive Event where
  | request (call : RequestCall)
  /-- A datagram on the connection of a request; `nested` are the requests the callback makes. -/
  | datagram (req : Nat) (payload : Memory) (totLen : Nat) (now : Nat) (nested : List RequestCall)
  /-- The timer fires. -/
  | tick (now : Nat) (connects : Bool) (nested : List RequestCall)

/-- A datagram arrives over an open connection, and the timer fires when it is armed. -/
def step (this : CoapClient) : Event → Option CoapClient
  | .request call => this.request call
  | .datagram req payload totLen now nested => do
    let issued ← this.requests[req]?
    if issued.request.closed then none else this.onReceive req payload totLen now nested
  | .tick now connects nested =>
    match this.retransmissionTimer with
    | none => none
    | some _ => this.timerStop.timerTick now connects nested

end CoapClient

end SmingCoap
