import SmingCoap.Client.ConnectionSoundness
import SmingCoap.ResponseAgreement
import SmingCoap.Server.Engine
import SmingCoap.Server.PackSoundness

/-! # A client and a server

Both engines, with a network between them that may lose, repeat and reorder
whatever they send.  The logs of the two say what was ever sent, so a datagram
arrives as long as it is in the log of the other side.  The server sees a
connection of the client as the endpoint that its packets come from;
`connection` leads back from there.
-/

namespace SmingCoap

open Wire (Memory)

structure Exchange where
  client : CoapClient
  server : Server.CoapServer

namespace Exchange

def new (messageID : UInt16) (resources : List Server.CoapResource) : Exchange where
  client := .new messageID
  server := .new resources

inductive Event where
  | client (event : CoapClient.Event)
  | server (event : Server.CoapServer.Event)

/-- One of the two takes a step. -/
def step (env : Server.Env) (this : Exchange) : Event → Option Exchange
  | .client event => (this.client.step event).map fun client => { this with client }
  | .server event => (this.server.step env event).map fun server => { this with server }

/-! ## What goes over the network -/

/-- The limits on the call of a request within which the server's parser reads what is built. -/
structure Buildable (call : RequestCall) : Prop where
  granted : ∀ i, call.heap i ≠ none
  known : call.method ∈ [CoapPDU.get, CoapPDU.post, CoapPDU.put, CoapPDU.delete]
  short : ∀ option ∈ CoapPDU.uriOptions call.pathWithQuery, option.value.length ≤ Server.maxOptionValueSize
  payloadSize : call.payload.length ≤ Server.maxPayloadSize

/-- The packet holds what the client sent for a request. -/
def FromClient (client : CoapClient) (req : Nat) (pckt : Server.NetPacket) : Prop :=
  ∃ request time, client.pdus[req]? = some request ∧ .sent req time ∈ client.log ∧
    pckt.data.Holds 0 request.bytes ∧ pckt.size.toNat = request.pduLength

/-- A datagram that goes out for a message, whatever was in the buffer before. -/
def IsDatagramOf (payload : Memory) (totLen : Nat) (msg : Server.CoapMessage) : Prop :=
  ∃ destArr, totLen = (Server.coapBuildDatagram destArr msg).2.1 ∧
    payload.Holds 0 ((Server.coapBuildDatagram destArr msg).1.bytes 0 totLen)

section
variable (connection : Server.NetEp → Option Nat)

/-- The server sent the message to the endpoint of a connection. -/
def SentTo (server : Server.CoapServer) (req : Nat) (msg : Server.CoapMessage) : Prop :=
  ∃ ia origin ifID receiver, .sent ia origin ifID receiver msg ∈ server.log ∧ connection receiver = some req

/-- The connection of a request leads to the server. -/
def Connected (req : Nat) : Prop := ∃ ep, connection ep = some req

/-- What a callback is told came from the server. -/
def Told (server : Server.CoapServer) (req : Nat) (pdu : CoapPDU) : Prop :=
  Connected connection req → ∃ msg payload totLen, SentTo connection server req msg ∧ IsDatagramOf payload totLen msg ∧
    pdu ∈ CoapClient.accepted payload totLen

/-- The client's requests get unused ids, and can be built; what arrives over a connection was sent by the other
side. -/
def Delivers (this : Exchange) : Event → Prop
  | .client event => this.client.UnusedIds event ∧ (∀ call ∈ event.calls, Buildable call) ∧
    match event with
    | .datagram req payload totLen _ _ =>
      Connected connection req → ∃ msg, SentTo connection this.server req msg ∧ IsDatagramOf payload totLen msg
    | _ => True
  | .server (.packet pckt _) => ∀ req, connection pckt.sender = some req → FromClient this.client req pckt
  | .server _ => True

end

end Exchange

end SmingCoap
