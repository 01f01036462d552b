import SmingCoap.Exchange
import SmingCoap.Server.AttributionSoundness
import SmingCoap.Server.EchoSoundness
import SmingCoap.Server.PairingSoundness

/-! # Requests and their answers, end to end

Nothing that the client and the server check ties a response to a request; what
does is that both codecs say the same, that the server answers from the request
it was sent, and that a connection belongs to one request.  The invariant of the
pair says what is in flight: each packet the server took in was built by the
client (`Linked.taken`), and each PDU a callback was told of by the server
(`Linked.owned`).
-/

namespace SmingCoap

open Transition (Run)
open Wire (Memory Opt)

namespace Exchange

/-! ## Requests on the wire -/

/-- A PDU that the client built, and how the server reads it. -/
structure Request (pdu : CoapPDU) : Prop where
  token : pdu.getToken = CoapPDU.requestToken
  reads : ∀ (alloc : Nat → Bool) (now : Nat) (received : Memory) (length : UInt16) (msg : Server.CoapMessage),
    received.Holds 0 pdu.bytes → length.toNat = pdu.pduLength →
    Server.coapParseMessageFromDatagram alloc now received length.toNat = some (.ok, some msg) → ReadAs pdu msg

theorem request_of_buildable (messageID : UInt16) {call : RequestCall} (buildable : Buildable call) :
    Request (CoapClient.requestPDU messageID call) := by
  obtain ⟨connType, connTypeEq⟩ : ∃ connType, connType =
      if call.connType ≠ .confirmable ∧ call.connType ≠ .nonConfirmable then .confirmable else call.connType := ⟨_, rfl⟩
  rw [CoapClient.requestPDU, ← connTypeEq]
  obtain ⟨options, some_, ascending, representable, values, carries⟩ :=
    builPDU_carries call.block call.memory messageID connType call.method call.format call.payload
      buildable.granted buildable.short
  have fits := @CoapPDU.requestMessage_fits messageID connType call.method options call.payload ascending representable
  have limits : Server.WithinLimits (CoapPDU.requestMessage messageID connType call.method options call.payload) :=
    ⟨method_not_reserved buildable.known, values, buildable.payloadSize⟩
  obtain ⟨pdu, pduEq⟩ : ∃ pdu, (builPDU call.block call.memory call.heap messageID connType call.method
      call.pathWithQuery call.format call.payload).1 = pdu := ⟨_, rfl⟩
  rw [pduEq] at carries ⊢
  refine ⟨carries.getToken_eq ascending representable, ?_⟩
  intro alloc now received length msg holds size accepts
  have lengthEq := size.trans carries.length_eq
  have bound := length.toNat_lt
  rw [CoapPDU.bytes, carries.holds.eq_bytes carries.length_eq.symm] at holds
  have parsed := Server.parse_of_message now (fun _ => rfl) fits limits (.inl some_) (by omega) holds
  -- memory makes no difference to a packet that was taken
  have same := Server.parse_of_ok accepts
  rw [lengthEq, parsed] at same
  cases same
  refine ⟨?_, ?_, ?_, ?_, ?_, ?_⟩
  · rw [carries.getType_eq]
    exact ofBits_toByte connType
  · rw [carries.getCode_eq]
    rfl
  · rw [carries.getMessageID_eq ascending representable]
    rfl
  · rw [carries.getToken_eq ascending representable]
    rfl
  · rw [carries.readOptions_eq ascending representable]
    rfl
  · exact carries.payload_eq.symm

/-! ## Responses on the wire -/

/-- The client has the code among its own, and the datagram holds all that the message says. -/
structure Expressible (msg : Server.CoapMessage) : Prop where
  known : msg.code ∈ Server.messageCodes
  typed : Server.WellTyped msg
  size : (Server.wireMessage (Server.sentMessage msg)).encode.length ≤ 65535

theorem sentMessage_fields (msg : Server.CoapMessage) : (Server.sentMessage msg).code = msg.code ∧
    (Server.sentMessage msg).messageID = msg.messageID ∧ (Server.sentMessage msg).options = msg.options := by
  rw [Server.sentMessage]
  split
  · exact ⟨rfl, rfl, rfl⟩
  · exact ⟨rfl, rfl, rfl⟩

/-- What `validate` makes of the encoding of a message reads as the message. -/
theorem readBack_of_holds {payload : Memory} {msg : Server.CoapMessage} {pdu : CoapPDU}
    (parses : CoapPDU.Parses (Server.wireMessage msg).encode (Server.wireMessage msg))
    (holds : payload.Holds 0 (Server.wireMessage msg).encode)
    (told : pdu ∈ CoapClient.accepted payload (Server.wireMessage msg).encode.length) : ReadBack pdu msg := by
  have facts := parses.validate holds 0
  simp only [CoapClient.accepted, facts, if_true, Option.mem_def, Option.some.injEq] at told
  rw [told] at facts
  have validated : pdu.Validated := ⟨CoapPDU.ofBytes 0 payload _, .ofBuffer .., facts⟩
  rw [CoapPDU.ofBytes_of_ne parses.ne_nil] at told
  have bytesEq : pdu.bytes = (Server.wireMessage msg).encode := by
    rw [← told, CoapPDU.bytes]
    exact holds.eq_bytes rfl
  have valid := validated.valid (bytesEq.symm ▸ parses)
  refine ⟨?_, valid.getCode_eq, valid.getMessageID_eq, valid.getToken_eq, valid.readOptions_eq, ?_,
    valid.payloadLength_eq, ?_⟩
  · rw [valid.getType_eq]
    exact receivedType_ofBits msg.type
  · rw [← told]
    rfl
  · by_cases filled : msg.payload = []
    · rw [CoapPDU.getPayload, ← told]
      simp only [Server.wireMessage, filled, if_true]
    · exact valid.payload_eq filled

/-- A datagram of a message that can be expressed reads as what is sent of the message. -/
theorem accepted_readBack {payload : Memory} {totLen : Nat} {msg : Server.CoapMessage} {pdu : CoapPDU}
    (expressible : Expressible msg) (datagram : IsDatagramOf payload totLen msg)
    (told : pdu ∈ CoapClient.accepted payload totLen) : ReadBack pdu (Server.sentMessage msg) := by
  obtain ⟨code, messageID, options⟩ := sentMessage_fields msg
  have typed : Server.WellTyped (Server.sentMessage msg) := by
    refine ⟨?_, ?_, ?_⟩
    · rw [messageID]
      exact expressible.typed.messageID
    · rw [options]
      exact expressible.typed.numbers
    · rw [options]
      exact expressible.typed.sorted
  have packed := Server.packedMessage_eq typed.ascending (typed.representable expressible.size)
  obtain ⟨destArr, length, holds⟩ := datagram
  obtain ⟨arrayEq, lengthEq⟩ := Server.coapBuildDatagram_eq destArr msg
  obtain ⟨size, written, _⟩ := Server.buildMessage_spec destArr (Server.sentMessage msg)
    (by rw [packed]; exact expressible.size)
  rw [packed] at size written
  rw [lengthEq, size] at length
  subst length
  rw [arrayEq, written.eq_bytes rfl] at holds
  refine readBack_of_holds ⟨typed.fits expressible.size, Server.validCode_of_mem ?_, rfl⟩ holds told
  rw [show (Server.wireMessage (Server.sentMessage msg)).code = msg.code from code]
  exact expressible.known

/-! ## The invariant -/

section
variable (connection : Server.NetEp → Option Nat)

/-- What the client holds came from the server, and what the server holds from the client. -/
structure Linked (this : Exchange) : Prop where
  owned : this.client.Owned (Told connection this.server)
  built : ∀ pdu ∈ this.client.pdus, Request pdu
  taken : ∀ pckt asked req, .received pckt asked ∈ this.server.log → connection pckt.sender = some req →
    FromClient this.client req pckt

variable {connection} {env : Server.Env} {resources : List Server.CoapResource} {this after : Exchange}

theorem FromClient.grow {client later : CoapClient} {req : Nat} {pckt : Server.NetPacket}
    {calls : List RequestCall} (sent : FromClient client req pckt) (grows : CoapClient.Grows calls client later) :
    FromClient later req pckt := by
  obtain ⟨request, time, found, logged, holds, size⟩ := sent
  exact ⟨request, time, CoapClient.found_in_longer grows.pdus found, grows.log logged, holds, size⟩

theorem Told.grow {server later : Server.CoapServer} {req : Nat} {pdu : CoapPDU} (told : Told connection server req pdu)
    (log : server.log ⊆ later.log) : Told connection later req pdu := by
  intro connected
  obtain ⟨msg, payload, totLen, ⟨ia, origin, ifID, receiver, sent, here⟩, rest⟩ := told connected
  exact ⟨msg, payload, totLen, ⟨ia, origin, ifID, receiver, log sent, here⟩, rest⟩

theorem Linked.client {event : CoapClient.Event} {client : CoapClient} (linked : Linked connection this)
    (delivers : Delivers connection this (.client event)) (taken : this.client.step event = some client) :
    Linked connection { this with client } := by
  obtain ⟨unused, buildable, arrives⟩ := delivers
  have grows := CoapClient.step_grows taken
  refine ⟨CoapClient.step_owned linked.owned unused ?_ taken, ?_, ?_⟩
  · cases event with
    | datagram req payload totLen now nested =>
      intro pdu accepted connected
      obtain ⟨msg, sent, datagram⟩ := arrives connected
      exact ⟨msg, payload, totLen, sent, datagram, accepted⟩
    | request => trivial
    | tick => trivial
  · intro pdu member
    rcases grows.built pdu member with earlier | ⟨messageID, call, made, rfl⟩
    · exact linked.built pdu earlier
    · exact request_of_buildable messageID (buildable call made)
  · intro pckt asked req received here
    exact (linked.taken pckt asked req received here).grow grows

theorem Linked.server {event : Server.CoapServer.Event} {server : Server.CoapServer} (linked : Linked connection this)
    (reaches : Server.CoapServer.Reaches env resources this.server)
    (delivers : Delivers connection this (.server event)) (taken : this.server.step env event = some server) :
    Linked connection { this with server } := by
  have logs := Server.CoapServer.step_logs reaches taken
  refine ⟨linked.owned.weaken fun req pdu told => told.grow logs.subset, linked.built, ?_⟩
  intro pckt asked req received here
  rcases logs.mem received with new | old
  · -- a packet is noted when it arrives, and not otherwise
    cases event with
    | packet arrived now =>
      rcases new with ⟨msg, same, _⟩ | ⟨_, _, own⟩ | own
      · cases same
        exact delivers req here
      · exact own.elim
      · exact own.elim
    | doWork => exact new.elim
    | call => exact new.elim
  · exact linked.taken pckt asked req old here

theorem run_linked {messageID : UInt16} (run : Run (step env) (Delivers connection) (new messageID resources) this) :
    Server.CoapServer.Reaches env resources this.server ∧ Linked connection this := by
  induction run with
  | refl =>
    refine ⟨.refl, CoapClient.new_owned messageID, ?_, ?_⟩
    · exact fun _ member => absurd member List.not_mem_nil
    · exact fun _ _ _ received => absurd received List.not_mem_nil
  | next _ event delivers taken inductionHypothesis =>
    obtain ⟨reaches, linked⟩ := inductionHypothesis
    cases event with
    | client event =>
      obtain ⟨client, steps, rfl⟩ := Option.map_eq_some_iff.mp taken
      exact ⟨reaches, linked.client delivers steps⟩
    | server event =>
      obtain ⟨server, steps, rfl⟩ := Option.map_eq_some_iff.mp taken
      exact ⟨.next reaches event trivial steps, linked.server reaches delivers steps⟩

theorem received_accepts {server : Server.CoapServer} (reaches : Server.CoapServer.Reaches env resources server)
    {pckt : Server.NetPacket} {asked : Server.CoapMessage} (received : .received pckt asked ∈ server.log) :
    ∃ alloc now, Server.coapParseMessageFromDatagram alloc now pckt.data pckt.size.toNat = some (.ok, some asked) := by
  induction reaches with
  | refl => cases received
  | next before event _ taken inductionHypothesis =>
    rcases (Server.CoapServer.step_logs before taken).mem received with new | old
    · cases event with
      | packet arrived now =>
        rcases new with ⟨msg, same, parsed⟩ | ⟨_, _, own⟩ | own
        · cases same
          exact Server.CoapServer.parsePacket_accepts parsed
        · exact own.elim
        · exact own.elim
      | doWork => exact new.elim
      | call => exact new.elim
    · exact inductionHypothesis old

/-- A packet that the server took in from a connection says what the request there does. -/
theorem Linked.reads (linked : Linked connection this) (reaches : Server.CoapServer.Reaches env resources this.server)
    {pckt : Server.NetPacket} {asked : Server.CoapMessage} {req : Nat}
    (received : .received pckt asked ∈ this.server.log) (here : connection pckt.sender = some req) :
    ∃ request, this.client.pdus[req]? = some request ∧ (∃ time, .sent req time ∈ this.client.log) ∧
      Request request ∧ ReadAs request asked := by
  obtain ⟨request, time, found, sent, holds, size⟩ := linked.taken pckt asked req received here
  have built := linked.built request (List.mem_of_getElem? found)
  obtain ⟨alloc, now, accepts⟩ := received_accepts reaches received
  exact ⟨request, found, ⟨time, sent⟩, built, built.reads alloc now pckt.data pckt.size asked holds size accepts⟩

end

/-! ## A run -/

open Server.CoapServer (neighbour sensor datagram idealEnv preferedPayloadSize)

/-- A confirmable GET for `/a`. -/
def pathGet : RequestCall := { CoapClient.rootGet .confirmable 1 0 with pathWithQuery := [0x2F, 0x61] }

def pathGetBytes : List UInt8 := [0x44, 0x01, 0x00, 0x00, 0x03, 0x02, 0x01, 0x01, 0xB1, 0x61, 0x10]

/-- The answer to it. -/
def pathAnswer : Server.CoapMessage :=
  ⟨0, .ack, Server.respSuccessContent, 0, preferedPayloadSize, 0x01010203, [], []⟩

def pathAnswerBytes : Memory := fun i => [0x64, 0x45, 0x00, 0x00, 0x03, 0x02, 0x01, 0x01].getD i 0

/-- The first connection of the client is the neighbour of the server. -/
def firstConnection (ep : Server.NetEp) : Option Nat := if ep = neighbour then some 0 else none

/-- The messages that were sent, to whom, and whether for an observer. -/
def messages (server : Server.CoapServer) : List (Bool × Server.NetEp × Server.CoapMessage) :=
  server.log.filterMap fun effect =>
    match effect with
    | .sent ia _ _ receiver msg => some (ia.any (fun pIA => pIA.role = .notification), receiver, msg)
    | _ => none

theorem mem_messages {server : Server.CoapServer} {notifies : Bool} {receiver : Server.NetEp}
    {msg : Server.CoapMessage} : (notifies, receiver, msg) ∈ messages server ↔ ∃ ia origin ifID,
      .sent ia origin ifID receiver msg ∈ server.log ∧ ia.any (fun pIA => pIA.role = .notification) = notifies := by
  rw [messages, List.mem_filterMap]
  constructor
  · rintro ⟨effect, member, same⟩
    split at same
    next ia origin ifID receiver msg =>
      cases same
      exact ⟨ia, origin, ifID, member, rfl⟩
    next => cases same
  · rintro ⟨ia, origin, ifID, member, rfl⟩
    exact ⟨_, member, rfl⟩

/-- The first request was sent. -/
def firstSent (this : Exchange) : Bool :=
  this.client.log.any fun effect =>
    match effect with
    | .sent 0 0 => true
    | _ => false

/-- Its callback was told of a response, and a handler called for the neighbour. -/
def firstTold (this : Exchange) : Bool :=
  (this.client.log.any fun effect =>
    match effect with
    | .called 0 true pdu => Server.reqDelete < pdu.getCode
    | _ => false) &&
  this.server.log.any fun effect =>
    match effect with
    | .handled pIA _ => pIA.remoteEp = neighbour
    | _ => false

/-- The request goes out, is handled and answered, and the answer comes in. -/
theorem path_exchanged : ∃ this, Run (step idealEnv) (Delivers firstConnection) (new 0 [sensor]) this ∧
    this.client.pdus.map CoapPDU.getType = [.confirmable] ∧
    messages this.server = [(false, neighbour, pathAnswer)] ∧ firstTold this = true := by
  have runs : ((step idealEnv (new 0 [sensor]) (.client (.request pathGet))).bind fun requested =>
      (step idealEnv requested (.server (.packet (datagram 0 pathGetBytes) 0))).bind fun received =>
      (step idealEnv received (.server (.doWork 0))).bind fun answered =>
      (step idealEnv answered (.client (.datagram 0 pathAnswerBytes 8 0 []))).map fun told =>
        (decide ((requested.client.pdus.map fun pdu => (pdu.bytes, pdu.pduLength)) = [(pathGetBytes, 11)]) &&
          firstSent requested) && decide (messages answered.server = [(false, neighbour, pathAnswer)]) &&
          (decide (told.client.pdus.map CoapPDU.getType = [.confirmable]) &&
            decide (messages told.server = [(false, neighbour, pathAnswer)]) && firstTold told)) = some true := by
    decide +kernel
  obtain ⟨requested, first, runs⟩ := Option.bind_eq_some_iff.mp runs
  obtain ⟨received, second, runs⟩ := Option.bind_eq_some_iff.mp runs
  obtain ⟨answered, third, runs⟩ := Option.bind_eq_some_iff.mp runs
  obtain ⟨told, fourth, facts⟩ := Option.map_eq_some_iff.mp runs
  simp only [Bool.and_eq_true, decide_eq_true_eq] at facts
  obtain ⟨⟨⟨built, isSent⟩, answers⟩, ⟨types, sentAll⟩, isTold⟩ := facts
  have builds : Buildable pathGet := ⟨fun _ => Option.some_ne_none _, by decide, by decide, by decide⟩
  refine ⟨told, ?_, types, sentAll, isTold⟩
  refine .next (.next (.next (.next .refl _ ?_ first) _ ?_ second) (.server (.doWork 0)) trivial third) _ ?_ fourth
  · exact ⟨⟨fun _ _ => List.not_mem_nil, trivial⟩, by simpa [CoapClient.Event.calls] using builds, trivial⟩
  · intro req here
    obtain rfl : req = 0 := by simpa [firstConnection, datagram] using here.symm
    obtain ⟨effect, member, isSent⟩ := List.any_eq_true.mp isSent
    obtain ⟨request, pdus, same⟩ := List.map_eq_singleton_iff.mp built
    simp only [Prod.mk.injEq] at same
    split at isSent
    next =>
      refine ⟨request, 0, by rw [pdus]; rfl, member, ?_, same.2.symm⟩
      rw [same.1, Memory.Holds]
      decide +kernel
    next => cases isSent
  · refine ⟨trivial, fun _ made => absurd made List.not_mem_nil, fun _ => ⟨pathAnswer, ?_, ?_⟩⟩
    · obtain ⟨ia, origin, ifID, member, _⟩ := mem_messages.mp (answers ▸ List.mem_singleton_self _)
      exact ⟨ia, origin, ifID, neighbour, member, if_pos rfl⟩
    · refine ⟨fun _ => 0, by decide +kernel, ?_⟩
      rw [Memory.Holds]
      decide +kernel

/-! ## Requests -/

/-- Whatever was lost, repeated or reordered: a handler is called only for a request that the client sent, and reads
what the client built. -/
theorem requests_handled (env : Server.Env) (resources : List Server.CoapResource) (messageID : UInt16)
    (connection : Server.NetEp → Option Nat) (this : Exchange)
    (run : Run (step env) (Delivers connection) (new messageID resources) this) (pIA : Server.CoapInteraction)
    (asked : Server.CoapMessage) (handled : .handled pIA asked ∈ this.server.log) (req : Nat)
    (here : connection pIA.remoteEp = some req) :
    ∃ request, this.client.pdus[req]? = some request ∧ (∃ time, .sent req time ∈ this.client.log) ∧
      ReadAs request asked := by
  obtain ⟨reaches, linked⟩ := run_linked run
  obtain ⟨later, earlier, split⟩ := List.append_of_mem handled
  have noted := ((Server.CoapServer.originated_stable env resources).holds reaches).effects
  rw [split] at noted
  obtain ⟨pckt, received, sender⟩ := noted.split
  rw [sender] at here
  have received : .received pckt asked ∈ this.server.log := by
    rw [split]
    exact List.mem_append_right _ (List.mem_cons_of_mem _ received)
  obtain ⟨request, found, sent, _, reads⟩ := linked.reads reaches received here
  exact ⟨request, found, sent, reads⟩

/-- The request of the run is handled as it was built. -/
theorem requests_handled_path : ∃ this, Run (step idealEnv) (Delivers firstConnection) (new 0 [sensor]) this ∧
    ∃ pIA asked request, .handled pIA asked ∈ this.server.log ∧ this.client.pdus[0]? = some request ∧
      ReadAs request asked := by
  obtain ⟨this, run, _, _, isTold⟩ := path_exchanged
  rw [firstTold, Bool.and_eq_true] at isTold
  obtain ⟨effect, handled, isHandled⟩ := List.any_eq_true.mp isTold.2
  split at isHandled
  next pIA asked =>
    have here : firstConnection pIA.remoteEp = some 0 := if_pos (of_decide_eq_true isHandled)
    obtain ⟨request, found, _, reads⟩ := requests_handled idealEnv [sensor] 0 firstConnection this run pIA asked handled
      0 here
    exact ⟨this, run, pIA, asked, request, handled, found, reads⟩
  next => cases isHandled

/-! ## Answers -/

/-- The message was sent for an observer. -/
def IsNotification (ia : Option Server.CoapInteraction) : Prop := ∃ pIA, ia = some pIA ∧ pIA.role = .notification

section
open Server.CoapServer

variable {env : Server.Env} {resources : List Server.CoapResource} {server : Server.CoapServer}
  {ia : Option Server.CoapInteraction} {origin : Option Server.NetPacket} {ifID : UInt8} {receiver : Server.NetEp}
  {msg : Server.CoapMessage}

theorem coded_of_response (response : Server.reqDelete < msg.code) : msg.code ≠ Server.empty := by
  intro empty
  rw [empty] at response
  exact absurd response (by decide)

/-- A message with a response code was not sent to ask for something. -/
theorem answer_of_response (reaches : Reaches env resources server) (sent : .sent ia origin ifID receiver msg ∈ server.log)
    (response : Server.reqDelete < msg.code) : IsAnswer ia := by
  rintro pIA rfl client
  obtain ⟨later, earlier, split⟩ := List.append_of_mem sent
  have noted := ((originated_stable env resources).holds reaches).effects
  rw [split] at noted
  have isRequest := noted.split.2 client
  rw [Server.CoapMessage.isRequest, Bool.and_eq_true] at isRequest
  exact absurd (of_decide_eq_true isRequest.2) (UInt8.not_le.mpr response)

/-- It goes back to a packet, under the token of the request there. -/
theorem response_due (tokens : TokensKept env) (reaches : Reaches env resources server)
    (sent : .sent ia origin ifID receiver msg ∈ server.log) (response : Server.reqDelete < msg.code) :
    ∃ pckt asked, origin = some pckt ∧ receiver = pckt.sender ∧ .received pckt asked ∈ server.log ∧
      msg.token64 = asked.token64 := by
  obtain ⟨later, earlier, split⟩ := List.append_of_mem sent
  have noted := ((accounted_stable env resources tokens).holds reaches).effects
  rw [split] at noted
  have coded := coded_of_response response
  obtain ⟨pckt, asked, back, received, _, sender, token⟩ := noted.split coded (answer_of_response reaches sent response)
  refine ⟨pckt, asked, back, sender, ?_, token⟩
  rw [split]
  exact List.mem_append_right _ (List.mem_cons_of_mem _ received)

/-- Unless it is a notification, it is no reset, and an acknowledgement has the message id of the confirmable request
there. -/
theorem response_pairs (keeps : HandlersKeep env) (reaches : Reaches env resources server)
    (sent : .sent ia origin ifID receiver msg ∈ server.log) (response : Server.reqDelete < msg.code)
    (other : ¬ IsNotification ia) :
    ∃ pckt asked, origin = some pckt ∧ .received pckt asked ∈ server.log ∧ (asked.type = .con →
      msg.type ≠ .rst ∧ (msg.type = .ack → msg.messageID = asked.messageID)) := by
  have coded := coded_of_response response
  cases ia with
  | none =>
    obtain ⟨pckt, asked, back, received, _, suits⟩ := replies_suit reaches sent
    exact ⟨pckt, asked, back, received, fun _ => ⟨fun reset => coded (suits.reset reset), suits.messageID⟩⟩
  | some pIA =>
    obtain ⟨later, earlier, split⟩ := List.append_of_mem sent
    have attributed := ((originated_stable env resources).holds reaches).effects
    have paired := ((pairing_stable env resources keeps).holds reaches).effects
    rw [split] at attributed paired
    have server : pIA.role = .server := by
      cases role : pIA.role with
      | server => rfl
      | notification => exact absurd ⟨pIA, rfl, role⟩ other
      | client => exact absurd role (answer_of_response reaches sent response pIA rfl)
    obtain ⟨pckt, asked, back, request, received, _⟩ := attributed.split.1 server
    obtain ⟨req, same, pairs, _⟩ := paired.split server
    obtain rfl : asked = req := Option.some.inj (request.symm.trans same)
    have pairs := pairs coded
    refine ⟨pckt, asked, back, ?_, fun confirmable => ?_⟩
    · rw [split]
      exact List.mem_append_right _ (List.mem_cons_of_mem _ received)
    · by_cases acknowledged : EmptyAckSent earlier pIA.ref
      · have separate := (pairs.separate confirmable acknowledged).1
        rw [separate]
        exact ⟨Server.MessageType.noConfusion, Server.MessageType.noConfusion⟩
      · obtain ⟨type, messageID⟩ := pairs.piggybacked confirmable acknowledged
        rw [type]
        exact ⟨Server.MessageType.noConfusion, fun _ => messageID⟩

end

/-- The token of every request comes back as it is. -/
theorem digits_requestToken : Wire.digits (Wire.littleEndian CoapPDU.requestToken)
    (Wire.byteCount (Wire.littleEndian CoapPDU.requestToken)) = CoapPDU.requestToken := by
  rw [Wire.digits_byteCount_iff]
  decide

theorem receivedType_rst {type : CoapPDU.MessageType} : receivedType type = .rst ↔ type = .reset := by
  cases type <;> decide

theorem receivedType_ack {type : CoapPDU.MessageType} : receivedType type = .ack ↔ type = .acknowledgement := by
  cases type <;> decide

/-- Whatever was lost, repeated or reordered: a response that a callback is told of was sent by the server to the
connection of the callback's own request, for a packet with that request as the client built it, and under its token.
Unless it is a notification, it answers a confirmable request by all the rules. -/
theorem responses_exchanged (env : Server.Env) (resources : List Server.CoapResource) (messageID : UInt16)
    (connection : Server.NetEp → Option Nat) (this : Exchange) (tokens : Server.CoapServer.TokensKept env)
    (keeps : Server.CoapServer.HandlersKeep env)
    (run : Run (step env) (Delivers connection) (new messageID resources) this) (req : Nat) (pdu : CoapPDU)
    (called : .called req true pdu ∈ this.client.log) (connected : Connected connection req)
    (expressible : ∀ msg, SentTo connection this.server req msg → Expressible msg)
    (response : Server.reqDelete < pdu.getCode) :
    ∃ request ia pckt asked ifID msg, this.client.pdus[req]? = some request ∧
      .sent ia (some pckt) ifID pckt.sender msg ∈ this.server.log ∧ ReadBack pdu msg ∧
      .received pckt asked ∈ this.server.log ∧ ReadAs request asked ∧ pdu.getToken = request.getToken ∧
      (¬ IsNotification ia → request.getType = .confirmable → CoapClient.AnswersTo pdu request) := by
  obtain ⟨reaches, linked⟩ := run_linked run
  obtain ⟨msg, payload, totLen, sentTo, datagram, accepted⟩ := linked.owned.told req pdu called connected
  have expresses := expressible msg sentTo
  obtain ⟨ia, origin, ifID, receiver, sent, here⟩ := sentTo
  have back := accepted_readBack expresses datagram accepted
  rw [back.code, (sentMessage_fields msg).1] at response
  have coded := coded_of_response response
  rw [Server.sentMessage, if_neg coded] at back
  -- whatever the server took in from this connection is the request
  obtain ⟨pckt, asked, rfl, rfl, received, token⟩ := response_due tokens reaches sent response
  obtain ⟨request, found, _, built, reads⟩ := linked.reads reaches received here
  have tokenEq : pdu.getToken = request.getToken := by
    rw [back.token, token, reads.token64, built.token]
    exact digits_requestToken
  refine ⟨request, ia, pckt, asked, ifID, msg, found, sent, back, received, reads, tokenEq, ?_⟩
  intro other confirmable
  obtain ⟨_, paired, ⟨rfl⟩, receivedPaired, pairs⟩ := response_pairs keeps reaches sent response other
  obtain ⟨_, foundPaired, _, _, readsPaired⟩ := linked.reads reaches receivedPaired here
  obtain rfl : request = _ := Option.some.inj (found.symm.trans foundPaired)
  obtain ⟨notReset, messageID⟩ := pairs (by rw [readsPaired.type, confirmable]; rfl)
  refine ⟨?_, ?_, tokenEq, ?_⟩
  · intro reset
    exact notReset (back.type.symm.trans (receivedType_rst.mpr reset))
  · rw [back.code]
    exact coded
  · intro acknowledgement
    rw [back.messageID, messageID (back.type.symm.trans (receivedType_ack.mpr acknowledgement)), readsPaired.messageID]

/-- The callback of the run is told of the answer to its request. -/
theorem responses_exchanged_path : ∃ this, Run (step idealEnv) (Delivers firstConnection) (new 0 [sensor]) this ∧
    ∃ pdu request, .called 0 true pdu ∈ this.client.log ∧ this.client.pdus[0]? = some request ∧
      CoapClient.AnswersTo pdu request := by
  obtain ⟨this, run, types, sentAll, isTold⟩ := path_exchanged
  have answer : ∀ {notifies receiver msg}, (notifies, receiver, msg) ∈ messages this.server →
      notifies = false ∧ msg = pathAnswer := by
    intro notifies receiver msg member
    rw [sentAll] at member
    cases List.mem_singleton.mp member
    exact ⟨rfl, rfl⟩
  have expressible : ∀ msg, SentTo firstConnection this.server 0 msg → Expressible msg := by
    rintro msg ⟨ia, origin, ifID, receiver, sent, _⟩
    rw [(answer (mem_messages.mpr ⟨ia, origin, ifID, sent, rfl⟩)).2]
    exact ⟨by decide, ⟨by decide, by decide, by decide⟩, by decide +kernel⟩
  rw [firstTold, Bool.and_eq_true] at isTold
  obtain ⟨effect, called, isResponse⟩ := List.any_eq_true.mp isTold.1
  split at isResponse
  next pdu =>
    obtain ⟨request, ia, pckt, asked, ifID, msg, found, sent, _, _, _, _, answers⟩ := responses_exchanged idealEnv
      [sensor] 0 firstConnection this Server.CoapServer.idealEnv_tokensKept (fun _ _ _ _ => ⟨rfl, rfl⟩) run 0 pdu called
      ⟨neighbour, if_pos rfl⟩ expressible (of_decide_eq_true isResponse)
    refine ⟨this, run, pdu, request, called, found, answers ?_ ?_⟩
    · rintro ⟨pIA, rfl, role⟩
      have notifies := (answer (mem_messages.mpr ⟨some pIA, _, ifID, sent, rfl⟩)).1
      rw [Option.any_some, role] at notifies
      cases notifies
    · obtain ⟨only, pdus, type⟩ := List.map_eq_singleton_iff.mp types
      rw [pdus] at found
      cases found
      exact type
  next => cases isResponse

end Exchange

end SmingCoap
