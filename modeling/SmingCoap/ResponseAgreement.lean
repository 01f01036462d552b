import SmingCoap.Client.ContainerSoundness
import SmingCoap.RequestAgreement

/-! # What the server builds, the client reads

The other direction: `coapBuildDatagram` writes the encoding of a message whose
code the client's `validate` lets through, so the accessors of a container over
the datagram give back what the message holds (`buildDatagram_read`).
-/

namespace SmingCoap

open Wire (Memory Opt)

/-! ## The accessors of a validated PDU -/

namespace CoapPDU

/-- The enumerator of a type of the format. -/
def MessageType.ofBits : Nat → MessageType
  | 0 => .confirmable
  | 1 => .nonConfirmable
  | 2 => .acknowledgement
  | _ => .reset

section
variable {this : CoapPDU} {message : Wire.Message}

theorem Valid.encodedAt (valid : this.Valid message) : Wire.EncodedAt this.pdu message := by
  obtain ⟨fits, _, encodes⟩ := valid.parses
  refine Wire.holds_encode fits ?_
  rw [encodes]
  exact Memory.holds_bytes ..

theorem Valid.getType_eq (valid : this.Valid message) : this.getType = MessageType.ofBits message.type := by
  have written := valid.encodedAt
  have version := written.version
  have type := written.type
  have tokenLength := written.tokenLength
  have typeBound := valid.parses.1.type
  have tokenBound := valid.parses.1.token
  have first : this.pdu 0 = UInt8.ofNat (64 + message.type * 16 + message.token.length) := by
    apply UInt8.toNat_inj.mp
    rw [Wire.toNat_ofNat_of_lt (by omega)]
    omega
  have masked : ∀ (type : Fin 4) (length : Fin 9),
      UInt8.ofNat (64 + type.val * 16 + length.val) &&& 0x30 = UInt8.ofNat (type.val * 16) := by
    decide
  have bits : this.pdu 0 &&& 0x30 = UInt8.ofNat (message.type * 16) := by
    rw [first]
    exact masked ⟨message.type, typeBound⟩ ⟨message.token.length, by omega⟩
  rw [getType, bits]
  have types : message.type = 0 ∨ message.type = 1 ∨ message.type = 2 ∨ message.type = 3 := by omega
  rcases types with type | type | type | type <;> rw [type] <;> rfl

theorem Valid.getCode_eq (valid : this.Valid message) : this.getCode = message.code :=
  valid.encodedAt.code

theorem Valid.getMessageID_eq (valid : this.Valid message) : this.getMessageID = message.messageID := by
  rw [getMessageID, endianLoad16, Wire.toNat_shiftLeft_or]
  exact valid.encodedAt.messageID

theorem Valid.getToken_eq (valid : this.Valid message) : this.getToken = message.token := by
  rw [getToken, valid.getTokenLength_eq]
  exact valid.encodedAt.token.eq_bytes rfl

/-- The pointer and the length delimit the payload. -/
theorem Valid.payload_eq (valid : this.Valid message) (filled : message.payload ≠ []) :
    this.getPayload = message.payload := by
  obtain ⟨_, size⟩ := valid.marker (valid.noPayload_iff.not.mpr filled)
  have written : this.pdu.Holds 0 this.bytes := Memory.holds_bytes ..
  rw [valid.bytes_eq, ← List.append_assoc, ← List.append_assoc, List.append_assoc message.header, ← valid.front_eq,
    Wire.payloadSection_of_ne filled, Memory.holds_append, Memory.holds_cons] at written
  rw [getPayload, valid.pointer filled, valid.payloadLength_eq]
  rw [valid.payloadLength_eq] at size
  simp only [if_true]
  rw [show this.pduLength - message.payload.length = 0 + this.front.length + 1 by omega]
  exact written.2.2.eq_bytes rfl

end

end CoapPDU

/-! ## Agreement -/

namespace Server

/-- The values of `CoAP_MessageCode_t`. -/
def messageCodes : List UInt8 :=
  [empty, reqGet, 0x02, 0x03, reqDelete, respSuccessCreated, 0x42, 0x43, 0x44, respSuccessContent,
    respErrorBadRequest, 0x81, respBadOption, 0x83, respNotFound, 0x85, 0x86, 0x8C, 0x8D, 0x8F,
    respInternalServerError, 0xA1, 0xA2, 0xA3, 0xA4, 0xA5]

/-- The client has no gap in its ranges where the server has a code. -/
theorem validCode_of_mem {code : UInt8} (known : code ∈ messageCodes) : CoapPDU.validCode code = true := by
  have all : ∀ code ∈ messageCodes, CoapPDU.validCode code = true := by decide +kernel
  exact all code known

/-- The fields hold what their C types can hold, and the options are sorted by number. -/
structure WellTyped (msg : CoapMessage) : Prop where
  messageID : msg.messageID ≤ 65535
  numbers : ∀ option ∈ msg.options, option.number ≤ 65535
  sorted : msg.options.Pairwise (fun left right => left.number ≤ right.number)

theorem WellTyped.ascending {msg : CoapMessage} (typed : WellTyped msg) : Wire.Ascending 0 msg.options :=
  (Wire.ascending_zero_iff msg.options).mpr typed.sorted

/-- No value is longer than the datagram. -/
theorem WellTyped.representable {msg : CoapMessage} (typed : WellTyped msg)
    (size : (wireMessage msg).encode.length ≤ 65535) : Wire.Representable msg.options := by
  intro option member
  have inside : option.value.length ≤ (Wire.encodeOptions 0 msg.options).length := Wire.length_value_le member
  rw [length_wireMessage] at size
  exact ⟨typed.numbers option member, by omega⟩

/-- A message that a datagram can hold is a message of the format. -/
theorem WellTyped.fits {msg : CoapMessage} (typed : WellTyped msg)
    (size : (wireMessage msg).encode.length ≤ 65535) : (wireMessage msg).Fits where
  type := msg.type.toNat_lt
  messageID := typed.messageID
  token := by
    rw [length_token]
    exact getTokenByteCount_le msg.token64
  ascending := typed.ascending
  options := typed.representable size

end Server

/-- What the client reads off a datagram is what the server put into it. -/
structure ReadBack (pdu : CoapPDU) (msg : Server.CoapMessage) : Prop where
  type : receivedType pdu.getType = msg.type
  code : pdu.getCode = msg.code
  messageID : pdu.getMessageID = msg.messageID
  /-- The bytes of the number, the lowest first, without zeros above the highest. -/
  token : pdu.getToken = Wire.digits msg.token64.toNat (Wire.byteCount msg.token64.toNat)
  options : pdu.readOptions = msg.options
  payloadPointer : pdu.payloadPointer =
    if msg.payload = [] then none else some ⟨pdu.block, pdu.pduLength - msg.payload.length⟩
  payloadLength : pdu.payloadLength = msg.payload.length
  payload : pdu.getPayload = msg.payload

theorem receivedType_ofBits (type : Server.MessageType) :
    receivedType (CoapPDU.MessageType.ofBits type.toNat) = type := by
  cases type <;> rfl

/-- The client accepts every datagram that the server builds for one of its codes, and its accessors give back the
message, wherever the datagram lies and whatever lies behind it. -/
theorem buildDatagram_read (destArr : Memory) (msg : Server.CoapMessage) (known : msg.code ∈ Server.messageCodes)
    (coded : msg.code ≠ Server.empty) (typed : Server.WellTyped msg)
    (size : (Server.wireMessage msg).encode.length ≤ 65535) :
    let (datagram, length, _) := Server.coapBuildDatagram destArr msg
    ∀ (block : Nat) (memory : Memory), memory.Holds 0 (datagram.bytes 0 length) →
      (CoapPDU.ofBytes block memory length).validate.1 = 1 ∧
        ReadBack (CoapPDU.ofBytes block memory length).validate.2 msg := by
  obtain ⟨built, result⟩ := Server.buildDatagram_spec destArr msg coded typed.ascending (typed.representable size) size
  obtain ⟨datagram, datagramEq⟩ : ∃ datagram, Server.coapBuildDatagram destArr msg = datagram := ⟨_, rfl⟩
  rw [datagramEq] at built result ⊢
  obtain ⟨array, rest⟩ := datagram
  simp only at built result
  subst result
  intro block memory holds
  rw [built.eq_bytes rfl] at holds
  -- what the server builds is a message, so the client accepts it and its accessors read it back
  have parses : CoapPDU.Parses (Server.wireMessage msg).encode (Server.wireMessage msg) :=
    ⟨typed.fits size, Server.validCode_of_mem known, rfl⟩
  have accepted := parses.validate holds block
  have first : (CoapPDU.ofBytes block memory (Server.wireMessage msg).encode.length).validate.1 = 1 :=
    congrArg Prod.fst accepted
  obtain ⟨pdu, pduEq⟩ : ∃ pdu, (CoapPDU.ofBytes block memory (Server.wireMessage msg).encode.length).validate.2 = pdu :=
    ⟨_, rfl⟩
  have facts := congrArg Prod.snd accepted
  rw [pduEq, CoapPDU.ofBytes_of_ne parses.ne_nil] at facts
  simp only at facts
  have bytesEq : pdu.bytes = (Server.wireMessage msg).encode := by
    rw [facts, CoapPDU.bytes]
    exact holds.eq_bytes rfl
  have validated : pdu.Validated := ⟨CoapPDU.ofBytes block memory _, .ofBuffer .., Prod.ext first pduEq⟩
  have valid := validated.valid (bytesEq.symm ▸ parses)
  refine ⟨first, ?_⟩
  rw [pduEq]
  refine ⟨?_, valid.getCode_eq, valid.getMessageID_eq, valid.getToken_eq, valid.readOptions_eq, ?_,
    valid.payloadLength_eq, ?_⟩
  · rw [valid.getType_eq]
    exact receivedType_ofBits msg.type
  · rw [facts]
    rfl
  · by_cases filled : msg.payload = []
    · rw [CoapPDU.getPayload, facts]
      simp only [Server.wireMessage, filled, if_true]
    · exact valid.payload_eq filled

/-- A 2.05 response with a token, Content-Format and a payload. -/
theorem buildDatagram_read_content :
    let msg : Server.CoapMessage := ⟨0, .ack, Server.respSuccessContent, 0x1234, 0, 0x0203, [⟨12, [0]⟩], [0x41]⟩
    msg.code ∈ Server.messageCodes ∧ msg.code ≠ Server.empty ∧ Server.WellTyped msg ∧
      (Server.wireMessage msg).encode.length ≤ 65535 ∧
      (CoapPDU.ofBytes 0 (Server.coapBuildDatagram (fun _ => 0) msg).1 10).validate.1 = 1 ∧
      ReadBack (CoapPDU.ofBytes 0 (Server.coapBuildDatagram (fun _ => 0) msg).1 10).validate.2 msg := by
  intro msg
  have typed : Server.WellTyped msg := ⟨by decide, by decide, by decide⟩
  have size : (Server.wireMessage msg).encode.length ≤ 65535 := by
    rw [Server.length_wireMessage, ← Server.getTokenByteCount_eq]
    decide
  exact ⟨by decide, by decide, typed, size,
    buildDatagram_read (fun _ => 0) msg (by decide) (by decide) typed size 0 _ (Memory.holds_bytes ..)⟩

end SmingCoap
