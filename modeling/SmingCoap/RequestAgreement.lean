import SmingCoap.Client.RequestPdu
import SmingCoap.Server.RoundTrip

/-! # What the client builds, the server reads

The two codecs share no code.  `Carries` says that a PDU of the client is the
encoding of a message, and the server's parser reads every message within its
limits, so the two agree on each request that `builPDU` can build
(`builPDU_parsed`).  They agree on the options as `getOptions` finds them, also
where `insertOption` did not copy all of a long value.
-/

namespace SmingCoap

open Wire (Memory Opt)

/-! ## The accessors of a PDU that carries a request -/

namespace CoapPDU

section Accessors

variable {this : CoapPDU} {messageID : UInt16} {connType : MessageType} {method : UInt8}
  {options : List Opt} {payload : List UInt8}

theorem requestMessage_fits (ascending : Wire.Ascending 0 options) (representable : Wire.Representable options) :
    (requestMessage messageID connType method options payload).Fits := by
  refine ⟨?_, Nat.le_of_lt_succ messageID.toNat_lt, (show requestToken.length ≤ 8 by decide), ascending,
    representable⟩
  simp only [requestMessage]
  cases connType <;> decide

theorem Carries.header (carries : this.Carries (requestMessage messageID connType method options payload)) :
    this.pdu 0 = UInt8.ofNat (64 + connType.toByte.toNat / 16 * 16 + 4) ∧ this.pdu 1 = method := by
  have holds := carries.holds
  rw [Wire.Message.encode, Wire.Message.header] at holds
  have header := (Memory.holds_append.mp holds).1
  exact ⟨(Memory.holds_cons.mp header).1, (Memory.holds_cons.mp (Memory.holds_cons.mp header).2).1⟩

theorem Carries.getType_eq
    (carries : this.Carries (requestMessage messageID connType method options payload)) :
    this.getType = connType := by
  rw [getType, carries.header.1]
  cases connType <;> rfl

theorem Carries.getCode_eq
    (carries : this.Carries (requestMessage messageID connType method options payload)) :
    this.getCode = method :=
  carries.header.2

theorem Carries.getTokenLength_eq
    (carries : this.Carries (requestMessage messageID connType method options payload)) :
    this.getTokenLength = 4 := by
  rw [getTokenLength, carries.header.1]
  cases connType <;> rfl

variable (ascending : Wire.Ascending 0 options) (representable : Wire.Representable options)

include ascending representable

theorem Carries.getMessageID_eq
    (carries : this.Carries (requestMessage messageID connType method options payload)) :
    this.getMessageID = messageID.toNat := by
  have written := Wire.holds_encode (requestMessage_fits ascending representable) carries.holds
  rw [getMessageID, endianLoad16, Wire.toNat_shiftLeft_or]
  exact written.messageID

theorem Carries.getToken_eq
    (carries : this.Carries (requestMessage messageID connType method options payload)) :
    this.getToken = requestToken := by
  have written := Wire.holds_encode (requestMessage_fits ascending representable) carries.holds
  rw [getToken, carries.getTokenLength_eq]
  exact written.token.eq_bytes rfl

theorem Carries.readOptions_eq
    (carries : this.Carries (requestMessage messageID connType method options payload)) :
    this.readOptions = options := by
  have written := Wire.holds_encode (requestMessage_fits ascending representable) carries.holds
  rw [readOptions, getOptions, carries.numOptions_eq, carries.getTokenLength_eq]
  exact getOptionsLoop_spec this options _ 0 ascending representable written.options

end Accessors

end CoapPDU

/-! ## Agreement -/

/-- The type of the server's message for one of the client's. -/
def receivedType : CoapPDU.MessageType → Server.MessageType
  | .confirmable => .con
  | .nonConfirmable => .non
  | .acknowledgement => .ack
  | .reset => .rst

theorem ofBits_toByte (type : CoapPDU.MessageType) :
    Server.MessageType.ofBits (type.toByte.toNat / 16) = receivedType type := by
  cases type <;> rfl

/-- `msg` says what the accessors of `pdu` say. -/
structure ReadAs (pdu : CoapPDU) (msg : Server.CoapMessage) : Prop where
  type : msg.type = receivedType pdu.getType
  code : msg.code = pdu.getCode
  messageID : msg.messageID = pdu.getMessageID
  token64 : msg.token64.toNat = Wire.littleEndian pdu.getToken
  options : msg.options = pdu.readOptions
  payload : msg.payload = pdu.getPayload

/-- The PDU has the fields it was built from. -/
structure BuiltFrom (pdu : CoapPDU) (messageID : UInt16) (connType : CoapPDU.MessageType) (method : UInt8)
    (payload : List UInt8) : Prop where
  type : pdu.getType = connType
  code : pdu.getCode = method
  messageID : pdu.getMessageID = messageID.toNat
  token : pdu.getToken = CoapPDU.requestToken
  payload : pdu.getPayload = payload

theorem method_not_reserved {method : UInt8}
    (known : method ∈ [CoapPDU.get, CoapPDU.post, CoapPDU.put, CoapPDU.delete]) :
    ¬ Server.ReservedClass method := by
  simp only [List.mem_cons, List.not_mem_nil, or_false] at known
  rcases known with rfl | rfl | rfl | rfl <;> decide

/-- The server's parser reads every request the client builds as the client's own accessors do,
wherever the datagram lies and whatever lies behind it. -/
theorem builPDU_parsed (block : Nat) (memory : Memory) (heap : Heap) (messageID : UInt16)
    (connType : CoapPDU.MessageType) (method : UInt8) (pathWithQuery : List UInt8) (format : Nat)
    (payload : List UInt8) (granted : ∀ i, heap i ≠ none)
    (known : method ∈ [CoapPDU.get, CoapPDU.post, CoapPDU.put, CoapPDU.delete])
    (short : ∀ option ∈ CoapPDU.uriOptions pathWithQuery, option.value.length ≤ Server.maxOptionValueSize)
    (payloadSize : payload.length ≤ Server.maxPayloadSize) :
    let pdu := (builPDU block memory heap messageID connType method pathWithQuery format payload).1
    BuiltFrom pdu messageID connType method payload ∧
      ∀ (alloc : Nat → Bool) (now : Nat) (received : Memory) (length : UInt16), (∀ i, alloc i = true) →
        received.Holds 0 pdu.bytes → length.toNat = pdu.pduLength →
        ∃ msg, Server.coapParseMessageFromDatagram alloc now received length.toNat = some (.ok, some msg) ∧
          ReadAs pdu msg := by
  intro pdu
  obtain ⟨options, some_, ascending, representable, values, carries⟩ :=
    builPDU_carries block memory messageID connType method format payload granted short
  have fits := @CoapPDU.requestMessage_fits messageID connType method options payload ascending representable
  have limits : Server.WithinLimits (CoapPDU.requestMessage messageID connType method options payload) :=
    ⟨method_not_reserved known, values, payloadSize⟩
  refine ⟨⟨carries.getType_eq, carries.getCode_eq, carries.getMessageID_eq ascending representable,
    carries.getToken_eq ascending representable, carries.payload_eq⟩, ?_⟩
  intro alloc now received length available holds size
  have lengthEq : length.toNat = (CoapPDU.requestMessage messageID connType method options payload).encode.length :=
    size.trans carries.length_eq
  have bound := length.toNat_lt
  rw [CoapPDU.bytes, carries.holds.eq_bytes carries.length_eq.symm] at holds
  rw [lengthEq]
  -- the message that was built is the one the server reads
  refine ⟨_, Server.parse_of_message now available fits limits (Or.inl some_) (by omega) holds, ?_, ?_, ?_, ?_, ?_, ?_⟩
  · rw [carries.getType_eq]
    exact ofBits_toByte connType
  · rw [carries.getCode_eq]
    rfl
  · rw [carries.getMessageID_eq ascending representable]
    rfl
  · rw [carries.getToken_eq ascending representable]
    rfl
  · rw [carries.readOptions_eq ascending representable]
    rfl
  · exact carries.payload_eq.symm

/-- A GET with a path, a query and a payload. -/
theorem builPDU_parsed_get :
    (∀ i, (fun _ => some ⟨1, fun _ => 0⟩ : Heap) i ≠ none) ∧
    CoapPDU.get ∈ [CoapPDU.get, CoapPDU.post, CoapPDU.put, CoapPDU.delete] ∧
    (∀ option ∈ CoapPDU.uriOptions [0x2F, 0x61, 0x3F, 0x62, 0x63],
      option.value.length ≤ Server.maxOptionValueSize) ∧
    [0x41].length ≤ Server.maxPayloadSize ∧
    let pdu := (builPDU 0 (fun _ => 0) (fun _ => some ⟨1, fun _ => 0⟩) 0x1234 .confirmable CoapPDU.get
      [0x2F, 0x61, 0x3F, 0x62, 0x63] 0 [0x41]).1
    ∃ msg, Server.coapParseMessageFromDatagram (fun _ => true) 0 pdu.pdu 16 = some (.ok, some msg) ∧
      ReadAs pdu msg := by
  have granted : ∀ i, (fun _ => some ⟨1, fun _ => 0⟩ : Heap) i ≠ none := fun _ => Option.some_ne_none _
  refine ⟨granted, by decide, by decide, by decide, ?_⟩
  exact (builPDU_parsed 0 (fun _ => 0) _ 0x1234 .confirmable CoapPDU.get [0x2F, 0x61, 0x3F, 0x62, 0x63] 0 [0x41]
    granted (by decide) (by decide) (by decide)).2 (fun _ => true) 0 _ 16 (fun _ => rfl)
    (Memory.holds_bytes ..) rfl

end SmingCoap
