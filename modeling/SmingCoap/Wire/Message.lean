import SmingCoap.Wire.Options

/-! # The CoAP message format

A message is a four byte header, a token of at most eight bytes, the options in
ascending order and, behind a 0xFF marker, a payload that is not empty.
`Message.encode` writes it.  The format has one spelling for each message, so a
byte sequence is well formed exactly when it is the encoding of a message whose
fields fit, and that message is its parse.

`EncodedAt` says what a reader finds where a message was written, and
`holds_encode` builds it from the encoding.
-/

namespace Wire

structure Message where
  /-- 0 confirmable, 1 non-confirmable, 2 acknowledgement, 3 reset. -/
  type : Nat
  code : UInt8
  messageID : Nat
  token : List UInt8
  options : List Opt
  payload : List UInt8
  deriving DecidableEq, Repr

/-- The fields fit the format and the options are in order. -/
structure Message.Fits (message : Message) : Prop where
  type : message.type < 4
  messageID : message.messageID ≤ 65535
  token : message.token.length ≤ 8
  ascending : Ascending 0 message.options
  options : Representable message.options

/-- The marker and the payload; nothing at all for an empty payload. -/
def payloadSection (payload : List UInt8) : List UInt8 :=
  if payload = [] then [] else 0xFF :: payload

def Message.header (message : Message) : List UInt8 :=
  [UInt8.ofNat (64 + message.type * 16 + message.token.length), message.code,
    UInt8.ofNat (message.messageID / 256), UInt8.ofNat message.messageID]

def Message.encode (message : Message) : List UInt8 :=
  message.header ++ (message.token ++
    (encodeOptions 0 message.options ++ payloadSection message.payload))

@[simp] theorem payloadSection_nil : payloadSection [] = [] := rfl

theorem payloadSection_of_ne {payload : List UInt8} (filled : payload ≠ []) :
    payloadSection payload = 0xFF :: payload := by
  simp [payloadSection, filled]

theorem length_payloadSection (payload : List UInt8) :
    (payloadSection payload).length = if payload = [] then 0 else payload.length + 1 := by
  by_cases filled : payload = [] <;> simp [payloadSection, filled]

theorem Message.length_encode (message : Message) :
    message.encode.length = 4 + message.token.length +
      (encodeOptions 0 message.options).length + (payloadSection message.payload).length := by
  simp only [encode, header, List.length_append, List.length_cons, List.length_nil]
  omega

/-! ## What a reader finds -/

/-- A message written at address 0, field by field. -/
structure EncodedAt (memory : Memory) (message : Message) : Prop where
  version : (memory 0).toNat / 64 = 1
  type : (memory 0).toNat / 16 % 4 = message.type
  tokenLength : (memory 0).toNat % 16 = message.token.length
  code : memory 1 = message.code
  messageID : bigEndian16 (memory 2) (memory 3) = message.messageID
  token : memory.Holds 4 message.token
  options : memory.Holds (4 + message.token.length) (encodeOptions 0 message.options)
  payload : memory.Holds (4 + message.token.length + (encodeOptions 0 message.options).length)
    (payloadSection message.payload)

theorem holds_encode {memory : Memory} {message : Message} (fits : message.Fits)
    (holds : memory.Holds 0 message.encode) : EncodedAt memory message := by
  rw [Message.encode, Message.header, Memory.holds_append, Memory.holds_append,
    Memory.holds_append] at holds
  obtain ⟨header, token, options, payload⟩ := holds
  simp only [Memory.holds_cons, Memory.holds_nil, and_true, Nat.zero_add, Nat.reduceAdd] at header
  obtain ⟨first, code, high, low⟩ := header
  have firstByte : (memory 0).toNat = 64 + message.type * 16 + message.token.length := by
    have typeBound := fits.type
    have tokenBound := fits.token
    rw [first, toNat_ofNat_of_lt (by omega)]
  have typeBound := fits.type
  have tokenBound := fits.token
  refine ⟨by omega, by omega, by omega, code, ?_, token, options, ?_⟩
  · rw [high, low, bigEndian16_ofNat fits.messageID]
  · simpa using payload

/-- Reading the four header bytes as written. -/
theorem bytes_header {memory : Memory} (version : (memory 0).toNat / 64 = 1) :
    memory.bytes 0 4 =
      [UInt8.ofNat (64 + (memory 0).toNat / 16 % 4 * 16 + (memory 0).toNat % 16), memory 1,
        UInt8.ofNat (bigEndian16 (memory 2) (memory 3) / 256),
        UInt8.ofNat (bigEndian16 (memory 2) (memory 3))] := by
  have lowBound := (memory 3).toNat_lt
  have highBound := (memory 2).toNat_lt
  have first : memory 0 = UInt8.ofNat (64 + (memory 0).toNat / 16 % 4 * 16 + (memory 0).toNat % 16) := by
    apply UInt8.toNat_inj.mp
    rw [UInt8.toNat_ofNat']
    omega
  have high : memory 2 = UInt8.ofNat (bigEndian16 (memory 2) (memory 3) / 256) := by
    apply UInt8.toNat_inj.mp
    rw [UInt8.toNat_ofNat', bigEndian16]
    omega
  have low : memory 3 = UInt8.ofNat (bigEndian16 (memory 2) (memory 3)) := by
    apply UInt8.toNat_inj.mp
    rw [UInt8.toNat_ofNat', bigEndian16]
    omega
  simp only [Memory.bytes, Nat.zero_add, Nat.reduceAdd]
  rw [← first, ← high, ← low]

/-- The first option of a list written at an address, and where the rest of the list lies. -/
theorem holds_cons_options {memory : Memory} {position previous : Nat} {option : Opt} {rest : List Opt}
    (fits : Representable (option :: rest))
    (holds : memory.Holds position (encodeOptions previous (option :: rest))) :
    OptionAt memory position (option.number - previous) option.value ∧
      memory.Holds
        (position + (1 + extra (option.number - previous) + extra option.value.length + option.value.length))
        (encodeOptions option.number rest) := by
  rw [encodeOptions, Memory.holds_append, length_encodeOption] at holds
  have bounds := fits option (List.mem_cons_self ..)
  exact ⟨option_of_holds (by unfold maxExtended; omega) (by unfold maxExtended; omega) holds.1, holds.2⟩

end Wire
