import SmingCoap.Server.Options

/-! # Messages and datagrams

`coap_message.c`: parsing a datagram into a message and building the datagram of
a message.  The token is a 64 bit integer without a length of its own; `TKL` is
recomputed from it at each send.  Datagram offsets are 16 bit variables.
-/

namespace SmingCoap.Server

open Wire (Memory Opt)

inductive MessageType where
  | con
  | non
  | ack
  | rst
  deriving DecidableEq, Repr

def MessageType.toNat : MessageType → Nat
  | .con => 0
  | .non => 1
  | .ack => 2
  | .rst => 3

def MessageType.ofBits : Nat → MessageType
  | 0 => .con
  | 1 => .non
  | 2 => .ack
  | _ => .rst

/-- `CoAP_Message_t`; `PayloadLength` is the length of `payload`. -/
structure CoapMessage where
  timestamp : Nat
  type : MessageType
  code : UInt8
  messageID : Nat
  payloadBufSize : Nat
  token64 : UInt64
  options : List Opt
  payload : List UInt8
  deriving DecidableEq, Repr

def maxPayloadSize : Nat := 256
def coapVersion : UInt8 := 1

def empty : UInt8 := 0x00
def reqGet : UInt8 := 0x01
def reqDelete : UInt8 := 0x04
def respSuccessCreated : UInt8 := 0x41
def respSuccessContent : UInt8 := 0x45
def respErrorBadRequest : UInt8 := 0x80
def respBadOption : UInt8 := 0x82
def respNotFound : UInt8 := 0x84
def respInternalServerError : UInt8 := 0xA0

def getTokenByteCount (token : UInt64) : Nat :=
  if token = 0 then 0
  else if token ≤ 0xFF then 1
  else if token ≤ 0xFFFF then 2
  else if token ≤ 0xFFFFFF then 3
  else if token ≤ 0xFFFFFFFF then 4
  else if token ≤ 0xFFFFFFFFFF then 5
  else if token ≤ 0xFFFFFFFFFFFF then 6
  else if token ≤ 0xFFFFFFFFFFFFFF then 7
  else 8

/-- `CoAP_InitToEmptyResetMsg`. -/
def coapInitToEmptyResetMsg : CoapMessage :=
  { timestamp := 0, type := .rst, code := empty, messageID := 0, payloadBufSize := 0, token64 := 0
    options := [], payload := [] }

/-- `CoAP_MsgIsRequest`. -/
def CoapMessage.isRequest (msg : CoapMessage) : Bool := msg.code ≠ empty && msg.code ≤ reqDelete

/-- `CoAP_MsgIsResponse`. -/
def CoapMessage.isResponse (msg : CoapMessage) : Bool :=
  msg.code ≠ empty && msg.code ≥ respSuccessCreated

/-! ## Parsing -/

/-- The token loop: the bytes at `offset` as an integer, the first one lowest. -/
def parseToken (srcArr : Memory) (offset : Nat) : Nat → UInt64
  | 0 => 0
  | i + 1 =>
    parseToken srcArr offset i ||| (srcArr (offset + i)).toUInt64 <<< UInt64.ofNat (8 * i)

/-- From `START_MSG_COPY_LABEL` on: the memory for the message, one block for header and payload. -/
def copyMessage (available : Bool) (now : Nat) (msg : CoapMessage) : CoapResult × Option CoapMessage :=
  if available then (.ok, some { msg with timestamp := now })
  else (.errOutOfMemory, none)

/-- `CoAP_ParseMessageFromDatagram`; `alloc` tells which of the allocations succeed, one for each
option and the last for the message.  No result means that the option loop never ends. -/
def coapParseMessageFromDatagram (alloc : Nat → Bool) (now : Nat) (srcArr : Memory)
    (srcArrLength : Nat) : Option (CoapResult × Option CoapMessage) :=
  if srcArrLength < 4 then some (.parseDatagramTooShort, none)
  else if srcArr 0 >>> 6 ≠ coapVersion then some (.parseUnkownCoapVersion, none)
  else
    let tokenLength := (srcArr 0 &&& 0x0F).toNat
    if tokenLength > 8 then some (.parseMessageFormatError, none)
    else
      let codeClass := srcArr 1 >>> 5
      if codeClass = 1 ∨ codeClass = 6 ∨ codeClass = 7 then some (.parseMessageFormatError, none)
      else
        let msg := { coapInitToEmptyResetMsg with
          type := MessageType.ofBits ((srcArr 0 &&& 0x30) >>> 4).toNat
          code := srcArr 1
          messageID := ((srcArr 2).toUInt16 <<< 8 ||| (srcArr 3).toUInt16).toNat }
        if srcArrLength = 4 then some (copyMessage (alloc 0) now msg)
        else
          let msg := { msg with token64 := parseToken srcArr 4 tokenLength }
          let offset := 4 + tokenLength
          if srcArrLength = offset then some (copyMessage (alloc 0) now msg)
          else
            -- the remaining length is a 16 bit parameter
            let srcLength := (srcArrLength + 65536 - offset) % 65536
            match parseOptionsFromRaw alloc (srcArr.offset offset) srcLength with
            | none => none
            | some (.ok, options, none) =>
              some (copyMessage (alloc options.length) now { msg with options })
            | some (.ok, options, some payloadBegin) =>
              let payloadLength := (srcArrLength + 65536 - (offset + payloadBegin) % 65536) % 65536
              if payloadLength > maxPayloadSize then some (.parseTooMuchPayload, none)
              else
                some (copyMessage (alloc options.length) now { msg with
                  options
                  payload := srcArr.bytes (offset + payloadBegin) payloadLength
                  payloadBufSize := payloadLength })
            | some (failed, _, _) => some (failed, none)

/-! ## Building -/

/-- `CoAP_GetRawSizeOfMessage`. -/
def getRawSizeOfMessage (msg : CoapMessage) : Nat :=
  let totalMsgBytes := 4 + neededMem4PackOptions 0 0 msg.options
  if msg.code ≠ empty then
    let totalMsgBytes :=
      if msg.payload.length ≠ 0 then totalMsgBytes + (msg.payload.length + 1) else totalMsgBytes
    totalMsgBytes + getTokenByteCount msg.token64
  else totalMsgBytes

/-- The token loop of `CoAP_BuildDatagram`. -/
def buildToken (destArr : Memory) (offset : Nat) (token : UInt64) : Nat → Memory
  | 0 => destArr
  | i + 1 =>
    (buildToken destArr offset token i).store (offset + i) (token >>> UInt64.ofNat (8 * i)).toUInt8

/-- The header and the token. -/
def buildHead (destArr : Memory) (msg : CoapMessage) (tokenLength : Nat) : Memory :=
  let destArr := destArr.store 0 (((coapVersion &&& 3) <<< 6) |||
    ((UInt8.ofNat msg.type.toNat &&& 3) <<< 4) ||| (UInt8.ofNat tokenLength &&& 15))
  let destArr := destArr.store 1 msg.code
  let destArr := destArr.store 2 (UInt8.ofNat (msg.messageID >>> 8))
  let destArr := destArr.store 3 (UInt8.ofNat (msg.messageID &&& 0xFF))
  buildToken destArr 4 msg.token64 tokenLength

/-- The options, packed behind the pointer `&destArr[offset]`. -/
def buildOptions (destArr : Memory) (offset : Nat) (options : List Opt) : Memory × Nat :=
  if options = [] then (destArr, offset)
  else
    let (packed, optionsRawByteCount) := packOptionsFromList (destArr.offset offset) 0 0 options
    (fun i => if i < offset then destArr i else packed (i - offset),
      (offset + optionsRawByteCount) % 65536)

/-- The marker and the payload. -/
def buildPayload (destArr : Memory) (offset : Nat) (payload : List UInt8) : Memory × Nat :=
  if payload.length ≠ 0 then
    let destArr := destArr.store offset 0xFF
    let offset := (offset + 1) % 65536
    (destArr.copy offset payload, (offset + payload.length) % 65536)
  else (destArr, offset)

/-- `CoAP_BuildDatagram`: the array, its size, and the message, of which an empty code drops the
payload. -/
def coapBuildDatagram (destArr : Memory) (msg : CoapMessage) : Memory × Nat × CoapMessage :=
  let (tokenLength, msg) :=
    if msg.code = empty then (0, { msg with payload := [] })
    else (getTokenByteCount msg.token64, msg)
  let destArr := buildHead destArr msg tokenLength
  let (destArr, offset) := buildOptions destArr (4 + tokenLength) msg.options
  let (destArr, offset) := buildPayload destArr offset msg.payload
  (destArr, offset, msg)

end SmingCoap.Server
