import SmingCoap.Server.Message
import SmingCoap.Server.UriOptions

/-! # The payload of a response

`coap_option_blockwise.c` with the payload functions of `coap_message.c`: the
block options, and the three ways in which a resource handler sets the payload.
The payload pointer of a message is null, or points into the memory of the
message, to memory of its own or to the handler's static data.

A function without a result copies into a null pointer.
-/

namespace SmingCoap.Server

open Wire (Opt)

/-! ## Block options -/

inductive BlockOptionType where
  | block1
  | block2
  deriving DecidableEq, Repr

def BlockOptionType.toNat : BlockOptionType → Nat
  | .block1 => optBlock1
  | .block2 => optBlock2

/-- `CoAP_blockwise_option_t`. -/
structure BlockOption where
  type : BlockOptionType
  blockSize : Nat
  moreFlag : Bool
  blockNum : UInt32
  deriving DecidableEq, Repr

def blockSize16 : Nat := 16

/-- The loop of `AddBlkOptionToMsg` for the highest bit. -/
def highestBit (szxCalc : UInt8) : Nat → UInt32
  | 0 => 0
  | i + 1 => if szxCalc &&& ((1 : UInt8) <<< UInt8.ofNat (i + 1)) ≠ 0 then UInt32.ofNat (i + 1) else highestBit szxCalc i

/-- The number that `AddBlkOptionToMsg` makes of block number, flag and size. -/
def blockOptionValue (blkOption : BlockOption) : UInt32 :=
  let moreFlag : UInt32 := if blkOption.moreFlag then 8 else 0
  highestBit (UInt8.ofNat (blkOption.blockSize >>> 4)) 6 ||| moreFlag ||| blkOption.blockNum <<< 4

/-- The value bytes that `AddBlkOptionToMsg` writes. -/
def blockOptionBytes (blkOption : BlockOption) : List UInt8 :=
  let optionValue := blockOptionValue blkOption
  if blkOption.blockNum = 0 ∧ blkOption.blockSize = blockSize16 ∧ blkOption.moreFlag = false then []
  else if blkOption.blockNum < 16 then [optionValue.toUInt8]
  else if blkOption.blockNum < 4096 then [(optionValue >>> 8).toUInt8, (optionValue &&& 0xFF).toUInt8]
  else [(optionValue >>> 16).toUInt8, (optionValue >>> 8).toUInt8, (optionValue &&& 0xFF).toUInt8]

/-- `AddBlkOptionToMsg`; its result is not looked at anywhere. -/
def addBlkOptionToMsg (available : Bool) (msg : CoapMessage) (blkOption : BlockOption) : CoapMessage :=
  { msg with
    options := (appendOptionToList available msg.options ⟨blkOption.type.toNat, blockOptionBytes blkOption⟩).2 }

/-- The number that stands in up to three value bytes. -/
def readBlockValue : List UInt8 → UInt32
  | [] => 0
  | [low] => low.toUInt32
  | [high, low] => high.toUInt32 <<< 8 ||| low.toUInt32
  | top :: high :: low :: _ => top.toUInt32 <<< 16 ||| high.toUInt32 <<< 8 ||| low.toUInt32

/-- `GetBlockOptionFromMsg`. -/
def getBlockOptionFromMsg (msg : CoapMessage) (type : BlockOptionType) : Except CoapResult BlockOption :=
  match msg.options.find? fun option => option.number = type.toNat with
  | none => .error .errNotFound
  | some option =>
    if option.value.length > 3 then .error .parseMessageFormatError
    else if option.value = [] then .ok { type, blockNum := 0, blockSize := blockSize16, moreFlag := false }
    else
      let optionValue := readBlockValue option.value
      let szx := optionValue &&& 7
      if szx = 7 then .error .parseMessageFormatError
      else .ok { type, blockSize := 1 <<< (szx.toNat + 4), moreFlag := optionValue &&& 8 ≠ 0, blockNum := optionValue >>> 4 }

/-- `RemoveAllBlockOptionsFromMsg`. -/
def removeAllBlockOptionsFromMsg (msg : CoapMessage) (type : BlockOptionType) : CoapMessage :=
  { msg with options := msg.options.filter fun option => option.number ≠ type.toNat }

/-! ## Payload buffers -/

/-- What the payload pointer of a message points to. -/
inductive PayloadLocation where
  | null
  | message
  | heap
  | static
  deriving DecidableEq, Repr

/-- A message with its payload buffer: the bytes from the payload pointer on, of which `payload` are the first
`PayloadLength`.  A buffer that can be written to is the stack's own. -/
structure PayloadMessage extends CoapMessage where
  location : PayloadLocation
  buffer : List UInt8
  writable : 0 < payloadBufSize → location = .message ∨ location = .heap

/-- The bytes that `coap_mem_get` is asked for: a `bufsize` is a 16 bit number with a sign. -/
def requestedBytes (size : Nat) : Nat := (((size : Int) + 32768) % 65536 - 32768).toNat

/-- `CoAP_free_MsgPayload`: only memory of its own is freed. -/
def freeMsgPayload (msg : PayloadMessage) : PayloadMessage :=
  match msg.location with
  | .heap => { msg with
      location := .null, buffer := [], payloadBufSize := 0, writable := fun positive => absurd positive (Nat.lt_irrefl 0) }
  | _ => msg

/-- The old buffer is freed, and the data go into a new one. -/
def copyToNewBuffer (available : Bool) (msg : PayloadMessage) (data : List UInt8) : Option PayloadMessage :=
  if available then
    some { freeMsgPayload msg with
      location := .heap, buffer := data, payloadBufSize := data.length, writable := fun _ => .inr rfl }
  else none

/-- The data go to the payload pointer. -/
def copyToBuffer (msg : PayloadMessage) (data : List UInt8) : Option PayloadMessage :=
  if msg.location = .null then none else some { msg with buffer := data ++ msg.buffer.drop data.length }

/-- The options go to the option list. -/
def setOptions (msg : PayloadMessage) (options : List Opt) : PayloadMessage := { msg with options }

/-- `PayloadLength` is set. -/
def setPayloadLength (msg : PayloadMessage) (length : Nat) : PayloadMessage :=
  { msg with payload := msg.buffer.take length }

/-- `CoAP_addNewPayloadToMessage`. -/
def addNewPayloadToMessage (available : Bool) (msg : PayloadMessage) (data : List UInt8) :
    Option (CoapResult × PayloadMessage) :=
  if data.length > maxPayloadSize then some (.errOutOfMemory, msg)
  else if data.length ≠ 0 then do
    let msg ← if msg.payloadBufSize ≥ data.length then copyToBuffer msg data else copyToNewBuffer available msg data
    some (.ok, setPayloadLength msg data.length)
  else some (.ok, setPayloadLength (freeMsgPayload msg) 0)

/-! ## Setting the payload -/

/-- What a handler passes as `pPayload`: the payload pointer of the response itself, or a pointer to other
data. -/
inductive PayloadSource where
  | own
  | external (data : List UInt8) (payloadIsVolatile : Bool)

/-- The text of a response to a block that is behind the end. -/
def blockNotExisting : List UInt8 := "block not existing".toList.map fun c => UInt8.ofNat c.toNat

/-- A volatile payload: `BytesToSend` bytes of it go into the buffer, which is as large as they are from then on. -/
def copyVolatile (available : Bool) (msg : PayloadMessage) (data : List UInt8) : Option PayloadMessage :=
  if enough : data.length ≤ msg.payloadBufSize then
    if msg.location = .null then none
    else some { msg with
      buffer := data ++ msg.buffer.drop data.length
      payloadBufSize := data.length
      writable := fun positive => msg.writable (positive.trans_le enough) }
  else copyToNewBuffer available msg data

/-- A static payload: the payload pointer is turned to it. -/
def pointToStatic (msg : PayloadMessage) (data : List UInt8) : PayloadMessage :=
  { msg with
    location := .static, buffer := data, payloadBufSize := 0
    writable := fun positive => absurd positive (Nat.lt_irrefl 0) }

/-- `coap_memmove` of the block to the front. -/
def moveToFront (msg : PayloadMessage) (offset bytesToSend : Nat) : Option PayloadMessage :=
  if msg.location = .null then none
  else some { msg with
    buffer := (msg.buffer.drop offset).take bytesToSend ++ msg.buffer.drop bytesToSend }

/-- The payload from an offset on, one block long. -/
def placePayload (available : Bool) (msg : PayloadMessage) (pPayload : PayloadSource) (offset bytesToSend : Nat) :
    Option PayloadMessage :=
  match pPayload with
  | .own => moveToFront msg offset bytesToSend
  | .external data true => copyVolatile available msg ((data.drop offset).take bytesToSend)
  | .external data false => some (pointToStatic msg (data.drop offset))

/-- The block size that is served: what the client wishes may be too large. -/
def servedSize (b2opt : BlockOption) : Nat :=
  if b2opt.blockSize > maxPayloadSize then maxPayloadSize else b2opt.blockSize

/-- `CoAP_SetPayload` for a request with a Block2 option.  Block numbers have 20 bits, so that no product
overflows. -/
def setPayloadBlock (optionMem bufferMem : Bool) (b2opt : BlockOption) (pMsgResp : PayloadMessage)
    (pPayload : PayloadSource) (payloadTotalSize : UInt16) : Option (CoapResult × PayloadMessage) :=
  let blockSize := servedSize b2opt
  let offset := blockSize * b2opt.blockNum.toNat
  let totalBytesLeft := (payloadTotalSize.toNat : Int) - offset
  if totalBytesLeft ≤ 0 then do
    let (_, pMsgResp) ← addNewPayloadToMessage bufferMem pMsgResp blockNotExisting
    some (.errWrongOption, { pMsgResp with code := respBadOption })
  else
    let bytesToSend := if totalBytesLeft > blockSize then blockSize else totalBytesLeft.toNat
    let moreFlag := if totalBytesLeft > blockSize then true else b2opt.moreFlag
    let added := addBlkOptionToMsg optionMem (removeAllBlockOptionsFromMsg pMsgResp.toCoapMessage .block2)
      { b2opt with blockSize, moreFlag }
    do
    let pMsgResp ← placePayload bufferMem (setOptions pMsgResp added.options) pPayload offset bytesToSend
    some (.ok, setPayloadLength pMsgResp bytesToSend)

/-- `CoAP_SetPayload` for a request without one; what is there already stays where it is. -/
def setPayloadWhole (optionMem bufferMem : Bool) (pMsgResp : PayloadMessage) (pPayload : PayloadSource)
    (payloadTotalSize : UInt16) : Option (CoapResult × PayloadMessage) :=
  let large := payloadTotalSize.toNat > maxPayloadSize
  let bytesToSend := if large then maxPayloadSize else payloadTotalSize.toNat
  let options :=
    if large then
      (addBlkOptionToMsg optionMem pMsgResp.toCoapMessage
        { type := .block2, blockSize := maxPayloadSize, blockNum := 0, moreFlag := true }).options
    else pMsgResp.options
  let pMsgResp := setOptions pMsgResp options
  do
  let pMsgResp ←
    match pPayload with
    | .own => some pMsgResp
    | .external .. => placePayload bufferMem pMsgResp pPayload 0 bytesToSend
  some (.ok, setPayloadLength pMsgResp bytesToSend)

/-- `CoAP_SetPayload`.  `optionMem` and `bufferMem` say whether there is memory for the option and for a new
buffer. -/
def setPayload (optionMem bufferMem : Bool) (pMsgReq : Option CoapMessage) (pMsgResp : PayloadMessage)
    (pPayload : PayloadSource) (payloadTotalSize : UInt16) : Option (CoapResult × PayloadMessage) :=
  if payloadTotalSize = 0 then some (.ok, setPayloadLength pMsgResp 0)
  else
    match pMsgReq.map fun pMsgReq => getBlockOptionFromMsg pMsgReq .block2 with
    | some (.ok b2opt) => setPayloadBlock optionMem bufferMem b2opt pMsgResp pPayload payloadTotalSize
    | _ => setPayloadWhole optionMem bufferMem pMsgResp pPayload payloadTotalSize

end SmingCoap.Server
