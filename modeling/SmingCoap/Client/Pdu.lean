import SmingCoap.Wire.Options

/-! # The client's PDU container

`CoapPDU` is the C++ class of the same name: a byte buffer, its length and the
cached facts about it (`payloadPointer`, `payloadLength`, `numOptions`,
`maxAddedOptionNumber`).  The buffer is the memory from `_pdu` on, so a read or
a store past `bufferLength` is visible as such.

This module has the constructors, the accessors, the option readers, `validate`
and `getOptions`; the mutators are in `Client.Builder`.
-/

namespace SmingCoap

open Wire (Memory)

/-- An address: an allocation and an offset into it. -/
structure Pointer where
  block : Nat
  offset : Nat
  deriving DecidableEq, Repr

structure CoapPDU where
  /-- The allocation `_pdu` points to. -/
  block : Nat
  pdu : Memory
  pduLength : Nat
  constructedFromBuffer : Bool
  bufferLength : Nat
  payloadPointer : Option Pointer
  payloadLength : Nat
  numOptions : Nat
  maxAddedOptionNumber : Nat

/-- One entry of the array `getOptions` returns.  The two pointers are offsets from `_pdu`. -/
structure CoapOption where
  optionDelta : Nat
  optionNumber : Nat
  optionValueLength : Nat
  totalLength : Nat
  optionPointer : Nat
  optionValuePointer : Nat
  deriving DecidableEq, Repr

namespace CoapPDU

/-- The message types; `getType` reads them from bits 4 and 5 of the first byte. -/
inductive MessageType where
  | confirmable
  | nonConfirmable
  | acknowledgement
  | reset
  deriving DecidableEq, Repr

/-- The value of the enumerator, already in place for the first byte. -/
def MessageType.toByte : MessageType → UInt8
  | .confirmable => 0x00
  | .nonConfirmable => 0x10
  | .acknowledgement => 0x20
  | .reset => 0x30

def hdrSize : Nat := 4
def optionHdrByte : Nat := 1

def empty : UInt8 := 0x00
def get : UInt8 := 0x01
def post : UInt8 := 0x02
def put : UInt8 := 0x03
def delete : UInt8 := 0x04
def lastMethod : UInt8 := 0x1F
def created : UInt8 := 0x41
def content : UInt8 := 0x45
def badRequest : UInt8 := 0x80
def notAcceptable : UInt8 := 0x86
def preconditionFailed : UInt8 := 0x8C
def unsupportedContentFormat : UInt8 := 0x8F
def internalServerError : UInt8 := 0xA0
def proxyingNotSupported : UInt8 := 0xA5

def optionUriPath : Nat := 11
def optionContentFormat : Nat := 12
def optionUriQuery : Nat := 15

def contentFormatTextPlain : Nat := 0
def contentFormatAppLink : Nat := 40
def contentFormatAppXml : Nat := 41
def contentFormatAppOctet : Nat := 42
def contentFormatAppExi : Nat := 47
def contentFormatAppJson : Nat := 50

/-! ## Header fields -/

def getVersion (this : CoapPDU) : UInt8 := (this.pdu 0 &&& 0xC0) >>> 6

/-- Fails without touching the PDU when the version does not fit its two bits. -/
def setVersion (this : CoapPDU) (version : UInt8) : CoapPDU :=
  if version > 3 then this
  else { this with pdu := this.pdu.store 0 ((this.pdu 0 &&& (0x3F : UInt8)) ||| (version <<< 6)) }

def getType (this : CoapPDU) : MessageType :=
  match this.pdu 0 &&& 0x30 with
  | 0x00 => .confirmable
  | 0x10 => .nonConfirmable
  | 0x20 => .acknowledgement
  | _ => .reset

def setType (this : CoapPDU) (type : MessageType) : CoapPDU :=
  { this with pdu := this.pdu.store 0 ((this.pdu 0 &&& (0xCF : UInt8)) ||| type.toByte) }

def getTokenLength (this : CoapPDU) : Nat := (this.pdu 0 &&& 0x0F).toNat

/-- The token bytes `getTokenPointer` and `getTokenLength` delimit. -/
def getToken (this : CoapPDU) : List UInt8 := this.pdu.bytes 4 this.getTokenLength

def getCode (this : CoapPDU) : UInt8 := this.pdu 1

def setCode (this : CoapPDU) (code : UInt8) : CoapPDU :=
  { this with pdu := this.pdu.store 1 code }

/-- `endian_load16`: the two bytes at `from`, in network byte order. -/
def endianLoad16 (source : Memory) : Nat :=
  ((source 0).toUInt16 <<< 8 ||| (source 1).toUInt16).toNat

/-- `endian_store16`: the two bytes of a 16-bit number in network byte order. -/
def endianStore16 (number : Nat) : List UInt8 :=
  [UInt8.ofNat (number / 256), UInt8.ofNat number]

def getMessageID (this : CoapPDU) : Nat := endianLoad16 (this.pdu.offset 2)

def setMessageID (this : CoapPDU) (messageID : Nat) : CoapPDU :=
  { this with pdu := this.pdu.copy 2 (endianStore16 messageID) }

/-- The bytes of the PDU: what `getPDUPointer` and `getPDULength` delimit. -/
def bytes (this : CoapPDU) : List UInt8 := this.pdu.bytes 0 this.pduLength

/-! ## Constructors -/

/-- `CoapPDU()`: a zeroed four byte header in memory of its own.  `memory` is what the
heap holds behind it. -/
def new (block : Nat) (memory : Memory) : CoapPDU :=
  setVersion
    { block
      pdu := memory.copy 0 [0, 0, 0, 0]
      pduLength := 4
      constructedFromBuffer := false
      bufferLength := 4
      payloadPointer := none
      payloadLength := 0
      numOptions := 0
      maxAddedOptionNumber := 0 } 1

/-- `CoapPDU(buffer, bufferLength, pduLength)`: length 0 asks for a fresh header in the
buffer, whatever its size. -/
def ofBuffer (block : Nat) (buffer : Memory) (bufferLength pduLength : Nat) : CoapPDU :=
  let this : CoapPDU :=
    { block
      pdu := buffer
      pduLength
      constructedFromBuffer := true
      bufferLength
      payloadPointer := none
      payloadLength := 0
      numOptions := 0
      maxAddedOptionNumber := 0 }
  if pduLength = 0 then
    setVersion { this with pdu := buffer.copy 0 [0, 0, 0, 0], pduLength := 4 } 1
  else this

/-- `CoapPDU(pdu, pduLength)`: the container over exactly these bytes. -/
def ofBytes (block : Nat) (pdu : Memory) (pduLength : Nat) : CoapPDU :=
  ofBuffer block pdu pduLength pduLength

/-- The container is used again for a new PDU; the version is left at 0. -/
def reset (this : CoapPDU) : CoapPDU :=
  { this with
    pdu := fun i => if i < this.bufferLength then 0 else this.pdu i
    pduLength := 4
    numOptions := 0
    maxAddedOptionNumber := 0
    payloadPointer := none
    payloadLength := 0 }

/-- The length of what was read into the buffer, before it is validated. -/
def setPDULength (this : CoapPDU) (len : Nat) : CoapPDU := { this with pduLength := len }

/-! ## Reading options -/

/-- How many extension bytes the value `n` takes. -/
def computeExtraBytes (n : Nat) : Nat :=
  if n < 13 then 0 else if n < 269 then 1 else 2

/-- The 16 bit delta of the option a pointer points to. -/
def getOptionDelta (option : Memory) : Nat :=
  let delta := ((option 0 &&& 0xF0) >>> 4).toNat
  if delta < 13 then delta
  else if delta = 13 then (option 1).toNat + 13
  else if delta = 14 then (endianLoad16 (option.offset 1) + 269) % 65536
  else delta

/-- The 16 bit value length of the option a pointer points to. -/
def getOptionValueLength (option : Memory) : Nat :=
  let delta := ((option 0 &&& 0xF0) >>> 4).toNat
  let length := (option 0 &&& 0x0F).toNat
  if length < 13 then length
  else
    let offset := if delta = 13 then 2 else if delta = 14 then 3 else 1
    if length = 13 then (option offset).toNat + 13
    else (endianLoad16 (option.offset offset) + 269) % 65536

/-- The codes `validate` lets through. -/
def validCode (code : UInt8) : Bool :=
  !(code < empty ||
    (code > lastMethod && code < created) ||
    (code > content && code < badRequest) ||
    (code > notAcceptable && code < preconditionFailed) ||
    code == 0x8E ||
    (code > unsupportedContentFormat && code < internalServerError) ||
    code > proxyingNotSupported)

/-- The option loop of `validate`.  Every turn consumes a byte, so `pduLength + 1` turns
are enough and the first case is never reached. -/
def validateLoop : Nat → CoapPDU → Nat → Int → Nat → Nat → Nat × CoapPDU
  | 0, this, _, _, _, _ => (0, this)
  | fuel + 1, this, optionPos, bytesRemaining, optionNumber, numOptions =>
    if bytesRemaining > 0 then
      let optionHeader := this.pdu optionPos
      if optionHeader = 0xFF then
        if bytesRemaining > 1 then
          (1, { this with
            payloadPointer := some ⟨this.block, optionPos + 1⟩
            payloadLength := (bytesRemaining - 1).toNat
            numOptions })
        else
          -- payload marker but no payload
          (0, { this with payloadPointer := none, payloadLength := 0 })
      else
        let upperNibble := ((optionHeader &&& 0xF0) >>> 4).toNat
        let lowerNibble := (optionHeader &&& 0x0F).toNat
        if upperNibble = 0x0F ∨ lowerNibble = 0x0F then (0, this)
        else
          let bytesRemaining := bytesRemaining - 1
          -- the widths of the half-bytes themselves: 14 counts as one extension byte
          let headerBytesNeeded := computeExtraBytes upperNibble
          if headerBytesNeeded > bytesRemaining then (0, this)
          else
            let headerBytesNeeded := headerBytesNeeded + computeExtraBytes lowerNibble
            if headerBytesNeeded > bytesRemaining then (0, this)
            else
              let option := this.pdu.offset optionPos
              let optionDelta := getOptionDelta option
              let optionNumber := (optionNumber + optionDelta) % 65536
              let optionValueLength := getOptionValueLength option
              let totalLength := 1 + computeExtraBytes optionDelta +
                computeExtraBytes optionValueLength + optionValueLength
              if optionPos + totalLength > this.pduLength then (0, this)
              else
                validateLoop fuel this (optionPos + totalLength)
                  (bytesRemaining - totalLength + 1) optionNumber (numOptions + 1)
    else
      (1, { this with payloadPointer := none, payloadLength := 0, numOptions })

/-- Returns 1 on a valid PDU and 0 otherwise, and caches what the parse found. -/
def validate (this : CoapPDU) : Nat × CoapPDU :=
  if this.pduLength < 4 then (0, this)
  else if this.getVersion ≠ 1 then (0, this)
  else
    let tokenLength := this.getTokenLength
    if tokenLength > 8 then (0, this)
    else if hdrSize + tokenLength > this.pduLength then (0, this)
    else if validCode this.getCode = false then (0, this)
    else
      let optionPos := hdrSize + this.getTokenLength
      if optionPos = this.pduLength then
        (1, { this with numOptions := 0, payloadLength := 0 })
      else
        validateLoop (this.pduLength + 1) this optionPos (this.pduLength - optionPos) 0 0

/-- The walk of `getOptions` over the recorded number of options. -/
def getOptionsLoop (this : CoapPDU) : Nat → Nat → Nat → List CoapOption
  | 0, _, _ => []
  | remaining + 1, optionPos, optionNumber =>
    let option := this.pdu.offset optionPos
    let optionDelta := getOptionDelta option
    let optionNumber := (optionNumber + optionDelta) % 65536
    let optionValueLength := getOptionValueLength option
    let totalLength := 1 + computeExtraBytes optionDelta +
      computeExtraBytes optionValueLength + optionValueLength
    { optionDelta, optionNumber, optionValueLength, totalLength
      optionPointer := optionPos
      optionValuePointer := optionPos + totalLength - optionValueLength } ::
      getOptionsLoop this remaining (optionPos + totalLength) optionNumber

/-- The options as an array of structs; the null pointer it returns for none is the empty list. -/
def getOptions (this : CoapPDU) : List CoapOption :=
  getOptionsLoop this this.numOptions (hdrSize + this.getTokenLength) 0

def getNumOptions (this : CoapPDU) : Nat := this.numOptions

/-- An entry of `getOptions` as its number and the bytes its value pointer delimits. -/
def optionOf (this : CoapPDU) (option : CoapOption) : Wire.Opt :=
  ⟨option.optionNumber, this.pdu.bytes option.optionValuePointer option.optionValueLength⟩

/-- The options as a reader of `getOptions` sees them. -/
def readOptions (this : CoapPDU) : List Wire.Opt := this.getOptions.map this.optionOf

/-- The payload bytes `getPayloadPointer` and `getPayloadLength` delimit; nothing when the
pointer is null or points into another allocation. -/
def getPayload (this : CoapPDU) : List UInt8 :=
  match this.payloadPointer with
  | none => []
  | some pointer =>
    if pointer.block = this.block then this.pdu.bytes pointer.offset this.payloadLength else []

end CoapPDU

end SmingCoap
