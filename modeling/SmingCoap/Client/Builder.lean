import SmingCoap.Client.Pdu

/-! # Building a PDU

The mutators of `CoapPDU`: token, options in any order, URI, content format and
payload.  `realloc` is an outcome handed in with each call, since it decides
whether the call succeeds, where the PDU lies afterwards and what the new bytes
hold; a PDU over an external buffer never asks for it.
-/

namespace SmingCoap

open Wire (Memory)

/-- What a successful `realloc` returned: the allocation and the bytes it found there. -/
structure Realloc where
  block : Nat
  fresh : Memory

/-- The outcomes of the calls to come; `none` is a null pointer. -/
abbrev Heap := Nat → Option Realloc

def Heap.next (heap : Heap) : Option Realloc := heap 0

def Heap.rest (heap : Heap) : Heap := fun i => heap (i + 1)

namespace CoapPDU

/-- Brings the PDU to `pduLength` bytes, from the heap or inside the external buffer; `none`
when there is no space.  This is the allocation block that `addOption` has twice and
`setToken` and `mallocPayload` have once. -/
def reserve (this : CoapPDU) (grant : Option Realloc) (pduLength : Nat) : Option CoapPDU :=
  if this.constructedFromBuffer = false then
    match grant with
    | none => none
    | some memory =>
      some { this with
        block := memory.block
        -- `realloc` keeps the bytes of the old allocation
        pdu := fun i => if i < this.bufferLength ∧ i < pduLength then this.pdu i else memory.fresh i
        pduLength
        bufferLength := pduLength }
  else if pduLength > this.bufferLength then none
  else some { this with pduLength }

/-- Gives back what a shorter PDU does not need: memory of its own is reallocated, which may fail,
and an external buffer keeps its size. -/
def shrink (this : CoapPDU) (grant : Option Realloc) : Option CoapPDU :=
  if this.constructedFromBuffer = false then this.reserve grant this.pduLength else some this

/-- The byte loop of `shiftPDUUp`. -/
def shiftUpLoop : Nat → Memory → Int → Int → Memory
  | 0, pdu, _, _ => pdu
  | shiftAmount + 1, pdu, destPointer, srcPointer =>
    shiftUpLoop shiftAmount (pdu.store destPointer.toNat (pdu srcPointer.toNat))
      (destPointer - 1) (srcPointer - 1)

/-- Moves a block of bytes to the end of the PDU. -/
def shiftPDUUp (this : CoapPDU) (shiftOffset shiftAmount : Int) : CoapPDU :=
  let destPointer : Int := this.pduLength - 1
  { this with
    pdu := shiftUpLoop shiftAmount.toNat this.pdu destPointer (destPointer - shiftOffset) }

/-- The byte loop of `shiftPDUDown`. -/
def shiftDownLoop : Nat → Memory → Nat → Nat → Memory
  | 0, pdu, _, _ => pdu
  | shiftAmount + 1, pdu, startLocation, srcPointer =>
    shiftDownLoop shiftAmount (pdu.store startLocation (pdu srcPointer))
      (startLocation + 1) (srcPointer + 1)

/-- Moves a block of bytes down to `startLocation`. -/
def shiftPDUDown (this : CoapPDU) (startLocation shiftOffset shiftAmount : Nat) : CoapPDU :=
  { this with
    pdu := shiftDownLoop shiftAmount this.pdu startLocation (startLocation + shiftOffset) }

/-! ## Token -/

def setTokenLength (this : CoapPDU) (tokenLength : Nat) : Nat × CoapPDU :=
  if tokenLength > 8 then (1, this)
  else
    (0, { this with
      pdu := this.pdu.store 0 ((this.pdu 0 &&& (0xF0 : UInt8)) ||| UInt8.ofNat tokenLength) })

/-- Returns 0 on success.  The old length is kept in eight bits. -/
def setToken (this : CoapPDU) (grant : Option Realloc) (token : List UInt8) : Nat × CoapPDU :=
  let tokenLength := token.length
  if tokenLength = 0 then (1, this)
  else
    let oldTokenLength := this.getTokenLength
    if tokenLength = oldTokenLength then (0, { this with pdu := this.pdu.copy 4 token })
    else
      let oldPDULength := this.pduLength % 256
      let pduLength := this.pduLength - oldTokenLength + tokenLength
      if pduLength > oldPDULength then
        match this.reserve grant pduLength with
        | none => (1, { this with pduLength := oldPDULength })
        | some this =>
          let this := this.shiftPDUUp ((pduLength : Int) - oldPDULength)
            ((pduLength : Int) - tokenLength - hdrSize)
          (0, (setTokenLength { this with pdu := this.pdu.copy 4 token } tokenLength).2)
      else
        let this := { this with pduLength, pdu := this.pdu.copy 4 token }
        let this := this.shiftPDUDown (hdrSize + tokenLength) (oldPDULength - pduLength)
          (oldPDULength - oldTokenLength - hdrSize)
        match this.shrink grant with
        | none => (1, this)
        | some this => (0, (setTokenLength this tokenLength).2)

/-! ## Options -/

/-- The walk of `findInsertionPosition`, with the number of the last option passed.  Every
turn moves on, so `pduLength` turns are enough. -/
def findInsertionLoop (this : CoapPDU) (optionNumber : Nat) : Nat → Nat → Nat → Nat × Nat
  | 0, optionPos, currentOptionNumber => (optionPos, currentOptionNumber)
  | fuel + 1, optionPos, prevOptionNumber =>
    if optionPos < this.pduLength ∧ this.pdu optionPos ≠ 0xFF then
      let option := this.pdu.offset optionPos
      let optionDelta := getOptionDelta option
      let currentOptionNumber := (prevOptionNumber + optionDelta) % 65536
      let optionValueLength := getOptionValueLength option
      if currentOptionNumber > optionNumber then (optionPos, prevOptionNumber)
      else
        findInsertionLoop this optionNumber fuel
          (optionPos + computeExtraBytes optionDelta + computeExtraBytes optionValueLength +
            optionValueLength + 1)
          currentOptionNumber
    else (optionPos, prevOptionNumber)

/-- Where the option goes, and the number of the option before that place. -/
def findInsertionPosition (this : CoapPDU) (optionNumber : Nat) : Nat × Nat :=
  if optionNumber ≥ this.maxAddedOptionNumber ∨
      this.pduLength = hdrSize + this.getTokenLength then
    (this.pduLength, this.maxAddedOptionNumber)
  else
    findInsertionLoop this optionNumber this.pduLength (hdrSize + this.getTokenLength) 0

/-- The delta bytes over a header whose upper half is clear, and where they end.  `insertOption`
and `setOptionDelta` both have this block. -/
def storeDelta (pdu : Memory) (headerStart optionDelta : Nat) : Memory × Nat :=
  if optionDelta < 13 then
    (pdu.store headerStart (pdu headerStart ||| UInt8.ofNat (optionDelta <<< 4)), headerStart)
  else if optionDelta < 269 then
    let pdu := pdu.store headerStart (pdu headerStart ||| (0xD0 : UInt8))
    (pdu.store (headerStart + 1) (UInt8.ofNat (optionDelta - 13)), headerStart + 1)
  else
    let pdu := pdu.store headerStart (pdu headerStart ||| (0xE0 : UInt8))
    (pdu.copy (headerStart + 1) (endianStore16 (optionDelta - 269)), headerStart + 2)

/-- Rewrites the delta of the option at `optionPosition`, assuming space was made for it. -/
def setOptionDelta (this : CoapPDU) (optionPosition optionDelta : Nat) : CoapPDU :=
  let pdu := this.pdu.store optionPosition (this.pdu optionPosition &&& (0x0F : UInt8))
  { this with pdu := (storeDelta pdu optionPosition optionDelta).1 }

/-- The length bytes behind the delta bytes that end at `insertionPosition`, and where they end.
The last component is the length as `insertOption` goes on with it: the variable itself was
reduced for the two byte form. -/
def storeLength (pdu : Memory) (headerStart insertionPosition optionValueLength : Nat) :
    Memory × Nat × Nat :=
  if optionValueLength < 13 then
    (pdu.store headerStart (pdu headerStart ||| UInt8.ofNat (optionValueLength &&& 0x000F)),
      insertionPosition, optionValueLength)
  else if optionValueLength < 269 then
    let pdu := pdu.store headerStart (pdu headerStart ||| (0x0D : UInt8))
    (pdu.store (insertionPosition + 1) (UInt8.ofNat (optionValueLength - 13)),
      insertionPosition + 1, optionValueLength)
  else
    let pdu := pdu.store headerStart (pdu headerStart ||| (0x0E : UInt8))
    let optionValueLength := optionValueLength - 269
    (pdu.copy (insertionPosition + 1) (endianStore16 optionValueLength),
      insertionPosition + 2, optionValueLength)

/-- Writes an option into the space made for it. -/
def insertOption (this : CoapPDU) (headerStart optionDelta optionValueLength : Nat)
    (optionValue : List UInt8) : CoapPDU :=
  let pdu := this.pdu.store headerStart (this.pdu headerStart &&& (0x00 : UInt8))
  let (pdu, insertionPosition) := storeDelta pdu headerStart optionDelta
  let (pdu, insertionPosition, optionValueLength) :=
    storeLength pdu headerStart insertionPosition optionValueLength
  { this with pdu := pdu.copy (insertionPosition + 1) (optionValue.take optionValueLength) }

/-- Makes room for `optionLength` bytes at `insertionPosition` and rewrites the delta of the
option behind it; at the end of the PDU there is none. -/
def openGap (this : CoapPDU) (grant : Option Realloc)
    (insertedOptionNumber insertionPosition prevOptionNumber optionLength : Nat) : Option CoapPDU :=
  if insertionPosition = this.pduLength then this.reserve grant (this.pduLength + optionLength)
  else
    let nextOptionDelta := getOptionDelta (this.pdu.offset insertionPosition)
    let nextOptionNumber := prevOptionNumber + nextOptionDelta
    let nextOptionDeltaBytes := computeExtraBytes nextOptionDelta
    let newNextOptionDelta := (nextOptionNumber + 65536 - insertedOptionNumber) % 65536
    let newNextOptionDeltaBytes := computeExtraBytes newNextOptionDelta
    let optionDeltaAdjustment : Int := newNextOptionDeltaBytes - nextOptionDeltaBytes
    let mallocLength : Int := optionLength + optionDeltaAdjustment
    let pduLength := (this.pduLength + mallocLength).toNat
    match this.reserve grant pduLength with
    | none => none
    | some this =>
      let this := this.shiftPDUUp mallocLength (pduLength - (insertionPosition + mallocLength))
      -- the header of the option behind moves over the delta bytes it loses
      let nextHeaderPos := insertionPosition + mallocLength
      let header := this.pdu nextHeaderPos.toNat
      let nextHeaderPos := (nextHeaderPos - optionDeltaAdjustment).toNat
      let this := { this with pdu := this.pdu.store nextHeaderPos header }
      some (this.setOptionDelta nextHeaderPos newNextOptionDelta)

/-- The biggest number so far, noted when the option goes to the end. -/
def noteMaximum (this : CoapPDU) (insertionPosition insertedOptionNumber : Nat) : CoapPDU :=
  if insertionPosition = this.pduLength then
    { this with maxAddedOptionNumber := insertedOptionNumber }
  else this

/-- Adds an option in any order of numbers.  Returns 0 on success. -/
def addOption (this : CoapPDU) (grant : Option Realloc) (insertedOptionNumber : Nat)
    (optionValueLength : Nat) (optionValue : List UInt8) : Nat × CoapPDU :=
  let (insertionPosition, prevOptionNumber) := this.findInsertionPosition insertedOptionNumber
  let optionDelta := (insertedOptionNumber + 65536 - prevOptionNumber) % 65536
  let optionLength := (optionHdrByte + computeExtraBytes optionDelta +
    computeExtraBytes optionValueLength + optionValueLength) % 65536
  -- whether or not there is space
  let this := this.noteMaximum insertionPosition insertedOptionNumber
  match this.openGap grant insertedOptionNumber insertionPosition prevOptionNumber optionLength with
  | none => (1, this)
  | some this =>
    let this := this.insertOption insertionPosition optionDelta optionValueLength optionValue
    (0, { this with numOptions := this.numOptions + 1 })

/-! ## URI -/

/-- `strchr`: the rest of a C string from the first `byte` on.  The list is the string up to
the end of its buffer, and a zero byte ends it early. -/
def strchr (byte : UInt8) : List UInt8 → Option (List UInt8)
  | [] => none
  | head :: rest =>
    if head = byte then some (head :: rest) else if head = 0 then none else strchr byte rest

theorem strchr_append {byte : UInt8} {piece : List UInt8} (absent : byte ∉ piece) (ended : 0 ∉ piece)
    (rest : List UInt8) : strchr byte (piece ++ rest) = strchr byte rest := by
  induction piece with
  | nil => rfl
  | cons char piece inductionHypothesis =>
    simp only [List.mem_cons, not_or] at absent ended
    rw [List.cons_append, strchr, if_neg (Ne.symm absent.1), if_neg (Ne.symm ended.1),
      inductionHypothesis absent.2 ended.2]

theorem strchr_none {byte : UInt8} {piece : List UInt8} (absent : byte ∉ piece) (ended : 0 ∉ piece) :
    strchr byte piece = none := by
  have searched := strchr_append absent ended []
  rw [List.append_nil] at searched
  exact searched

theorem strchr_found {byte : UInt8} {piece : List UInt8} (absent : byte ∉ piece) (ended : 0 ∉ piece)
    (rest : List UInt8) : strchr byte (piece ++ byte :: rest) = some (byte :: rest) := by
  rw [strchr_append absent ended, strchr, if_pos rfl]

/-- One segment of the URI: `startP` behind a leading separator, and `endP`.  The flag says that a
'?' ended it. -/
def nextSegment (splitChar : UInt8) (startP : List UInt8) : List UInt8 × List UInt8 × Bool :=
  let startP := if startP.headD 0 = splitChar then startP.tail else startP
  match strchr splitChar startP with
  | some endP => (startP, endP, false)
  | none =>
    match strchr 0x3F startP with
    | none => (startP, [], false)
    | some endP => (startP, endP, true)

/-- The loop of `setURI`; `startP` is the part of the URI not yet read.  A turn reads at least
one byte of it. -/
def setURILoop : Nat → CoapPDU → Heap → UInt8 → Nat → List UInt8 → Nat × CoapPDU × Heap
  | 0, this, heap, _, _, _ => (0, this, heap)
  | fuel + 1, this, heap, splitChar, optionType, startP =>
    if startP.headD 0 = 0 ∨ startP.tail.headD 0 = 0 then (0, this, heap)
    else
      let (startP, endP, queryStageTriggered) := nextSegment splitChar startP
      let oLen := startP.length - endP.length
      let (failed, this) := this.addOption heap.next optionType (oLen % 65536) (startP.take oLen)
      if failed ≠ 0 then (1, this, heap.rest)
      else if queryStageTriggered then
        setURILoop fuel this heap.rest 0x26 optionUriQuery endP.tail
      else setURILoop fuel this heap.rest splitChar optionType endP

/-- Splits a path at '/' and a query at '&' into options. -/
def setURI (this : CoapPDU) (heap : Heap) (uri : List UInt8) : Nat × CoapPDU × Heap :=
  if uri.length = 0 then (1, this, heap)
  else if uri.length = 1 then
    (0, (this.addOption heap.next optionUriPath 1 uri).2, heap.rest)
  else setURILoop uri.length this heap 0x2F optionUriPath uri

/-! ## A length handed in -/

/-- What `setURI` hands to `addOption`: a number and the text between two pointers, each as the
part of the buffer from it on. -/
structure UriSlice where
  option : Nat
  startP : List UInt8
  endP : List UInt8

/-- The length as the code computes it: below zero when `endP` is before `startP`. -/
def UriSlice.oLen (slice : UriSlice) : Int := slice.startP.length - slice.endP.length

/-- The length as `addOption` takes it, in 16 bits. -/
def UriSlice.valueLength (slice : UriSlice) : Nat := (slice.oLen % 65536).toNat

def UriSlice.value (slice : UriSlice) : List UInt8 := slice.startP.take slice.valueLength

/-- What `setURI` leaves: the code it returns, the PDU, the outcomes of `realloc` not yet asked for,
and what it handed to `addOption`, in this order. -/
structure UriRun where
  code : Nat
  this : CoapPDU
  heap : Heap
  slices : List UriSlice

/-- `nextSegment` with the end of the URI where the length puts it.  The searches go on to the end
of the string. -/
def nextSegmentUpto (endOfUri : List UInt8) (splitChar : UInt8) (startP : List UInt8) :
    List UInt8 × List UInt8 × Bool :=
  let startP := if startP.headD 0 = splitChar then startP.tail else startP
  match strchr splitChar startP with
  | some endP => (startP, endP, false)
  | none =>
    match strchr 0x3F startP with
    | none => (startP, endOfUri, false)
    | some endP => (startP, endP, true)

/-- The loop of `setURI(uri, urilen)`; `none` when it has not come to its end in `fuel` turns. -/
def setURIUptoLoop (endOfUri : List UInt8) :
    Nat → CoapPDU → Heap → UInt8 → Nat → List UInt8 → Option UriRun
  | 0, _, _, _, _, _ => none
  | fuel + 1, this, heap, splitChar, optionType, startP =>
    if startP.headD 0 = 0 ∨ startP.tail.headD 0 = 0 then some ⟨0, this, heap, []⟩
    else
      let (startP, endP, queryStageTriggered) := nextSegmentUpto endOfUri splitChar startP
      let slice : UriSlice := ⟨optionType, startP, endP⟩
      let (failed, this) := this.addOption heap.next optionType slice.valueLength slice.value
      if failed ≠ 0 then some ⟨1, this, heap.rest, [slice]⟩
      else
        let behind :=
          if queryStageTriggered then
            setURIUptoLoop endOfUri fuel this heap.rest 0x26 optionUriQuery endP.tail
          else setURIUptoLoop endOfUri fuel this heap.rest splitChar optionType endP
        behind.map fun run => { run with slices := slice :: run.slices }

/-- `setURI(uri, urilen)` on a buffer; the other `setURI` calls it with the length of the string. -/
def setURIUpto (fuel : Nat) (this : CoapPDU) (heap : Heap) (uri : List UInt8) (urilen : Nat) :
    Option UriRun :=
  if urilen = 0 then some ⟨1, this, heap, []⟩
  else if urilen = 1 then
    let slice : UriSlice := ⟨optionUriPath, uri, uri.tail⟩
    some ⟨0, (this.addOption heap.next optionUriPath 1 slice.value).2, heap.rest, [slice]⟩
  else setURIUptoLoop (uri.drop urilen) fuel this heap 0x2F optionUriPath uri

/-! ## Content format -/

/-- Adds the content format in the fewest bytes; text/plain is the empty value. -/
def setContentFormat (this : CoapPDU) (grant : Option Realloc) (format : Nat) : Nat × CoapPDU :=
  if format = contentFormatTextPlain then this.addOption grant optionContentFormat 0 []
  else if format = contentFormatAppJson ∨ format = contentFormatAppExi ∨
      format = contentFormatAppXml ∨ format = contentFormatAppOctet ∨
      format = contentFormatAppLink then
    this.addOption grant optionContentFormat 1 [UInt8.ofNat format]
  else if format % 65536 ≤ 0xFF then
    this.addOption grant optionContentFormat 1 [UInt8.ofNat format]
  else this.addOption grant optionContentFormat 2 (endianStore16 format)

/-! ## Payload -/

/-- Space for a payload of `len` bytes and the pointer to it; `none` on failure. -/
def mallocPayload (this : CoapPDU) (grant : Option Realloc) (len : Nat) : Option Pointer × CoapPDU :=
  if len = 0 then (none, this)
  else if len = this.payloadLength then (this.payloadPointer, this)
  else
    let (markerSpace, payloadSpace) : Nat × Int :=
      if this.payloadLength ≠ 0 then (0, (len : Int) - this.payloadLength) else (1, (len : Int))
    let newLen := ((this.pduLength : Int) + payloadSpace + markerSpace).toNat
    match this.reserve grant newLen with
    | none => (none, this)
    | some reserved =>
      match this.payloadPointer with
      | none =>
        let payloadPointer : Pointer := ⟨reserved.block, this.pduLength + 1⟩
        (some payloadPointer, { reserved with
          pdu := reserved.pdu.store this.pduLength (0xFF : UInt8)
          payloadPointer := some payloadPointer
          payloadLength := len })
      | some payloadPointer => (some payloadPointer, { reserved with payloadLength := len })

/-- Returns 0 on success.  A pointer into an allocation that `realloc` has moved away from is
written through without effect on the PDU. -/
def setPayload (this : CoapPDU) (grant : Option Realloc) (payload : List UInt8) : Nat × CoapPDU :=
  match this.mallocPayload grant payload.length with
  | (none, this) => (1, this)
  | (some pointer, this) =>
    if pointer.block = this.block then
      (0, { this with pdu := this.pdu.copy pointer.offset payload })
    else (0, this)

end CoapPDU

/-- `CoapClient::builPDU` on a new PDU at `block`: the PDU and the next `message_id`. -/
def builPDU (block : Nat) (memory : Memory) (heap : Heap) (messageID : UInt16)
    (connType : CoapPDU.MessageType) (method : UInt8) (pathWithQuery : List UInt8) (format : Nat)
    (payload : List UInt8) : CoapPDU × UInt16 :=
  let pdu := CoapPDU.new block memory
  let pdu := pdu.setVersion 1
  let pdu := pdu.setType connType
  let pdu := pdu.setCode method
  let (_, pdu) := pdu.setToken heap.next [3, 2, 1, 1]
  let pdu := pdu.setMessageID messageID.toNat
  let (_, pdu, heap) := pdu.setURI heap.rest pathWithQuery
  let (_, pdu) := pdu.setContentFormat heap.next format
  let pdu := if payload.length > 0 then (pdu.setPayload heap.rest.next payload).2 else pdu
  (pdu, messageID + 1)

end SmingCoap
