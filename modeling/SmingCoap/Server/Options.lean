import SmingCoap.Wire.Options

/-! # Packing and parsing option lists

`coap_options.c`: the linked list of options, its packing into a datagram and
its parsing out of one.  Offsets, deltas, lengths and option numbers are 16 bit
variables and wrap; the source array is memory, since the parser reads extension
bytes before it checks whether they are there.
-/

namespace SmingCoap.Server

open Wire (Memory Opt)

/-- The results of the stack's functions. -/
inductive CoapResult where
  | ok
  | notFound
  | parseDatagramTooShort
  | parseUnkownCoapVersion
  | parseMessageFormatError
  | parseTooMuchPayload
  | errArgument
  | errOutOfMemory
  | errNotFound
  | errWrongOption
  | errExisting
  | errWrongRequest
  | badOptionVal
  | removed
  | errRemoteRst
  | errOutOfAttempts
  | errTimeout
  | waiting
  | holdingBack
  | retry
  deriving DecidableEq, Repr

def maxOptionValueSize : Nat := 1034

/-! ## The list -/

/-- `CoAP_AppendOptionToList`: behind the options of a smaller or equal number.  `available` is the
outcome of the allocation; where the option would have come first, the list start itself is
overwritten with the null pointer. -/
def appendOptionToList (available : Bool) (options : List Opt) (option : Opt) :
    CoapResult × List Opt :=
  let before := options.takeWhile (fun other => other.number ≤ option.number)
  if available then
    (.ok, before ++ option :: options.dropWhile (fun other => other.number ≤ option.number))
  else (.errOutOfMemory, if before = [] then [] else options)

/-! ## Packing -/

/-- The delta block (`shift` 4) or the length block (`shift` 0) of `pack_OptionsFromList`. -/
def packField (destArr : Memory) (optStartOffset offset value : Nat) (shift : UInt8) : Memory × Nat :=
  if value < 13 then
    (destArr.store optStartOffset (destArr optStartOffset ||| UInt8.ofNat value <<< shift), offset)
  else if value < 269 then
    let destArr := destArr.store optStartOffset (destArr optStartOffset ||| 13 <<< shift)
    (destArr.store offset (UInt8.ofNat value - 13), (offset + 1) % 65536)
  else
    let destArr := destArr.store optStartOffset (destArr optStartOffset ||| 14 <<< shift)
    let destArr := destArr.store offset (UInt8.ofNat ((value - 269) >>> 8))
    let offset := (offset + 1) % 65536
    (destArr.store offset (UInt8.ofNat ((value - 269) &&& 0xFF)), (offset + 1) % 65536)

/-- The byte loop over the option value. -/
def packValue (destArr : Memory) (offset : Nat) : List UInt8 → Memory × Nat
  | [] => (destArr, offset)
  | byte :: rest => packValue (destArr.store offset byte) ((offset + 1) % 65536) rest

/-- `pack_OptionsFromList` behind the options packed so far, and where it stops. -/
def packOptionsFromList (destArr : Memory) (offset lastOptNumber : Nat) : List Opt → Memory × Nat
  | [] => (destArr, offset)
  | option :: rest =>
    let currDelta := (option.number + 65536 - lastOptNumber) % 65536
    let destArr := destArr.store offset 0
    let (destArr, next) := packField destArr offset ((offset + 1) % 65536) currDelta 4
    let (destArr, next) := packField destArr offset next option.value.length 0
    let (destArr, next) := packValue destArr next option.value
    packOptionsFromList destArr next option.number rest

/-- The offset behind the extension bytes of a delta or a length, in `CoAP_NeededMem4PackOptions`. -/
def neededField (offset value : Nat) : Nat :=
  if value < 13 then offset
  else if value < 269 then (offset + 1) % 65536
  else (offset + 2) % 65536

/-- `CoAP_NeededMem4PackOptions` behind the options measured so far; the byte loop over the value only counts. -/
def neededMem4PackOptions (offset lastOptNumber : Nat) : List Opt → Nat
  | [] => offset
  | option :: rest =>
    let currDelta := (option.number + 65536 - lastOptNumber) % 65536
    let offset := (offset + 1) % 65536
    let offset := neededField offset currDelta
    let offset := neededField offset option.value.length
    neededMem4PackOptions ((offset + option.value.length) % 65536) option.number rest

/-! ## Parsing -/

/-- The 16 bit number a delta or length field stands for, and the offset behind its extension
bytes; `none` for the reserved 15. -/
def parseField (srcArr : Memory) (offset field : Nat) : Option (Nat × Nat) :=
  if field = 13 then some ((srcArr offset).toNat + 13, (offset + 1) % 65536)
  else if field = 14 then
    some ((((srcArr offset).toUInt16 <<< 8 ||| (srcArr (offset + 1)).toUInt16).toNat + 269) % 65536,
      (offset + 2) % 65536)
  else if field = 15 then none
  else some (field, offset)

/-- The loop of `parse_OptionsFromRaw`: its result, the options and the payload offset.  The course
of the loop depends on `offset` alone, so when 65536 turns do not end it, it never ends; `none`
stands for that. -/
def parseOptionsLoop (alloc : Nat → Bool) (srcArr : Memory) (srcLength : Nat) :
    Nat → Nat → Nat → List Opt → Option (CoapResult × List Opt × Option Nat)
  | 0, _, _, _ => none
  | fuel + 1, offset, lastOptionNumber, options =>
    if offset < srcLength then
      if srcArr offset = 0xFF then
        if srcLength - offset < 2 then some (.parseMessageFormatError, options, none)
        else some (.ok, options, some (offset + 1))
      else
        let currOptDeltaField := (srcArr offset >>> 4).toNat
        let currOptLengthField := (srcArr offset &&& 0x0F).toNat
        match parseField srcArr ((offset + 1) % 65536) currOptDeltaField with
        | none => some (.parseMessageFormatError, options, none)
        | some (currOptDelta, offset) =>
          match parseField srcArr offset currOptLengthField with
          | none => some (.parseMessageFormatError, options, none)
          | some (currOptLength, offset) =>
            if currOptLength > maxOptionValueSize then
              some (.parseMessageFormatError, options, none)
            else if (srcLength : Int) - offset < currOptLength then
              some (.parseMessageFormatError, options, none)
            else
              let lastOptionNumber := (currOptDelta + lastOptionNumber) % 65536
              match appendOptionToList (alloc options.length) options
                ⟨lastOptionNumber, srcArr.bytes offset currOptLength⟩ with
              | (.ok, options) =>
                parseOptionsLoop alloc srcArr srcLength fuel ((offset + currOptLength) % 65536)
                  lastOptionNumber options
              | (failed, options) => some (failed, options, none)
    else some (.ok, options, none)

/-- `parse_OptionsFromRaw` on an empty list. -/
def parseOptionsFromRaw (alloc : Nat → Bool) (srcArr : Memory) (srcLength : Nat) :
    Option (CoapResult × List Opt × Option Nat) :=
  if srcLength = 0 then some (.ok, [], none)
  else if srcArr 0 = 0xFF then some (.parseMessageFormatError, [], none)
  else parseOptionsLoop alloc srcArr srcLength 65536 0 0 []

end SmingCoap.Server
