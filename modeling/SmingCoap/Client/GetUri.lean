import SmingCoap.Client.Pdu

/-! # The URI of a PDU

`getURI` concatenates the Uri-Path and Uri-Query values into the caller's array.  Each value gets a separator behind
it before it is known whether another one follows; the first query turns the separator in front of it into '?', and
the last separator is taken back for the terminating zero.
-/

namespace SmingCoap

open Wire (Memory)

/-- The caller's array, and the positions that were written in it. -/
structure Destination where
  bytes : Memory
  written : List Nat

namespace Destination

/-- `dst[i] = byte`. -/
def put (dst : Destination) (i : Nat) (byte : UInt8) : Destination :=
  ⟨dst.bytes.store i byte, i :: dst.written⟩

/-- `memcpy(&dst[i], source, source.length)`. -/
def copy (dst : Destination) (i : Nat) (source : List UInt8) : Destination :=
  ⟨dst.bytes.copy i source, List.range' i source.length ++ dst.written⟩

end Destination

namespace CoapPDU

/-- What `getURI` returns, what it stores in `*outLen`, and the array. -/
structure UriResult where
  code : Nat
  outLen : Option Int
  dst : Destination

/-- The loop over the options and what follows it; `position` is how far `dst` has moved. -/
def getURILoop (this : CoapPDU) (dstlen : Int) :
    List CoapOption → Destination → Nat → Int → UInt8 → Bool → UriResult
  | [], dst, position, bytesLeft, _, _ =>
    -- the terminating separator makes room for the zero
    ⟨0, some (dstlen - 1 - (bytesLeft + 1)), dst.put (position - 1) 0x00⟩
  | option :: rest, dst, position, bytesLeft, separator, firstQuery =>
    if option.optionNumber = optionUriPath ∨ option.optionNumber = optionUriQuery then
      let query : Bool := option.optionNumber = optionUriQuery
      let dst := if query && firstQuery then dst.put (position - 1) 0x3F else dst
      let separator := if query then 0x26 else separator
      let firstQuery := firstQuery && !query
      let oLen := option.optionValueLength
      if (oLen : Int) > bytesLeft then ⟨1, none, dst⟩
      else if oLen = 1 ∧ this.pdu option.optionValuePointer = 0x2F then ⟨0, some 1, dst.put position 0x00⟩
      else
        let dst := dst.copy position (this.pdu.bytes option.optionValuePointer oLen)
        let bytesLeft := bytesLeft - oLen
        if bytesLeft ≥ 1 then
          getURILoop this dstlen rest (dst.put (position + oLen) separator) (position + oLen + 1) (bytesLeft - 1)
            separator firstQuery
        else ⟨1, none, dst⟩
    else getURILoop this dstlen rest dst position bytesLeft separator firstQuery

/-- `getURI` with pointers that are not null; `alloc` is the outcome of the allocation in `getOptions`. -/
def getURI (this : CoapPDU) (alloc : Bool) (dst : Destination) (dstlen : Int) : UriResult :=
  if dstlen ≤ 0 then ⟨1, some 0, dst.put 0 0x00⟩
  else if this.numOptions = 0 then ⟨0, some 0, dst.put 0 0x00⟩
  else if alloc = false then ⟨0, some 0, dst.put 0 0x00⟩
  else if dstlen - 1 ≥ 1 then
    getURILoop this dstlen this.getOptions (dst.put 0 0x2F) 1 (dstlen - 2) 0x2F true
  else ⟨1, none, dst⟩

end CoapPDU

end SmingCoap
