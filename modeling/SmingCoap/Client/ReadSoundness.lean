import SmingCoap.Client.ValidateSoundness
import SmingCoap.Wire.Trace

/-! # The bytes `validate` reads

`Reading.validate` is `validate` over a pointer that notes each read (`value_validate`).  The loop checks before an
option that its header and extension bytes are there, but takes their number from `computeExtraBytes` of the
half-byte, and a half-byte of 14 counts as one byte of the two it announces.  So the reads stay inside the PDU
exactly when each option the loop comes to has room for the bytes its halves announce (`Announced`).
-/

namespace SmingCoap

open Wire (Memory Source Traced Cursor Finishes)
open Relation (ReflTransGen)

namespace CoapPDU

namespace Reading

/-! ## The readers -/

/-- `endian_load16`: both bytes. -/
def endianLoad16 (source : Source) : Traced Nat := do
  let high ← source 0
  let low ← source 1
  return (high.toUInt16 <<< 8 ||| low.toUInt16).toNat

def getOptionDelta (option : Source) : Traced Nat := do
  let header ← option 0
  let delta := ((header &&& 0xF0) >>> 4).toNat
  if delta < 13 then return delta
  else if delta = 13 then
    let extended ← option 1
    return extended.toNat + 13
  else if delta = 14 then
    let value ← endianLoad16 (option.offset 1)
    return (value + 269) % 65536
  else return delta

/-- The C function reads the first byte twice. -/
def getOptionValueLength (option : Source) : Traced Nat := do
  let header ← option 0
  let delta := ((header &&& 0xF0) >>> 4).toNat
  let header ← option 0
  let length := (header &&& 0x0F).toNat
  if length < 13 then return length
  else
    let offset := if delta = 13 then 2 else if delta = 14 then 3 else 1
    if length = 13 then
      let extended ← option offset
      return extended.toNat + 13
    else
      let value ← endianLoad16 (option.offset offset)
      return (value + 269) % 65536

def getVersion (this : CoapPDU) : Traced UInt8 := do
  let header ← Source.pointer this.pdu 0 0
  return (header &&& 0xC0) >>> 6

def getTokenLength (this : CoapPDU) : Traced Nat := do
  let header ← Source.pointer this.pdu 0 0
  return (header &&& 0x0F).toNat

def getCode (this : CoapPDU) : Traced UInt8 := Source.pointer this.pdu 0 1

/-- The option loop of `validate`. -/
def validateLoop : Nat → CoapPDU → Nat → Int → Nat → Nat → Traced (Nat × CoapPDU)
  | 0, this, _, _, _, _ => return (0, this)
  | fuel + 1, this, optionPos, bytesRemaining, optionNumber, numOptions =>
    if bytesRemaining > 0 then do
      let optionHeader ← Source.pointer this.pdu optionPos 0
      if optionHeader = 0xFF then
        if bytesRemaining > 1 then
          return (1, { this with
            payloadPointer := some ⟨this.block, optionPos + 1⟩
            payloadLength := (bytesRemaining - 1).toNat
            numOptions })
        else return (0, { this with payloadPointer := none, payloadLength := 0 })
      else
        let upperNibble := ((optionHeader &&& 0xF0) >>> 4).toNat
        let lowerNibble := (optionHeader &&& 0x0F).toNat
        if upperNibble = 0x0F ∨ lowerNibble = 0x0F then return (0, this)
        else
          let bytesRemaining := bytesRemaining - 1
          let headerBytesNeeded := computeExtraBytes upperNibble
          if headerBytesNeeded > bytesRemaining then return (0, this)
          else
            let headerBytesNeeded := headerBytesNeeded + computeExtraBytes lowerNibble
            if headerBytesNeeded > bytesRemaining then return (0, this)
            else
              let optionDelta ← getOptionDelta (.pointer this.pdu optionPos)
              let optionNumber := (optionNumber + optionDelta) % 65536
              let optionValueLength ← getOptionValueLength (.pointer this.pdu optionPos)
              let totalLength := 1 + computeExtraBytes optionDelta +
                computeExtraBytes optionValueLength + optionValueLength
              if optionPos + totalLength > this.pduLength then return (0, this)
              else
                validateLoop fuel this (optionPos + totalLength)
                  (bytesRemaining - totalLength + 1) optionNumber (numOptions + 1)
    else return (1, { this with payloadPointer := none, payloadLength := 0, numOptions })

def validate (this : CoapPDU) : Traced (Nat × CoapPDU) :=
  if this.pduLength < 4 then return (0, this)
  else do
    let version ← getVersion this
    if version ≠ 1 then return (0, this)
    else
      let tokenLength ← getTokenLength this
      if tokenLength > 8 then return (0, this)
      else if hdrSize + tokenLength > this.pduLength then return (0, this)
      else
        let code ← getCode this
        if validCode code = false then return (0, this)
        else
          let tokenLength ← getTokenLength this
          let optionPos := hdrSize + tokenLength
          if optionPos = this.pduLength then
            return (1, { this with numOptions := 0, payloadLength := 0 })
          else
            validateLoop (this.pduLength + 1) this optionPos (this.pduLength - optionPos) 0 0

/-! ## The same results -/

@[simp] theorem value_getOptionDelta (memory : Memory) (position : Nat) :
    (getOptionDelta (.pointer memory position)).value = CoapPDU.getOptionDelta (memory.offset position) := by
  simp only [getOptionDelta, CoapPDU.getOptionDelta, endianLoad16, CoapPDU.endianLoad16, Traced.value_bind,
    Source.value_pointer, Source.offset_pointer, Traced.value_ite, Traced.value_pure, Memory.offset_apply,
    Nat.add_zero, Nat.add_assoc]
  rfl

@[simp] theorem value_getOptionValueLength (memory : Memory) (position : Nat) :
    (getOptionValueLength (.pointer memory position)).value =
      CoapPDU.getOptionValueLength (memory.offset position) := by
  simp only [getOptionValueLength, CoapPDU.getOptionValueLength, endianLoad16, CoapPDU.endianLoad16,
    Traced.value_bind, Source.value_pointer, Source.offset_pointer, Traced.value_ite, Traced.value_pure,
    Memory.offset_apply, Nat.add_zero, Nat.add_assoc]
  rfl

theorem value_validateLoop (this : CoapPDU) (fuel optionPos : Nat) (bytesRemaining : Int)
    (optionNumber numOptions : Nat) :
    (validateLoop fuel this optionPos bytesRemaining optionNumber numOptions).value =
      CoapPDU.validateLoop fuel this optionPos bytesRemaining optionNumber numOptions := by
  induction fuel generalizing optionPos bytesRemaining optionNumber numOptions with
  | zero => rfl
  | succ fuel inductionHypothesis =>
    simp only [validateLoop, CoapPDU.validateLoop, Traced.value_bind, Source.value_pointer, Traced.value_ite,
      Traced.value_pure, Nat.add_zero, value_getOptionDelta, value_getOptionValueLength, inductionHypothesis]

theorem value_validate (this : CoapPDU) : (validate this).value = this.validate := by
  simp only [validate, CoapPDU.validate, getVersion, CoapPDU.getVersion, getTokenLength, CoapPDU.getTokenLength,
    getCode, CoapPDU.getCode, Traced.value_bind, Source.value_pointer, Traced.value_ite, Traced.value_pure,
    value_validateLoop]
  rfl

end Reading

end CoapPDU

/-! ## Which positions -/

/-- The loop lets the option at `position` pass and reads its extension bytes. -/
structure Guarded (memory : Memory) (stop position : Nat) : Prop where
  inside : position < stop
  upper : Wire.upperNibble (memory position) ≤ 14
  lower : Wire.lowerNibble (memory position) ≤ 14
  announced : position + 1 + Wire.extra (Wire.upperNibble (memory position)) +
    Wire.extra (Wire.lowerNibble (memory position)) ≤ stop

theorem Reads.guarded {memory : Memory} {stop : Nat} {cursor next : Cursor} (reads : Reads memory stop cursor next) :
    Guarded memory stop cursor.position :=
  ⟨reads.inside, reads.upper, reads.lower, reads.announced⟩

namespace CoapPDU

namespace Reading

/-- The delta takes the bytes that the upper half announces. -/
theorem getOptionDelta_within {memory : Memory} {position : Nat} (stop : Nat)
    (upper : Wire.upperNibble (memory position) ≤ 14) :
    (getOptionDelta (.pointer memory position)).Within stop ↔
      position + 1 + Wire.width (Wire.upperNibble (memory position)) ≤ stop := by
  simp only [getOptionDelta, endianLoad16, Traced.within_bind, Traced.within_ite, Traced.within_pure,
    Source.within_pointer, Source.offset_pointer, Source.value_pointer, Nat.add_zero, shiftRight_and, Wire.width,
    implies_true, true_and, and_true]
  split
  · omega
  · split <;> omega

/-- The value length takes those of the lower half, behind the delta's. -/
theorem getOptionValueLength_within {memory : Memory} {position stop : Nat} (inside : position < stop)
    (upper : Wire.upperNibble (memory position) ≤ 14) (lower : Wire.lowerNibble (memory position) ≤ 14) :
    (getOptionValueLength (.pointer memory position)).Within stop ↔
      Wire.width (Wire.lowerNibble (memory position)) = 0 ∨
        position + Wire.headerSize memory position ≤ stop := by
  simp only [getOptionValueLength, endianLoad16, Traced.within_bind, Traced.within_ite, Traced.within_pure,
    Source.within_pointer, Source.offset_pointer, Source.value_pointer, Nat.add_zero, shiftRight_and,
    Wire.and_lowerNibble, lengthOffset_eq upper, Wire.headerSize, inside, implies_true, true_and, and_true]
  generalize Wire.width (Wire.upperNibble (memory position)) = deltaBytes
  rw [Wire.width]
  split
  · omega
  · split <;> omega

section Loop

variable {this : CoapPDU} {fuel number numOptions position : Nat}

/-- At an end, or at an option that does not pass, the loop looks at one byte at most. -/
theorem validateLoop_within_stuck (stuck : ¬ Guarded this.pdu this.pduLength position) :
    (validateLoop (fuel + 1) this position (this.pduLength - position) number numOptions).Within this.pduLength := by
  simp only [validateLoop, Traced.within_bind, Traced.within_ite, Traced.within_pure, Source.within_pointer,
    Source.value_pointer, Nat.add_zero, shiftRight_and, Wire.and_lowerNibble, computeExtraBytes_eq, implies_true,
    true_and, and_true]
  intro some
  refine ⟨by omega, ?_⟩
  intro _ halves _ announced
  have upperBound := Wire.upperNibble_lt (this.pdu position)
  have lowerBound := Wire.lowerNibble_lt (this.pdu position)
  exact absurd ⟨by omega, by omega, by omega, by omega⟩ stuck

/-- An option that passes is read with its extension bytes, and then the loop goes on behind it or ends. -/
theorem validateLoop_within_guarded {cursor : Cursor} (guarded : Guarded this.pdu this.pduLength cursor.position) :
    (validateLoop (fuel + 1) this cursor.position (this.pduLength - cursor.position) cursor.number
        numOptions).Within this.pduLength ↔
      cursor.position + Wire.headerSize this.pdu cursor.position ≤ this.pduLength ∧
        ∀ next, Reads this.pdu this.pduLength cursor next →
          (validateLoop fuel this next.position (this.pduLength - next.position) next.number
            (numOptions + 1)).Within this.pduLength := by
  obtain ⟨inside, upper, lower, announced⟩ := guarded
  have marker := Wire.ne_marker_of_upperNibble upper
  have some : (this.pduLength : Int) - cursor.position > 0 := by omega
  have halves : ¬ (Wire.upperNibble (this.pdu cursor.position) = 0x0F ∨
      Wire.lowerNibble (this.pdu cursor.position) = 0x0F) := by omega
  -- the two checks of the loop on the extension bytes, which pass
  have first : ¬ (Wire.extra (Wire.upperNibble (this.pdu cursor.position)) : Int) >
      (this.pduLength : Int) - cursor.position - 1 := by omega
  have second : ¬ ((Wire.extra (Wire.upperNibble (this.pdu cursor.position)) +
      Wire.extra (Wire.lowerNibble (this.pdu cursor.position)) : Nat) : Int) >
        (this.pduLength : Int) - cursor.position - 1 := by omega
  have deltaReads := getOptionDelta_within this.pduLength upper
  have lengthReads := getOptionValueLength_within inside upper lower
  have delta := getOptionDelta_eq this.pdu cursor.position upper
  have length := getOptionValueLength_eq this.pdu cursor.position upper lower
  have next : ∀ other, Reads this.pdu this.pduLength cursor other ↔
      other = advance this.pdu cursor ∧ (advance this.pdu cursor).position ≤ this.pduLength := by
    intro other
    constructor
    · intro reads
      exact ⟨reads.next_eq, reads.next_eq ▸ reads.room⟩
    · rintro ⟨rfl, room⟩
      exact ⟨inside, upper, lower, announced, rfl, room⟩
  rw [validateLoop, if_pos some]
  simp only [Traced.within_bind, Source.within_pointer, Source.value_pointer, Nat.add_zero, if_neg marker,
    shiftRight_and, Wire.and_lowerNibble, computeExtraBytes_eq, if_neg halves, if_neg first, if_neg second, deltaReads,
    lengthReads, value_getOptionDelta, value_getOptionValueLength, delta, length, Traced.within_ite,
    Traced.within_pure, next, inside, true_and, implies_true]
  have remaining : (this.pduLength : Int) - cursor.position - 1 -
      (1 + Wire.extra (Wire.deltaAt this.pdu cursor.position % 65536) +
        Wire.extra (Wire.lengthAt this.pdu cursor.position % 65536) +
        Wire.lengthAt this.pdu cursor.position % 65536 : Nat) + 1 =
      this.pduLength - (advance this.pdu cursor).position := by
    simp only [advance]
    omega
  rw [remaining]
  constructor
  · rintro ⟨deltaInside, lengthInside, rest⟩
    refine ⟨?_, ?_⟩
    · rw [Wire.headerSize] at lengthInside ⊢
      omega
    · rintro other ⟨rfl, room⟩
      exact rest (Nat.not_lt.mpr room)
  · rintro ⟨header, rest⟩
    refine ⟨?_, Or.inr header, fun room => rest _ ⟨rfl, Nat.not_lt.mp room⟩⟩
    rw [Wire.headerSize] at header
    omega

/-- The reads of the loop stay inside exactly when each option it comes to and lets pass ends its header there. -/
theorem validateLoop_within_iff (cursor : Cursor) (enough : this.pduLength - cursor.position < fuel) :
    (validateLoop fuel this cursor.position (this.pduLength - cursor.position) cursor.number
        numOptions).Within this.pduLength ↔
      ∀ last, ReflTransGen (Reads this.pdu this.pduLength) cursor last →
        Guarded this.pdu this.pduLength last.position →
        last.position + Wire.headerSize this.pdu last.position ≤ this.pduLength := by
  -- induction on the fuel; every read moves on, so the fuel is enough
  induction fuel generalizing cursor numOptions with
  | zero => omega
  | succ fuel inductionHypothesis =>
    by_cases guarded : Guarded this.pdu this.pduLength cursor.position
    · rw [validateLoop_within_guarded guarded]
      constructor
      · rintro ⟨header, rest⟩ last path passes
        cases path using ReflTransGen.head_induction_on with
        | refl => exact header
        | head first behind =>
          have progress := first.lt
          exact (inductionHypothesis _ (by have inside := guarded.inside; omega)).mp (rest _ first) last behind passes
      · intro all
        refine ⟨all cursor .refl guarded, ?_⟩
        intro next reads
        have progress := reads.lt
        have inside := guarded.inside
        exact (inductionHypothesis _ (by omega)).mpr fun last path passes => all last (.head reads path) passes
    · constructor
      · intro _ last path passes
        cases path using ReflTransGen.head_induction_on with
        | refl => exact absurd passes guarded
        | head first _ => exact absurd first.guarded guarded
      · intro _
        exact validateLoop_within_stuck guarded

end Loop

end Reading

/-- Every option that `validate` comes to and lets pass ends its header, extension bytes included, in the PDU. -/
def HeadersInside (this : CoapPDU) : Prop :=
  HeaderAccepted this.pdu this.pduLength →
    ∀ last, ReflTransGen (Reads this.pdu this.pduLength) ⟨4 + (this.pdu 0).toNat % 16, 0⟩ last →
      Guarded this.pdu this.pduLength last.position →
      last.position + Wire.headerSize this.pdu last.position ≤ this.pduLength

/-- Over the header `validate` reads three bytes, all of them inside. -/
theorem Reading.validate_within (this : CoapPDU) :
    (Reading.validate this).Within this.pduLength ↔
      (HeaderAccepted this.pdu this.pduLength → 4 + (this.pdu 0).toNat % 16 ≠ this.pduLength →
        (Reading.validateLoop (this.pduLength + 1) this (4 + (this.pdu 0).toNat % 16)
          (this.pduLength - (4 + (this.pdu 0).toNat % 16 : Nat)) 0 0).Within this.pduLength) := by
  have version : ((this.pdu 0 &&& 0xC0) >>> 6) = 1 ↔ (this.pdu 0).toNat / 64 = 1 := this.getVersion_eq_one
  simp only [validate, getVersion, getTokenLength, getCode, Traced.within_bind, Traced.within_ite, Traced.within_pure,
    Source.within_pointer, Traced.value_bind, Traced.value_pure, Source.value_pointer, Nat.add_zero, Nat.zero_add,
    Wire.and_lowerNibble, implies_true, true_and, and_true, hdrSize, version, ne_eq]
  constructor
  · intro reads header inside
    have size := header.size
    have token := header.token
    obtain ⟨_, behind⟩ := reads (by omega)
    obtain ⟨_, behind⟩ := behind (not_not.mpr header.version)
    obtain ⟨_, behind⟩ := behind (Nat.not_lt.mpr header.tokenLength) (Nat.not_lt.mpr token)
    exact (behind (by simp [header.code])).2 inside
  · intro reads size
    refine ⟨by omega, fun one => ⟨by omega, fun tokenLength token => ⟨by omega, fun code => ⟨by omega, ?_⟩⟩⟩⟩
    exact reads ⟨Nat.not_lt.mp size, not_not.mp one, Nat.not_lt.mp tokenLength, Nat.not_lt.mp token,
      eq_true_of_ne_false code⟩

/-- `validate` reads nothing behind the PDU exactly when the headers of its options end in it. -/
theorem validate_reads_inside (this : CoapPDU) :
    (Reading.validate this).value = this.validate ∧
      ((Reading.validate this).Within this.pduLength ↔ this.HeadersInside) := by
  refine ⟨Reading.value_validate this, ?_⟩
  rw [Reading.validate_within, HeadersInside]
  have loop := @Reading.validateLoop_within_iff this (this.pduLength + 1) 0 ⟨4 + (this.pdu 0).toNat % 16, 0⟩
    (by simp only; omega)
  constructor
  · intro reads header
    by_cases atEnd : 4 + (this.pdu 0).toNat % 16 = this.pduLength
    · intro last path passes
      -- behind the token there is no option
      have inside := passes.inside
      cases path using ReflTransGen.head_induction_on with
      | refl => exact absurd atEnd (Nat.ne_of_lt inside)
      | head first _ => exact absurd atEnd (Nat.ne_of_lt first.inside)
    · exact loop.mp (reads header atEnd)
  · intro inside header _
    exact loop.mpr (inside header)

/-- The half-byte 14 announces two bytes behind byte 4, and there is one. -/
theorem validate_reads_behind : ¬ ∀ this : CoapPDU, (Reading.validate this).Within this.pduLength := by
  intro all
  have inside := all (ofBytes 0 (Memory.copy (fun _ => 0) 0 [0x40, 0x01, 0x00, 0x00, 0xE0, 0xFF]) 6)
  have behind : 6 ∈ (Reading.validate
      (ofBytes 0 (Memory.copy (fun _ => 0) 0 [0x40, 0x01, 0x00, 0x00, 0xE0, 0xFF]) 6)).reads := by
    decide
  exact absurd (inside 6 behind) (by decide)

end CoapPDU

end SmingCoap
