import SmingCoap.Client.Builder
import SmingCoap.Client.ValidateSoundness

/-! # What one insertion writes

The stores of `storeDelta`, `storeLength`, `shiftPDUUp` and `openGap`, each with
what it puts where and what it leaves alone.  They add up to `insertOption_spec`:
the option is written as the format asks for, except that of a value of 269 bytes
or more the last 269 bytes stay what they were (`storedValue`), since
`storeLength` hands on the length it reduced for the header.
-/

namespace SmingCoap

open Wire (Memory Opt)

/-! ## Header bytes -/

theorem or_nibbles {upper lower : Nat} (upperBound : upper < 16) (lowerBound : lower < 16) :
    UInt8.ofNat (upper * 16) ||| UInt8.ofNat lower = UInt8.ofNat (upper * 16 + lower) := by
  apply UInt8.toNat_inj.mp
  rw [UInt8.toNat_or, Wire.toNat_ofNat_of_lt (by omega), Wire.toNat_ofNat_of_lt (by omega),
    Wire.toNat_ofNat_of_lt (by omega), Nat.mul_comm upper,
    Nat.two_pow_add_eq_or_of_lt (i := 4) (by omega)]

theorem and_low (byte : UInt8) : byte &&& (0x0F : UInt8) = UInt8.ofNat (Wire.lowerNibble byte) := by
  apply UInt8.toNat_inj.mp
  have bound := Wire.lowerNibble_lt byte
  rw [Wire.and_lowerNibble, Wire.toNat_ofNat_of_lt (by omega)]

/-- The lower half of a byte of which some bits were kept and some set. -/
theorem lowerNibble_update (byte mask set : UInt8) :
    Wire.lowerNibble (byte &&& mask ||| set) =
      (Wire.lowerNibble byte &&& Wire.lowerNibble mask) ||| Wire.lowerNibble set := by
  simp only [Wire.lowerNibble, UInt8.toNat_or, UInt8.toNat_and, show (16 : Nat) = 2 ^ 4 from rfl,
    Nat.or_mod_two_pow, Nat.and_mod_two_pow]

/-- Masks that keep the lower half and set bits of the upper one. -/
theorem lowerNibble_update_upper (byte : UInt8) {mask set : UInt8} (kept : Wire.lowerNibble mask = 15)
    (clear : Wire.lowerNibble set = 0) :
    Wire.lowerNibble (byte &&& mask ||| set) = Wire.lowerNibble byte := by
  rw [lowerNibble_update, kept, clear, Nat.or_zero, show (15 : Nat) = 2 ^ 4 - 1 from rfl,
    Nat.and_two_pow_sub_one_eq_mod]
  exact Nat.mod_eq_of_lt (Wire.lowerNibble_lt byte)

namespace CoapPDU

theorem endianStore16_eq {n : Nat} (large : ¬ n < 13) (larger : ¬ n < 269) :
    endianStore16 (n - 269) = Wire.extension n := by
  rw [endianStore16, Wire.extension, if_neg large, if_neg larger]

/-- What `storeDelta` leaves: the upper half of the header, the delta bytes, and all else as it
was. -/
structure DeltaStored (pdu result : Memory) (headerStart optionDelta : Nat) : Prop where
  header : result headerStart = pdu headerStart ||| UInt8.ofNat (Wire.nibble optionDelta * 16)
  extension : result.Holds (headerStart + 1) (Wire.extension optionDelta)
  frame : ∀ i, i < headerStart ∨ headerStart + Wire.extra optionDelta < i → result i = pdu i

theorem storeDelta_spec (pdu : Memory) (headerStart optionDelta : Nat) :
    (storeDelta pdu headerStart optionDelta).2 = headerStart + Wire.extra optionDelta ∧
      DeltaStored pdu (storeDelta pdu headerStart optionDelta).1 headerStart optionDelta := by
  -- the three formats of the delta: in the header byte, in one more byte, in two more
  by_cases small : optionDelta < 13
  · have extraEq : Wire.extra optionDelta = 0 := if_pos small
    have nibbleEq : Wire.nibble optionDelta = optionDelta := if_pos small
    have extensionEq : Wire.extension optionDelta = [] := if_pos small
    simp only [storeDelta, if_pos small]
    refine ⟨extraEq ▸ rfl, ?_, ?_, ?_⟩
    · rw [Memory.store_same, nibbleEq, Nat.shiftLeft_eq]
    · rw [extensionEq]
      exact Memory.holds_nil ..
    · intro i outside
      exact Memory.store_other _ _ (by omega)
  · by_cases medium : optionDelta < 269
    · have extraEq : Wire.extra optionDelta = 1 := by rw [Wire.extra, if_neg small, if_pos medium]
      have nibbleEq : Wire.nibble optionDelta = 13 := by rw [Wire.nibble, if_neg small, if_pos medium]
      have extensionEq : Wire.extension optionDelta = [UInt8.ofNat (optionDelta - 13)] := by
        rw [Wire.extension, if_neg small, if_pos medium]
      simp only [storeDelta, if_neg small, if_pos medium]
      refine ⟨extraEq ▸ rfl, ?_, ?_, ?_⟩
      · rw [Memory.store_other _ _ (by omega), Memory.store_same, nibbleEq]
        rfl
      · rw [extensionEq, Memory.holds_cons]
        exact ⟨Memory.store_same .., Memory.holds_nil ..⟩
      · intro i outside
        rw [Memory.store_other _ _ (by omega), Memory.store_other _ _ (by omega)]
    · have extraEq : Wire.extra optionDelta = 2 := by rw [Wire.extra, if_neg small, if_neg medium]
      have nibbleEq : Wire.nibble optionDelta = 14 := by rw [Wire.nibble, if_neg small, if_neg medium]
      simp only [storeDelta, if_neg small, if_neg medium, endianStore16_eq small medium]
      refine ⟨extraEq ▸ rfl, ?_, ?_, ?_⟩
      · rw [Memory.copy_outside _ (Or.inl (by omega)), Memory.store_same, nibbleEq]
        rfl
      · exact Memory.copy_holds ..
      · intro i outside
        rw [Memory.copy_outside _ (by rw [Wire.length_extension]; omega),
          Memory.store_other _ _ (by omega)]

/-- How many bytes of the value `insertOption` copies. -/
def copiedLength (optionValueLength : Nat) : Nat :=
  if optionValueLength < 269 then optionValueLength else optionValueLength - 269

theorem copiedLength_le (optionValueLength : Nat) : copiedLength optionValueLength ≤ optionValueLength := by
  rw [copiedLength]
  split <;> omega

/-- What `storeLength` leaves behind delta bytes that end at `insertionPosition`. -/
structure LengthStored (pdu result : Memory) (headerStart insertionPosition optionValueLength : Nat) :
    Prop where
  header : result headerStart = pdu headerStart ||| UInt8.ofNat (Wire.nibble optionValueLength)
  extension : result.Holds (insertionPosition + 1) (Wire.extension optionValueLength)
  frame : ∀ i, i ≠ headerStart →
    i ≤ insertionPosition ∨ insertionPosition + Wire.extra optionValueLength < i → result i = pdu i

theorem storeLength_spec (pdu : Memory) {headerStart insertionPosition : Nat} (optionValueLength : Nat)
    (behind : headerStart ≤ insertionPosition) :
    (storeLength pdu headerStart insertionPosition optionValueLength).2.1 =
        insertionPosition + Wire.extra optionValueLength ∧
      (storeLength pdu headerStart insertionPosition optionValueLength).2.2 =
        copiedLength optionValueLength ∧
      LengthStored pdu (storeLength pdu headerStart insertionPosition optionValueLength).1 headerStart
        insertionPosition optionValueLength := by
  -- as for the delta, but the nibble is or'ed into the byte that the delta was written to
  by_cases small : optionValueLength < 13
  · have extraEq : Wire.extra optionValueLength = 0 := if_pos small
    have nibbleEq : Wire.nibble optionValueLength = optionValueLength := if_pos small
    have extensionEq : Wire.extension optionValueLength = [] := if_pos small
    simp only [storeLength, if_pos small]
    refine ⟨extraEq ▸ rfl, (if_pos (by omega)).symm, ?_, ?_, ?_⟩
    · rw [Memory.store_same, nibbleEq, show (0x000F : Nat) = 2 ^ 4 - 1 from rfl,
        Nat.and_two_pow_sub_one_eq_mod, Nat.mod_eq_of_lt (by omega)]
    · rw [extensionEq]
      exact Memory.holds_nil ..
    · intro i other _
      exact Memory.store_other _ _ other
  · by_cases medium : optionValueLength < 269
    · have extraEq : Wire.extra optionValueLength = 1 := by
        rw [Wire.extra, if_neg small, if_pos medium]
      have nibbleEq : Wire.nibble optionValueLength = 13 := by
        rw [Wire.nibble, if_neg small, if_pos medium]
      have extensionEq : Wire.extension optionValueLength = [UInt8.ofNat (optionValueLength - 13)] := by
        rw [Wire.extension, if_neg small, if_pos medium]
      simp only [storeLength, if_neg small, if_pos medium]
      refine ⟨extraEq ▸ rfl, (if_pos medium).symm, ?_, ?_, ?_⟩
      · rw [Memory.store_other _ _ (by omega), Memory.store_same, nibbleEq]
        rfl
      · rw [extensionEq, Memory.holds_cons]
        exact ⟨Memory.store_same .., Memory.holds_nil ..⟩
      · intro i other outside
        rw [Memory.store_other _ _ (by omega), Memory.store_other _ _ other]
    · have extraEq : Wire.extra optionValueLength = 2 := by
        rw [Wire.extra, if_neg small, if_neg medium]
      have nibbleEq : Wire.nibble optionValueLength = 14 := by
        rw [Wire.nibble, if_neg small, if_neg medium]
      simp only [storeLength, if_neg small, if_neg medium, endianStore16_eq small medium]
      refine ⟨extraEq ▸ rfl, (if_neg medium).symm, ?_, ?_, ?_⟩
      · rw [Memory.copy_outside _ (Or.inl (by omega)), Memory.store_same, nibbleEq]
        rfl
      · exact Memory.copy_holds ..
      · intro i other outside
        rw [Memory.copy_outside _ (by rw [Wire.length_extension]; omega), Memory.store_other _ _ other]

/-! ## The option in its place -/

/-- The value as it ends up in memory when its space starts at `start`: what is not copied stays
as it was. -/
def storedValue (pdu : Memory) (start : Nat) (value : List UInt8) : List UInt8 :=
  value.take (copiedLength value.length) ++
    pdu.bytes (start + copiedLength value.length) (value.length - copiedLength value.length)

@[simp] theorem length_storedValue (pdu : Memory) (start : Nat) (value : List UInt8) :
    (storedValue pdu start value).length = value.length := by
  have copied := copiedLength_le value.length
  rw [storedValue, List.length_append, List.length_take, Memory.length_bytes]
  omega

/-- The value arrives whole exactly when it is short or its last 269 bytes were there before. -/
theorem storedValue_eq_iff (pdu : Memory) (start : Nat) (value : List UInt8) :
    storedValue pdu start value = value ↔
      value.length < 269 ∨
        pdu.Holds (start + (value.length - 269)) (value.drop (value.length - 269)) := by
  have kept : storedValue pdu start value = value ↔
      pdu.Holds (start + copiedLength value.length) (value.drop (copiedLength value.length)) := by
    have split := List.take_append_drop (copiedLength value.length) value
    rw [storedValue, Memory.Holds, List.length_drop]
    constructor
    · intro same
      exact List.append_cancel_left (same.trans split.symm)
    · intro same
      rw [same, split]
  rw [kept]
  by_cases short : value.length < 269
  · have copied : copiedLength value.length = value.length := if_pos short
    rw [copied, List.drop_length]
    exact ⟨fun _ => Or.inl short, fun _ => Memory.holds_nil ..⟩
  · have copied : copiedLength value.length = value.length - 269 := if_neg short
    rw [copied]
    exact ⟨Or.inr, fun either => either.resolve_left short⟩

@[simp] theorem insertOption_numOptions (this : CoapPDU) (headerStart optionDelta optionValueLength : Nat)
    (optionValue : List UInt8) :
    (this.insertOption headerStart optionDelta optionValueLength optionValue).numOptions = this.numOptions := rfl

@[simp] theorem insertOption_constructedFromBuffer (this : CoapPDU)
    (headerStart optionDelta optionValueLength : Nat) (optionValue : List UInt8) :
    (this.insertOption headerStart optionDelta optionValueLength optionValue).constructedFromBuffer =
      this.constructedFromBuffer := rfl

theorem insertOption_spec (this : CoapPDU) (headerStart optionDelta : Nat) (value : List UInt8) :
    let start := headerStart + (1 + Wire.extra optionDelta + Wire.extra value.length)
    (this.insertOption headerStart optionDelta value.length value).pdu.Holds headerStart
        (Wire.encodeOption optionDelta (storedValue this.pdu start value)) ∧
      ∀ i, i < headerStart ∨ start + value.length ≤ i →
        (this.insertOption headerStart optionDelta value.length value).pdu i = this.pdu i := by
  -- the memory after each of the three steps
  obtain ⟨cleared, clearedEq⟩ :
      ∃ cleared, cleared = this.pdu.store headerStart (this.pdu headerStart &&& (0x00 : UInt8)) := ⟨_, rfl⟩
  obtain ⟨deltaEnd, deltaStored⟩ := storeDelta_spec cleared headerStart optionDelta
  obtain ⟨withDelta, withDeltaEq⟩ :
      ∃ withDelta, withDelta = (storeDelta cleared headerStart optionDelta).1 := ⟨_, rfl⟩
  rw [← withDeltaEq] at deltaStored
  obtain ⟨lengthEnd, copiedEq, lengthStored⟩ :=
    storeLength_spec withDelta value.length (Nat.le_add_right headerStart (Wire.extra optionDelta))
  obtain ⟨withLength, withLengthEq⟩ :
      ∃ withLength, withLength = (storeLength withDelta headerStart
        (headerStart + Wire.extra optionDelta) value.length).1 := ⟨_, rfl⟩
  rw [← withLengthEq] at lengthStored
  have result : (this.insertOption headerStart optionDelta value.length value).pdu =
      withLength.copy (headerStart + Wire.extra optionDelta + Wire.extra value.length + 1)
        (value.take (copiedLength value.length)) := by
    simp only [insertOption, ← clearedEq, deltaEnd, ← withDeltaEq, lengthEnd, copiedEq, ← withLengthEq]
  have copied := copiedLength_le value.length
  have copySize : (value.take (copiedLength value.length)).length = copiedLength value.length :=
    List.length_take_of_le copied
  -- behind the header every step leaves the space of the value alone
  have untouched : ∀ i, i < headerStart ∨
      headerStart + Wire.extra optionDelta + Wire.extra value.length < i → withLength i = this.pdu i := by
    intro i outside
    rw [lengthStored.frame i (by omega) (by omega), deltaStored.frame i (by omega), clearedEq,
      Memory.store_other _ _ (by omega)]
  simp only [result]
  constructor
  · rw [Wire.encodeOption, Memory.holds_cons, Memory.holds_append, Memory.holds_append,
      Wire.length_extension, length_storedValue, Wire.length_extension]
    refine ⟨?_, ?_, ?_, ?_⟩
    · rw [Memory.copy_outside _ (Or.inl (by omega)), lengthStored.header, deltaStored.header, clearedEq,
        Memory.store_same, UInt8.and_zero, UInt8.zero_or]
      exact or_nibbles (Nat.lt_succ_of_le (Nat.le_succ_of_le (Wire.nibble_le _)))
        (Nat.lt_succ_of_le (Nat.le_succ_of_le (Wire.nibble_le _)))
    · apply deltaStored.extension.congr
      intro i low high
      rw [Wire.length_extension] at high
      rw [Memory.copy_outside _ (Or.inl (by omega)), lengthStored.frame i (by omega) (Or.inl (by omega))]
    · rw [Nat.add_right_comm headerStart 1]
      apply lengthStored.extension.congr
      intro i low high
      rw [Wire.length_extension] at high
      exact Memory.copy_outside _ (Or.inl (by omega))
    · rw [storedValue, Memory.holds_append, copySize]
      constructor
      · have position : headerStart + 1 + Wire.extra optionDelta + Wire.extra value.length =
            headerStart + Wire.extra optionDelta + Wire.extra value.length + 1 := by omega
        rw [position]
        exact Memory.copy_holds ..
      · have position : headerStart + 1 + Wire.extra optionDelta + Wire.extra value.length +
            copiedLength value.length = headerStart +
            (1 + Wire.extra optionDelta + Wire.extra value.length) + copiedLength value.length := by omega
        rw [position]
        apply (Memory.holds_bytes ..).congr
        intro i low high
        rw [Memory.copy_outside _ (Or.inr (by omega)), untouched i (Or.inr (by omega))]
  · intro i outside
    rw [Memory.copy_outside _ (by omega), untouched i (by omega)]

/-! ## Room for the option -/

/-- Same container facts, whatever became of the bytes. -/
structure SameFacts (this other : CoapPDU) : Prop where
  constructedFromBuffer : other.constructedFromBuffer = this.constructedFromBuffer
  payloadPointer : other.payloadPointer = this.payloadPointer
  payloadLength : other.payloadLength = this.payloadLength
  numOptions : other.numOptions = this.numOptions
  maxAddedOptionNumber : other.maxAddedOptionNumber = this.maxAddedOptionNumber

/-- A PDU of its own lies within its allocation. -/
def Owned (this : CoapPDU) : Prop :=
  this.constructedFromBuffer = false → this.pduLength ≤ this.bufferLength

/-- A successful `reserve` keeps the bytes of the PDU that fit. -/
theorem reserve_spec {this reserved : CoapPDU} {grant : Option Realloc} {pduLength : Nat}
    (owned : this.Owned) (success : this.reserve grant pduLength = some reserved) :
    reserved.pduLength = pduLength ∧ SameFacts this reserved ∧ reserved.Owned ∧
      ∀ i, i < this.pduLength → i < pduLength → reserved.pdu i = this.pdu i := by
  simp only [reserve] at success
  split at success
  next dynamic =>
    cases grant with
    | none => cases success
    | some memory =>
      cases success
      refine ⟨rfl, ⟨rfl, rfl, rfl, rfl, rfl⟩, fun _ => Nat.le_refl _, ?_⟩
      intro i inside room
      exact if_pos ⟨Nat.lt_of_lt_of_le inside (owned dynamic), room⟩
  next external =>
    split at success
    · cases success
    · cases success
      refine ⟨rfl, ⟨rfl, rfl, rfl, rfl, rfl⟩, fun dynamic => absurd dynamic external, ?_⟩
      intro i _ _
      rfl

/-- What is given back is behind the PDU. -/
theorem shrink_spec {this released : CoapPDU} {grant : Option Realloc} (owned : this.Owned)
    (success : this.shrink grant = some released) :
    released.pduLength = this.pduLength ∧ SameFacts this released ∧ released.Owned ∧
      ∀ i, i < this.pduLength → released.pdu i = this.pdu i := by
  simp only [shrink] at success
  split at success
  next dynamic =>
    obtain ⟨length, facts, stillOwned, kept⟩ := reserve_spec owned success
    exact ⟨length, facts, stillOwned, fun i inside => kept i inside inside⟩
  next external =>
    cases success
    exact ⟨rfl, ⟨rfl, rfl, rfl, rfl, rfl⟩, owned, fun _ _ => rfl⟩

/-- Shifting up by `offset` copies the block from the top, so no byte is overwritten before it
was read. -/
theorem shiftUpLoop_spec (pdu : Memory) (start offset amount i : Nat) :
    shiftUpLoop amount pdu ((start + amount + offset : Nat) - 1) ((start + amount : Nat) - 1) i =
      if start + offset ≤ i ∧ i < start + amount + offset then pdu (i - offset) else pdu i := by
  induction amount generalizing pdu with
  | zero => rw [shiftUpLoop, if_neg (by omega)]
  | succ amount inductionHypothesis =>
    have dest : ((start + (amount + 1) + offset : Nat) : Int) - 1 = (start + amount + offset : Nat) := by
      omega
    have source : ((start + (amount + 1) : Nat) : Int) - 1 = (start + amount : Nat) := by omega
    rw [shiftUpLoop, dest, source, Int.toNat_natCast, Int.toNat_natCast, inductionHypothesis]
    split
    next moved =>
      rw [Memory.store_other _ _ (by omega), if_pos (by omega)]
    next outside =>
      by_cases top : i = start + amount + offset
      · rw [top, Memory.store_same, if_pos (by omega), Nat.add_sub_cancel]
      · rw [Memory.store_other _ _ top, if_neg (by omega)]

/-- Nothing but the bytes changes. -/
theorem shiftPDUUp_eq (this : CoapPDU) (shiftOffset shiftAmount : Int) :
    this.shiftPDUUp shiftOffset shiftAmount = { this with pdu := (this.shiftPDUUp shiftOffset shiftAmount).pdu } := rfl

theorem shiftPDUUp_apply (this : CoapPDU) (start offset amount i : Nat)
    (size : this.pduLength = start + amount + offset) :
    (this.shiftPDUUp offset amount).pdu i =
      if start + offset ≤ i ∧ i < this.pduLength then this.pdu (i - offset) else this.pdu i := by
  have source : ((start + amount + offset : Nat) : Int) - 1 - offset = (start + amount : Nat) - 1 := by
    omega
  simp only [shiftPDUUp, size, source, Int.toNat_natCast, shiftUpLoop_spec]

theorem setOptionDelta_eq (this : CoapPDU) (optionPosition optionDelta : Nat) :
    this.setOptionDelta optionPosition optionDelta =
      { this with pdu := (this.setOptionDelta optionPosition optionDelta).pdu } := rfl

/-- The header keeps its lower half and gets the new delta. -/
theorem setOptionDelta_spec (this : CoapPDU) (optionPosition optionDelta : Nat) :
    let result := (this.setOptionDelta optionPosition optionDelta).pdu
    result optionPosition = UInt8.ofNat
        (Wire.nibble optionDelta * 16 + Wire.lowerNibble (this.pdu optionPosition)) ∧
      result.Holds (optionPosition + 1) (Wire.extension optionDelta) ∧
      ∀ i, i < optionPosition ∨ optionPosition + Wire.extra optionDelta < i → result i = this.pdu i := by
  obtain ⟨_, stored⟩ := storeDelta_spec
    (this.pdu.store optionPosition (this.pdu optionPosition &&& (0x0F : UInt8))) optionPosition optionDelta
  have halves := Wire.lowerNibble_lt (this.pdu optionPosition)
  have upper := Wire.nibble_le optionDelta
  refine ⟨?_, stored.extension, ?_⟩
  · simp only [setOptionDelta]
    rw [stored.header, Memory.store_same, and_low, UInt8.or_comm,
      or_nibbles (by omega) halves]
  · intro i outside
    simp only [setOptionDelta]
    rw [stored.frame i outside, Memory.store_other _ _ (by omega)]

/-- The state of the PDU when the option is about to be written. -/
structure GapOpened (this gap : CoapPDU) (position optionLength number : Nat) (after : List Opt)
    (tail : List UInt8) : Prop where
  facts : SameFacts this gap
  owned : gap.Owned
  before : ∀ i, i < position → gap.pdu i = this.pdu i
  behind : gap.pdu.Holds (position + optionLength) (Wire.encodeOptions number after ++ tail)
  length_eq : gap.pduLength = position + optionLength + (Wire.encodeOptions number after ++ tail).length

/-- A delta split in two loses at most one extension byte, and the new header makes up for it. -/
theorem extra_add_le (first second : Nat) :
    Wire.extra (first + second) ≤ 1 + Wire.extra first + Wire.extra second := by
  have total := Wire.extra_le (first + second)
  by_cases small : first < 13 ∧ second < 13
  · have sum : Wire.extra (first + second) ≤ 1 := by
      rw [Wire.extra]
      split
      · omega
      · exact Nat.le_of_eq (if_pos (by omega))
    omega
  · have needed : 1 ≤ Wire.extra first + Wire.extra second := by
      simp only [Wire.extra]
      split <;> split <;> (try split) <;> (try split) <;> omega
    omega

/-- At the end of the PDU there is nothing to move. -/
theorem openGap_end {this gap : CoapPDU} {grant : Option Realloc} {previous optionLength : Nat} (number : Nat)
    (owned : this.Owned) (success : this.openGap grant number this.pduLength previous optionLength = some gap) :
    GapOpened this gap this.pduLength optionLength number [] [] := by
  rw [openGap, if_pos rfl] at success
  obtain ⟨newLength, facts, newOwned, kept⟩ := reserve_spec owned success
  exact ⟨facts, newOwned, fun i inside => kept i inside (by omega), Memory.holds_nil .., newLength⟩

/-- The PDU after the three stores of `openGap`: what was behind the header and the delta of the option at `position`
moved up by `growth`, and in front of that stand the header again and a new delta. -/
structure GapMoved (this gap : CoapPDU) (position optionLength delta newDelta growth : Nat) : Prop where
  facts : SameFacts this gap
  owned : gap.Owned
  length : gap.pduLength = this.pduLength + growth
  before : ∀ i, i < position → gap.pdu i = this.pdu i
  header : gap.pdu (position + optionLength) =
    UInt8.ofNat (Wire.nibble newDelta * 16 + Wire.lowerNibble (this.pdu position))
  extension : gap.pdu.Holds (position + optionLength + 1) (Wire.extension newDelta)
  behind : ∀ i, position + 1 + Wire.extra delta ≤ i → i < this.pduLength → gap.pdu (i + growth) = this.pdu i

/-- The block is moved up, and from there its header back over the delta bytes that it loses. -/
theorem gapMoved_of_reserve {this reserved : CoapPDU} {grant : Option Realloc}
    {position optionLength delta newDelta growth : Nat} (owned : this.Owned) (inside : position < this.pduLength)
    (growthEq : growth + Wire.extra delta = optionLength + Wire.extra newDelta) (size : 1 ≤ optionLength)
    (success : this.reserve grant (this.pduLength + growth) = some reserved) :
    GapMoved this (CoapPDU.setOptionDelta
      { reserved.shiftPDUUp growth (this.pduLength - position : Nat) with
        pdu := (reserved.shiftPDUUp growth (this.pduLength - position : Nat)).pdu.store (position + optionLength)
          ((reserved.shiftPDUUp growth (this.pduLength - position : Nat)).pdu (position + growth)) }
      (position + optionLength) newDelta) position optionLength delta newDelta growth := by
  obtain ⟨newLength, facts, newOwned, kept⟩ := reserve_spec owned success
  have shifted : ∀ i, (reserved.shiftPDUUp growth (this.pduLength - position : Nat)).pdu i =
      if position + growth ≤ i ∧ i < this.pduLength + growth then this.pdu (i - growth) else reserved.pdu i := by
    intro i
    rw [shiftPDUUp_apply _ position _ _ _ (by omega), newLength]
    split
    · exact kept _ (by omega) (by omega)
    · rfl
  obtain ⟨moved, movedEq⟩ : ∃ moved, moved = reserved.shiftPDUUp growth (this.pduLength - position : Nat) := ⟨_, rfl⟩
  rw [← movedEq] at shifted ⊢
  have headerByte : moved.pdu (position + growth) = this.pdu position := by
    rw [shifted, if_pos (by omega), Nat.add_sub_cancel]
  rw [headerByte]
  obtain ⟨header, extension, frame⟩ := setOptionDelta_spec
    { moved with pdu := moved.pdu.store (position + optionLength) (this.pdu position) } (position + optionLength) newDelta
  simp only [Memory.store_same] at header
  constructor
  · subst movedEq
    exact ⟨facts.1, facts.2, facts.3, facts.4, facts.5⟩
  · subst movedEq
    exact newOwned
  · subst movedEq
    exact newLength
  · intro i below
    rw [frame i (by omega)]
    simp only
    rw [Memory.store_other _ _ (by omega), shifted, if_neg (by omega)]
    exact kept i (by omega) (by omega)
  · exact header
  · exact extension
  · intro i behind below
    rw [frame _ (by omega)]
    simp only
    rw [Memory.store_other _ _ (by omega), shifted, if_pos (by omega), Nat.add_sub_cancel]

/-- Before the end of the PDU the delta of the option at `position` is rewritten. -/
theorem openGap_moves {this gap : CoapPDU} {grant : Option Realloc}
    {number position previous optionLength delta newDelta growth : Nat} (owned : this.Owned)
    (inside : position < this.pduLength) (read : getOptionDelta (this.pdu.offset position) = delta)
    (reduced : (previous + delta + 65536 - number) % 65536 = newDelta)
    (growthEq : growth + Wire.extra delta = optionLength + Wire.extra newDelta) (size : 1 ≤ optionLength)
    (success : this.openGap grant number position previous optionLength = some gap) :
    GapMoved this gap position optionLength delta newDelta growth := by
  have growthInt : (optionLength : Int) + ((Wire.extra newDelta : Int) - Wire.extra delta) = growth := by
    omega
  have lengthInt : ((this.pduLength : Int) + growth).toNat = this.pduLength + growth := by omega
  have amountInt : ((this.pduLength + growth : Nat) : Int) - ((position : Int) + growth) =
      (this.pduLength - position : Nat) := by omega
  have headerInt : ((position : Int) + growth - ((Wire.extra newDelta : Int) - Wire.extra delta)).toNat =
      position + optionLength := by omega
  have oldHeaderInt : ((position : Int) + growth).toNat = position + growth := by omega
  simp only [openGap, if_neg (show ¬ position = this.pduLength by omega), read, computeExtraBytes_eq, reduced,
    growthInt, lengthInt, amountInt, headerInt, oldHeaderInt] at success
  cases reservedEq : this.reserve grant (this.pduLength + growth) with
  | none => simp [reservedEq] at success
  | some reserved =>
    simp only [reservedEq, Option.some.injEq] at success
    rw [← success]
    exact gapMoved_of_reserve owned inside growthEq size reservedEq

/-- The option behind the gap has the rest of its delta, and all that follows it is what it was. -/
theorem GapMoved.opened {this gap : CoapPDU} {number position previous optionLength growth : Nat} {next : Opt}
    {rest : List Opt} {tail : List UInt8}
    (moved : GapMoved this gap position optionLength (next.number - previous) (next.number - number) growth)
    (growthEq : growth + Wire.extra (next.number - previous) = optionLength + Wire.extra (next.number - number))
    (lower : Wire.lowerNibble (this.pdu position) = Wire.nibble next.value.length)
    (holds : this.pdu.Holds position (Wire.encodeOptions previous (next :: rest) ++ tail))
    (lengthEq : this.pduLength = position + (Wire.encodeOptions previous (next :: rest) ++ tail).length) :
    GapOpened this gap position optionLength number (next :: rest) tail := by
  -- both are a header, a delta, and then the same bytes
  have encoded : ∀ previous, Wire.encodeOptions previous (next :: rest) ++ tail =
      UInt8.ofNat (Wire.nibble (next.number - previous) * 16 + Wire.nibble next.value.length) ::
        (Wire.extension (next.number - previous) ++
          (Wire.extension next.value.length ++ next.value ++ Wire.encodeOptions next.number rest ++ tail)) := by
    intro previous
    simp [Wire.encodeOptions, Wire.encodeOption]
  obtain ⟨content, contentEq⟩ : ∃ content, content = Wire.extension next.value.length ++ next.value ++
    Wire.encodeOptions next.number rest ++ tail := ⟨_, rfl⟩
  simp only [encoded, ← contentEq, List.length_cons, List.length_append, Wire.length_extension] at lengthEq
  rw [encoded, ← contentEq, Memory.holds_cons, Memory.holds_append, Wire.length_extension] at holds
  refine ⟨moved.facts, moved.owned, moved.before, ?_, ?_⟩
  · rw [encoded, ← contentEq, Memory.holds_cons, Memory.holds_append, Wire.length_extension]
    refine ⟨lower ▸ moved.header, moved.extension, holds.2.2.move fun i inside => ?_⟩
    rw [← moved.behind _ (by omega) (by omega)]
    congr 1
    omega
  · simp only [encoded, ← contentEq, moved.length, List.length_cons, List.length_append, Wire.length_extension]
    omega

/-- Room is made before the options behind the place and all that follows them, and the first of them
is counted from the inserted number. -/
theorem openGap_spec {this gap : CoapPDU} {grant : Option Realloc}
    {number position previous optionLength : Nat} {after : List Opt} {tail : List UInt8} (owned : this.Owned)
    (low : previous ≤ number) (ascending : Wire.Ascending number after)
    (representable : Wire.Representable after) (last : after = [] → tail = [])
    (holds : this.pdu.Holds position (Wire.encodeOptions previous after ++ tail))
    (lengthEq : this.pduLength = position + (Wire.encodeOptions previous after ++ tail).length)
    (size : 1 + Wire.extra (number - previous) ≤ optionLength)
    (success : this.openGap grant number position previous optionLength = some gap) :
    GapOpened this gap position optionLength number after tail := by
  cases after with
  | nil =>
    rw [last rfl, Wire.encodeOptions, List.append_nil, List.length_nil, Nat.add_zero] at lengthEq
    subst lengthEq
    rw [last rfl]
    exact openGap_end number owned success
  | cons next rest =>
    obtain ⟨written, _⟩ := Wire.holds_cons_options representable (Memory.holds_append.mp holds).1
    have bounds := representable next (List.mem_cons_self ..)
    have order := ascending.1
    -- the old delta is the sum of the two it is split into
    have split := extra_add_le (number - previous) (next.number - number)
    rw [show number - previous + (next.number - number) = next.number - previous by omega] at split
    obtain ⟨growth, growthEq⟩ : ∃ growth : Nat,
        growth + Wire.extra (next.number - previous) = optionLength + Wire.extra (next.number - number) :=
      ⟨_, Nat.sub_add_cancel (by omega)⟩
    have read : getOptionDelta (this.pdu.offset position) = next.number - previous := by
      rw [getOptionDelta_eq _ _ (written.upper ▸ Wire.nibble_le _), written.delta_eq]
      omega
    have inside : position < this.pduLength := by
      rw [lengthEq, Wire.encodeOptions, List.append_assoc, List.length_append, Wire.length_encodeOption]
      omega
    have reduced : (previous + (next.number - previous) + 65536 - number) % 65536 = next.number - number := by omega
    have moved := openGap_moves owned inside read reduced growthEq (by omega) success
    exact moved.opened growthEq written.lower holds lengthEq

end CoapPDU

end SmingCoap
