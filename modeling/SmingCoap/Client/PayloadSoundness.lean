import SmingCoap.Client.FailureSoundness
import SmingCoap.Transition.Runs

/-! # The payload pointer

The pointer to the payload is kept beside the buffer, and only `mallocPayload` and `validate` set it.  An option or a
token that moves the payload leaves it where it was, as does a `realloc` that moves the buffer: the pointer describes
the payload along a run exactly as long as each call leaves the payload in its place (`payload_described`).  `Tracked`
carries the payload last set or received beside the container.
-/

namespace SmingCoap

open Wire (Memory)
open Transition (Run)

namespace CoapPDU

/-! ## The invariant -/

/-- The byte in front of the payload. -/
def markerPosition (this : CoapPDU) : Nat := this.pduLength - this.payloadLength - 1

/-- The last bytes of the PDU, as many as the payload has. -/
def tail (this : CoapPDU) : List UInt8 := this.pdu.bytes (this.pduLength - this.payloadLength) this.payloadLength

/-- The pointer is that of the last bytes in the current buffer, and the marker is in front of them. -/
structure Located (this : CoapPDU) : Prop where
  inside : this.payloadLength < this.pduLength
  pointer : this.payloadPointer = some ⟨this.block, this.pduLength - this.payloadLength⟩
  marker : this.pdu this.markerPosition = 0xFF

/-- A marker, and the payload from there to the end. -/
theorem Located.of_marker {this : CoapPDU} {front : Nat} (length : this.pduLength = front + 1 + this.payloadLength)
    (pointer : this.payloadPointer = some ⟨this.block, front + 1⟩) (marker : this.pdu front = 0xFF) :
    this.Located := by
  have behind : this.pduLength - this.payloadLength = front + 1 := by omega
  refine ⟨by omega, ?_, ?_⟩
  · rw [behind]
    exact pointer
  · rw [markerPosition, behind, Nat.add_sub_cancel]
    exact marker

/-- A container and the payload that was last set or received. -/
structure Tracked where
  container : CoapPDU
  payload : List UInt8

/-- The accessors return that payload, and where there is one it lies at the end of the PDU. -/
structure Describes (tracked : Tracked) : Prop where
  located : tracked.container.payloadLength ≠ 0 → tracked.container.Located
  payload : tracked.container.getPayload = tracked.payload

theorem getPayload_of_bare {this : CoapPDU} (bare : this.payloadLength = 0) : this.getPayload = [] := by
  rw [getPayload, bare]
  cases this.payloadPointer with
  | none => rfl
  | some pointer => exact ite_self _

theorem Located.getPayload {this : CoapPDU} (located : this.Located) : this.getPayload = this.tail := by
  rw [CoapPDU.getPayload, located.pointer]
  exact if_pos rfl

theorem Located.describes {this : CoapPDU} (located : this.Located) : Describes ⟨this, this.tail⟩ :=
  ⟨fun _ => located, located.getPayload⟩

theorem describes_bare {this : CoapPDU} (bare : this.payloadLength = 0) : Describes ⟨this, []⟩ :=
  ⟨fun filled => absurd bare filled, getPayload_of_bare bare⟩

/-- Where there is no payload before and after a call, nothing has to be described. -/
theorem Describes.bare {this next : CoapPDU} {payload : List UInt8} (described : Describes ⟨this, payload⟩)
    (bare : this.payloadLength = 0) (same : next.payloadLength = this.payloadLength) : Describes ⟨next, payload⟩ := by
  have nothing : payload = [] := described.payload.symm.trans (getPayload_of_bare bare)
  rw [nothing]
  exact describes_bare (same.trans bare)

/-- A payload that stays in its place with its marker stays described. -/
theorem Describes.keep {this next : CoapPDU} {payload : List UInt8} (described : Describes ⟨this, payload⟩)
    (block : next.block = this.block) (length : next.pduLength = this.pduLength)
    (pointer : next.payloadPointer = this.payloadPointer) (size : next.payloadLength = this.payloadLength)
    (agree : this.payloadLength ≠ 0 → ∀ i, this.markerPosition ≤ i → i < this.pduLength → next.pdu i = this.pdu i) :
    Describes ⟨next, payload⟩ := by
  by_cases bare : this.payloadLength = 0
  · exact described.bare bare size
  · have located := described.located bare
    have inside : this.payloadLength < this.pduLength := located.inside
    have place : next.markerPosition = this.markerPosition := by rw [markerPosition, markerPosition, length, size]
    have still : next.Located := by
      refine ⟨by rw [length, size]; exact inside, by rw [pointer, block, length, size]; exact located.pointer, ?_⟩
      rw [place, agree bare _ (Nat.le_refl _) (by rw [markerPosition]; omega)]
      exact located.marker
    have same : next.tail = this.tail := by
      rw [tail, tail, length, size]
      apply Memory.bytes_congr
      intro i low high
      exact agree bare i (by rw [markerPosition]; omega) (by omega)
    refine ⟨fun _ => still, ?_⟩
    rw [still.getPayload, same, ← located.getPayload]
    exact described.payload

/-! ## Operations -/

/-- The calls that change a PDU, with what `realloc` does in them. -/
inductive Operation where
  | addOption (grant : Option Realloc) (number : UInt16) (value : List UInt8)
  | setToken (grant : Option Realloc) (token : List UInt8)
  | mallocPayload (grant : Option Realloc) (len : Nat)
  | setPayload (grant : Option Realloc) (payload : List UInt8)
  | validate

/-- The call, and the payload from then on: what `setPayload` was given, what lies in the space of `mallocPayload`,
what `validate` found.  A value has a 16 bit length and a token an 8 bit one. -/
def step (tracked : Tracked) : Operation → Option Tracked
  | .addOption grant number value =>
    if value.length ≤ 65535 then
      some ⟨(tracked.container.addOption grant number.toNat value.length value).2, tracked.payload⟩
    else none
  | .setToken grant token =>
    if token.length ≤ 255 then some ⟨(tracked.container.setToken grant token).2, tracked.payload⟩ else none
  | .mallocPayload grant len =>
    match tracked.container.mallocPayload grant len with
    | (none, this) => some ⟨this, tracked.payload⟩
    | (some _, this) => some ⟨this, this.tail⟩
  | .setPayload grant payload =>
    let (failed, this) := tracked.container.setPayload grant payload
    some ⟨this, if failed = 0 then payload else tracked.payload⟩
  | .validate =>
    let (valid, this) := tracked.container.validate
    some ⟨this, if valid = 1 then this.tail else if this.payloadLength = 0 then [] else tracked.payload⟩

/-! ## When a call leaves the payload in its place -/

/-- `realloc` returns the same address. -/
def Stays (this : CoapPDU) (grant : Option Realloc) : Prop :=
  this.constructedFromBuffer = false → ∀ memory, grant = some memory → memory.block = this.block

/-- The length that `addOption` asks for. -/
def gapLength (this : CoapPDU) (number position previous optionLength : Nat) : Nat :=
  if position = this.pduLength then this.pduLength + optionLength
  else
    let nextOptionDelta := getOptionDelta (this.pdu.offset position)
    let newNextOptionDelta := (previous + nextOptionDelta + 65536 - number) % 65536
    ((this.pduLength : Int) + (optionLength +
      ((computeExtraBytes newNextOptionDelta : Int) - computeExtraBytes nextOptionDelta))).toNat

/-- There is no payload, or no space for the option, or it takes no more room than the header of the next option
loses by it, in front of the marker.  (The remaining case has a value so long that the size is 0 in 16 bits.) -/
def OptionPermitted (this : CoapPDU) (grant : Option Realloc) (number : Nat) (value : List UInt8) : Prop :=
  let (position, previous) := this.findInsertionPosition number
  let size := optionHdrByte + computeExtraBytes ((number + 65536 - previous) % 65536) +
    computeExtraBytes value.length + value.length
  let nextOptionDelta := getOptionDelta (this.pdu.offset position)
  let nextBytes := computeExtraBytes nextOptionDelta
  let newNextBytes := computeExtraBytes ((previous + nextOptionDelta + 65536 - number) % 65536)
  this.payloadLength = 0 ∨ ¬ this.HasRoom grant (this.gapLength number position previous (size % 65536)) ∨
    this.Stays grant ∧
      (position = this.pduLength ∧ size % 65536 = 0 ∨
        position ≠ this.pduLength ∧ size + newNextBytes = nextBytes ∧ position + 1 + nextBytes ≤ this.markerPosition)

/-- There is no payload, or the token is empty, or it is as long as the old one and writes nothing new over the
payload, or it is longer, there is no space for it and the length of the PDU is restored. -/
def TokenPermitted (this : CoapPDU) (grant : Option Realloc) (token : List UInt8) : Prop :=
  this.payloadLength = 0 ∨ token.length = 0 ∨
    token.length = this.getTokenLength ∧
      (∀ i, this.markerPosition ≤ i → i < this.pduLength → this.pdu.copy 4 token i = this.pdu i) ∨
    this.getTokenLength ≤ this.pduLength ∧ this.pduLength < 256 ∧ this.getTokenLength < token.length ∧
      ¬ this.HasRoom grant (this.pduLength - this.getTokenLength + token.length)

/-- The length that `mallocPayload` asks for. -/
def filledLength (this : CoapPDU) (len : Nat) : Nat :=
  if this.payloadLength = 0 then this.pduLength + len + 1
  else ((this.pduLength : Int) + ((len : Int) - this.payloadLength)).toNat

/-- Nothing is to be done, or there is no space, or it is the first payload, or the buffer stays where it is.  (The
remaining case is a pointer without a payload that happens to be right, with a marker that happens to be there.) -/
def PayloadPermitted (this : CoapPDU) (grant : Option Realloc) (len : Nat) : Prop :=
  len = 0 ∨ len = this.payloadLength ∨ ¬ this.HasRoom grant (this.filledLength len) ∨
    (this.payloadLength = 0 ∧ this.payloadPointer = none) ∨
    (this.payloadLength ≠ 0 ∧ this.Stays grant) ∨
    (this.payloadLength = 0 ∧
      this.payloadPointer = some ⟨(this.granted grant (this.filledLength len)).1, this.pduLength + 1⟩ ∧
      (this.granted grant (this.filledLength len)).2 this.pduLength = 0xFF)

/-- The call leaves a payload where the pointer says, or makes a new one. -/
def Permitted (tracked : Tracked) : Operation → Prop
  | .addOption grant number value => tracked.container.OptionPermitted grant number.toNat value
  | .setToken grant token => tracked.container.TokenPermitted grant token
  | .mallocPayload grant len => tracked.container.PayloadPermitted grant len
  | .setPayload grant payload => tracked.container.PayloadPermitted grant payload.length
  | .validate => True

section

variable {this next reserved : CoapPDU} {grant : Option Realloc} {payload : List UInt8}

theorem reserve_block {pduLength : Nat} (stays : this.Stays grant)
    (success : this.reserve grant pduLength = some reserved) : reserved.block = this.block := by
  simp only [reserve] at success
  split at success
  next dynamic =>
    cases grant with
    | none => cases success
    | some memory =>
      cases success
      exact stays dynamic memory rfl
  next external =>
    split at success
    next => cases success
    next =>
      cases success
      rfl

/-! ## The option -/

theorem openGap_isSome {number position previous optionLength : Nat} :
    (this.openGap grant number position previous optionLength).isSome = true ↔
      this.HasRoom grant (this.gapLength number position previous optionLength) := by
  rw [openGap, gapLength]
  split
  next last => exact reserve_isSome
  next middle =>
    simp only
    rw [← reserve_isSome]
    split
    next none => simp [none]
    next reserved some => simp [some]

/-- The biggest number has nothing to do with it. -/
theorem noteMaximum_eq (this : CoapPDU) (position number : Nat) : ∃ maximum,
    this.noteMaximum position number = { this with maxAddedOptionNumber := maximum } := by
  rw [noteMaximum]
  split
  next => exact ⟨_, rfl⟩
  next => exact ⟨_, rfl⟩

/-- Opening a gap is a reservation and moving bytes. -/
theorem openGap_reserves {gap : CoapPDU} {number position previous optionLength : Nat}
    (opened : this.openGap grant number position previous optionLength = some gap) : ∃ reserved,
    this.reserve grant (this.gapLength number position previous optionLength) = some reserved ∧
      gap = { reserved with pdu := gap.pdu } := by
  rw [openGap] at opened
  rw [gapLength]
  split at opened
  next last =>
    rw [if_pos last]
    exact ⟨gap, opened, rfl⟩
  next middle =>
    rw [if_neg middle]
    simp only at opened
    split at opened
    next => cases opened
    next reserved reservedEq =>
      cases opened
      refine ⟨reserved, reservedEq, ?_⟩
      rw [setOptionDelta_eq, shiftPDUUp_eq]

/-- A call for an option fails where the gap cannot be opened, and otherwise writes into it. -/
theorem addOption_eq {number : Nat} {value : List UInt8} {position previous : Nat}
    (place : this.findInsertionPosition number = (position, previous)) :
    let delta := (number + 65536 - previous) % 65536
    let size := optionHdrByte + computeExtraBytes delta + computeExtraBytes value.length + value.length
    ∃ maximum,
      (¬ this.HasRoom grant (this.gapLength number position previous (size % 65536)) ∧
        (this.addOption grant number value.length value).2 = { this with maxAddedOptionNumber := maximum }) ∨
      ∃ gap, openGap { this with maxAddedOptionNumber := maximum } grant number position previous (size % 65536) =
          some gap ∧
        (this.addOption grant number value.length value).2 =
          { gap.insertOption position delta value.length value with numOptions := gap.numOptions + 1 } := by
  intro delta size
  obtain ⟨maximum, noted⟩ := noteMaximum_eq this position number
  refine ⟨maximum, ?_⟩
  have room := @openGap_isSome { this with maxAddedOptionNumber := maximum } grant number position previous
    (size % 65536)
  simp only [addOption, place, noted]
  cases opened : openGap { this with maxAddedOptionNumber := maximum } grant number position previous
    (size % 65536) with
  | none =>
    rw [opened] at room
    exact Or.inl ⟨fun space => by simpa using room.mpr space, rfl⟩
  | some gap =>
    refine Or.inr ⟨gap, rfl, ?_⟩
    simp only
    rw [insertOption_numOptions]

/-- An option that fits where the header of the next one shrinks moves nothing behind that header. -/
theorem openGap_inPlace {gap : CoapPDU} {number position previous optionLength : Nat} (owned : this.Owned)
    (middle : position ≠ this.pduLength)
    (inside : position + 1 + computeExtraBytes (getOptionDelta (this.pdu.offset position)) ≤ this.pduLength)
    (same : optionLength + computeExtraBytes
        ((previous + getOptionDelta (this.pdu.offset position) + 65536 - number) % 65536) =
      computeExtraBytes (getOptionDelta (this.pdu.offset position)))
    (opened : this.openGap grant number position previous optionLength = some gap) :
    gap.pduLength = this.pduLength ∧
      ∀ i, position + 1 + computeExtraBytes (getOptionDelta (this.pdu.offset position)) ≤ i → i < this.pduLength →
        gap.pdu i = this.pdu i := by
  rw [openGap, if_neg middle] at opened
  simp only at opened
  generalize computeExtraBytes (getOptionDelta (this.pdu.offset position)) = nextBytes at *
  obtain ⟨newDelta, newDeltaEq⟩ : ∃ newDelta,
    newDelta = (previous + getOptionDelta (this.pdu.offset position) + 65536 - number) % 65536 := ⟨_, rfl⟩
  rw [← newDeltaEq] at same opened
  -- nothing is asked for, and what is moved comes from where it goes
  have noGrowth : (optionLength : Int) + ((computeExtraBytes newDelta : Int) - nextBytes) = 0 := by omega
  have header : ((position : Int) - ((computeExtraBytes newDelta : Int) - nextBytes)).toNat =
      position + optionLength := by
    omega
  simp only [noGrowth, Int.add_zero, Int.toNat_natCast, header] at opened
  cases reservedEq : this.reserve grant this.pduLength with
  | none => simp [reservedEq] at opened
  | some reserved =>
    obtain ⟨length, _, _, kept⟩ := reserve_spec owned reservedEq
    simp only [reservedEq, Option.some.injEq] at opened
    rw [← opened]
    refine ⟨length, ?_⟩
    intro i behind within
    have amount : (this.pduLength : Int) - position = (this.pduLength - position : Nat) := by omega
    have shift := reserved.shiftPDUUp_apply position 0 (this.pduLength - position) i (by omega)
    rw [Nat.sub_zero, ite_self, kept i within within] at shift
    rw [(setOptionDelta_spec _ (position + optionLength) newDelta).2.2 i (by rw [← computeExtraBytes_eq]; omega),
      amount]
    exact (Memory.store_other _ _ (by omega)).trans shift

/-- A permitted option leaves the payload described. -/
theorem Describes.addOption {number : Nat} {value : List UInt8} (described : Describes ⟨this, payload⟩)
    (owned : this.Owned) (permitted : this.OptionPermitted grant number value) :
    Describes ⟨(this.addOption grant number value.length value).2, payload⟩ := by
  cases place : this.findInsertionPosition number with
  | mk position previous =>
    simp only [OptionPermitted, place] at permitted
    obtain ⟨maximum, ⟨_, result⟩ | ⟨gap, opened, result⟩⟩ :=
      @addOption_eq this grant number value position previous place
    -- there was no space, so only the maximum has changed
    · rw [result]
      exact described.keep rfl rfl rfl rfl fun _ _ _ _ => rfl
    · obtain ⟨delta, deltaEq⟩ : ∃ delta, delta = (number + 65536 - previous) % 65536 := ⟨_, rfl⟩
      obtain ⟨size, sizeEq⟩ : ∃ size, size = optionHdrByte + computeExtraBytes delta +
        computeExtraBytes value.length + value.length := ⟨_, rfl⟩
      rw [← deltaEq] at permitted opened result
      rw [← sizeEq] at permitted opened
      obtain ⟨reserved, reservedEq, gapEq⟩ := openGap_reserves opened
      obtain ⟨_, facts, _, _⟩ := reserve_spec (by exact owned) reservedEq
      have pointer : gap.payloadPointer = this.payloadPointer := by rw [gapEq]; exact facts.payloadPointer
      have length : gap.payloadLength = this.payloadLength := by rw [gapEq]; exact facts.payloadLength
      obtain ⟨_, frame⟩ := gap.insertOption_spec position delta value
      rw [result]
      rcases permitted with bare | full | ⟨stays, place⟩
      · exact described.bare bare length
      · have room := reserve_isSome.mp (Option.isSome_iff_exists.mpr ⟨reserved, reservedEq⟩)
        exact absurd room full
      · have block : gap.block = this.block := by
          rw [gapEq]
          exact (reserve_block (by exact stays) reservedEq :)
        rcases place with ⟨last, wraps⟩ | ⟨middle, same, inside⟩
        · -- nothing is asked for, and the option is written behind the PDU
          rw [openGap, if_pos last, wraps, Nat.add_zero] at opened
          obtain ⟨gapLength, _, _, kept⟩ := reserve_spec (by exact owned) opened
          refine described.keep (by exact block) (by exact gapLength) (by exact pointer) (by exact length) ?_
          intro _ i _ within
          exact (frame i (Or.inl (by omega))).trans (kept i within within)
        -- the header of the option behind shrinks by as much as the new one needs
        · have small := Wire.extra_le (getOptionDelta (this.pdu.offset position))
          rw [← computeExtraBytes_eq] at small
          rw [Nat.mod_eq_of_lt (by omega)] at opened
          rw [markerPosition] at inside
          obtain ⟨gapLength, kept⟩ := @openGap_inPlace { this with maxAddedOptionNumber := maximum } grant gap number
            position previous size owned middle (by simp only; omega) same opened
          refine described.keep (by exact block) (by exact gapLength) (by exact pointer) (by exact length) ?_
          intro _ i behind within
          rw [markerPosition] at behind
          rw [optionHdrByte, computeExtraBytes_eq, computeExtraBytes_eq] at sizeEq
          exact (frame i (Or.inr (by omega))).trans (kept i (by simp only; omega) within)

/-! ## The token -/

theorem reserve_facts {pduLength : Nat} (success : this.reserve grant pduLength = some reserved) :
    SameFacts this reserved := by
  simp only [reserve] at success
  split at success
  next dynamic =>
    cases grant with
    | none => cases success
    | some memory =>
      cases success
      exact ⟨rfl, rfl, rfl, rfl, rfl⟩
  next external =>
    split at success
    next => cases success
    next =>
      cases success
      exact ⟨rfl, rfl, rfl, rfl, rfl⟩

theorem shrink_facts (success : this.shrink grant = some reserved) : SameFacts this reserved := by
  simp only [shrink] at success
  split at success
  next dynamic => exact reserve_facts success
  next external =>
    cases success
    exact ⟨rfl, rfl, rfl, rfl, rfl⟩

theorem setTokenLength_payloadLength (tokenLength : Nat) :
    (this.setTokenLength tokenLength).2.payloadLength = this.payloadLength := by
  rw [setTokenLength]
  split
  next => rfl
  next => rfl

theorem setToken_payloadLength (token : List UInt8) :
    (this.setToken grant token).2.payloadLength = this.payloadLength := by
  simp only [setToken]
  split
  next => rfl
  next =>
    split
    next => rfl
    next =>
      split
      next =>
        split
        next => rfl
        next reserved reservedEq =>
          exact (setTokenLength_payloadLength _).trans (reserve_facts reservedEq).payloadLength
      next =>
        split
        next => rfl
        next released releasedEq =>
          exact (setTokenLength_payloadLength _).trans (shrink_facts releasedEq).payloadLength

theorem Describes.setToken {token : List UInt8} (described : Describes ⟨this, payload⟩)
    (permitted : this.TokenPermitted grant token) : Describes ⟨(this.setToken grant token).2, payload⟩ := by
  by_cases filled : token.length = 0
  · rw [CoapPDU.setToken, if_pos filled]
    exact described
  · rcases permitted with bare | empty | ⟨same, agree⟩ | ⟨inside, small, longer, full⟩
    · exact described.bare bare (setToken_payloadLength token)
    · exact absurd empty filled
    · rw [CoapPDU.setToken, if_neg filled, if_pos same]
      exact described.keep rfl rfl rfl rfl fun _ => agree
    · -- the length is restored, since eight bits hold it
      have length : this.pduLength % 256 = this.pduLength := Nat.mod_eq_of_lt small
      rw [← reserve_isSome, Bool.not_eq_true, Option.isSome_eq_false_iff, Option.isNone_iff_eq_none] at full
      rw [CoapPDU.setToken, if_neg filled, if_neg (by omega)]
      simp only [length]
      rw [if_pos (by omega), full]
      exact described

/-! ## The payload -/

/-- What `mallocPayload` does when it finds space. -/
theorem mallocPayload_eq {len : Nat} (filled : len ≠ 0) (other : len ≠ this.payloadLength) :
    this.mallocPayload grant len =
      match this.reserve grant (this.filledLength len) with
      | none => (none, this)
      | some reserved =>
        match this.payloadPointer with
        | none => (some ⟨reserved.block, this.pduLength + 1⟩, { reserved with
            pdu := reserved.pdu.store this.pduLength 0xFF
            payloadPointer := some ⟨reserved.block, this.pduLength + 1⟩
            payloadLength := len })
        | some pointer => (some pointer, { reserved with payloadLength := len }) := by
  have size : ((this.pduLength : Int) + (if this.payloadLength ≠ 0 then (0, (len : Int) - this.payloadLength)
      else (1, (len : Int)) : Nat × Int).2 + (if this.payloadLength ≠ 0 then (0, (len : Int) - this.payloadLength)
      else (1, (len : Int)) : Nat × Int).1).toNat = this.filledLength len := by
    rw [filledLength]
    by_cases bare : this.payloadLength = 0
    · simp only [bare, ne_eq, not_true_eq_false, if_false, if_true]
      omega
    · simp only [bare, ne_eq, not_false_eq_true, if_true, if_false]
      omega
  cases reservedEq : this.reserve grant (this.filledLength len) with
  | none => simp only [mallocPayload, if_neg filled, if_neg other, size, reservedEq]
  | some reserved =>
    cases pointerEq : this.payloadPointer with
    | none => simp only [mallocPayload, if_neg filled, if_neg other, size, reservedEq, pointerEq]
    | some pointer => simp only [mallocPayload, if_neg filled, if_neg other, size, reservedEq, pointerEq]

/-- A permitted allocation that succeeds: the payload has the new length and lies where the pointer says. -/
theorem mallocPayload_located {len : Nat} {pointer : Pointer} (described : Describes ⟨this, payload⟩)
    (owned : this.Owned) (permitted : this.PayloadPermitted grant len)
    (result : this.mallocPayload grant len = (some pointer, next)) :
    next.Located ∧ next.payloadPointer = some pointer ∧ next.payloadLength = len := by
  by_cases filled : len = 0
  · simp [mallocPayload, filled] at result
  · by_cases other : len = this.payloadLength
    · simp only [mallocPayload, if_neg filled, if_pos other, Prod.mk.injEq] at result
      obtain ⟨same, rfl⟩ := result
      exact ⟨described.located (other ▸ filled), same, other.symm⟩
    · rw [mallocPayload_eq filled other] at result
      cases reservedEq : this.reserve grant (this.filledLength len) with
      | none => simp [reservedEq] at result
      | some reserved =>
        obtain ⟨length, facts, _, kept⟩ := reserve_spec owned reservedEq
        rw [filledLength] at length
        simp only [reservedEq] at result
        have room := reserve_isSome.mp (Option.isSome_iff_exists.mpr ⟨reserved, reservedEq⟩)
        rcases permitted with empty | same | full | ⟨bare, none⟩ | ⟨present, stays⟩ | ⟨bare, some, marker⟩
        · exact absurd empty filled
        · exact absurd same other
        · exact absurd room full
        · -- the first payload
          simp only [none, Prod.mk.injEq, Option.some.injEq] at result
          obtain ⟨rfl, rfl⟩ := result
          rw [if_pos bare, Nat.add_right_comm] at length
          exact ⟨.of_marker length rfl (Memory.store_same ..), rfl, rfl⟩
        · -- another length for the payload that is there
          have located := described.located present
          have inside : this.payloadLength < this.pduLength := located.inside
          have front : this.pduLength - this.payloadLength = this.markerPosition + 1 := by
            rw [markerPosition]
            omega
          have old : this.payloadPointer = some ⟨reserved.block, this.markerPosition + 1⟩ := by
            rw [reserve_block stays reservedEq, ← front]
            exact located.pointer
          have marker : reserved.pdu this.markerPosition = 0xFF := by
            rw [kept _ (by omega) (by rw [filledLength, if_neg present]; omega)]
            exact located.marker
          simp only [old, Prod.mk.injEq, Option.some.injEq] at result
          obtain ⟨rfl, rfl⟩ := result
          rw [if_neg present] at length
          have total : reserved.pduLength = this.markerPosition + 1 + len := by omega
          have pointer := facts.payloadPointer.trans old
          exact ⟨.of_marker total pointer marker, pointer, rfl⟩
        · -- a pointer that is right although there was no payload
          obtain ⟨memory, _⟩ := reserve_granted reservedEq
          rw [memory] at some marker
          simp only [some, Prod.mk.injEq, Option.some.injEq] at result
          obtain ⟨rfl, rfl⟩ := result
          rw [if_pos bare, Nat.add_right_comm] at length
          have pointer := facts.payloadPointer.trans some
          exact ⟨.of_marker length pointer marker, pointer, rfl⟩

theorem setPayload_described {content : List UInt8} (described : Describes ⟨this, payload⟩) (owned : this.Owned)
    (permitted : this.PayloadPermitted grant content.length) :
    Describes ⟨(this.setPayload grant content).2,
      if (this.setPayload grant content).1 = 0 then content else payload⟩ := by
  have refused := @mallocPayload_refused this grant content.length
  cases result : this.mallocPayload grant content.length with
  | mk pointer next =>
    cases pointer with
    | none =>
      rw [result] at refused
      have outcome : this.setPayload grant content = (1, this) := by
        simp only [setPayload, result]
        rw [← refused rfl]
      rw [outcome]
      exact described
    | some pointer =>
      obtain ⟨located, pointerEq, length⟩ := mallocPayload_located described owned permitted result
      have inside : next.payloadLength < next.pduLength := located.inside
      have place : pointer = ⟨next.block, next.pduLength - next.payloadLength⟩ :=
        Option.some.inj (pointerEq.symm.trans located.pointer)
      have outcome : this.setPayload grant content =
          (0, { next with pdu := next.pdu.copy (next.pduLength - next.payloadLength) content }) := by
        simp only [setPayload, result, place, if_true]
      have copied : Located { next with pdu := next.pdu.copy (next.pduLength - next.payloadLength) content } := by
        refine ⟨inside, located.pointer, ?_⟩
        simp only [markerPosition]
        rw [Memory.copy_outside _ (Or.inl (by omega))]
        exact located.marker
      rw [outcome]
      refine ⟨fun _ => copied, copied.getPayload.trans ?_⟩
      exact (Memory.copy_holds next.pdu _ content).eq_bytes length.symm

/-! ## The datagram -/

/-- Position and remaining length always add up to the length of the PDU, so a marker that is found is the byte in
front of the remaining ones. -/
theorem validateLoop_located (fuel : Nat) (this : CoapPDU) (optionPos : Nat) (bytesRemaining : Int)
    (optionNumber numOptions : Nat) (total : (optionPos : Int) + bytesRemaining = this.pduLength) :
    let result := validateLoop fuel this optionPos bytesRemaining optionNumber numOptions
    result.2.payloadLength = 0 ∨ result.1 = 0 ∧ result.2 = this ∨ result.1 = 1 ∧ result.2.Located := by
  induction fuel generalizing optionPos bytesRemaining optionNumber numOptions with
  | zero => exact Or.inr (Or.inl ⟨rfl, rfl⟩)
  | succ fuel inductionHypothesis =>
    rw [validateLoop]
    -- a turn ends at the marker, at a broken option or one option further on
    split
    next more =>
      simp only
      split
      next marker =>
        split
        next filled =>
          refine Or.inr (Or.inr ⟨rfl, ?_, ?_, ?_⟩)
          · simp only
            omega
          · have offset : this.pduLength - (bytesRemaining - 1).toNat = optionPos + 1 := by omega
            simp only [offset]
          · have place : this.pduLength - (bytesRemaining - 1).toNat - 1 = optionPos := by omega
            simp only [markerPosition, place]
            exact marker
        next => exact Or.inl rfl
      next =>
        split
        next => exact Or.inr (Or.inl ⟨rfl, rfl⟩)
        next =>
          split
          next => exact Or.inr (Or.inl ⟨rfl, rfl⟩)
          next =>
            split
            next => exact Or.inr (Or.inl ⟨rfl, rfl⟩)
            next =>
              split
              next => exact Or.inr (Or.inl ⟨rfl, rfl⟩)
              next =>
                apply inductionHypothesis
                push_cast
                omega
    next => exact Or.inl rfl

theorem validate_located (this : CoapPDU) :
    this.validate.2.payloadLength = 0 ∨ this.validate.1 = 0 ∧ this.validate.2 = this ∨
      this.validate.1 = 1 ∧ this.validate.2.Located := by
  rw [validate]
  split
  next => exact Or.inr (Or.inl ⟨rfl, rfl⟩)
  next =>
    split
    next => exact Or.inr (Or.inl ⟨rfl, rfl⟩)
    next =>
      simp only
      split
      next => exact Or.inr (Or.inl ⟨rfl, rfl⟩)
      next =>
        split
        next => exact Or.inr (Or.inl ⟨rfl, rfl⟩)
        next inside =>
          split
          next => exact Or.inr (Or.inl ⟨rfl, rfl⟩)
          next =>
            split
            next => exact Or.inl rfl
            next => exact validateLoop_located _ _ _ _ _ _ (by omega)

theorem validate_described (described : Describes ⟨this, payload⟩) :
    Describes ⟨this.validate.2, if this.validate.1 = 1 then this.validate.2.tail
      else if this.validate.2.payloadLength = 0 then [] else payload⟩ := by
  rcases this.validate_located with bare | ⟨rejected, same⟩ | ⟨accepted, located⟩
  · have nothing : this.validate.2.tail = [] := by
      rw [tail, bare]
      rfl
    rw [nothing, if_pos bare, ite_self]
    exact describes_bare bare
  · rw [rejected, same, if_neg (by decide)]
    split
    next bare => exact describes_bare bare
    next => exact described
  · rw [if_pos accepted]
    exact located.describes

end

/-! ## Runs -/

/-- A state of the container that every history has, with the payload described. -/
structure Invariant (tracked : Tracked) : Prop where
  kept : tracked.container.Kept
  described : Describes tracked

/-- Each permitted call keeps the payload described. -/
theorem step_invariant (before : Tracked) (operation : Operation) (after : Tracked) (invariant : Invariant before)
    (permitted : Permitted before operation) (taken : step before operation = some after) : Invariant after := by
  obtain ⟨this, payload⟩ := before
  obtain ⟨kept, described⟩ := invariant
  cases operation with
  | addOption grant number value =>
    rw [step] at taken
    split at taken
    next =>
      cases taken
      exact ⟨addOption_kept kept grant (Nat.le_of_lt_succ number.toNat_lt) value,
        described.addOption kept.owned permitted⟩
    next => cases taken
  | setToken grant token =>
    rw [step] at taken
    split at taken
    next =>
      cases taken
      exact ⟨setToken_kept kept grant token, described.setToken permitted⟩
    next => cases taken
  | mallocPayload grant len =>
    have nextKept := mallocPayload_kept kept grant len
    have refused := @mallocPayload_refused this grant len
    rw [step] at taken
    cases result : this.mallocPayload grant len with
    | mk pointer next =>
      rw [result] at nextKept refused
      simp only [result] at taken
      cases pointer with
      | none =>
        cases taken
        have same : next = this := refused rfl
        rw [same]
        exact ⟨kept, described⟩
      | some pointer =>
        cases taken
        exact ⟨nextKept, (mallocPayload_located described kept.owned permitted result).1.describes⟩
  | setPayload grant content =>
    cases taken
    exact ⟨setPayload_kept kept grant content, setPayload_described described kept.owned permitted⟩
  | validate =>
    have nextKept : this.validate.2.Kept := by
      obtain ⟨pointer, length, count, same⟩ := this.validate_facts
      rw [same]
      exact kept.congr (Nat.le_refl _) rfl rfl rfl
    cases taken
    exact ⟨nextKept, validate_described described⟩

/-- A container as its constructors leave it. -/
inductive Constructed : CoapPDU → Prop
  | new (block : Nat) (memory : Memory) : Constructed (new block memory)
  | ofBuffer (block : Nat) (buffer : Memory) (bufferLength pduLength : Nat) :
      Constructed (ofBuffer block buffer bufferLength pduLength)

theorem Constructed.invariant {this : CoapPDU} (constructed : Constructed this) : Invariant ⟨this, []⟩ := by
  cases constructed with
  | new block memory => exact ⟨(Container.new block memory).kept, describes_bare rfl⟩
  | ofBuffer block buffer bufferLength pduLength =>
    refine ⟨(Container.ofBuffer block buffer bufferLength pduLength).kept, describes_bare ?_⟩
    rw [CoapPDU.ofBuffer]
    split
    next => rfl
    next => rfl

/-- In every run whose calls leave the payload in its place, the payload pointer and length describe the payload last
set or received, and the marker is in front of it. -/
theorem payload_described (this : CoapPDU) (constructed : Constructed this) (tracked : Tracked)
    (run : Run step Permitted ⟨this, []⟩ tracked) : Describes tracked :=
  (run.invariant constructed.invariant step_invariant).described

/-- A path, a payload, and an option there is no space for. -/
theorem payload_described_path : ∃ tracked,
    [.addOption none 11 [97], .setPayload none [1, 2], .addOption none 12 (List.replicate 9 0)].foldlM step
        ⟨ofBuffer 0 (fun _ => 0) 16 0, []⟩ = some tracked ∧
      tracked.payload = [1, 2] ∧ Describes tracked := by
  refine ⟨_, rfl, rfl, ?_⟩
  apply payload_described _ (.ofBuffer 0 (fun _ => 0) 16 0)
  refine .next (.next (.next .refl (.addOption none 11 [97]) (Or.inl rfl) rfl) (.setPayload none [1, 2])
    (Or.inr (Or.inr (Or.inr (Or.inl ⟨rfl, rfl⟩)))) rfl) (.addOption none 12 (List.replicate 9 0)) ?_ rfl
  refine Or.inr (Or.inl ?_)
  rw [HasRoom, if_neg (by decide)]
  decide

/-- An option behind the payload: the pointer still designates the old place. -/
theorem payload_misplaced : ¬ ∀ this, Constructed this → ∀ tracked,
    Run step (fun _ _ => True) ⟨this, []⟩ tracked → Describes tracked := by
  intro all
  have run : Run step (fun _ _ => True) ⟨ofBuffer 0 (fun _ => 0) 16 0, []⟩ _ :=
    .next (.next .refl (.setPayload none [1]) trivial rfl) (.addOption none 11 [97]) trivial rfl
  have located := (all _ (.ofBuffer 0 (fun _ => 0) 16 0) _ run).located (by decide)
  have pointer := located.pointer
  revert pointer
  decide

end CoapPDU

end SmingCoap
