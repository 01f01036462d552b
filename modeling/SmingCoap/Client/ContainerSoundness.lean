import SmingCoap.Client.AddOptionSoundness

/-! # A PDU that was validated and is changed

A container keeps what earlier uses left in it.  `validate` overwrites all that
it caches but the largest option number, and without options or payload it does
not touch the payload pointer; `addOption` and `setPayload` trust both.

`Container` is any history of a container.  What a call does to a validated PDU
is said of the bytes: they are a message of the format before and after it.
-/

namespace SmingCoap

open Wire (Memory Opt)

namespace CoapPDU

/-! ## Histories -/

/-- A container after any sequence of operations.  A PDU in memory of its own stays inside it. -/
inductive Container : CoapPDU → Prop
  | new (block : Nat) (memory : Memory) : Container (new block memory)
  | ofBuffer (block : Nat) (buffer : Memory) (bufferLength pduLength : Nat) :
      Container (ofBuffer block buffer bufferLength pduLength)
  /-- Header fields are set, or a datagram is read into the buffer. -/
  | write {this : CoapPDU} (pdu : Memory) (container : Container this) : Container { this with pdu }
  | setPDULength {this : CoapPDU} (len : Nat) (container : Container this)
      (inside : this.constructedFromBuffer = false → len ≤ this.bufferLength) : Container (this.setPDULength len)
  | reset {this : CoapPDU} (container : Container this)
      (inside : this.constructedFromBuffer = false → 4 ≤ this.bufferLength) : Container this.reset
  | validate {this : CoapPDU} (container : Container this) : Container this.validate.2
  | setToken {this : CoapPDU} (grant : Option Realloc) (token : List UInt8) (container : Container this) :
      Container (this.setToken grant token).2
  | addOption {this : CoapPDU} (grant : Option Realloc) {number : Nat} (bound : number ≤ 65535)
      (value : List UInt8) (container : Container this) :
      Container (this.addOption grant number value.length value).2
  | setPayload {this : CoapPDU} (grant : Option Realloc) (payload : List UInt8) (container : Container this) :
      Container (this.setPayload grant payload).2

/-- What every history keeps. -/
structure Kept (this : CoapPDU) : Prop where
  owned : this.Owned
  maximum : this.maxAddedOptionNumber ≤ 65535

theorem Kept.congr {this other : CoapPDU} (kept : this.Kept) (length : other.pduLength ≤ this.pduLength)
    (constructed : other.constructedFromBuffer = this.constructedFromBuffer)
    (buffer : other.bufferLength = this.bufferLength)
    (maximum : other.maxAddedOptionNumber = this.maxAddedOptionNumber) : other.Kept where
  owned := by
    unfold Owned
    rw [constructed, buffer]
    exact fun dynamic => length.trans (kept.owned dynamic)
  maximum := by
    rw [maximum]
    exact kept.maximum

theorem Kept.write {this : CoapPDU} (kept : this.Kept) (pdu : Memory) : Kept { this with pdu } :=
  kept.congr (Nat.le_refl _) rfl rfl rfl

theorem Kept.shiftPDUUp {this : CoapPDU} (kept : this.Kept) (shiftOffset shiftAmount : Int) :
    (this.shiftPDUUp shiftOffset shiftAmount).Kept :=
  kept.write _

theorem Kept.setOptionDelta {this : CoapPDU} (kept : this.Kept) (optionPosition optionDelta : Nat) :
    (this.setOptionDelta optionPosition optionDelta).Kept :=
  kept.write _

theorem Kept.insertOption {this : CoapPDU} (kept : this.Kept) (headerStart optionDelta optionValueLength : Nat)
    (optionValue : List UInt8) (numOptions : Nat) :
    Kept { this.insertOption headerStart optionDelta optionValueLength optionValue with numOptions } :=
  kept.congr (Nat.le_refl _) rfl rfl rfl

/-- Whatever is reserved belongs to the PDU. -/
theorem reserve_kept {this reserved : CoapPDU} {grant : Option Realloc} {pduLength : Nat}
    (maximum : this.maxAddedOptionNumber ≤ 65535) (success : this.reserve grant pduLength = some reserved) :
    reserved.Kept ∧ reserved.pduLength = pduLength := by
  simp only [reserve] at success
  split at success
  next dynamic =>
    cases grant with
    | none => cases success
    | some memory =>
      cases success
      exact ⟨⟨fun _ => Nat.le_refl _, maximum⟩, rfl⟩
  next external =>
    split at success
    next => cases success
    next =>
      cases success
      exact ⟨⟨fun dynamic => absurd dynamic external, maximum⟩, rfl⟩

theorem shrink_kept {this released : CoapPDU} {grant : Option Realloc} (kept : this.Kept)
    (success : this.shrink grant = some released) : released.Kept := by
  simp only [shrink] at success
  split at success
  next dynamic => exact (reserve_kept kept.maximum success).1
  next external =>
    cases success
    exact kept

/-- The loop of `validate` only caches. -/
theorem validateLoop_facts (fuel : Nat) (this : CoapPDU) (optionPos : Nat) (bytesRemaining : Int)
    (optionNumber numOptions : Nat) :
    ∃ pointer length count, (validateLoop fuel this optionPos bytesRemaining optionNumber numOptions).2 =
      { this with payloadPointer := pointer, payloadLength := length, numOptions := count } := by
  induction fuel generalizing optionPos bytesRemaining optionNumber numOptions with
  | zero => exact ⟨_, _, _, rfl⟩
  | succ fuel inductionHypothesis =>
    rw [validateLoop]
    -- every way out of the loop sets the same three fields, and the last goes on
    split
    next =>
      simp only
      split
      next =>
        split
        next => exact ⟨_, _, _, rfl⟩
        next => exact ⟨_, _, _, rfl⟩
      next =>
        split
        next => exact ⟨_, _, _, rfl⟩
        next =>
          split
          next => exact ⟨_, _, _, rfl⟩
          next =>
            split
            next => exact ⟨_, _, _, rfl⟩
            next =>
              split
              next => exact ⟨_, _, _, rfl⟩
              next => exact inductionHypothesis ..
    next => exact ⟨_, _, _, rfl⟩

theorem validate_facts (this : CoapPDU) : ∃ pointer length count, this.validate.2 =
    { this with payloadPointer := pointer, payloadLength := length, numOptions := count } := by
  rw [validate]
  split
  next => exact ⟨_, _, _, rfl⟩
  next =>
    split
    next => exact ⟨_, _, _, rfl⟩
    next =>
      simp only
      split
      next => exact ⟨_, _, _, rfl⟩
      next =>
        split
        next => exact ⟨_, _, _, rfl⟩
        next =>
          split
          next => exact ⟨_, _, _, rfl⟩
          next =>
            split
            next => exact ⟨_, _, _, rfl⟩
            next => exact validateLoop_facts ..

theorem openGap_kept {this gap : CoapPDU} {grant : Option Realloc} {number position previous optionLength : Nat}
    (maximum : this.maxAddedOptionNumber ≤ 65535)
    (success : this.openGap grant number position previous optionLength = some gap) :
    gap.Kept ∧ gap.pduLength ≤ this.pduLength + optionLength + 2 := by
  unfold openGap at success
  split at success
  next =>
    obtain ⟨kept, length⟩ := reserve_kept maximum success
    exact ⟨kept, by omega⟩
  next =>
    simp only [computeExtraBytes_eq] at success
    generalize (previous + getOptionDelta (this.pdu.offset position) + 65536 - number) % 65536 = newDelta at success
    have new := Wire.extra_le newDelta
    split at success
    next => cases success
    next reserved reservedEq =>
      obtain ⟨kept, length⟩ := reserve_kept maximum reservedEq
      rw [← Option.some.inj success]
      refine ⟨((kept.shiftPDUUp _ _).write _).setOptionDelta _ _, ?_⟩
      simp only [setOptionDelta, shiftPDUUp, length]
      omega

theorem setToken_kept {this : CoapPDU} (kept : this.Kept) (grant : Option Realloc) (token : List UInt8) :
    (this.setToken grant token).2.Kept := by
  -- eight bits hold the length, so restoring it can only lower it
  have old : this.pduLength % 256 ≤ this.pduLength := Nat.mod_le _ _
  have tokenLength : ∀ (other : CoapPDU) (length : Nat), other.Kept → (other.setTokenLength length).2.Kept := by
    intro other length otherKept
    rw [setTokenLength]
    split
    next => exact otherKept
    next => exact otherKept.congr (Nat.le_refl _) rfl rfl rfl
  simp only [setToken]
  split
  next => exact kept
  next =>
    split
    next => exact kept.congr (Nat.le_refl _) rfl rfl rfl
    next =>
      split
      next =>
        split
        next => exact kept.congr old rfl rfl rfl
        next reserved reservedEq =>
          obtain ⟨reservedKept, _⟩ := reserve_kept kept.maximum reservedEq
          exact tokenLength _ _ (reservedKept.congr (Nat.le_refl _) rfl rfl rfl)
      -- bytes move down within the buffer before it shrinks
      next smaller =>
        split
        next => exact kept.congr (by simp only [shiftPDUDown]; omega) rfl rfl rfl
        next released releasedEq =>
          apply tokenLength
          apply shrink_kept _ releasedEq
          exact kept.congr (by simp only [shiftPDUDown]; omega) rfl rfl rfl

theorem addOption_kept {this : CoapPDU} (kept : this.Kept) (grant : Option Realloc) {number : Nat}
    (bound : number ≤ 65535) (value : List UInt8) : (this.addOption grant number value.length value).2.Kept := by
  have noted : ∀ position, (this.noteMaximum position number).Kept := by
    intro position
    unfold noteMaximum
    split
    next => exact ⟨kept.owned, bound⟩
    next => exact kept
  simp only [addOption]
  generalize this.findInsertionPosition number = place
  generalize (optionHdrByte + computeExtraBytes ((number + 65536 - place.2) % 65536) +
    computeExtraBytes value.length + value.length) % 65536 = optionLength
  split
  next => exact noted _
  next gap opened =>
    exact (openGap_kept (noted place.1).maximum opened).1.insertOption _ _ _ _ _

theorem mallocPayload_kept {this : CoapPDU} (kept : this.Kept) (grant : Option Realloc) (len : Nat) :
    (this.mallocPayload grant len).2.Kept := by
  simp only [mallocPayload]
  split
  next => exact kept
  next =>
    split
    next => exact kept
    next =>
      split
      next => exact kept
      next reserved reservedEq =>
        have reservedKept := (reserve_kept kept.maximum reservedEq).1
        split
        next => exact reservedKept.congr (Nat.le_refl _) rfl rfl rfl
        next => exact reservedKept.congr (Nat.le_refl _) rfl rfl rfl

theorem setPayload_kept {this : CoapPDU} (kept : this.Kept) (grant : Option Realloc) (payload : List UInt8) :
    (this.setPayload grant payload).2.Kept := by
  have space := mallocPayload_kept kept grant payload.length
  simp only [setPayload]
  split
  next result =>
    rw [result] at space
    exact space
  next result =>
    rw [result] at space
    split
    next => exact space.congr (Nat.le_refl _) rfl rfl rfl
    next => exact space

theorem Container.kept {this : CoapPDU} (container : Container this) : this.Kept := by
  induction container with
  | new block memory => exact ⟨fun _ => Nat.le_refl 4, Nat.zero_le _⟩
  | ofBuffer block buffer bufferLength pduLength =>
    have external : ∀ pdu pduLength, Kept ⟨block, pdu, pduLength, true, bufferLength, none, 0, 0, 0⟩ :=
      fun _ _ => ⟨nofun, Nat.zero_le _⟩
    simp only [CoapPDU.ofBuffer, setVersion_one]
    split
    next => exact external _ _
    next => exact external _ _
  | write pdu _ kept => exact kept.congr (Nat.le_refl _) rfl rfl rfl
  | setPDULength len _ inside kept => exact ⟨inside, kept.maximum⟩
  | reset _ inside _ => exact ⟨inside, Nat.zero_le _⟩
  | @validate this _ kept =>
    obtain ⟨pointer, length, count, same⟩ := this.validate_facts
    rw [same]
    exact kept.congr (Nat.le_refl _) rfl rfl rfl
  | setToken grant token _ kept => exact setToken_kept kept grant token
  | addOption grant bound value _ kept => exact addOption_kept kept grant bound value
  | setPayload grant payload _ kept => exact setPayload_kept kept grant payload

/-! ## Where the option lands -/

section
variable {this next : CoapPDU} {grant : Option Realloc} {number position previous : Nat} {value : List UInt8}

/-- At the end of the PDU the option is written behind everything, counted from the number that
`findInsertionPosition` gave. -/
theorem addOption_appends (owned : this.Owned)
    (place : this.findInsertionPosition number = (this.pduLength, previous))
    (fits : this.TotalLengthFits number value)
    (success : this.addOption grant number value.length value = (0, next)) :
    ∃ stored, next.bytes = this.bytes ++ Wire.encodeOption ((number + 65536 - previous) % 65536) stored ∧
      stored.length = value.length ∧ (stored = value ↔ this.TailKept grant number value) := by
  obtain ⟨gap, opened, result, whole⟩ := addOption_opened place fits success
  obtain ⟨delta, deltaEq⟩ : ∃ delta, delta = (number + 65536 - previous) % 65536 := ⟨_, rfl⟩
  rw [← deltaEq] at opened result whole ⊢
  obtain ⟨notedPdu, notedLength, _, _, _, notedOwned⟩ := this.noteMaximum_facts this.pduLength number
  rw [openGap, if_pos notedLength.symm, notedLength] at opened
  obtain ⟨length, _, _, kept⟩ := reserve_spec (notedOwned owned) opened
  obtain ⟨written, frame⟩ := gap.insertOption_spec this.pduLength delta value
  have size : next.pduLength = this.pduLength + (Wire.encodeOption delta
      (storedValue gap.pdu (this.pduLength + (1 + Wire.extra delta + Wire.extra value.length)) value)).length := by
    rw [Wire.length_encodeOption, length_storedValue]
    have unchanged : next.pduLength = gap.pduLength := by
      rw [result]
      rfl
    omega
  have same : next.pdu = (gap.insertOption this.pduLength delta value.length value).pdu := by rw [result]
  refine ⟨_, ?_, length_storedValue .., whole⟩
  rw [bytes, size, Memory.bytes_add, Nat.zero_add, same, written]
  congr 1
  apply Memory.bytes_congr
  intro i _ inside
  rw [frame i (Or.inl (by omega)), kept i (by omega) (by omega), notedPdu]

/-- Elsewhere what lies at the place gets a new delta, even if it is the payload marker. -/
theorem openGap_header {gap : CoapPDU} {optionLength : Nat} (inside : position ≠ this.pduLength)
    (opened : this.openGap grant number position previous optionLength = some gap) :
    Wire.upperNibble (gap.pdu (position + optionLength)) ≤ 14 := by
  unfold openGap at opened
  rw [if_neg inside] at opened
  simp only [computeExtraBytes_eq] at opened
  generalize (previous + getOptionDelta (this.pdu.offset position) + 65536 - number) % 65536 = newDelta at opened
  split at opened
  next => cases opened
  next reserved reservedEq =>
    have header : ((position : Int) + (optionLength + ((Wire.extra newDelta : Int) -
        Wire.extra (getOptionDelta (this.pdu.offset position)))) - ((Wire.extra newDelta : Int) -
        Wire.extra (getOptionDelta (this.pdu.offset position)))).toNat = position + optionLength := by omega
    rw [header, Option.some.injEq] at opened
    rw [← opened, (setOptionDelta_spec ..).1]
    -- the lower half is kept, the upper one is a half-byte of the format
    have upper := Wire.nibble_le newDelta
    generalize Wire.nibble newDelta = half at upper
    generalize kept : Wire.lowerNibble _ = low
    have lower : low < 16 := kept ▸ Wire.lowerNibble_lt _
    rw [Wire.upperNibble, Wire.toNat_ofNat_of_lt (by omega)]
    omega

/-- A total length that wraps leaves hardly any room for a value of nearly 65536 bytes. -/
theorem addOption_wraps (kept : this.Kept) (bound : number ≤ 65535) (size : value.length ≤ 65535)
    (wraps : ¬ this.TotalLengthFits number value)
    (success : this.addOption grant number value.length value = (0, next)) :
    next.pduLength ≤ this.pduLength + 6 ∧ 65531 ≤ value.length := by
  cases place : this.findInsertionPosition number with
  | mk position previous =>
    obtain ⟨delta, deltaEq⟩ : ∃ delta, delta = (number + 65536 - previous) % 65536 := ⟨_, rfl⟩
    rw [TotalLengthFits, place, ← deltaEq] at wraps
    rw [addOption, place] at success
    simp only [← deltaEq, computeExtraBytes_eq, optionHdrByte] at wraps success
    have first := Wire.extra_le delta
    have second := Wire.extra_le value.length
    generalize lengthEq : (1 + Wire.extra delta + Wire.extra value.length + value.length) % 65536 = optionLength
      at success
    have noted : (this.noteMaximum position number).maxAddedOptionNumber ≤ 65535 := by
      unfold noteMaximum
      split
      next => exact bound
      next => exact kept.maximum
    split at success
    next => cases success
    next gap opened =>
      have room := (openGap_kept noted opened).2
      rw [(this.noteMaximum_facts position number).2.1] at room
      simp only [Prod.mk.injEq, true_and] at success
      rw [← success]
      simp only [insertOption]
      omega

end

/-! ## The new bytes -/

/-- The options with a larger number than the last one. -/
theorem beyond_eq_nil_iff (number : Nat) {options : List Opt} (ascending : Wire.Ascending 0 options) :
    beyond number options = [] ↔ Wire.lastNumber 0 options ≤ number := by
  rw [beyond, List.dropWhile_eq_nil_iff]
  constructor
  · intro all
    exact Wire.lastNumber_le (Nat.zero_le _) fun option member => by simpa using all option member
  · intro below option member
    have bound := ascending.le_lastNumber member
    simp only [decide_eq_true_eq]
    omega

/-- Bytes behind the whole PDU are the new option in its place only if they are what belongs there. -/
theorem appended_iff {delta number : Nat} {stored value payload : List UInt8} {options : List Opt}
    (ascending : Wire.Ascending 0 options) (representable : Wire.Representable options) (bound : number ≤ 65535)
    (size : value.length ≤ 65535) (deltaBound : delta ≤ 65535) (storedSize : stored.length = value.length) :
    Wire.encodeOptions 0 options ++ Wire.payloadSection payload ++ Wire.encodeOption delta stored =
        Wire.encodeOptions 0 (Wire.insertBehind Opt.number ⟨number, value⟩ options) ++ Wire.payloadSection payload ↔
      payload = [] ∧ Wire.lastNumber 0 options ≤ number ∧ delta = number - Wire.lastNumber 0 options ∧
        stored = value := by
  have splitting := upTo_append_beyond number options
  have low := lastNumber_upTo_le number options
  have small : ∀ n, n ≤ 65535 → n ≤ Wire.maxExtended := fun n below => by
    unfold Wire.maxExtended
    omega
  rw [insertBehind_upTo, ← beyond_eq_nil_iff _ ascending]
  obtain ⟨before, beforeEq⟩ : ∃ before, before = upTo number options := ⟨_, rfl⟩
  -- split at the place of the new option: what is behind it there begins with another delta or with the marker
  cases behind : beyond number options with
  | nil =>
    rw [behind, List.append_nil] at splitting
    simp only [splitting] at low ⊢
    rw [Wire.encodeOptions_append, Wire.encodeOptions, Wire.encodeOptions, List.append_nil, List.append_assoc,
      List.append_assoc, List.append_cancel_left_eq]
    by_cases filled : payload = []
    · subst filled
      simp only [Wire.payloadSection_nil, List.nil_append, true_and]
      constructor
      · intro same
        rw [← List.append_nil (Wire.encodeOption delta stored)] at same
        obtain ⟨deltas, values, _⟩ := Wire.encodeOption_append_inj (small _ deltaBound) (small _ (by omega))
          (small _ (by omega)) (small _ size) same
        exact ⟨deltas, values⟩
      · rintro ⟨rfl, rfl⟩
        exact (List.append_nil _).symm
    · simp only [filled, false_and, iff_false]
      rw [Wire.payloadSection_of_ne filled]
      exact fun same => Wire.encodeOption_append_ne_marker _ _ _ _ same.symm
  | cons first rest =>
    simp only [reduceCtorEq, false_and, and_false, iff_false]
    rw [behind, ← beforeEq] at splitting
    rw [← beforeEq] at low ⊢
    intro same
    have larger : number < first.number := by
      have head := List.head?_dropWhile_not (fun option : Opt => decide (option.number ≤ number)) options
      rw [beyond] at behind
      simpa [behind] using head
    have member : first ∈ options := by
      rw [← splitting]
      exact List.mem_append_right _ (List.mem_cons_self ..)
    have bounds := representable first member
    rw [← splitting, Wire.encodeOptions_append, Wire.encodeOptions_append, Wire.encodeOptions, Wire.encodeOptions,
      List.append_assoc, List.append_assoc, List.append_assoc, List.append_assoc, List.append_assoc,
      List.append_cancel_left_eq] at same
    simp only at low same
    have deltas := (Wire.encodeOption_append_inj (small _ (by omega)) (small _ bounds.2) (small _ (by omega))
      (small _ size) same).1
    omega

/-! ## A validated PDU -/

/-- `validate` has just returned 1. -/
def Validated (this : CoapPDU) : Prop :=
  ∃ container, Container container ∧ container.validate = (1, this)

/-- A message of the format in a container that `validate` was called on. -/
structure Valid (this : CoapPDU) (message : Wire.Message) : Prop where
  kept : this.Kept
  parses : Parses this.bytes message
  numOptions_eq : this.numOptions = message.options.length
  payloadLength_eq : this.payloadLength = message.payload.length
  pointer : message.payload ≠ [] →
    this.payloadPointer = some ⟨this.block, this.pduLength - message.payload.length⟩

section
variable {this next : CoapPDU} {grant : Option Realloc} {message : Wire.Message} {number : Nat}
  {value payload content : List UInt8}

theorem Validated.valid (validated : this.Validated) (parses : Parses this.bytes message) : this.Valid message := by
  obtain ⟨container, history, accepted⟩ := validated
  obtain ⟨pointer, length, count, same⟩ := container.validate_facts
  have kept := (Container.validate history).kept
  have read : container.bytes = this.bytes := by
    rw [accepted] at same
    rw [show this = _ from same]
    rfl
  rw [← read] at parses
  have caches := parses.validate_eq (Memory.holds_bytes ..) (Memory.length_bytes ..).symm
  rw [accepted] at caches kept
  have thisEq : this = container.cached message := congrArg Prod.snd caches
  refine ⟨kept, read ▸ parses, ?_, ?_, ?_⟩
  · rw [thisEq, cached]
  · rw [thisEq, cached]
  · intro filled
    rw [thisEq]
    simp only [cached, filled, and_false, if_false]

/-- A validated PDU is a message unless an option past 65535 was misread. -/
theorem Validated.exists_message (validated : this.Validated)
    (exact : ¬ Misread this.pdu this.pduLength (4 + (this.pdu 0).toNat % 16)) :
    ∃ message, Parses this.bytes message := by
  obtain ⟨container, _, accepted⟩ := validated
  obtain ⟨pointer, length, count, same⟩ := container.validate_facts
  have decides : container.validate.1 = 1 := by rw [accepted]
  rw [accepted] at same
  have thisEq : this = { container with payloadPointer := pointer, payloadLength := length, numOptions := count } :=
    same
  rw [validate_iff] at decides
  obtain ⟨header, last, path, finishes⟩ := decides
  rw [thisEq] at exact ⊢
  have size : container.bytes.length = container.pduLength := Memory.length_bytes ..
  rw [← size] at header path finishes
  have written : container.pdu.Holds 0 container.bytes := Memory.holds_bytes ..
  have exactBytes : ¬ Misread container.pdu container.bytes.length (4 + (container.pdu 0).toNat % 16) := by
    rw [size]
    exact exact
  exact message_of_path written header path finishes exactBytes

theorem Valid.not_misread (valid : this.Valid message) :
    ¬ Misread this.pdu this.pduLength (4 + (this.pdu 0).toNat % 16) := by
  have exact := valid.parses.not_misread (Memory.holds_bytes ..)
  rw [bytes, Memory.length_bytes] at exact
  exact exact

theorem Valid.getTokenLength_eq (valid : this.Valid message) : this.getTokenLength = message.token.length := by
  rw [CoapPDU.getTokenLength_eq]
  exact (valid.parses.header (Memory.holds_bytes ..)).2

/-- The bytes of the PDU behind the token. -/
theorem Valid.holds (valid : this.Valid message) : this.pdu.Holds (4 + this.getTokenLength)
    (Wire.encodeOptions 0 message.options ++ Wire.payloadSection message.payload) := by
  obtain ⟨fits, _, encodes⟩ := valid.parses
  have written : this.pdu.Holds 0 message.encode := by
    rw [encodes]
    exact Memory.holds_bytes ..
  rw [valid.getTokenLength_eq, Memory.holds_append]
  exact ⟨(Wire.holds_encode fits written).options, (Wire.holds_encode fits written).payload⟩

theorem Valid.length_eq (valid : this.Valid message) : this.pduLength = 4 + this.getTokenLength +
    (Wire.encodeOptions 0 message.options ++ Wire.payloadSection message.payload).length := by
  have size := message.length_encode
  rw [valid.parses.2.2, bytes, Memory.length_bytes] at size
  rw [size, valid.getTokenLength_eq, List.length_append, Nat.add_assoc, Nat.add_assoc]

theorem Valid.bytes_eq (valid : this.Valid message) : this.bytes = message.header ++ (message.token ++
    (Wire.encodeOptions 0 message.options ++ Wire.payloadSection message.payload)) :=
  valid.parses.2.2.symm

theorem Valid.noPayload_iff (valid : this.Valid message) : this.payloadLength = 0 ↔ message.payload = [] := by
  rw [valid.payloadLength_eq, List.length_eq_zero_iff]

/-- A PDU with the same header and token, and what it then consists of. -/
theorem Valid.rewritten (valid : this.Valid message)
    (header : ∀ i, i < 4 + this.getTokenLength → next.pdu i = this.pdu i)
    (holds : next.pdu.Holds (4 + this.getTokenLength) content)
    (length : next.pduLength = 4 + this.getTokenLength + content.length) :
    next.bytes = message.header ++ (message.token ++ content) := by
  have front : this.pdu.Holds 0 (message.header ++ message.token) := by
    have written : this.pdu.Holds 0 this.bytes := Memory.holds_bytes ..
    rw [valid.bytes_eq, ← List.append_assoc] at written
    exact (Memory.holds_append.mp written).1
  have size : (message.header ++ message.token).length = 4 + this.getTokenLength := by
    rw [List.length_append, valid.getTokenLength_eq, Wire.Message.header]
    rfl
  rw [bytes, length, Memory.bytes_add, Nat.zero_add, ← List.append_assoc, holds.eq_bytes rfl,
    ← front.eq_bytes size]
  congr 1
  exact Memory.bytes_congr fun i _ inside => header i (by omega)

theorem Valid.readOptions_eq (valid : this.Valid message) : this.readOptions = message.options := by
  rw [readOptions, getOptions, valid.numOptions_eq]
  exact getOptionsLoop_spec this message.options _ 0 valid.parses.1.ascending valid.parses.1.options
    (Memory.holds_append.mp valid.holds).1

/-! ## Another option -/

/-- The option can be put where it belongs: in front of an option of the PDU and below the largest number
that was noted, or behind the last option when there is no payload and that note is right or not used. -/
def Placeable (this : CoapPDU) (number : Nat) : Prop :=
  let last := Wire.lastNumber 0 this.readOptions
  number < this.maxAddedOptionNumber ∧ number < last ∨
    this.payloadLength = 0 ∧ last ≤ number ∧
      (this.maxAddedOptionNumber = last ∨ number < this.maxAddedOptionNumber ∧ this.readOptions ≠ [])

instance (this : CoapPDU) (number : Nat) : Decidable (this.Placeable number) :=
  inferInstanceAs (Decidable (_ ∨ _))

/-- Either the noted number decides, or the options do. -/
theorem Valid.findInsertionPosition_eq (valid : this.Valid message) (number : Nat) :
    this.findInsertionPosition number =
      if number ≥ this.maxAddedOptionNumber ∨ message.options = [] ∧ message.payload = [] then
        (this.pduLength, this.maxAddedOptionNumber)
      else
        (4 + this.getTokenLength + (Wire.encodeOptions 0 (upTo number message.options)).length,
          Wire.lastNumber 0 (upTo number message.options)) := by
  have lengthEq := valid.length_eq
  have count := Wire.length_le_encodeOptions 0 message.options
  have bare : this.pduLength = hdrSize + this.getTokenLength ↔ message.options = [] ∧ message.payload = [] := by
    rw [lengthEq, List.length_append, Wire.length_payloadSection, hdrSize]
    constructor
    · intro same
      constructor
      · exact List.eq_nil_of_length_eq_zero (by omega)
      · by_contra filled
        rw [if_neg filled] at same
        omega
    · rintro ⟨noOptions, noPayload⟩
      rw [noOptions, if_pos noPayload]
      rfl
  simp only [findInsertionPosition, bare]
  split
  next => rfl
  next =>
    rw [List.length_append] at lengthEq
    exact findInsertionLoop_spec this number _ message.options message.payload _ 0 valid.parses.1.ascending
      valid.parses.1.options valid.holds valid.length_eq (by omega)

theorem Valid.parses_inserted (valid : this.Valid message) (bound : number ≤ 65535) (size : value.length ≤ 65535) :
    Parses next.bytes { message with options := Wire.insertBehind Opt.number ⟨number, value⟩ message.options } ↔
      next.bytes = message.header ++ (message.token ++
        (Wire.encodeOptions 0 (Wire.insertBehind Opt.number ⟨number, value⟩ message.options) ++
          Wire.payloadSection message.payload)) := by
  obtain ⟨fits, code, _⟩ := valid.parses
  constructor
  · rintro ⟨_, _, encodes⟩
    exact encodes.symm
  · intro same
    refine ⟨⟨fits.type, fits.messageID, fits.token, ?_, ?_⟩, code, same.symm⟩
    · exact Wire.ascending_insertBehind fits.ascending (Nat.zero_le _)
    · rw [insertBehind_upTo]
      refine representable_insert ?_ ⟨bound, size⟩
      rw [upTo_append_beyond]
      exact fits.options

/-- The format needs room for the value, whatever becomes of the delta behind it. -/
theorem length_insertBehind_ge (options : List Opt) (number : Nat) (value : List UInt8) :
    (Wire.encodeOptions 0 options).length + value.length ≤
      (Wire.encodeOptions 0 (Wire.insertBehind Opt.number ⟨number, value⟩ options)).length + 2 := by
  have splitting := upTo_append_beyond number options
  rw [insertBehind_upTo]
  conv_lhs => rw [← splitting]
  cases beyond number options with
  | nil =>
    simp only [Wire.encodeOptions_append, Wire.encodeOptions, List.length_append, Wire.length_encodeOption,
      List.length_nil]
    omega
  | cons first rest =>
    have width := Wire.extra_le (first.number - Wire.lastNumber 0 (upTo number options))
    simp only [Wire.encodeOptions_append, Wire.encodeOptions, List.length_append, Wire.length_encodeOption]
    omega

/-- With its value whole the option is what belongs there. -/
theorem inserted_iff {before after : List Opt} {stored tail : List UInt8} (bound : number ≤ 65535)
    (size : value.length ≤ 65535) (storedSize : stored.length = value.length) :
    Wire.encodeOptions 0 (before ++ ⟨number, stored⟩ :: after) ++ tail =
      Wire.encodeOptions 0 (before ++ ⟨number, value⟩ :: after) ++ tail ↔ stored = value := by
  have small : ∀ n, n ≤ 65535 → n ≤ Wire.maxExtended := fun n below => by
    unfold Wire.maxExtended
    omega
  constructor
  · intro same
    rw [List.append_cancel_right_eq, Wire.encodeOptions_append, Wire.encodeOptions_append,
      List.append_cancel_left_eq, Wire.encodeOptions, Wire.encodeOptions] at same
    exact (Wire.encodeOption_append_inj (small _ (Nat.le_trans (Nat.sub_le ..) bound))
      (small _ (storedSize ▸ size)) (small _ (Nat.le_trans (Nat.sub_le ..) bound)) (small _ size) same).2.1
  · rintro rfl
    rfl

/-- Away from the end of the PDU the option behind the place is written over: with a payload and no larger
number it is the marker that is lost. -/
theorem Valid.marker_lost (valid : this.Valid message) (bound : number ≤ 65535) (filled : message.payload ≠ [])
    (behind : beyond number message.options = [])
    (place : this.findInsertionPosition number =
      (4 + this.getTokenLength + (Wire.encodeOptions 0 message.options).length, Wire.lastNumber 0 message.options))
    (fits : this.TotalLengthFits number value)
    (success : this.addOption grant number value.length value = (0, next)) :
    next.bytes ≠ message.header ++ (message.token ++
      (Wire.encodeOptions 0 (Wire.insertBehind Opt.number ⟨number, value⟩ message.options) ++
        Wire.payloadSection message.payload)) := by
  intro same
  have lengthEq := valid.length_eq
  have low := lastNumber_upTo_le number message.options
  have splitting := upTo_append_beyond number message.options
  rw [behind, List.append_nil] at splitting
  rw [splitting] at low
  rw [insertBehind_upTo, behind, splitting, Wire.encodeOptions_append, Wire.encodeOptions, Wire.encodeOptions,
    List.append_nil] at same
  rw [List.length_append, Wire.length_payloadSection, if_neg filled, ← Nat.add_assoc] at lengthEq
  obtain ⟨last, lastEq⟩ : ∃ last, last = Wire.lastNumber 0 message.options := ⟨_, rfl⟩
  obtain ⟨position, positionEq⟩ : ∃ position,
    position = 4 + this.getTokenLength + (Wire.encodeOptions 0 message.options).length := ⟨_, rfl⟩
  rw [← lastEq] at low same
  rw [← positionEq] at lengthEq
  rw [← positionEq, ← lastEq] at place
  obtain ⟨gap, opened, result, _⟩ := addOption_opened place fits success
  rw [show (number + 65536 - last) % 65536 = number - last by omega] at opened result
  have header := openGap_header (by rw [(this.noteMaximum_facts position number).2.1]; omega) opened
  obtain ⟨_, frame⟩ := gap.insertOption_spec position (number - last) value
  have kept : next.pdu (position + (1 + Wire.extra (number - last) + Wire.extra value.length + value.length)) =
      gap.pdu (position + (1 + Wire.extra (number - last) + Wire.extra value.length + value.length)) := by
    rw [result]
    exact frame _ (Or.inr (by omega))
  -- the marker belongs at the end of the new option
  have written : next.pdu.Holds 0 next.bytes := Memory.holds_bytes ..
  rw [same, Wire.payloadSection_of_ne filled] at written
  simp only [← List.append_assoc] at written
  have marker := (Memory.holds_cons.mp (Memory.holds_append.mp written).2).1
  simp only [List.length_append, Wire.length_encodeOption, ← valid.getTokenLength_eq, Wire.Message.header,
    List.length_cons, List.length_nil, Nat.zero_add, Nat.reduceAdd, ← positionEq] at marker
  rw [kept] at marker
  exact Wire.ne_marker_of_upperNibble header marker

/-- The place is behind everything, a payload included, and is counted from the maximum that was noted. -/
theorem Valid.addOption_atEnd (valid : this.Valid message) (bound : number ≤ 65535) (size : value.length ≤ 65535)
    (atEnd : number ≥ this.maxAddedOptionNumber ∨ message.options = [] ∧ message.payload = [])
    (place : this.findInsertionPosition number = (this.pduLength, this.maxAddedOptionNumber))
    (fits : this.TotalLengthFits number value)
    (success : this.addOption grant number value.length value = (0, next)) :
    Parses next.bytes { message with options := Wire.insertBehind Opt.number ⟨number, value⟩ message.options } ↔
      this.TailKept grant number value ∧ this.Placeable number := by
  have fitsFormat := valid.parses.1
  have maximum := valid.kept.maximum
  have deltaBound : (number + 65536 - this.maxAddedOptionNumber) % 65536 ≤ 65535 := by omega
  obtain ⟨stored, appended, storedSize, whole⟩ := addOption_appends valid.kept.owned place fits success
  rw [valid.parses_inserted bound size, appended, valid.bytes_eq, List.append_assoc, List.append_assoc,
    List.append_cancel_left_eq, List.append_cancel_left_eq,
    appended_iff fitsFormat.ascending fitsFormat.options bound size deltaBound storedSize, ← whole]
  simp only [Placeable, valid.readOptions_eq, valid.noPayload_iff]
  have none : message.options = [] → Wire.lastNumber 0 message.options = 0 := fun noOptions => by
    rw [noOptions]
    rfl
  constructor
  · rintro ⟨filled, order, delta, same⟩
    refine ⟨same, Or.inr ⟨filled, order, Or.inl ?_⟩⟩
    cases atEnd with
    | inl largest => omega
    | inr bare =>
      rw [none bare.1] at delta ⊢
      omega
  · rintro ⟨same, placed⟩
    cases placed with
    | inl between =>
      cases atEnd with
      | inl largest => omega
      | inr bare =>
        rw [none bare.1] at between
        omega
    | inr behind =>
      obtain ⟨filled, order, right⟩ := behind
      refine ⟨filled, order, ?_, same⟩
      cases right with
      | inl noted => omega
      | inr below =>
        cases atEnd with
        | inl largest => omega
        | inr bare => exact absurd bare.1 below.2

/-- The walk stops at an option with a larger number, or behind the last one where there is no payload. -/
theorem Valid.addOption_between (valid : this.Valid message) (bound : number ≤ 65535) (size : value.length ≤ 65535)
    (inside : ¬ (number ≥ this.maxAddedOptionNumber ∨ message.options = [] ∧ message.payload = []))
    (place : this.findInsertionPosition number =
      (4 + this.getTokenLength + (Wire.encodeOptions 0 (upTo number message.options)).length,
        Wire.lastNumber 0 (upTo number message.options)))
    (noMarker : beyond number message.options = [] → message.payload = [])
    (fits : this.TotalLengthFits number value)
    (success : this.addOption grant number value.length value = (0, next)) :
    Parses next.bytes { message with options := Wire.insertBehind Opt.number ⟨number, value⟩ message.options } ↔
      this.TailKept grant number value ∧ this.Placeable number := by
  have fitsFormat := valid.parses.1
  have splitting := upTo_append_beyond number message.options
  have last : beyond number message.options = [] → Wire.payloadSection message.payload = [] := by
    intro behind
    rw [noMarker behind]
    rfl
  have representable : Wire.Representable (upTo number message.options ++ beyond number message.options) := by
    rw [splitting]
    exact fitsFormat.options
  obtain ⟨stored, inserts, storedSize, whole⟩ := addOption_inserts (Wire.payloadSection message.payload)
    valid.kept.owned representable (lastNumber_upTo_le number message.options) (ascending_beyond fitsFormat.ascending)
    last (by rw [splitting]; exact valid.holds) (by rw [splitting]; exact valid.length_eq) place bound fits success
  have placed : this.Placeable number := by
    simp only [Placeable, valid.readOptions_eq, valid.noPayload_iff]
    rw [not_or, Nat.not_le] at inside
    by_cases order : Wire.lastNumber 0 message.options ≤ number
    · have filled := noMarker ((beyond_eq_nil_iff number fitsFormat.ascending).mpr order)
      exact Or.inr ⟨filled, order, Or.inr ⟨inside.1, fun bare => inside.2 ⟨bare, filled⟩⟩⟩
    · exact Or.inl ⟨inside.1, Nat.lt_of_not_le order⟩
  rw [valid.parses_inserted bound size, valid.rewritten inserts.header inserts.holds inserts.length_eq,
    insertBehind_upTo, List.append_cancel_left_eq, List.append_cancel_left_eq, inserted_iff bound size storedSize,
    ← whole]
  exact (and_iff_left placed).symm

/-- The length wrapped: the result is too short for the value. -/
theorem Valid.addOption_wrapped (valid : this.Valid message) (bound : number ≤ 65535) (size : value.length ≤ 65535)
    (fits : ¬ this.TotalLengthFits number value)
    (success : this.addOption grant number value.length value = (0, next)) :
    ¬ Parses next.bytes
      { message with options := Wire.insertBehind Opt.number ⟨number, value⟩ message.options } := by
  rw [valid.parses_inserted bound size]
  intro same
  have wraps := addOption_wraps valid.kept bound size fits success
  have room := length_insertBehind_ge message.options number value
  have lengthEq := valid.length_eq
  have longer := congrArg List.length same
  simp only [bytes, Memory.length_bytes, List.length_append, Wire.Message.header, List.length_cons,
    List.length_nil, ← valid.getTokenLength_eq] at longer lengthEq
  omega

/-- What the call makes of a message. -/
theorem Valid.addOption_iff (valid : this.Valid message) (bound : number ≤ 65535) (size : value.length ≤ 65535)
    (success : this.addOption grant number value.length value = (0, next)) :
    Parses next.bytes { message with options := Wire.insertBehind Opt.number ⟨number, value⟩ message.options } ↔
      this.TotalLengthFits number value ∧ this.TailKept grant number value ∧ this.Placeable number := by
  by_cases fits : this.TotalLengthFits number value
  · rw [and_iff_right fits]
    have place := valid.findInsertionPosition_eq number
    split at place
    next atEnd => exact valid.addOption_atEnd bound size atEnd place fits success
    next inside =>
      -- the walk takes a payload marker for an option with a larger number
      by_cases marker : message.payload ≠ [] ∧ beyond number message.options = []
      · obtain ⟨filled, behind⟩ := marker
        have whole := upTo_append_beyond number message.options
        rw [behind, List.append_nil] at whole
        rw [whole] at place
        have lost := valid.marker_lost bound filled behind place fits success
        have order := (beyond_eq_nil_iff number valid.parses.1.ascending).mp behind
        rw [valid.parses_inserted bound size]
        simp only [Placeable, valid.readOptions_eq, valid.noPayload_iff, lost, filled, false_and, or_false,
          false_iff, not_and]
        omega
      · refine valid.addOption_between bound size inside place (fun behind => ?_) fits success
        by_contra filled
        exact marker ⟨filled, behind⟩
  · exact iff_of_false (valid.addOption_wrapped bound size fits success) fun right => fits right.1

/-! ## Another payload -/

/-- The allocation of a PDU that is brought to `pduLength` bytes, and what it holds. -/
def granted (this : CoapPDU) (grant : Option Realloc) (pduLength : Nat) : Nat × Memory :=
  if this.constructedFromBuffer = false then
    match grant with
    | none => (this.block, this.pdu)
    | some memory =>
      (memory.block, fun i => if i < this.bufferLength ∧ i < pduLength then this.pdu i else memory.fresh i)
  else (this.block, this.pdu)

/-- The bytes in front of the payload section. -/
def front (this : CoapPDU) : List UInt8 :=
  this.pdu.bytes 0 (this.pduLength - if this.payloadLength = 0 then 0 else this.payloadLength + 1)

/-- Without a payload the pointer is null, and with one it still points to it when the payload is copied. -/
def PointerRight (this : CoapPDU) (grant : Option Realloc) (payload : List UInt8) : Prop :=
  if this.payloadLength = 0 then this.payloadPointer = none
  else payload.length = this.payloadLength ∨
    (this.granted grant (this.front.length + 1 + payload.length)).1 = this.block

/-- The copy went elsewhere, or nowhere, and yet the marker and the payload are where they belong. -/
def LandsAnyway (this : CoapPDU) (grant : Option Realloc) (payload : List UInt8) : Prop :=
  ∃ pointer, this.payloadPointer = some pointer ∧
    let (block, memory) := this.granted grant (this.front.length + 1 + payload.length)
    let memory := if pointer.block = block then memory.copy pointer.offset payload else memory
    memory.Holds 0 (this.front ++ 0xFF :: payload)

theorem reserve_granted {reserved : CoapPDU} {pduLength : Nat} (success : this.reserve grant pduLength = some reserved) :
    this.granted grant pduLength = (reserved.block, reserved.pdu) ∧ reserved.pduLength = pduLength := by
  simp only [reserve] at success
  simp only [granted]
  by_cases dynamic : this.constructedFromBuffer = false
  · rw [if_pos dynamic] at success ⊢
    cases grant with
    | none => cases success
    | some memory =>
      cases success
      exact ⟨rfl, rfl⟩
  · rw [if_neg dynamic] at success ⊢
    split at success
    next => cases success
    next =>
      cases success
      exact ⟨rfl, rfl⟩

/-- Granted memory keeps the PDU as far as it reaches. -/
theorem granted_keeps (owned : this.Owned) {pduLength : Nat} {i : Nat} (inside : i < this.pduLength)
    (room : i < pduLength) : (this.granted grant pduLength).2 i = this.pdu i := by
  simp only [granted]
  split
  next dynamic =>
    cases grant with
    | none => rfl
    | some memory => exact if_pos ⟨Nat.lt_of_lt_of_le inside (owned dynamic), room⟩
  next => rfl

/-- A payload of another length goes to where the pointer points, or behind a marker of its own. -/
theorem setPayload_written (changed : payload.length ≠ this.payloadLength) (inside : this.payloadLength < this.pduLength)
    (success : this.setPayload grant payload = (0, next)) :
    payload ≠ [] ∧ next.pduLength = this.front.length + 1 + payload.length ∧
      let (block, memory) := this.granted grant (this.front.length + 1 + payload.length)
      next.pdu = match this.payloadPointer with
        | none => (memory.store this.pduLength 0xFF).copy (this.pduLength + 1) payload
        | some pointer => if pointer.block = block then memory.copy pointer.offset payload else memory := by
  -- `markerSpace` and `payloadSpace` add up to the new length
  have size : ((this.pduLength : Int) + (if this.payloadLength ≠ 0 then (0, (payload.length : Int) - this.payloadLength)
      else (1, (payload.length : Int)) : Nat × Int).2 + (if this.payloadLength ≠ 0 then
      (0, (payload.length : Int) - this.payloadLength) else (1, (payload.length : Int)) : Nat × Int).1).toNat =
      this.front.length + 1 + payload.length := by
    rw [front, Memory.length_bytes]
    by_cases bare : this.payloadLength = 0
    · simp only [bare, ne_eq, not_true_eq_false, if_false, if_true]
      omega
    · simp only [bare, ne_eq, not_false_eq_true, if_true, if_false]
      omega
  simp only [setPayload, mallocPayload] at success
  by_cases empty : payload.length = 0
  · simp [empty] at success
  · simp only [size, if_neg empty, if_neg changed] at success
    cases reservedEq : this.reserve grant (this.front.length + 1 + payload.length) with
    | none => simp [reservedEq] at success
    | some reserved =>
      obtain ⟨memory, length⟩ := reserve_granted reservedEq
      refine ⟨fun none => empty (none ▸ rfl), ?_⟩
      rw [memory]
      simp only [reservedEq] at success
      cases pointerEq : this.payloadPointer with
      | none =>
        simp only [pointerEq, if_true, Prod.mk.injEq, true_and] at success
        rw [← success]
        exact ⟨length, rfl⟩
      | some pointer =>
        simp only [pointerEq] at success
        split at success
        -- the copy goes where the pointer says, and misses the PDU when `realloc` has moved it
        next same =>
          simp only [Prod.mk.injEq, true_and] at success
          rw [← success]
          exact ⟨length, (if_pos same).symm⟩
        next other =>
          simp only [Prod.mk.injEq, true_and] at success
          rw [← success]
          exact ⟨length, (if_neg other).symm⟩

theorem Valid.front_eq (valid : this.Valid message) :
    this.front = message.header ++ (message.token ++ Wire.encodeOptions 0 message.options) := by
  have written : this.pdu.Holds 0 this.bytes := Memory.holds_bytes ..
  have size : this.bytes.length = this.pduLength := Memory.length_bytes ..
  rw [valid.bytes_eq, ← List.append_assoc, ← List.append_assoc] at written size
  rw [List.length_append, Wire.length_payloadSection] at size
  rw [← List.append_assoc, ← (Memory.holds_append.mp written).1.eq_bytes rfl, front]
  congr 1
  by_cases bare : this.payloadLength = 0
  · rw [if_pos (valid.noPayload_iff.mp bare)] at size
    rw [if_pos bare]
    omega
  · rw [if_neg (valid.noPayload_iff.not.mp bare), ← valid.payloadLength_eq] at size
    rw [if_neg bare]
    omega

/-- The payload is set when it lies behind a marker behind the options. -/
theorem Valid.parses_payload (valid : this.Valid message) (filled : payload ≠ [])
    (length : next.pduLength = this.front.length + 1 + payload.length) :
    Parses next.bytes { message with payload } ↔ next.pdu.Holds 0 (this.front ++ 0xFF :: payload) := by
  obtain ⟨fits, code, _⟩ := valid.parses
  have encodes : Wire.Message.encode { message with payload } = this.front ++ 0xFF :: payload := by
    rw [valid.front_eq, Wire.Message.encode, Wire.payloadSection_of_ne filled]
    simp only [List.append_assoc]
    rfl
  have size : next.pduLength = (this.front ++ 0xFF :: payload).length := by
    rw [length, List.length_append, List.length_cons, Nat.add_assoc, Nat.add_comm 1]
  rw [Memory.Holds, ← size, ← encodes]
  constructor
  · rintro ⟨_, _, same⟩
    exact same.symm
  · intro same
    exact ⟨⟨fits.type, fits.messageID, fits.token, fits.ascending, fits.options⟩, code, same.symm⟩

/-- Where the payload section of a message starts, the marker stands. -/
theorem Valid.marker (valid : this.Valid message) (filled : this.payloadLength ≠ 0) :
    this.pdu this.front.length = 0xFF ∧ this.pduLength = this.front.length + 1 + this.payloadLength := by
  have written : this.pdu.Holds 0 this.bytes := Memory.holds_bytes ..
  have size : this.bytes.length = this.pduLength := Memory.length_bytes ..
  rw [valid.bytes_eq, ← List.append_assoc, ← List.append_assoc, List.append_assoc message.header, ← valid.front_eq,
    Wire.payloadSection_of_ne (valid.noPayload_iff.not.mp filled)] at written size
  have marker := (Memory.holds_cons.mp (Memory.holds_append.mp written).2).1
  rw [Nat.zero_add] at marker
  rw [List.length_append, List.length_cons, ← valid.payloadLength_eq] at size
  exact ⟨marker, by omega⟩

/-- A copy to the place behind the marker. -/
theorem holds_copied {memory : Memory} (keeps : ∀ i, i < this.front.length → memory i = this.pdu i)
    (marker : memory this.front.length = 0xFF) :
    (memory.copy (this.front.length + 1) payload).Holds 0 (this.front ++ 0xFF :: payload) := by
  rw [Memory.holds_append, Memory.holds_cons, Nat.zero_add]
  refine ⟨?_, ?_, Memory.copy_holds ..⟩
  · have start : this.pdu.Holds 0 this.front := Memory.holds_bytes ..
    refine start.congr fun i _ inside => ?_
    rw [Memory.copy_outside _ (Or.inl (by omega)), keeps i (by omega)]
  · rw [Memory.copy_outside _ (Or.inl (Nat.lt_succ_self _)), marker]

/-- A payload of the old length is copied over it. -/
theorem Valid.setPayload_inPlace (valid : this.Valid message) (same : payload.length = this.payloadLength)
    (success : this.setPayload grant payload = (0, next)) :
    this.payloadLength ≠ 0 ∧ next.pduLength = this.pduLength ∧
      next.pdu = this.pdu.copy (this.front.length + 1) payload := by
  simp only [setPayload, mallocPayload] at success
  by_cases bare : this.payloadLength = 0
  · simp [same, bare] at success
  · have pointer := valid.pointer (valid.noPayload_iff.not.mp bare)
    have place : this.pduLength - message.payload.length = this.front.length + 1 := by
      have length := (valid.marker bare).2
      rw [← valid.payloadLength_eq]
      omega
    simp only [same, if_neg bare, if_true, pointer, place, Prod.mk.injEq, true_and] at success
    rw [← success]
    exact ⟨bare, rfl, rfl⟩

theorem Valid.payload_inside (valid : this.Valid message) : this.payloadLength < this.pduLength := by
  have size := valid.length_eq
  rw [List.length_append, Wire.length_payloadSection, valid.getTokenLength_eq] at size
  rw [valid.payloadLength_eq]
  split at size
  next bare =>
    rw [bare, List.length_nil]
    omega
  next => omega

/-- Granted memory has the bytes in front of the payload, and its marker. -/
theorem Valid.granted_front (valid : this.Valid message) (grant : Option Realloc) (payload : List UInt8) (i : Nat)
    (low : i < this.pduLength) (high : i < this.front.length + 1) :
    (this.granted grant (this.front.length + 1 + payload.length)).2 i = this.pdu i :=
  granted_keeps valid.kept.owned low (by omega)

/-- Without a payload the pointer may be left over from an earlier one. -/
theorem Valid.setPayload_bare (valid : this.Valid message) (bare : this.payloadLength = 0)
    (changed : payload.length ≠ this.payloadLength) (success : this.setPayload grant payload = (0, next)) :
    next.pdu.Holds 0 (this.front ++ 0xFF :: payload) ↔
      this.PointerRight grant payload ∨ this.LandsAnyway grant payload := by
  have written := (setPayload_written changed valid.payload_inside success).2.2
  have keeps := valid.granted_front grant payload
  simp only [PointerRight, LandsAnyway]
  generalize this.granted grant (this.front.length + 1 + payload.length) = granted at written keeps ⊢
  obtain ⟨block, memory⟩ := granted
  simp only at written keeps ⊢
  cases pointerEq : this.payloadPointer with
  | none =>
    have size : this.front.length = this.pduLength := by
      rw [front, Memory.length_bytes, if_pos bare, Nat.sub_zero]
    simp only [pointerEq, ← size] at written
    rw [written]
    have copied : ((memory.store this.front.length 0xFF).copy (this.front.length + 1) payload).Holds 0
        (this.front ++ 0xFF :: payload) :=
      holds_copied (fun i low => by rw [Memory.store_other _ _ (by omega), keeps i (by omega) (by omega)])
        (Memory.store_same ..)
    simp only [copied, bare, if_true, true_or]
  | some pointer =>
    simp only [pointerEq] at written
    simp [written, bare]

/-- With a payload the pointer points into the old allocation, which a resize may have moved. -/
theorem Valid.setPayload_resized (valid : this.Valid message) (filled : this.payloadLength ≠ 0)
    (changed : payload.length ≠ this.payloadLength) (success : this.setPayload grant payload = (0, next)) :
    next.pdu.Holds 0 (this.front ++ 0xFF :: payload) ↔
      this.PointerRight grant payload ∨ this.LandsAnyway grant payload := by
  have written := (setPayload_written changed valid.payload_inside success).2.2
  have keeps := valid.granted_front grant payload
  have pointerEq := valid.pointer (valid.noPayload_iff.not.mp filled)
  obtain ⟨marker, size⟩ := valid.marker filled
  have place : this.pduLength - message.payload.length = this.front.length + 1 := by
    rw [← valid.payloadLength_eq]
    omega
  rw [place] at pointerEq
  simp only [PointerRight, LandsAnyway, changed, false_or]
  generalize this.granted grant (this.front.length + 1 + payload.length) = granted at written keeps ⊢
  obtain ⟨block, memory⟩ := granted
  simp only [pointerEq] at written keeps
  simp only [pointerEq, filled, if_false, Option.some.injEq, exists_eq_left', ← written]
  constructor
  · exact Or.inr
  · intro landed
    cases landed with
    | inl still =>
      rw [written, if_pos still.symm]
      exact holds_copied (fun i low => keeps i (by omega) (by omega))
        ((keeps _ (by omega) (by omega)).trans marker)
    | inr there => exact there

/-- What the call makes of a message. -/
theorem Valid.setPayload_iff (valid : this.Valid message) (success : this.setPayload grant payload = (0, next)) :
    Parses next.bytes { message with payload } ↔
      this.PointerRight grant payload ∨ this.LandsAnyway grant payload := by
  by_cases same : payload.length = this.payloadLength
  -- as long as the old payload: the bytes are replaced where they are
  · obtain ⟨bare, length, written⟩ := valid.setPayload_inPlace same success
    obtain ⟨marker, size⟩ := valid.marker bare
    have filled : payload ≠ [] := fun none => bare (same ▸ none ▸ rfl)
    have right : this.PointerRight grant payload := by
      rw [PointerRight, if_neg bare]
      exact Or.inl same
    rw [valid.parses_payload filled (by omega), written]
    simp only [holds_copied (fun _ _ => rfl) marker, right, true_or]
  · obtain ⟨filled, length, _⟩ := setPayload_written same valid.payload_inside success
    rw [valid.parses_payload filled length]
    by_cases bare : this.payloadLength = 0
    · exact valid.setPayload_bare bare same success
    · exact valid.setPayload_resized bare same success

/-! ## What a change makes of a validated PDU -/

/-- After `validate` a successful change is the one that was asked for exactly when the PDU really is a message
and what the container keeps from earlier uses fits it. -/
theorem changed_iff (validated : this.Validated) :
    (∀ grant number value next, number ≤ 65535 → value.length ≤ 65535 →
      this.addOption grant number value.length value = (0, next) →
      ((∃ message, Parses this.bytes message ∧ Parses next.bytes
          { message with options := Wire.insertBehind Opt.number ⟨number, value⟩ message.options }) ↔
        ¬ Misread this.pdu this.pduLength (4 + (this.pdu 0).toNat % 16) ∧
          this.TotalLengthFits number value ∧ this.TailKept grant number value ∧ this.Placeable number)) ∧
    (∀ grant payload next, this.setPayload grant payload = (0, next) →
      ((∃ message, Parses this.bytes message ∧ Parses next.bytes { message with payload }) ↔
        ¬ Misread this.pdu this.pduLength (4 + (this.pdu 0).toNat % 16) ∧
          (this.PointerRight grant payload ∨ this.LandsAnyway grant payload))) := by
  constructor
  · intro grant number value next bound size success
    constructor
    · rintro ⟨message, parses, inserted⟩
      have valid := validated.valid parses
      exact ⟨valid.not_misread, (valid.addOption_iff bound size success).mp inserted⟩
    · rintro ⟨exact, right⟩
      obtain ⟨message, parses⟩ := validated.exists_message exact
      exact ⟨message, parses, ((validated.valid parses).addOption_iff bound size success).mpr right⟩
  · intro grant payload next success
    constructor
    · rintro ⟨message, parses, replaced⟩
      have valid := validated.valid parses
      exact ⟨valid.not_misread, (valid.setPayload_iff success).mp replaced⟩
    · rintro ⟨exact, right⟩
      obtain ⟨message, parses⟩ := validated.exists_message exact
      exact ⟨message, parses, ((validated.valid parses).setPayload_iff success).mpr right⟩

end

/-- A container over a buffer of 64 bytes into which `content` was read. -/
def received (content : List UInt8) : CoapPDU :=
  ofBuffer 0 (Memory.copy (fun _ => 0) 0 content) 64 content.length

theorem validated_received {content : List UInt8} (accepted : (received content).validate.1 = 1) :
    (received content).validate.2.Validated :=
  ⟨received content, .ofBuffer .., Prod.ext accepted rfl⟩

/-- A path and a payload on a bare header. -/
theorem changed_bareHeader : ∃ this next filled : CoapPDU, this.Validated ∧
    this.addOption none 11 1 [97] = (0, next) ∧ this.setPayload none [98] = (0, filled) ∧
    (∃ message, Parses this.bytes message ∧ Parses next.bytes
      { message with options := Wire.insertBehind Opt.number ⟨11, [97]⟩ message.options }) ∧
    ∃ message, Parses this.bytes message ∧ Parses filled.bytes { message with payload := [98] } := by
  obtain ⟨this, thisEq⟩ : ∃ this, this = (received [0x40, 1, 0, 0]).validate.2 := ⟨_, rfl⟩
  have validated : this.Validated := thisEq ▸ validated_received (by decide)
  have parses : Parses this.bytes ⟨0, 1, 0, [], [], []⟩ := by
    rw [thisEq]
    exact ⟨⟨by decide, by decide, by decide, trivial, nofun⟩, by decide, rfl⟩
  have exact := (validated.valid parses).not_misread
  have added : this.addOption none 11 [97].length [97] = (0, (this.addOption none 11 1 [97]).2) := by
    rw [thisEq]
    rfl
  have replaced : this.setPayload none [98] = (0, (this.setPayload none [98]).2) := by
    rw [thisEq]
    rfl
  have fits : this.TotalLengthFits 11 [97] := by
    rw [thisEq]
    decide
  have placeable : this.Placeable 11 := by
    rw [thisEq]
    decide
  have right : this.PointerRight none [98] := by
    rw [thisEq]
    rfl
  exact ⟨this, _, _, validated, added, replaced,
    ((changed_iff validated).1 none 11 [97] _ (by decide) (by decide) added).mpr
      ⟨exact, fits, Or.inl (by decide), placeable⟩,
    ((changed_iff validated).2 none [98] _ replaced).mpr ⟨exact, Or.inl right⟩⟩

/-- `validate` leaves the largest option number at 0, so the next option is counted from there: behind
the path "a" a second segment becomes an option of number 22. -/
theorem addOption_after_validate : ¬ ∀ this : CoapPDU, this.Validated →
    (∀ grant number value next, number ≤ 65535 → value.length ≤ 65535 →
      this.addOption grant number value.length value = (0, next) →
      ∃ message, Parses this.bytes message ∧ Parses next.bytes
        { message with options := Wire.insertBehind Opt.number ⟨number, value⟩ message.options }) ∧
    ∀ grant payload next, this.setPayload grant payload = (0, next) →
      ∃ message, Parses this.bytes message ∧ Parses next.bytes { message with payload } := by
  intro claimed
  obtain ⟨this, thisEq⟩ : ∃ this, this = (received [0x40, 1, 0, 0, 0xB1, 97]).validate.2 := ⟨_, rfl⟩
  have validated : this.Validated := thisEq ▸ validated_received (by decide)
  have success : (this.addOption none 11 [98].length [98]).1 = 0 := by
    rw [thisEq]
    decide
  obtain ⟨next, added⟩ : ∃ next, this.addOption none 11 [98].length [98] = (0, next) := ⟨_, Prod.ext success rfl⟩
  obtain ⟨message, parses, inserted⟩ := (claimed this validated).1 none 11 [98] _ (by decide) (by decide) added
  have changes := (validated.valid parses).addOption_iff (show 11 ≤ 65535 by decide)
    (show [98].length ≤ 65535 by decide) added
  have misplaced : ¬ this.Placeable 11 := by
    rw [thisEq]
    decide
  exact misplaced (changes.mp inserted).2.2

end CoapPDU

end SmingCoap
