import SmingCoap.Server.ParseExactness

/-! # What the builder writes

`coapBuildDatagram` writes the encoding of the message as long as that fits the
16 bit offsets (`buildDatagram_spec`).  `wireMessage` is the message as the format
sees it, its token the bytes that `getTokenByteCount` counts.
-/

namespace SmingCoap.Server

open Wire (Memory Opt)

/-! ## Options -/

/-- What `packField` leaves for one of the two halves of the header. -/
structure FieldPacked (destArr result : Memory) (optStartOffset offset value : Nat) (shift : UInt8) :
    Prop where
  header : result optStartOffset = destArr optStartOffset ||| UInt8.ofNat (Wire.nibble value) <<< shift
  extension : result.Holds offset (Wire.extension value)
  frame : ∀ i, i ≠ optStartOffset → i < offset ∨ offset + Wire.extra value ≤ i → result i = destArr i

theorem ofNat_sub_13 {n : Nat} (large : ¬ n < 13) : UInt8.ofNat n - 13 = UInt8.ofNat (n - 13) := by
  apply UInt8.toNat_inj.mp
  rw [UInt8.toNat_sub, UInt8.toNat_ofNat', UInt8.toNat_ofNat']
  simp only [UInt8.reduceToNat, Nat.reducePow]
  omega

theorem ofNat_high (n : Nat) : UInt8.ofNat (n >>> 8) = UInt8.ofNat (n / 256) := by
  rw [Nat.shiftRight_eq_div_pow]

theorem ofNat_low (n : Nat) : UInt8.ofNat (n &&& 0xFF) = UInt8.ofNat n := by
  apply UInt8.toNat_inj.mp
  rw [UInt8.toNat_ofNat', UInt8.toNat_ofNat', show (0xFF : Nat) = 2 ^ 8 - 1 from rfl,
    Nat.and_two_pow_sub_one_eq_mod, Nat.mod_mod]

theorem packField_spec (destArr : Memory) {optStartOffset offset : Nat} (value : Nat) (shift : UInt8)
    (behind : optStartOffset < offset) (room : offset + Wire.extra value ≤ 65535) :
    (packField destArr optStartOffset offset value shift).2 = offset + Wire.extra value ∧
      FieldPacked destArr (packField destArr optStartOffset offset value shift).1 optStartOffset offset
        value shift := by
  -- the three formats: in the header byte, in one more byte, in two more
  by_cases small : value < 13
  · have extraEq : Wire.extra value = 0 := if_pos small
    have nibbleEq : Wire.nibble value = value := if_pos small
    have extensionEq : Wire.extension value = [] := if_pos small
    simp only [packField, if_pos small]
    refine ⟨extraEq ▸ rfl, ?_, ?_, ?_⟩
    · rw [Memory.store_same, nibbleEq]
    · rw [extensionEq]
      exact Memory.holds_nil ..
    · intro i other _
      exact Memory.store_other _ _ other
  · by_cases medium : value < 269
    · have extraEq : Wire.extra value = 1 := by rw [Wire.extra, if_neg small, if_pos medium]
      have nibbleEq : Wire.nibble value = 13 := by rw [Wire.nibble, if_neg small, if_pos medium]
      have extensionEq : Wire.extension value = [UInt8.ofNat (value - 13)] := by
        rw [Wire.extension, if_neg small, if_pos medium]
      simp only [packField, if_neg small, if_pos medium]
      refine ⟨?_, ?_, ?_, ?_⟩
      · rw [extraEq, Nat.mod_eq_of_lt (by omega)]
      · rw [Memory.store_other _ _ (by omega), Memory.store_same, nibbleEq]
        rfl
      · rw [extensionEq, Memory.holds_cons, ofNat_sub_13 small]
        exact ⟨Memory.store_same .., Memory.holds_nil ..⟩
      · intro i other outside
        rw [Memory.store_other _ _ (by omega), Memory.store_other _ _ other]
    · have extraEq : Wire.extra value = 2 := by rw [Wire.extra, if_neg small, if_neg medium]
      have nibbleEq : Wire.nibble value = 14 := by rw [Wire.nibble, if_neg small, if_neg medium]
      have extensionEq : Wire.extension value =
          [UInt8.ofNat ((value - 269) / 256), UInt8.ofNat (value - 269)] := by
        rw [Wire.extension, if_neg small, if_neg medium]
      have next : (offset + 1) % 65536 = offset + 1 := Nat.mod_eq_of_lt (by omega)
      simp only [packField, if_neg small, if_neg medium, next, ofNat_high, ofNat_low]
      refine ⟨?_, ?_, ?_, ?_⟩
      · rw [extraEq, Nat.mod_eq_of_lt (by omega)]
      · rw [Memory.store_other _ _ (by omega), Memory.store_other _ _ (by omega), Memory.store_same,
          nibbleEq]
        rfl
      · rw [extensionEq, Memory.holds_cons, Memory.holds_cons]
        refine ⟨?_, Memory.store_same .., Memory.holds_nil ..⟩
        rw [Memory.store_other _ _ (by omega), Memory.store_same]
      · intro i other outside
        rw [Memory.store_other _ _ (by omega), Memory.store_other _ _ (by omega),
          Memory.store_other _ _ other]

theorem packValue_spec (value : List UInt8) (destArr : Memory) (offset : Nat)
    (room : offset + value.length ≤ 65535) :
    (packValue destArr offset value).2 = offset + value.length ∧
      (packValue destArr offset value).1.Holds offset value ∧
      ∀ i, i < offset ∨ offset + value.length ≤ i → (packValue destArr offset value).1 i = destArr i := by
  induction value generalizing destArr offset with
  | nil => exact ⟨rfl, Memory.holds_nil .., fun _ _ => rfl⟩
  | cons byte rest inductionHypothesis =>
    rw [List.length_cons] at room
    have next : (offset + 1) % 65536 = offset + 1 := Nat.mod_eq_of_lt (by omega)
    obtain ⟨stop, holds, frame⟩ := inductionHypothesis (destArr.store offset byte) (offset + 1) (by omega)
    rw [packValue, next, Memory.holds_cons, List.length_cons]
    refine ⟨by omega, ⟨?_, holds⟩, ?_⟩
    · rw [frame offset (by omega), Memory.store_same]
    · intro i outside
      rw [frame i (by omega), Memory.store_other _ _ (by omega)]

/-- The header byte of an option put together from its two halves. -/
theorem header_halves {upper lower : Nat} (upperBound : upper < 16) (lowerBound : lower < 16) :
    ((0 : UInt8) ||| UInt8.ofNat upper <<< 4) ||| UInt8.ofNat lower <<< 0 =
      UInt8.ofNat (upper * 16 + lower) := by
  apply UInt8.toNat_inj.mp
  rw [UInt8.zero_or, UInt8.toNat_or, UInt8.toNat_shiftLeft, UInt8.toNat_shiftLeft,
    Wire.toNat_ofNat_of_lt (by omega), Wire.toNat_ofNat_of_lt (by omega),
    Wire.toNat_ofNat_of_lt (by omega)]
  simp only [UInt8.reduceToNat, Nat.reduceMod, Nat.shiftLeft_eq, Nat.reducePow, Nat.pow_zero, Nat.mul_one]
  rw [Nat.mod_eq_of_lt (by omega), Nat.mod_eq_of_lt (by omega), Nat.mul_comm upper,
    Nat.two_pow_add_eq_or_of_lt (i := 4) (by omega)]

/-- The bytes of a list in any order: where a number decreases, its 16 bit delta wraps. -/
def packedOptions (lastOptNumber : Nat) : List Opt → List UInt8
  | [] => []
  | option :: rest =>
    Wire.encodeOption ((option.number + 65536 - lastOptNumber) % 65536) option.value ++
      packedOptions option.number rest

/-- In order no delta wraps. -/
theorem packedOptions_eq {lastOptNumber : Nat} {options : List Opt}
    (ascending : Wire.Ascending lastOptNumber options) (representable : Wire.Representable options) :
    packedOptions lastOptNumber options = Wire.encodeOptions lastOptNumber options := by
  induction options generalizing lastOptNumber with
  | nil => rfl
  | cons option rest inductionHypothesis =>
    have bounds := representable option (List.mem_cons_self ..)
    have low := ascending.1
    have delta : (option.number + 65536 - lastOptNumber) % 65536 = option.number - lastOptNumber := by
      omega
    rw [packedOptions, Wire.encodeOptions, delta, inductionHypothesis ascending.2 representable.tail]

/-- One turn of the loop packs one option. -/
theorem packOptionsFromList_cons (destArr : Memory) (offset lastOptNumber : Nat) {delta : Nat} (option : Opt)
    (rest : List Opt) (deltaEq : delta = (option.number + 65536 - lastOptNumber) % 65536)
    (room : offset + (Wire.encodeOption delta option.value).length ≤ 65535) :
    ∃ packed : Memory, packOptionsFromList destArr offset lastOptNumber (option :: rest) =
        packOptionsFromList packed (offset + (Wire.encodeOption delta option.value).length) option.number rest ∧
      packed.Holds offset (Wire.encodeOption delta option.value) ∧
      ∀ i, i < offset ∨ offset + (Wire.encodeOption delta option.value).length ≤ i → packed i = destArr i := by
  rw [Wire.length_encodeOption] at room
  have first : (offset + 1) % 65536 = offset + 1 := Nat.mod_eq_of_lt (by omega)
  -- the memory after the header byte, the delta, the length and the value
  obtain ⟨cleared, clearedEq⟩ : ∃ cleared, cleared = destArr.store offset 0 := ⟨_, rfl⟩
  obtain ⟨deltaEnd, deltaPacked⟩ := packField_spec cleared delta 4 (Nat.lt_succ_self offset) (by omega)
  obtain ⟨withDelta, withDeltaEq⟩ : ∃ withDelta, withDelta =
    (packField cleared offset (offset + 1) delta 4).1 := ⟨_, rfl⟩
  rw [Nat.succ_eq_add_one] at deltaEnd deltaPacked
  rw [← withDeltaEq] at deltaPacked
  obtain ⟨place, placeEq⟩ : ∃ place, place = offset + 1 + Wire.extra delta := ⟨_, rfl⟩
  rw [← placeEq] at deltaEnd
  obtain ⟨lengthEnd, lengthPacked⟩ := packField_spec withDelta option.value.length 0
    (show offset < place by omega) (by omega)
  obtain ⟨withLength, withLengthEq⟩ : ∃ withLength, withLength =
    (packField withDelta offset place option.value.length 0).1 := ⟨_, rfl⟩
  rw [← withLengthEq] at lengthPacked
  obtain ⟨valueEnd, valueHolds, valueFrame⟩ := packValue_spec option.value withLength
    (place + Wire.extra option.value.length) (by omega)
  obtain ⟨withValue, withValueEq⟩ : ∃ withValue, withValue =
    (packValue withLength (place + Wire.extra option.value.length) option.value).1 := ⟨_, rfl⟩
  rw [← withValueEq] at valueHolds valueFrame
  have size : place + Wire.extra option.value.length + option.value.length =
      offset + (Wire.encodeOption delta option.value).length := by
    rw [Wire.length_encodeOption]
    omega
  rw [size] at valueEnd
  refine ⟨withValue, ?_, ?_, ?_⟩
  · have deltaTurn : packField cleared offset (offset + 1) delta 4 = (withDelta, place) :=
      Prod.ext withDeltaEq.symm deltaEnd
    have lengthTurn : packField withDelta offset place option.value.length 0 =
        (withLength, place + Wire.extra option.value.length) := Prod.ext withLengthEq.symm lengthEnd
    have valueTurn : packValue withLength (place + Wire.extra option.value.length) option.value =
        (withValue, offset + (Wire.encodeOption delta option.value).length) := Prod.ext withValueEq.symm valueEnd
    rw [packOptionsFromList, ← deltaEq, first, ← clearedEq, deltaTurn]
    simp only [lengthTurn, valueTurn]
  · -- what is packed later lies behind
    have early : ∀ i, i < place + Wire.extra option.value.length → withValue i = withLength i :=
      fun i inside => valueFrame i (Or.inl inside)
    rw [Wire.encodeOption, Memory.holds_cons, Memory.holds_append, Memory.holds_append,
      Wire.length_extension, Wire.length_extension, ← placeEq]
    refine ⟨?_, ?_, ?_, valueHolds⟩
    · rw [early offset (by omega), lengthPacked.header, deltaPacked.header, clearedEq, Memory.store_same]
      exact header_halves (Nat.lt_succ_of_le (Nat.le_succ_of_le (Wire.nibble_le _)))
        (Nat.lt_succ_of_le (Nat.le_succ_of_le (Wire.nibble_le _)))
    · apply deltaPacked.extension.congr
      intro i _ inside
      rw [Wire.length_extension] at inside
      rw [early i (by omega), lengthPacked.frame i (by omega) (by omega)]
    · apply lengthPacked.extension.congr
      intro i _ inside
      rw [Wire.length_extension] at inside
      exact early i inside
  · intro i outside
    rw [valueFrame i (by omega), lengthPacked.frame i (by omega) (by omega),
      deltaPacked.frame i (by omega) (by omega), clearedEq, Memory.store_other _ _ (by omega)]

/-- Packing writes these bytes as long as the offset does not wrap. -/
theorem packOptionsFromList_packed (options : List Opt) (destArr : Memory) (offset lastOptNumber : Nat)
    (room : offset + (packedOptions lastOptNumber options).length ≤ 65535) :
    (packOptionsFromList destArr offset lastOptNumber options).2 =
        offset + (packedOptions lastOptNumber options).length ∧
      (packOptionsFromList destArr offset lastOptNumber options).1.Holds offset
        (packedOptions lastOptNumber options) ∧
      ∀ i, i < offset ∨ offset + (packedOptions lastOptNumber options).length ≤ i →
        (packOptionsFromList destArr offset lastOptNumber options).1 i = destArr i := by
  induction options generalizing destArr offset lastOptNumber with
  | nil => exact ⟨rfl, Memory.holds_nil .., fun _ _ => rfl⟩
  | cons option rest inductionHypothesis =>
    obtain ⟨delta, deltaEq⟩ : ∃ delta, delta = (option.number + 65536 - lastOptNumber) % 65536 := ⟨_, rfl⟩
    rw [packedOptions, ← deltaEq, List.length_append] at room ⊢
    obtain ⟨packed, turn, holds, frame⟩ :=
      packOptionsFromList_cons destArr offset lastOptNumber option rest deltaEq (by omega)
    obtain ⟨restEnd, restHolds, restFrame⟩ := inductionHypothesis packed
      (offset + (Wire.encodeOption delta option.value).length) option.number (by omega)
    rw [turn, Memory.holds_append]
    refine ⟨by omega, ⟨?_, restHolds⟩, ?_⟩
    · apply holds.congr
      intro i _ inside
      exact restFrame i (Or.inl inside)
    · intro i outside
      rw [restFrame i (by omega), frame i (by omega)]

/-- Packing a list in order writes its encoding. -/
theorem packOptionsFromList_spec (options : List Opt) (destArr : Memory) (offset lastOptNumber : Nat)
    (ascending : Wire.Ascending lastOptNumber options) (representable : Wire.Representable options)
    (room : offset + (Wire.encodeOptions lastOptNumber options).length ≤ 65535) :
    (packOptionsFromList destArr offset lastOptNumber options).2 =
        offset + (Wire.encodeOptions lastOptNumber options).length ∧
      (packOptionsFromList destArr offset lastOptNumber options).1.Holds offset
        (Wire.encodeOptions lastOptNumber options) ∧
      ∀ i, i < offset ∨ offset + (Wire.encodeOptions lastOptNumber options).length ≤ i →
        (packOptionsFromList destArr offset lastOptNumber options).1 i = destArr i := by
  rw [← packedOptions_eq ascending representable] at room ⊢
  exact packOptionsFromList_packed options destArr offset lastOptNumber room

/-! ## The token -/

/-- The token loop of the parser reads the bytes as a little-endian number. -/
theorem parseToken_toNat (srcArr : Memory) (offset count : Nat) (bound : count ≤ 8) :
    (parseToken srcArr offset count).toNat = Wire.littleEndian (srcArr.bytes offset count) := by
  induction count with
  | zero => rfl
  | succ count inductionHypothesis =>
    have lower := inductionHypothesis (by omega)
    have small := Wire.littleEndian_lt (srcArr.bytes offset count)
    have byteBound := (srcArr (offset + count)).toNat_lt
    have power : 256 ^ count = 2 ^ (8 * count) := by rw [Nat.pow_mul]
    have room : 2 ^ (8 * count) * 256 ≤ 2 ^ 64 := by
      rw [show 256 = 2 ^ 8 from rfl, ← Nat.pow_add]
      exact Nat.pow_le_pow_right (by decide) (by omega)
    have shift : (UInt64.ofNat (8 * count)).toNat % 64 = 8 * count := by
      rw [UInt64.toNat_ofNat', Nat.mod_eq_of_lt (by omega), Nat.mod_eq_of_lt (by omega)]
    have shifted : (srcArr (offset + count)).toNat * 2 ^ (8 * count) < 2 ^ 64 :=
      Nat.lt_of_lt_of_le (Nat.mul_lt_mul_of_pos_right byteBound (Nat.pow_pos (by decide)))
        (by rw [Nat.mul_comm]; exact room)
    rw [Memory.length_bytes, power] at small
    rw [parseToken, UInt64.toNat_or, UInt64.toNat_shiftLeft, shift, lower, UInt8.toNat_toUInt64,
      Nat.shiftLeft_eq, Nat.mod_eq_of_lt shifted, Memory.bytes_add, Memory.bytes, Memory.bytes,
      Wire.littleEndian_snoc, Memory.length_bytes, power, Nat.or_comm, Nat.mul_comm _ (2 ^ (8 * count)),
      ← Nat.two_pow_add_eq_or_of_lt small, Nat.add_comm]

/-- `getTokenByteCount` counts the bytes of the number. -/
theorem getTokenByteCount_eq (token : UInt64) : getTokenByteCount token = Wire.byteCount token.toNat := by
  have bound := token.toNat_lt
  have counts := fun count => Wire.byteCount_le_iff token.toNat count
  have zero := counts 0
  have one := counts 1
  have two := counts 2
  have three := counts 3
  have four := counts 4
  have five := counts 5
  have six := counts 6
  have seven := counts 7
  have eight := counts 8
  simp only [Nat.reducePow] at *
  simp only [getTokenByteCount, UInt64.le_iff_toNat_le, ← UInt64.toNat_inj, UInt64.reduceToNat]
  repeat' split
  all_goals omega

theorem getTokenByteCount_le (token : UInt64) : getTokenByteCount token ≤ 8 := by
  rw [getTokenByteCount_eq, Wire.byteCount_le_iff]
  exact token.toNat_lt

/-- The token loop of the builder writes the lowest bytes of the number. -/
theorem buildToken_spec (destArr : Memory) (offset : Nat) (token : UInt64) (count : Nat) (bound : count ≤ 8) :
    (buildToken destArr offset token count).Holds offset (Wire.digits token.toNat count) ∧
      ∀ i, i < offset ∨ offset + count ≤ i → buildToken destArr offset token count i = destArr i := by
  induction count with
  | zero => exact ⟨Memory.holds_nil .., fun _ _ => rfl⟩
  | succ count inductionHypothesis =>
    obtain ⟨holds, frame⟩ := inductionHypothesis (by omega)
    have shift : (UInt64.ofNat (8 * count)).toNat % 64 = 8 * count := by
      rw [UInt64.toNat_ofNat', Nat.mod_eq_of_lt (by omega), Nat.mod_eq_of_lt (by omega)]
    rw [buildToken, Wire.digits_succ, Memory.holds_append, Wire.length_digits, Memory.holds_cons]
    refine ⟨⟨?_, ?_, Memory.holds_nil ..⟩, ?_⟩
    · apply holds.congr
      intro i _ inside
      rw [Wire.length_digits] at inside
      exact Memory.store_other _ _ (by omega)
    · rw [Memory.store_same]
      apply UInt8.toNat_inj.mp
      rw [UInt64.toNat_toUInt8, UInt64.toNat_shiftRight, shift, Nat.shiftRight_eq_div_pow,
        UInt8.toNat_ofNat', Nat.pow_mul]
    · intro i outside
      rw [Memory.store_other _ _ (by omega), frame i (by omega)]

/-! ## The datagram -/

/-- The message as the format sees it. -/
def wireMessage (msg : CoapMessage) : Wire.Message where
  type := msg.type.toNat
  code := msg.code
  messageID := msg.messageID
  token := Wire.digits msg.token64.toNat (Wire.byteCount msg.token64.toNat)
  options := msg.options
  payload := msg.payload

theorem MessageType.toNat_lt (type : MessageType) : type.toNat < 4 := by
  cases type <;> decide

theorem length_token (msg : CoapMessage) : (wireMessage msg).token.length = getTokenByteCount msg.token64 := by
  rw [wireMessage, Wire.length_digits, getTokenByteCount_eq]

/-- The first byte as the builder puts it together. -/
theorem firstByte_eq (type : MessageType) {tokenLength : Nat} (bound : tokenLength ≤ 8) :
    ((coapVersion &&& 3) <<< 6) ||| ((UInt8.ofNat type.toNat &&& 3) <<< 4) |||
      (UInt8.ofNat tokenLength &&& 15) = UInt8.ofNat (64 + type.toNat * 16 + tokenLength) := by
  have cases : ∀ length : Fin 9, ((coapVersion &&& 3) <<< 6) ||| ((UInt8.ofNat type.toNat &&& 3) <<< 4) |||
      (UInt8.ofNat length.val &&& 15) = UInt8.ofNat (64 + type.toNat * 16 + length.val) := by
    cases type <;> decide
  exact cases ⟨tokenLength, by omega⟩

/-- The four header bytes and the token. -/
theorem buildHead_spec (destArr : Memory) (msg : CoapMessage) :
    (buildHead destArr msg (getTokenByteCount msg.token64)).Holds 0
        ((wireMessage msg).header ++ (wireMessage msg).token) ∧
      ∀ i, 4 + getTokenByteCount msg.token64 ≤ i →
        buildHead destArr msg (getTokenByteCount msg.token64) i = destArr i := by
  have bound := getTokenByteCount_le msg.token64
  obtain ⟨holds, frame⟩ := buildToken_spec ((((destArr.store 0 (UInt8.ofNat (64 + msg.type.toNat * 16 +
      getTokenByteCount msg.token64))).store 1 msg.code).store 2 (UInt8.ofNat (msg.messageID >>> 8))).store 3
      (UInt8.ofNat (msg.messageID &&& 0xFF))) 4 msg.token64 _ bound
  rw [buildHead, firstByte_eq msg.type bound]
  simp only [Wire.Message.header, length_token, List.cons_append, List.nil_append, Memory.holds_cons,
    Nat.zero_add, Nat.reduceAdd]
  refine ⟨⟨?_, ?_, ?_, ?_, ?_⟩, ?_⟩
  · rw [frame 0 (Or.inl (by decide))]
    rfl
  · rw [frame 1 (Or.inl (by decide))]
    rfl
  · rw [frame 2 (Or.inl (by decide)), wireMessage, ← ofNat_high]
    rfl
  · rw [frame 3 (Or.inl (by decide)), wireMessage, ofNat_low]
    rfl
  · rw [wireMessage, ← getTokenByteCount_eq]
    exact holds
  · intro i behind
    rw [frame i (Or.inr behind), Memory.store_other _ _ (by omega), Memory.store_other _ _ (by omega),
      Memory.store_other _ _ (by omega), Memory.store_other _ _ (by omega)]

/-- An empty list is not packed at all. -/
theorem buildOptions_spec (destArr : Memory) (offset : Nat) (options : List Opt)
    (room : offset + (packedOptions 0 options).length ≤ 65535) :
    (buildOptions destArr offset options).2 = offset + (packedOptions 0 options).length ∧
      (buildOptions destArr offset options).1.Holds offset (packedOptions 0 options) ∧
      ∀ i, i < offset ∨ offset + (packedOptions 0 options).length ≤ i →
        (buildOptions destArr offset options).1 i = destArr i := by
  rw [buildOptions]
  split
  next none =>
    subst none
    exact ⟨rfl, Memory.holds_nil .., fun _ _ => rfl⟩
  next some =>
    obtain ⟨stop, holds, frame⟩ := packOptionsFromList_packed options (destArr.offset offset) 0 0 (by omega)
    refine ⟨?_, ?_, ?_⟩
    · simp only [stop]
      rw [Nat.zero_add, Nat.mod_eq_of_lt (by omega)]
    · apply holds.move
      intro i _
      simp only [if_neg (show ¬ offset + i < offset by omega), Nat.add_sub_cancel_left, Nat.zero_add]
    · rintro i (before | behind)
      · exact if_pos before
      · simp only [if_neg (show ¬ i < offset by omega)]
        rw [frame _ (by omega), Memory.offset_apply]
        congr 1
        omega

theorem buildPayload_spec (destArr : Memory) (offset : Nat) (payload : List UInt8)
    (room : offset + (Wire.payloadSection payload).length ≤ 65535) :
    (buildPayload destArr offset payload).2 = offset + (Wire.payloadSection payload).length ∧
      (buildPayload destArr offset payload).1.Holds offset (Wire.payloadSection payload) ∧
      ∀ i, i < offset ∨ offset + (Wire.payloadSection payload).length ≤ i →
        (buildPayload destArr offset payload).1 i = destArr i := by
  rw [buildPayload]
  split
  next count =>
    have filled : payload ≠ [] := List.length_pos_iff.mp (Nat.pos_of_ne_zero count)
    rw [Wire.payloadSection_of_ne filled, List.length_cons] at *
    have next : (offset + 1) % 65536 = offset + 1 := Nat.mod_eq_of_lt (by omega)
    simp only [next]
    refine ⟨by omega, Memory.holds_cons.mpr ⟨?_, Memory.copy_holds ..⟩, ?_⟩
    · rw [Memory.copy_outside _ (by omega), Memory.store_same]
    · intro i outside
      rw [Memory.copy_outside _ (by omega), Memory.store_other _ _ (by omega)]
  next none =>
    have bare : payload = [] := List.eq_nil_of_length_eq_zero (not_not.mp none)
    subst bare
    exact ⟨rfl, Memory.holds_nil .., fun _ _ => rfl⟩

/-- The bytes of a message with its options in any order. -/
def packedMessage (msg : CoapMessage) : List UInt8 :=
  ((wireMessage msg).header ++ (wireMessage msg).token) ++
    (packedOptions 0 msg.options ++ Wire.payloadSection msg.payload)

theorem length_packedMessage (msg : CoapMessage) :
    (packedMessage msg).length = 4 + getTokenByteCount msg.token64 +
      ((packedOptions 0 msg.options).length + (Wire.payloadSection msg.payload).length) := by
  rw [packedMessage, List.length_append, List.length_append, List.length_append, length_token]
  rfl

theorem packedMessage_eq {msg : CoapMessage} (ascending : Wire.Ascending 0 msg.options)
    (representable : Wire.Representable msg.options) : packedMessage msg = (wireMessage msg).encode := by
  rw [packedMessage, packedOptions_eq ascending representable, Wire.Message.encode, List.append_assoc]
  rfl

/-- `CoAP_BuildDatagram` where the code does not matter any more. -/
def buildMessage (destArr : Memory) (msg : CoapMessage) : Memory × Nat :=
  let (destArr, offset) := buildOptions (buildHead destArr msg (getTokenByteCount msg.token64))
    (4 + getTokenByteCount msg.token64) msg.options
  buildPayload destArr offset msg.payload

/-- Header, token, options and payload, one behind the other, and no byte more. -/
theorem buildMessage_spec (destArr : Memory) (msg : CoapMessage) (room : (packedMessage msg).length ≤ 65535) :
    (buildMessage destArr msg).2 = (packedMessage msg).length ∧
      (buildMessage destArr msg).1.Holds 0 (packedMessage msg) ∧
      ∀ i, (packedMessage msg).length ≤ i → (buildMessage destArr msg).1 i = destArr i := by
  rw [length_packedMessage] at *
  obtain ⟨headHolds, headFrame⟩ := buildHead_spec destArr msg
  have headLength : ((wireMessage msg).header ++ (wireMessage msg).token).length =
      4 + getTokenByteCount msg.token64 := by
    rw [List.length_append, length_token]
    rfl
  obtain ⟨optionsEnd, optionsHold, optionsFrame⟩ := buildOptions_spec
    (buildHead destArr msg (getTokenByteCount msg.token64)) (4 + getTokenByteCount msg.token64)
    msg.options (by omega)
  obtain ⟨payloadEnd, payloadHolds, payloadFrame⟩ := buildPayload_spec
    (buildOptions (buildHead destArr msg (getTokenByteCount msg.token64))
      (4 + getTokenByteCount msg.token64) msg.options).1
    (4 + getTokenByteCount msg.token64 + (packedOptions 0 msg.options).length) msg.payload (by omega)
  simp only [buildMessage, optionsEnd, payloadEnd]
  refine ⟨Nat.add_assoc .., ?_, ?_⟩
  · rw [packedMessage]
    -- each part leaves the bytes alone that were written before it
    refine Memory.holds_append.mpr ⟨?_, ?_⟩
    · apply headHolds.congr
      intro i _ inside
      rw [headLength] at inside
      rw [payloadFrame i (by omega), optionsFrame i (by omega)]
    · rw [headLength, Nat.zero_add]
      refine Memory.holds_append.mpr ⟨?_, payloadHolds⟩
      apply optionsHold.congr
      intro i _ inside
      exact payloadFrame i (Or.inl inside)
  · intro i behind
    rw [payloadFrame i (by omega), optionsFrame i (by omega), headFrame i (by omega)]

/-- A message with a code is written as its encoding, as long as the offsets do not wrap. -/
theorem buildDatagram_spec (destArr : Memory) (msg : CoapMessage) (coded : msg.code ≠ empty)
    (ascending : Wire.Ascending 0 msg.options) (representable : Wire.Representable msg.options)
    (room : (wireMessage msg).encode.length ≤ 65535) :
    (coapBuildDatagram destArr msg).1.Holds 0 (wireMessage msg).encode ∧
      (coapBuildDatagram destArr msg).2 = ((wireMessage msg).encode.length, msg) := by
  have built : coapBuildDatagram destArr msg =
      ((buildMessage destArr msg).1, (buildMessage destArr msg).2, msg) := by
    simp only [coapBuildDatagram, if_neg coded]
    rfl
  rw [← packedMessage_eq ascending representable] at room ⊢
  obtain ⟨size, holds, _⟩ := buildMessage_spec destArr msg room
  rw [built]
  exact ⟨holds, congrArg (·, msg) size⟩

end SmingCoap.Server
