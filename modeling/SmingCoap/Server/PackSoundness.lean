import SmingCoap.Server.RoundTrip

/-! # Option lists and sizes

Two things follow from what the packer writes (`packOptionsFromList_packed`).  A list in order comes back from the
parser, with or without a payload behind it (`pack_parse`).  And the size that is computed before a message is built
is that of the bytes that the builder writes, whatever the order of its options (`buildDatagram_fills`).
-/

namespace SmingCoap.Server

open Wire (Memory Opt Finishes)

/-! ## Packing and parsing -/

/-- The bytes of a packed list, alone or followed by a marker and a payload, are parsed to the list, and to no payload
or the one behind the marker. -/
theorem pack_parse {alloc : Nat → Bool} (options : List Opt) (destArr : Memory) (available : ∀ i, alloc i = true)
    (filled : options ≠ []) (sorted : options.Pairwise fun left right => left.number ≤ right.number)
    (numbers : ∀ option ∈ options, option.number ≤ 65535)
    (short : ∀ option ∈ options, option.value.length ≤ maxOptionValueSize)
    (room : (Wire.encodeOptions 0 options).length ≤ 65535) :
    let (packed, pBytesWritten) := packOptionsFromList destArr 0 0 options
    (∀ srcArr : Memory, srcArr.Holds 0 (packed.bytes 0 pBytesWritten) →
      parseOptionsFromRaw alloc srcArr pBytesWritten = some (.ok, options, none)) ∧
    ∀ (payload : List UInt8) (srcArr : Memory), payload ≠ [] → pBytesWritten + 1 + payload.length ≤ 65535 →
      srcArr.Holds 0 (packed.bytes 0 pBytesWritten ++ 0xFF :: payload) →
      parseOptionsFromRaw alloc srcArr (pBytesWritten + 1 + payload.length) =
        some (.ok, options, some (pBytesWritten + 1)) := by
  have ascending := (Wire.ascending_zero_iff options).mpr sorted
  have representable : Wire.Representable options := by
    intro option member
    have bound := short option member
    rw [maxOptionValueSize] at bound
    exact ⟨numbers option member, by omega⟩
  obtain ⟨size, holds, _⟩ := packOptionsFromList_spec options destArr 0 0 ascending representable (by omega)
  rw [Nat.zero_add] at size
  simp only [size, holds.eq_bytes rfl]
  constructor
  · intro srcArr written
    rw [parseOptionsFromRaw_of_holds available room ascending representable short filled written (Or.inl rfl),
      if_pos rfl]
  · intro payload srcArr some_ bound written
    -- the marker ends the options
    rw [Memory.holds_append, Nat.zero_add, Memory.holds_cons] at written
    obtain ⟨optionsHold, marker, _⟩ := written
    have count := List.length_pos_iff.mpr some_
    rw [parseOptionsFromRaw_of_holds available bound ascending representable short filled optionsHold
      (Or.inr ⟨marker, by omega⟩), if_neg (by omega)]

/-- Two options, the second one far from the first and with a value of 0xFF. -/
theorem pack_parse_marker :
    let (packed, pBytesWritten) := packOptionsFromList (fun _ => 0) 0 0 [⟨11, [0x61]⟩, ⟨300, [0xFF, 0xFF]⟩]
    parseOptionsFromRaw (fun _ => true) (packed.copy 0 (packed.bytes 0 pBytesWritten ++ [0xFF, 0x01]))
      (pBytesWritten + 2) = some (.ok, [⟨11, [0x61]⟩, ⟨300, [0xFF, 0xFF]⟩], some (pBytesWritten + 1)) :=
  (pack_parse [⟨11, [0x61]⟩, ⟨300, [0xFF, 0xFF]⟩] (fun _ => 0) (fun _ => rfl) (by decide) (by decide) (by decide)
    (by decide) (by decide)).2 [0x01] _ (by decide) (by decide) (Memory.copy_holds ..)

/-! ## Sizes -/

theorem neededField_eq {offset : Nat} (value : Nat) (room : offset + Wire.extra value ≤ 65535) :
    neededField offset value = offset + Wire.extra value := by
  rw [neededField]
  rw [Wire.extra] at room ⊢
  split at room
  next small => simp only [if_pos small, Nat.add_zero]
  next large =>
    simp only [if_neg large]
    split at room
    next medium => simp only [if_pos medium, Nat.mod_eq_of_lt (Nat.lt_succ_of_le room)]
    next huge => simp only [if_neg huge, Nat.mod_eq_of_lt (Nat.lt_succ_of_le room)]

/-- The size that is computed for a list is that of its bytes, wrapped deltas and all. -/
theorem neededMem4PackOptions_eq (options : List Opt) (offset lastOptNumber : Nat)
    (room : offset + (packedOptions lastOptNumber options).length ≤ 65535) :
    neededMem4PackOptions offset lastOptNumber options = offset + (packedOptions lastOptNumber options).length := by
  induction options generalizing offset lastOptNumber with
  | nil => rfl
  | cons option rest inductionHypothesis =>
    obtain ⟨delta, deltaEq⟩ : ∃ delta, delta = (option.number + 65536 - lastOptNumber) % 65536 := ⟨_, rfl⟩
    rw [packedOptions, ← deltaEq, List.length_append, Wire.length_encodeOption] at room ⊢
    have first : (offset + 1) % 65536 = offset + 1 := Nat.mod_eq_of_lt (by omega)
    have behind : (offset + 1 + Wire.extra delta + Wire.extra option.value.length + option.value.length) % 65536 =
        offset + 1 + Wire.extra delta + Wire.extra option.value.length + option.value.length :=
      Nat.mod_eq_of_lt (by omega)
    simp only [neededMem4PackOptions, ← deltaEq, first]
    rw [neededField_eq delta (by omega), neededField_eq option.value.length (by omega), behind,
      inductionHypothesis _ _ (by omega)]
    omega

/-- An empty message goes without token and payload. -/
def sentMessage (msg : CoapMessage) : CoapMessage :=
  if msg.code = empty then { msg with payload := [], token64 := 0 } else msg

/-- The size of a message is that of the bytes it is sent as. -/
theorem getRawSizeOfMessage_eq {msg : CoapMessage} (room : (packedMessage (sentMessage msg)).length ≤ 65535) :
    getRawSizeOfMessage msg = (packedMessage (sentMessage msg)).length := by
  rw [length_packedMessage] at room ⊢
  rw [getRawSizeOfMessage]
  by_cases coded : msg.code = empty
  · simp only [sentMessage, if_pos coded] at room ⊢
    have options := neededMem4PackOptions_eq msg.options 0 0 (by omega)
    have token : getTokenByteCount 0 = 0 := rfl
    simp [coded, options, token]
  · simp only [sentMessage, if_neg coded] at room ⊢
    have options := neededMem4PackOptions_eq msg.options 0 0 (by omega)
    rw [Wire.length_payloadSection] at room ⊢
    simp only [ne_eq, coded, not_false_eq_true, if_true, options]
    split at room <;> simp_all <;> omega

/-- The buffer of `CoAP_SendMsg` by its length: the quick buffer, or what the allocator gives for the size. -/
def sendBuffer (memGet : Nat → Option Nat) (msg : CoapMessage) : Option Nat :=
  let size := getRawSizeOfMessage msg % 65536
  if size ≤ 16 then some 16 else memGet size

theorem coapBuildDatagram_eq (destArr : Memory) (msg : CoapMessage) :
    (coapBuildDatagram destArr msg).1 = (buildMessage destArr (sentMessage msg)).1 ∧
      (coapBuildDatagram destArr msg).2.1 = (buildMessage destArr (sentMessage msg)).2 := by
  by_cases coded : msg.code = empty
  · simp only [coapBuildDatagram, sentMessage, if_pos coded]
    exact ⟨rfl, rfl⟩
  · simp only [coapBuildDatagram, sentMessage, if_neg coded]
    exact ⟨rfl, rfl⟩

/-- Up to 65535 bytes, a message is built into exactly as many bytes as its size says: they hold its encoding whatever
the array held, and no byte behind them changes.  So what `CoAP_SendMsg` takes as a buffer has room for all of it, the
allocator given that a block has the size it was asked for. -/
theorem buildDatagram_fills (msg : CoapMessage) (room : (packedMessage (sentMessage msg)).length ≤ 65535)
    (destArr : Memory) :
    (coapBuildDatagram destArr msg).2.1 = getRawSizeOfMessage msg ∧
      (packedMessage (sentMessage msg)).length = getRawSizeOfMessage msg ∧
      (coapBuildDatagram destArr msg).1.Holds 0 (packedMessage (sentMessage msg)) ∧
      (∀ i, getRawSizeOfMessage msg ≤ i → (coapBuildDatagram destArr msg).1 i = destArr i) ∧
      ∀ memGet : Nat → Option Nat, (∀ size bytes, memGet size = some bytes → size ≤ bytes) →
        ∀ bytes, sendBuffer memGet msg = some bytes → (coapBuildDatagram destArr msg).2.1 ≤ bytes := by
  obtain ⟨size, holds, frame⟩ := buildMessage_spec destArr (sentMessage msg) room
  obtain ⟨array, length⟩ := coapBuildDatagram_eq destArr msg
  have raw := getRawSizeOfMessage_eq room
  rw [array, length, size, raw]
  refine ⟨rfl, rfl, holds, frame, ?_⟩
  intro memGet serves bytes buffer
  rw [sendBuffer, raw, Nat.mod_eq_of_lt (by omega)] at buffer
  split at buffer
  next tiny =>
    cases buffer
    exact tiny
  next => exact serves _ _ buffer

/-- A 2.05 response with its options out of order. -/
theorem buildDatagram_fills_wrapped :
    let msg : CoapMessage := ⟨0, .ack, respSuccessContent, 0x1234, 0, 0x0203, [⟨12, [0]⟩, ⟨6, [1]⟩], [0x41, 0x42]⟩
    (coapBuildDatagram (fun _ => 0xAA) msg).2.1 = getRawSizeOfMessage msg ∧
      (coapBuildDatagram (fun _ => 0xAA) msg).1 (getRawSizeOfMessage msg) = 0xAA := by
  intro msg
  obtain ⟨size, _, _, frame, _⟩ := buildDatagram_fills msg (by rw [length_packedMessage]; decide) fun _ => 0xAA
  exact ⟨size, frame _ (Nat.le_refl _)⟩

end SmingCoap.Server
