import SmingCoap.Server.ParseSoundness
import SmingCoap.Wire.LittleEndian

/-! # The parser against the format

`coapParseMessageFromDatagram` accepts a datagram whose token lies inside it
exactly when its options lead to an end without a payload marker in front of the
first of them.  Against the format with this stack's limits (`Spells`) that is
wrong in four ways: a payload without options is refused, a bare header may
announce a token, a token that runs past the end makes the remaining length
wrap, and 16 bit numbers wrap (`parse_exact_iff`).
-/

namespace SmingCoap.Server

open Wire (Memory Opt Cursor Finishes Spelled)
open Relation (ReflTransGen)

/-! ## The header -/

/-- The code classes that are refused. -/
def ReservedClass (code : UInt8) : Prop := code >>> 5 = 1 ∨ code >>> 5 = 6 ∨ code >>> 5 = 7

instance (code : UInt8) : Decidable (ReservedClass code) :=
  inferInstanceAs (Decidable (_ ∨ _))

/-- What the parser checks before it looks at the length of the token. -/
structure HeaderAccepted (memory : Memory) (length : Nat) : Prop where
  size : 4 ≤ length
  version : (memory 0).toNat / 64 = 1
  tokenLength : (memory 0).toNat % 16 ≤ 8
  code : ¬ ReservedClass (memory 1)

/-- The message as read off the first four bytes. -/
def headerMessage (memory : Memory) : CoapMessage :=
  { coapInitToEmptyResetMsg with
    type := MessageType.ofBits ((memory 0).toNat / 16 % 4)
    code := memory 1
    messageID := Wire.bigEndian16 (memory 2) (memory 3) }

theorem version_eq (byte : UInt8) : byte >>> 6 = coapVersion ↔ byte.toNat / 64 = 1 := by
  rw [← UInt8.toNat_inj, UInt8.toNat_shiftRight]
  simp only [UInt8.reduceToNat, Nat.reduceMod, Nat.shiftRight_eq_div_pow, Nat.reducePow, coapVersion]

theorem type_eq (byte : UInt8) : ((byte &&& 0x30) >>> 4).toNat = byte.toNat / 16 % 4 := by
  rw [UInt8.toNat_shiftRight, UInt8.toNat_and]
  simp only [UInt8.reduceToNat, Nat.reduceMod, Nat.shiftRight_and_distrib]
  rw [show 48 >>> 4 = 2 ^ 2 - 1 from rfl, Nat.and_two_pow_sub_one_eq_mod, Nat.shiftRight_eq_div_pow]

/-- The part of the parser behind the header checks. -/
def parseBody (alloc : Nat → Bool) (now : Nat) (memory : Memory) (length : Nat) :
    Option (CoapResult × Option CoapMessage) :=
  let offset := 4 + (memory 0).toNat % 16
  let msg := { headerMessage memory with token64 := parseToken memory 4 ((memory 0).toNat % 16) }
  match parseOptionsFromRaw alloc (memory.offset offset) ((length + 65536 - offset) % 65536) with
  | none => none
  | some (.ok, options, none) => some (copyMessage (alloc options.length) now { msg with options })
  | some (.ok, options, some payloadBegin) =>
    let payloadLength := (length + 65536 - (offset + payloadBegin) % 65536) % 65536
    if payloadLength > maxPayloadSize then some (.parseTooMuchPayload, none)
    else
      some (copyMessage (alloc options.length) now { msg with
        options
        payload := memory.bytes (offset + payloadBegin) payloadLength
        payloadBufSize := payloadLength })
  | some (failed, _, _) => some (failed, none)

theorem parse_of_header {memory : Memory} {length : Nat} (alloc : Nat → Bool) (now : Nat)
    (header : HeaderAccepted memory length) :
    coapParseMessageFromDatagram alloc now memory length =
      if length = 4 then some (copyMessage (alloc 0) now (headerMessage memory))
      else if length = 4 + (memory 0).toNat % 16 then
        some (copyMessage (alloc 0) now { headerMessage memory with
          token64 := parseToken memory 4 ((memory 0).toNat % 16) })
      else parseBody alloc now memory length := by
  have size := header.size
  have version := (version_eq (memory 0)).mpr header.version
  have tokenLength := header.tokenLength
  have code := header.code
  rw [ReservedClass] at code
  simp only [coapParseMessageFromDatagram, Wire.and_lowerNibble, Wire.lowerNibble, type_eq,
    Wire.toNat_shiftLeft_or]
  rw [if_neg (by omega), if_neg (not_not.mpr version), if_neg (by omega), if_neg code]
  rfl

theorem parse_rejects {memory : Memory} {length : Nat} (alloc : Nat → Bool) (now : Nat)
    (header : ¬ HeaderAccepted memory length) :
    ∃ result, result ≠ .ok ∧ coapParseMessageFromDatagram alloc now memory length = some (result, none) := by
  rw [coapParseMessageFromDatagram]
  split
  · exact ⟨.parseDatagramTooShort, by decide, rfl⟩
  next size =>
    split
    · exact ⟨.parseUnkownCoapVersion, by decide, rfl⟩
    next version =>
      simp only [Wire.and_lowerNibble]
      split
      · exact ⟨.parseMessageFormatError, by decide, rfl⟩
      next tokenLength =>
        split
        · exact ⟨.parseMessageFormatError, by decide, rfl⟩
        next code =>
          exact absurd ⟨by omega, (version_eq _).mp (not_not.mp version), Nat.le_of_not_lt tokenLength,
            code⟩ header

/-! ## Inside the datagram -/

/-- The options lead to an end, with at most 256 bytes of payload behind it, and do not begin with
the payload marker. -/
def OptionsAccepted (memory : Memory) (length : Nat) : Prop :=
  let start := 4 + (memory 0).toNat % 16
  let options := memory.offset start
  ∃ last, ReflTransGen (Takes options (length - start)) ⟨0, 0⟩ last ∧
    Finishes options (length - start) last.position ∧
    length - start - last.position - 1 ≤ maxPayloadSize ∧
    (last.position = 0 → length = start)

/-- A datagram that ends with the token is accepted without a look at the options. -/
theorem optionsAccepted_atEnd {memory : Memory} {length : Nat}
    (atEnd : length = 4 + (memory 0).toNat % 16) : OptionsAccepted memory length := by
  refine ⟨⟨0, 0⟩, .refl, Or.inl ?_, ?_, fun _ => atEnd⟩
  · simp only
    omega
  · simp only
    omega

/-- A payload marker in front of the first option is refused. -/
theorem not_accepted_of_marker {memory : Memory} {length : Nat}
    (marker : memory (4 + (memory 0).toNat % 16) = 0xFF) (goesOn : 4 + (memory 0).toNat % 16 < length) :
    ¬ OptionsAccepted memory length := by
  intro accepted
  obtain ⟨last, path, _, _, atStart⟩ := accepted
  cases path using ReflTransGen.head_induction_on with
  | refl =>
    have ends := atStart rfl
    omega
  | head first _ => exact first.not_marker marker

/-- The parser behind the header, on a datagram that goes on behind the token. -/
theorem parseBody_spec {alloc : Nat → Bool} {memory : Memory} {length : Nat} (now : Nat)
    (available : ∀ i, alloc i = true) (bound : length ≤ 65535)
    (token : 4 + (memory 0).toNat % 16 < length) :
    ∃ result msg, parseBody alloc now memory length = some (result, msg) ∧
      (result = .ok ↔ OptionsAccepted memory length) := by
  obtain ⟨start, startEq⟩ : ∃ start, start = 4 + (memory 0).toNat % 16 := ⟨_, rfl⟩
  obtain ⟨srcLength, srcLengthEq⟩ : ∃ srcLength, srcLength = length - start := ⟨_, rfl⟩
  have remaining : (length + 65536 - start) % 65536 = srcLength := by omega
  simp only [parseBody, ← startEq, remaining, parseOptionsFromRaw, if_neg (show ¬ srcLength = 0 by omega)]
  by_cases marker : memory.offset start 0 = 0xFF
  · rw [if_pos marker]
    exact ⟨.parseMessageFormatError, none, rfl, iff_of_false (by decide)
      (not_accepted_of_marker (startEq ▸ marker) token)⟩
  · rw [if_neg marker]
    simp only [OptionsAccepted, ← startEq, ← srcLengthEq]
    have spec := @parseOptionsLoop_spec alloc (memory.offset start) srcLength available 65536 ⟨0, 0⟩ []
      (by omega) (Nat.zero_le _) (by simp only; omega)
    rcases spec with ⟨last, parsed, path, finishes, result⟩ | ⟨⟨parsed, result⟩, noEnd⟩
    · have within := finishes.le
      -- the first byte is no marker, so at least one option was taken
      have moved : last.position ≠ 0 := by
        intro zero
        rw [zero] at finishes
        cases finishes with
        | inl atEnd => omega
        | inr stop => exact marker stop.1
      simp only [result]
      -- the options end with the datagram, or at a marker with a payload behind it
      by_cases atEnd : last.position = srcLength
      · simp only [if_pos atEnd, available, copyMessage, if_true]
        exact ⟨_, _, rfl, iff_of_true rfl ⟨last, path, finishes, by omega, fun zero => absurd zero moved⟩⟩
      · have payload : (length + 65536 - (start + (last.position + 1)) % 65536) % 65536 =
            srcLength - last.position - 1 := by
          have behind : last.position < srcLength := by omega
          rw [Nat.mod_eq_of_lt (by omega : start + (last.position + 1) < 65536)]
          omega
        simp only [if_neg atEnd, payload]
        by_cases large : srcLength - last.position - 1 > maxPayloadSize
        · rw [if_pos large]
          refine ⟨_, _, rfl, iff_of_false (by decide) ?_⟩
          intro accepted
          obtain ⟨other, otherPath, otherEnds, small, _⟩ := accepted
          have same := (reader (memory.offset start) srcLength).end_unique path finishes otherPath otherEnds
          rw [← same] at small
          omega
        · simp only [if_neg large, available, copyMessage, if_true]
          exact ⟨_, _, rfl, iff_of_true rfl
            ⟨last, path, finishes, Nat.le_of_not_lt large, fun zero => absurd zero moved⟩⟩
    · simp only [result]
      refine ⟨_, _, rfl, iff_of_false (by decide) ?_⟩
      intro accepted
      obtain ⟨last, path, finishes, _⟩ := accepted
      exact noEnd ⟨last, path, finishes⟩

/-- With memory available the parser always returns, and accepts exactly such datagrams. -/
theorem parse_inside {alloc : Nat → Bool} {memory : Memory} {length : Nat} (now : Nat)
    (available : ∀ i, alloc i = true) (bound : length ≤ 65535) (header : HeaderAccepted memory length)
    (token : 4 + (memory 0).toNat % 16 ≤ length) :
    ∃ result msg, coapParseMessageFromDatagram alloc now memory length = some (result, msg) ∧
      (result = .ok ↔ OptionsAccepted memory length) := by
  have size := header.size
  rw [parse_of_header alloc now header]
  split
  next bare =>
    rw [available, copyMessage, if_pos rfl]
    exact ⟨_, _, rfl, iff_of_true rfl (optionsAccepted_atEnd (by omega))⟩
  next =>
    split
    next atEnd =>
      rw [available, copyMessage, if_pos rfl]
      exact ⟨_, _, rfl, iff_of_true rfl (optionsAccepted_atEnd atEnd)⟩
    next => exact parseBody_spec now available bound (by omega)

/-! ## The format within the limits of the stack -/

/-- The limits of the stack on a message of the format. -/
structure WithinLimits (message : Wire.Message) : Prop where
  code : ¬ ReservedClass message.code
  values : ∀ option ∈ message.options, option.value.length ≤ maxOptionValueSize
  payload : message.payload.length ≤ maxPayloadSize

/-- `message` is what `datagram` says under the format. -/
def Spells (datagram : List UInt8) (message : Wire.Message) : Prop :=
  message.Fits ∧ WithinLimits message ∧ message.encode = datagram

/-- Nothing but a payload follows the token. -/
def PayloadOnly (memory : Memory) (length : Nat) : Prop :=
  let start := 4 + (memory 0).toNat % 16
  memory start = 0xFF ∧ start + 1 < length ∧ length - start - 1 ≤ maxPayloadSize

/-- A length or a number past 65535 is read on the way to the end. -/
def Misread (memory : Memory) (length : Nat) : Prop :=
  let start := 4 + (memory 0).toNat % 16
  ∃ last, (reader (memory.offset start) (length - start)).Stray ⟨0, 0⟩ last ∧
    Finishes (memory.offset start) (length - start) last.position ∧
    length - start - last.position - 1 ≤ maxPayloadSize

theorem Spells.header {datagram : List UInt8} {message : Wire.Message} (spells : Spells datagram message)
    {memory : Memory} (holds : memory.Holds 0 datagram) :
    HeaderAccepted memory datagram.length ∧ (memory 0).toNat % 16 = message.token.length ∧
      4 + message.token.length ≤ datagram.length := by
  obtain ⟨fits, limits, rfl⟩ := spells
  have written := Wire.holds_encode fits holds
  have size := message.length_encode
  have tokenLength := written.tokenLength
  have tokenBound := fits.token
  have code := limits.code
  rw [← written.code] at code
  exact ⟨⟨by omega, written.version, by omega, code⟩, tokenLength, by omega⟩

/-- The options of a message within the limits lead to its end, and nothing overflows on the way. -/
theorem Spells.options {datagram : List UInt8} {message : Wire.Message} (spells : Spells datagram message)
    {memory : Memory} (holds : memory.Holds 0 datagram) :
    let start := 4 + (memory 0).toNat % 16
    let size := (Wire.encodeOptions 0 message.options).length
    (memory.offset start).Holds 0 (Wire.encodeOptions 0 message.options) ∧
      size ≤ datagram.length - start ∧
      Finishes (memory.offset start) (datagram.length - start) size ∧
      datagram.length - start - size - 1 = message.payload.length := by
  have tokenLength := (spells.header holds).2.1
  obtain ⟨fits, limits, rfl⟩ := spells
  have written := Wire.holds_encode fits holds
  have size := message.length_encode
  simp only [tokenLength]
  refine ⟨Memory.Holds.offset written.options, by omega, ?_, ?_⟩
  · by_cases filled : message.payload = []
    · rw [filled, Wire.payloadSection_nil, List.length_nil] at size
      exact Or.inl (by omega)
    · have payload := written.payload
      rw [Wire.payloadSection_of_ne filled, Memory.holds_cons] at payload
      rw [Wire.payloadSection_of_ne filled, List.length_cons] at size
      have nonempty := List.length_pos_iff.mpr filled
      exact Or.inr ⟨payload.1, by omega⟩
  · rw [Wire.length_payloadSection] at size
    split at size
    next none =>
      rw [none, List.length_nil]
      omega
    next => omega

theorem Spells.accepted {datagram : List UInt8} {message : Wire.Message} (spells : Spells datagram message)
    {memory : Memory} (holds : memory.Holds 0 datagram)
    (regular : message.options ≠ [] ∨ message.payload = []) :
    OptionsAccepted memory datagram.length := by
  have token := (spells.header holds).2
  obtain ⟨optionsHold, room, finishes, payload⟩ := spells.options holds
  obtain ⟨fits, limits, rfl⟩ := spells
  have path := (reader (memory.offset (4 + (memory 0).toNat % 16))
    (message.encode.length - (4 + (memory 0).toNat % 16))).path_of_holds message.options 0 0 fits.ascending
    fits.options limits.values optionsHold (by omega)
  have small := limits.payload
  rw [Nat.zero_add] at path
  refine ⟨_, path, finishes, by simp only; omega, ?_⟩
  intro zero
  simp only at zero
  have count := Wire.length_le_encodeOptions 0 message.options
  have none : message.options = [] := List.eq_nil_of_length_eq_zero (by omega)
  have bare := regular.resolve_left (not_not.mpr none)
  have size := message.length_encode
  rw [none, bare] at size
  simp only [Wire.encodeOptions, Wire.payloadSection_nil, List.length_nil] at size
  omega

/-- A message without options and with a payload is its payload behind the token. -/
theorem Spells.payloadOnly {datagram : List UInt8} {message : Wire.Message}
    (spells : Spells datagram message) {memory : Memory} (holds : memory.Holds 0 datagram)
    (bare : message.options = []) (filled : message.payload ≠ []) :
    PayloadOnly memory datagram.length := by
  obtain ⟨_, _, finishes, payload⟩ := spells.options holds
  have small := spells.2.1.payload
  have nonempty := List.length_pos_iff.mpr filled
  rw [bare, Wire.encodeOptions, List.length_nil] at finishes payload
  cases finishes with
  | inl atEnd => omega
  | inr marker => exact ⟨marker.1, by omega, by omega⟩

theorem Spells.not_misread {datagram : List UInt8} {message : Wire.Message}
    (spells : Spells datagram message) {memory : Memory} (holds : memory.Holds 0 datagram) :
    ¬ Misread memory datagram.length := by
  intro misread
  obtain ⟨_, ⟨stray, next, path, overflows, takes, _⟩, _⟩ := misread
  obtain ⟨optionsHold, room, finishes, _⟩ := spells.options holds
  obtain ⟨fits, limits, rfl⟩ := spells
  exact (reader _ _).not_overflows_of_holds message.options 0 0 fits.ascending fits.options limits.values
    optionsHold (by omega) (by rw [Nat.zero_add]; exact finishes) path takes overflows

/-- What the parser accepts without misreading anything is a message within the limits. -/
theorem spells_of_accepted {datagram : List UInt8} {memory : Memory} (holds : memory.Holds 0 datagram)
    (header : HeaderAccepted memory datagram.length) (token : 4 + (memory 0).toNat % 16 ≤ datagram.length)
    (accepted : OptionsAccepted memory datagram.length) (exact : ¬ Misread memory datagram.length) :
    ∃ message, Spells datagram message := by
  obtain ⟨last, path, finishes, small, _⟩ := accepted
  rcases (reader _ _).spelled_or_stray path with stray | ⟨options, spelled, admitted⟩
  · exact absurd ⟨last, stray, finishes, small⟩ exact
  · obtain ⟨fits, encodes⟩ := spelled.of_offset.message header.version header.tokenLength
      (finishes.of_offset token)
    refine ⟨_, fits, ⟨header.code, admitted, ?_⟩, encodes.trans (holds.eq_bytes rfl)⟩
    simp only [Wire.messageAt, Memory.length_bytes]
    omega

/-! ## A token past the end -/

/-- Over zero bytes the loop takes an empty option each turn, up to any length. -/
theorem parseOptionsLoop_zeros {alloc : Nat → Bool} {srcArr : Memory} {srcLength : Nat}
    (available : ∀ i, alloc i = true) (zero : ∀ i, srcArr i = 0) (fuel offset : Nat) (options : List Opt)
    (bound : srcLength ≤ 65535) (within : offset ≤ srcLength) (enough : srcLength - offset < fuel) :
    ∃ parsed, parseOptionsLoop alloc srcArr srcLength fuel offset 0 options = some (.ok, parsed, none) := by
  induction fuel generalizing offset options with
  | zero => omega
  | succ fuel inductionHypothesis =>
    rw [parseOptionsLoop]
    by_cases inside : offset < srcLength
    · have next : (offset + 1) % 65536 = offset + 1 := Nat.mod_eq_of_lt (by omega)
      have field : ∀ place, parseField srcArr place 0 = some (0, place) := fun _ => rfl
      have header : ((0 : UInt8) >>> 4).toNat = 0 ∧ ((0 : UInt8) &&& 0x0F).toNat = 0 := ⟨rfl, rfl⟩
      rw [if_pos inside, zero, if_neg (by decide)]
      simp only [header, field, next, available, appendOptionToList, if_true, Nat.add_zero]
      rw [if_neg (Nat.not_lt_zero _), if_neg (by omega)]
      exact inductionHypothesis _ _ (by omega) (by omega)
    · rw [if_neg inside]
      exact ⟨options, rfl⟩

/-- With zeros behind the datagram the parser accepts any token length that runs past its end. -/
theorem parse_zeros {alloc : Nat → Bool} {memory : Memory} {length : Nat} (now : Nat)
    (available : ∀ i, alloc i = true) (header : HeaderAccepted memory length)
    (past : length < 4 + (memory 0).toNat % 16) (zero : ∀ i, length ≤ i → memory i = 0) :
    ∃ msg, coapParseMessageFromDatagram alloc now memory length = some (.ok, msg) := by
  have size := header.size
  have tokenLength := header.tokenLength
  rw [parse_of_header alloc now header]
  split
  next =>
    rw [available, copyMessage, if_pos rfl]
    exact ⟨_, rfl⟩
  next =>
    rw [if_neg (by omega), parseBody]
    obtain ⟨start, startEq⟩ : ∃ start, start = 4 + (memory 0).toNat % 16 := ⟨_, rfl⟩
    obtain ⟨srcLength, srcLengthEq⟩ : ∃ srcLength, srcLength = (length + 65536 - start) % 65536 := ⟨_, rfl⟩
    have zeros : ∀ i, memory.offset start i = 0 := fun i => zero _ (by omega)
    obtain ⟨parsed, result⟩ := parseOptionsLoop_zeros available zeros 65536 0 []
      (show srcLength ≤ 65535 by omega) (Nat.zero_le _) (by omega)
    have marker : ¬ memory.offset start 0 = 0xFF := by
      rw [zeros]
      decide
    simp only [← startEq, ← srcLengthEq, parseOptionsFromRaw, if_neg (show ¬ srcLength = 0 by omega),
      if_neg marker, result, available, copyMessage, if_true]
    exact ⟨_, rfl⟩

/-! ## Exactness -/

/-- With memory available the parser returns, and decides well-formedness of `datagram` whatever
lies behind it. -/
def ParseExact (datagram : List UInt8) : Prop :=
  ∀ (alloc : Nat → Bool) (now : Nat) (memory : Memory), (∀ i, alloc i = true) →
    memory.Holds 0 datagram →
    ∃ result msg, coapParseMessageFromDatagram alloc now memory datagram.length = some (result, msg) ∧
      (result = .ok ↔ ∃ message, Spells datagram message)

/-- Behind an accepted header the token lies inside the datagram, a payload has options in front of
it, and no option past 65535 is read on the way to the end. -/
def Regular (datagram : List UInt8) : Prop :=
  ∀ memory : Memory, memory.Holds 0 datagram → HeaderAccepted memory datagram.length →
    4 + (memory 0).toNat % 16 ≤ datagram.length ∧ ¬ PayloadOnly memory datagram.length ∧
      ¬ Misread memory datagram.length

/-- The same datagram with zeros behind it. -/
theorem zeros_behind {datagram : List UInt8} {memory : Memory} (holds : memory.Holds 0 datagram)
    (header : HeaderAccepted memory datagram.length) :
    ∃ padded : Memory, (∀ i, datagram.length ≤ i → padded i = 0) ∧ padded.Holds 0 datagram ∧
      HeaderAccepted padded datagram.length ∧ padded 0 = memory 0 := by
  have size := header.size
  have first : (if 0 < datagram.length then memory 0 else 0) = memory 0 := if_pos (by omega)
  have second : (if 1 < datagram.length then memory 1 else 0) = memory 1 := if_pos (by omega)
  refine ⟨fun i => if i < datagram.length then memory i else 0, ?_, ?_, ⟨size, ?_, ?_, ?_⟩, first⟩
  · intro i outside
    exact if_neg (by omega)
  · apply holds.congr
    intro i _ inside
    exact if_pos (by omega)
  · simp only [first]
    exact header.version
  · simp only [first]
    exact header.tokenLength
  · simp only [second]
    exact header.code

section

variable {datagram : List UInt8} {memory : Memory}

/-- With zeros behind the datagram a token that goes past its end would be accepted. -/
theorem ParseExact.token_inside (exact : ParseExact datagram) (holds : memory.Holds 0 datagram)
    (header : HeaderAccepted memory datagram.length) : 4 + (memory 0).toNat % 16 ≤ datagram.length := by
  by_contra past
  obtain ⟨padded, zero, paddedHolds, paddedHeader, sameFirst⟩ := zeros_behind holds header
  rw [← sameFirst] at past
  obtain ⟨msg, accepts⟩ := parse_zeros 0 (fun _ => rfl) paddedHeader (by omega) zero
  obtain ⟨result, other, returned, decided⟩ := exact (fun _ => true) 0 padded (fun _ => rfl) paddedHolds
  rw [accepts, Option.some.injEq, Prod.mk.injEq] at returned
  obtain ⟨message, spells⟩ := decided.mp returned.1.symm
  have token := spells.header paddedHolds
  omega

/-- A payload straight behind the token is refused, although a message is spelled like that. -/
theorem ParseExact.not_payloadOnly (exact : ParseExact datagram) (bound : datagram.length ≤ 65535)
    (holds : memory.Holds 0 datagram) (header : HeaderAccepted memory datagram.length) :
    ¬ PayloadOnly memory datagram.length := by
  intro payloadOnly
  obtain ⟨marker, goesOn, small⟩ := payloadOnly
  obtain ⟨result, msg, returned, decided⟩ := exact (fun _ => true) 0 memory (fun _ => rfl) holds
  obtain ⟨inside, other, accepts, iff⟩ := parse_inside 0 (fun _ => rfl) bound header (by omega)
  rw [returned, Option.some.injEq, Prod.mk.injEq] at accepts
  have refused := mt iff.mp (not_accepted_of_marker marker (by omega))
  rw [← accepts.1] at refused
  apply refused
  apply decided.mpr
  obtain ⟨fits, encodes⟩ := (Spelled.nil memory ⟨4 + (memory 0).toNat % 16, 0⟩).message header.version
    header.tokenLength (Or.inr ⟨marker, goesOn⟩)
  refine ⟨_, fits, ⟨header.code, List.forall_mem_nil _, ?_⟩, encodes.trans (holds.eq_bytes rfl)⟩
  simpa [Wire.messageAt] using small

/-- An option past 65535 is read with a smaller number and accepted. -/
theorem ParseExact.not_misread (exact : ParseExact datagram) (bound : datagram.length ≤ 65535)
    (holds : memory.Holds 0 datagram) (header : HeaderAccepted memory datagram.length) :
    ¬ Misread memory datagram.length := by
  intro misread
  obtain ⟨last, stray, finishes, small⟩ := id misread
  obtain ⟨result, msg, returned, decided⟩ := exact (fun _ => true) 0 memory (fun _ => rfl) holds
  by_cases token : 4 + (memory 0).toNat % 16 ≤ datagram.length
  · obtain ⟨inside, other, accepts, iff⟩ := parse_inside 0 (fun _ => rfl) bound header token
    rw [returned, Option.some.injEq, Prod.mk.injEq] at accepts
    rw [← accepts.1, decided] at iff
    have moved : last.position ≠ 0 := by
      obtain ⟨cursor, next, before, _, takes, rest⟩ := stray
      have progress := takes.lt
      have onwards := (reader _ _).position_le (fun _ _ takes => Nat.le_of_lt takes.lt) rest
      omega
    obtain ⟨message, spells⟩ := iff.mpr ⟨last, stray.path, finishes, small, fun zero => absurd zero moved⟩
    exact spells.not_misread holds misread
  · -- nothing is read where nothing is left
    obtain ⟨cursor, next, _, _, takes, _⟩ := stray
    have inside := takes.inside
    omega

theorem Regular.exact (regular : Regular datagram) (bound : datagram.length ≤ 65535) : ParseExact datagram := by
  intro alloc now memory available holds
  by_cases header : HeaderAccepted memory datagram.length
  · obtain ⟨token, notBare, exact⟩ := regular memory holds header
    obtain ⟨result, msg, returned, decided⟩ := parse_inside now available bound header token
    refine ⟨result, msg, returned, decided.trans ⟨fun accepted => ?_, ?_⟩⟩
    · exact spells_of_accepted holds header token accepted exact
    · intro spelled
      obtain ⟨message, spells⟩ := spelled
      apply spells.accepted holds
      by_contra bare
      simp only [not_or, not_not] at bare
      exact notBare (spells.payloadOnly holds bare.1 bare.2)
  · obtain ⟨result, failed, returned⟩ := parse_rejects alloc now header
    refine ⟨result, none, returned, iff_of_false failed ?_⟩
    intro spelled
    obtain ⟨message, spells⟩ := spelled
    exact header (spells.header holds).1

end

/-- The parser is exact on the regular datagrams. -/
theorem parse_exact_iff (datagram : List UInt8) (bound : datagram.length ≤ 65535) :
    ParseExact datagram ↔ Regular datagram := by
  constructor
  · intro exact memory holds header
    exact ⟨exact.token_inside holds header, exact.not_payloadOnly bound holds header,
      exact.not_misread bound holds header⟩
  · intro regular
    exact regular.exact bound

/-- A ping is too short to be read wrongly. -/
theorem parse_exact_iff_ping : [0x40, 0x00, 0x12, 0x34].length ≤ 65535 ∧
    (ParseExact [0x40, 0x00, 0x12, 0x34] ↔ Regular [0x40, 0x00, 0x12, 0x34]) :=
  ⟨by decide, parse_exact_iff _ (by decide)⟩

/-- A 2.05 response with a payload and no options. -/
theorem parse_refuses_payload_without_options :
    ¬ ParseExact [0x60, 0x45, 0x12, 0x34, 0xFF, 0x41] := by
  intro exact
  have holds := Memory.copy_holds (fun _ => 0) 0 [0x60, 0x45, 0x12, 0x34, 0xFF, 0x41]
  obtain ⟨result, msg, returned, decided⟩ := exact (fun _ => true) 0 _ (fun _ => rfl) holds
  have refused : result = .parseMessageFormatError := by
    cases returned
    rfl
  have spelled : Spells [0x60, 0x45, 0x12, 0x34, 0xFF, 0x41] ⟨2, 0x45, 0x1234, [], [], [0x41]⟩ :=
    ⟨⟨by decide, by decide, by decide, trivial, (fun _ member => nomatch member)⟩,
      ⟨by decide, (fun _ member => nomatch member), by decide⟩, by decide⟩
  have accepted := decided.mpr ⟨_, spelled⟩
  rw [refused] at accepted
  exact absurd accepted (by decide)

end SmingCoap.Server
