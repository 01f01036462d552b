import SmingCoap.Server.BuildSoundness

/-! # Building and parsing

The parser reads every field of a message within the limits back
(`parse_of_message`), and what it reads off a datagram never takes more room
than that datagram (`parse_compact`).  Together they decide which messages come
back from the parser after `coapBuildDatagram`: those whose payload has options
in front of it and whose encoding a datagram can hold (`build_parse_iff`).
-/

namespace SmingCoap.Server

open Wire (Memory Opt Cursor Finishes)

/-! ## What the parser makes of a message -/

/-- The message of the stack for a message of the format. -/
def parsedMessage (now : Nat) (message : Wire.Message) : CoapMessage where
  timestamp := now
  type := MessageType.ofBits message.type
  code := message.code
  messageID := message.messageID
  payloadBufSize := message.payload.length
  token64 := UInt64.ofNat (Wire.littleEndian message.token)
  options := message.options
  payload := message.payload

theorem parseToken_of_holds {memory : Memory} {token : List UInt8} (bound : token.length ≤ 8)
    (holds : memory.Holds 4 token) :
    parseToken memory 4 token.length = UInt64.ofNat (Wire.littleEndian token) := by
  have small := Wire.littleEndian_lt token
  have power : 256 ^ token.length ≤ 2 ^ 64 := by
    rw [show 2 ^ 64 = 256 ^ 8 from rfl]
    exact Nat.pow_le_pow_right (by decide) bound
  apply UInt64.toNat_inj.mp
  rw [parseToken_toNat memory 4 _ bound, holds.eq_bytes rfl, UInt64.toNat_ofNat',
    Nat.mod_eq_of_lt (Nat.lt_of_lt_of_le small power)]

/-- The option loop over a written list with an end behind it. -/
theorem parseOptionsFromRaw_of_holds {alloc : Nat → Bool} {srcArr : Memory} {srcLength : Nat}
    {options : List Opt} (available : ∀ i, alloc i = true) (small : srcLength ≤ 65535)
    (ascending : Wire.Ascending 0 options) (representable : Wire.Representable options)
    (short : ∀ option ∈ options, option.value.length ≤ maxOptionValueSize) (some_ : options ≠ [])
    (holds : srcArr.Holds 0 (Wire.encodeOptions 0 options))
    (finishes : Finishes srcArr srcLength (Wire.encodeOptions 0 options).length) :
    parseOptionsFromRaw alloc srcArr srcLength =
      some (.ok, options,
        if (Wire.encodeOptions 0 options).length = srcLength then none
        else some ((Wire.encodeOptions 0 options).length + 1)) := by
  have room := finishes.le
  have count := Wire.length_le_encodeOptions 0 options
  have nonempty := List.length_pos_iff.mpr some_
  have marker : srcArr 0 ≠ 0xFF := by
    obtain ⟨first, rest, rfl⟩ := List.exists_cons_of_ne_nil some_
    exact (Wire.holds_cons_options representable holds).1.not_marker
  obtain ⟨fuel, fuelEq⟩ : ∃ fuel, 65536 = fuel + 1 + options.length := ⟨65535 - options.length, by omega⟩
  rw [parseOptionsFromRaw, if_neg (by omega), if_neg marker, fuelEq,
    parseOptionsLoop_options available (fuel + 1) options [] 0 0 small ascending representable short
      (List.forall_mem_nil _) holds (by omega), List.nil_append, Nat.zero_add,
    parseOptionsLoop_finishes alloc fuel _ options finishes]

/-- The parser reads a message within the limits, field by field. -/
theorem parse_of_message {alloc : Nat → Bool} {memory : Memory} {message : Wire.Message} (now : Nat)
    (available : ∀ i, alloc i = true) (fits : message.Fits) (limits : WithinLimits message)
    (regular : message.options ≠ [] ∨ message.payload = []) (bound : message.encode.length ≤ 65535)
    (holds : memory.Holds 0 message.encode) :
    coapParseMessageFromDatagram alloc now memory message.encode.length =
      some (.ok, some (parsedMessage now message)) := by
  have spells : Spells message.encode message := ⟨fits, limits, rfl⟩
  have written := Wire.holds_encode fits holds
  have size := message.length_encode
  have count := Wire.length_le_encodeOptions 0 message.options
  obtain ⟨header, tokenLength, _⟩ := spells.header holds
  obtain ⟨optionsHold, room, finishes, payloadLength⟩ := spells.options holds
  have token := parseToken_of_holds fits.token written.token
  -- a datagram that ends with the token has neither options nor payload
  have bare : message.encode.length = 4 + message.token.length →
      message.options = [] ∧ message.payload = [] := by
    intro ends
    have none : message.options = [] := List.eq_nil_of_length_eq_zero (by omega)
    exact ⟨none, regular.resolve_left (not_not.mpr none)⟩
  rw [parse_of_header alloc now header]
  simp only [headerMessage, written.type, written.code, written.messageID, tokenLength, token, available,
    copyMessage, if_true]
  split
  next atHeader =>
    have noToken : message.token = [] := List.eq_nil_of_length_eq_zero (by omega)
    obtain ⟨noOptions, noPayload⟩ := bare (by omega)
    rw [parsedMessage, noToken, noOptions, noPayload]
    rfl
  next =>
    split
    next atToken =>
      obtain ⟨noOptions, noPayload⟩ := bare atToken
      rw [parsedMessage, noOptions, noPayload]
      rfl
    next goesOn =>
      have someOptions : message.options ≠ [] := by
        intro none
        have noPayload := regular.resolve_left (not_not.mpr none)
        rw [none, noPayload] at size
        exact goesOn size
      rw [tokenLength] at optionsHold room finishes payloadLength
      have remaining : (message.encode.length + 65536 - (4 + message.token.length)) % 65536 =
          message.encode.length - (4 + message.token.length) := by omega
      have parsed := parseOptionsFromRaw_of_holds available
        (show message.encode.length - (4 + message.token.length) ≤ 65535 by omega) fits.ascending
        fits.options limits.values someOptions optionsHold finishes
      simp only [parseBody, tokenLength, remaining, parsed, headerMessage, written.type, written.code,
        written.messageID, token, available, copyMessage, if_true]
      by_cases filled : message.payload = []
      · have atEnd : (Wire.encodeOptions 0 message.options).length =
            message.encode.length - (4 + message.token.length) := by
          rw [filled, Wire.payloadSection_nil, List.length_nil] at size
          omega
        simp only [if_pos atEnd]
        rw [parsedMessage, filled]
        rfl
      · have payloadHolds := written.payload
        have small := limits.payload
        rw [Wire.payloadSection_of_ne filled] at size payloadHolds
        rw [List.length_cons] at size
        have notEnd : ¬ (Wire.encodeOptions 0 message.options).length =
            message.encode.length - (4 + message.token.length) := by omega
        have payloadSize : (message.encode.length + 65536 -
            (4 + message.token.length + ((Wire.encodeOptions 0 message.options).length + 1)) % 65536) % 65536 =
            message.payload.length := by omega
        have payload := (Memory.holds_cons.mp payloadHolds).2.eq_bytes rfl
        rw [Nat.add_assoc] at payload
        simp only [if_neg notEnd, payloadSize, if_neg (Nat.not_lt.mpr small), payload]
        rfl

/-! ## What the parser reads takes no more room than it was read from -/

/-- The options read so far could have been written in front of the cursor. -/
structure Compact (cursor : Cursor) (options : List Opt) : Prop where
  ascending : Wire.Ascending 0 options
  number_le : cursor.number ≤ 65535
  reached : cursor.number = 0 ∨ ∃ option ∈ options, option.number = cursor.number
  size : (Wire.encodeOptions 0 options).length ≤ cursor.position

theorem append_eq (options : List Opt) (option : Opt) :
    append options option = Wire.insertBehind Opt.number option options := by
  rw [Wire.insertBehind_eq]
  simp only [append, appendOptionToList, if_true]

theorem Compact.takes {srcArr : Memory} {srcLength : Nat} {cursor next : Cursor} {options : List Opt}
    (compact : Compact cursor options) (takes : Takes srcArr srcLength cursor next) :
    Compact next (append options (taken srcArr cursor)) := by
  have bound := compact.number_le
  have header := Wire.headerSize_eq takes.upper takes.lower
  have reduced := Wire.extra_mono (Nat.mod_le (Wire.lengthAt srcArr cursor.position) 65536)
  -- a number that wraps is reached from 0
  have reached : (taken srcArr cursor).number ≤ 0 + Wire.deltaAt srcArr cursor.position ∨
      ∃ other ∈ options, other.number ≤ (taken srcArr cursor).number ∧
        (taken srcArr cursor).number ≤ other.number + Wire.deltaAt srcArr cursor.position := by
    simp only [taken]
    by_cases wraps : cursor.number + Wire.deltaAt srcArr cursor.position > 65535
    · exact Or.inl (by omega)
    · rcases compact.reached with start | ⟨other, member, same⟩
      · exact Or.inl (by omega)
      · exact Or.inr ⟨other, member, by omega, by omega⟩
  have grows := Wire.length_encodeOptions_insertBehind compact.ascending (Nat.zero_le _) reached
  have before := compact.size
  rw [Wire.length_encodeOption] at grows
  simp only [taken, Memory.length_bytes] at grows
  rw [append_eq, takes.next_eq]
  refine ⟨Wire.ascending_insertBehind compact.ascending (Nat.zero_le _), ?_, Or.inr ⟨taken srcArr cursor, ?_, rfl⟩, ?_⟩
  · simp only [advance]
    omega
  · exact (Wire.mem_insertBehind Opt.number).mpr (Or.inl rfl)
  · simp only [advance, taken]
    omega

theorem parseOptionsLoop_compact {alloc : Nat → Bool} {srcArr : Memory} {srcLength : Nat}
    (available : ∀ i, alloc i = true) (fuel : Nat) (cursor : Cursor) (options : List Opt)
    (small : srcLength ≤ 65531) (within : cursor.position ≤ srcLength) (compact : Compact cursor options)
    {parsed : List Opt} {payloadBegin : Option Nat}
    (result : parseOptionsLoop alloc srcArr srcLength fuel cursor.position cursor.number options =
      some (.ok, parsed, payloadBegin)) :
    ∃ last, Finishes srcArr srcLength last.position ∧ Compact last parsed ∧
      payloadBegin = if last.position = srcLength then none else some (last.position + 1) := by
  induction fuel generalizing cursor options with
  | zero => cases result
  | succ fuel inductionHypothesis =>
    by_cases finishes : Finishes srcArr srcLength cursor.position
    · rw [parseOptionsLoop_finishes alloc fuel _ options finishes] at result
      cases result
      exact ⟨cursor, finishes, compact, rfl⟩
    · by_cases readable : ∃ next, Takes srcArr srcLength cursor next
      · obtain ⟨next, takes⟩ := readable
        rw [parseOptionsLoop_takes available fuel options (by omega) takes] at result
        exact inductionHypothesis next _ takes.room (compact.takes takes) result
      · rw [parseOptionsLoop_stuck alloc fuel options small within finishes (not_exists.mp readable)] at result
        cases result

theorem parseOptionsFromRaw_compact {alloc : Nat → Bool} {srcArr : Memory} {srcLength : Nat}
    (available : ∀ i, alloc i = true) (small : srcLength ≤ 65531) {parsed : List Opt}
    {payloadBegin : Option Nat}
    (result : parseOptionsFromRaw alloc srcArr srcLength = some (.ok, parsed, payloadBegin)) :
    ∃ last : Cursor, Finishes srcArr srcLength last.position ∧ Compact last parsed ∧
      payloadBegin = if last.position = srcLength then none else some (last.position + 1) := by
  have start : Compact ⟨0, 0⟩ [] := ⟨trivial, Nat.zero_le _, Or.inl rfl, Nat.le_refl _⟩
  rw [parseOptionsFromRaw] at result
  split at result
  next none =>
    cases result
    exact ⟨⟨0, 0⟩, Or.inl none.symm, start, (if_pos none.symm).symm⟩
  next =>
    split at result
    next => cases result
    next => exact parseOptionsLoop_compact available 65536 ⟨0, 0⟩ [] small (Nat.zero_le _) start result

theorem byteCount_parseToken (srcArr : Memory) (offset : Nat) {count : Nat} (bound : count ≤ 8) :
    Wire.byteCount (parseToken srcArr offset count).toNat ≤ count := by
  rw [parseToken_toNat srcArr offset count bound, Wire.byteCount_le_iff]
  have small := Wire.littleEndian_lt (srcArr.bytes offset count)
  rwa [Memory.length_bytes] at small

theorem length_wireMessage (msg : CoapMessage) :
    (wireMessage msg).encode.length = 4 + Wire.byteCount msg.token64.toNat +
      (Wire.encodeOptions 0 msg.options).length + (Wire.payloadSection msg.payload).length := by
  rw [Wire.Message.length_encode]
  simp only [wireMessage, Wire.length_digits]

theorem parseBody_compact {alloc : Nat → Bool} {memory : Memory} {length : Nat} {now : Nat} {msg : CoapMessage}
    (available : ∀ i, alloc i = true) (bound : length ≤ 65535) (tokenBound : (memory 0).toNat % 16 ≤ 8)
    (inside : 4 + (memory 0).toNat % 16 < length)
    (accepts : parseBody alloc now memory length = some (.ok, some msg)) :
    (wireMessage msg).encode.length ≤ length := by
  have token := byteCount_parseToken memory 4 tokenBound
  obtain ⟨start, startEq⟩ : ∃ start, start = 4 + (memory 0).toNat % 16 := ⟨_, rfl⟩
  have remaining : (length + 65536 - start) % 65536 = length - start := by omega
  simp only [parseBody, ← startEq, remaining, available, copyMessage, if_true] at accepts
  rw [length_wireMessage]
  split at accepts
  next => cases accepts
  next options parsed =>
    obtain ⟨last, finishes, compact, _⟩ := parseOptionsFromRaw_compact available
      (show length - start ≤ 65531 by omega) parsed
    have within := finishes.le
    have room := compact.size
    cases accepts
    simp only [headerMessage, coapInitToEmptyResetMsg, Wire.payloadSection_nil, List.length_nil]
    omega
  next options payloadBegin parsed =>
    obtain ⟨last, finishes, compact, begins⟩ := parseOptionsFromRaw_compact available
      (show length - start ≤ 65531 by omega) parsed
    have within := finishes.le
    have room := compact.size
    split at begins
    next => cases begins
    next notEnd =>
      cases begins
      -- the length of the payload is a difference of 16 bits
      have payloadSize : (length + 65536 - (start + (last.position + 1)) % 65536) % 65536 =
          length - start - (last.position + 1) := by omega
      rw [payloadSize] at accepts
      split at accepts
      next => cases accepts
      next =>
        cases accepts
        simp only [Wire.length_payloadSection, Memory.length_bytes]
        split <;> omega
  next => cases accepts

/-- What the parser accepts can be built again in the room it took, when a marker stops it behind the
datagram. -/
theorem parse_compact {alloc : Nat → Bool} {memory : Memory} {length : Nat} {now : Nat} {msg : CoapMessage}
    (available : ∀ i, alloc i = true) (bound : length ≤ 65535)
    (behind : ∀ i, length ≤ i → memory i = 0xFF)
    (accepts : coapParseMessageFromDatagram alloc now memory length = some (.ok, some msg)) :
    (wireMessage msg).encode.length ≤ length := by
  have header : HeaderAccepted memory length := by
    by_contra rejected
    obtain ⟨result, failed, returned⟩ := parse_rejects alloc now rejected
    rw [returned] at accepts
    cases accepts
  have size := header.size
  have token := byteCount_parseToken memory 4 header.tokenLength
  rw [length_wireMessage]
  rw [parse_of_header alloc now header] at accepts
  simp only [available, copyMessage, if_true] at accepts
  split at accepts
  next =>
    cases accepts
    simpa [headerMessage, coapInitToEmptyResetMsg, Wire.encodeOptions] using size
  next =>
    split at accepts
    next atToken =>
      cases accepts
      simp only [headerMessage, coapInitToEmptyResetMsg, Wire.encodeOptions, Wire.payloadSection_nil,
        List.length_nil]
      omega
    next =>
      by_cases inside : 4 + (memory 0).toNat % 16 < length
      · rw [← length_wireMessage]
        exact parseBody_compact available bound header.tokenLength inside accepts
      · -- a token that runs past the end is followed by a marker
        have marker : memory.offset (4 + (memory 0).toNat % 16) 0 = 0xFF := behind _ (by omega)
        have wraps : ¬ (length + 65536 - (4 + (memory 0).toNat % 16)) % 65536 = 0 := by omega
        simp only [parseBody, parseOptionsFromRaw, if_neg wraps, if_pos marker] at accepts
        cases accepts

/-! ## The round trip -/

/-- A message with a code, within the limits of the stack. -/
structure Sendable (msg : CoapMessage) : Prop where
  coded : msg.code ≠ empty
  code : ¬ ReservedClass msg.code
  messageID : msg.messageID ≤ 65535
  sorted : msg.options.Pairwise (fun left right => left.number ≤ right.number)
  numbers : ∀ option ∈ msg.options, option.number ≤ 65535
  values : ∀ option ∈ msg.options, option.value.length ≤ maxOptionValueSize
  payload : msg.payload.length ≤ maxPayloadSize

/-- The same message, apart from when and into which buffer it was read. -/
structure Agrees (left right : CoapMessage) : Prop where
  type : left.type = right.type
  code : left.code = right.code
  messageID : left.messageID = right.messageID
  token64 : left.token64 = right.token64
  options : left.options = right.options
  payload : left.payload = right.payload

/-- Whatever the buffer held before and whatever lies behind the datagram when it arrives, the parser
reads the message back. -/
def RoundTrips (msg : CoapMessage) : Prop :=
  ∀ (alloc : Nat → Bool) (now : Nat) (destArr memory : Memory), (∀ i, alloc i = true) →
    let built := coapBuildDatagram destArr msg
    memory.Holds 0 (built.1.bytes 0 built.2.1) →
    ∃ parsed, coapParseMessageFromDatagram alloc now memory built.2.1 = some (.ok, some parsed) ∧
      Agrees parsed msg

theorem Agrees.wireMessage_eq {left right : CoapMessage} (agrees : Agrees left right) :
    wireMessage left = wireMessage right := by
  simp only [wireMessage, agrees.type, agrees.code, agrees.messageID, agrees.token64, agrees.options,
    agrees.payload]

theorem Sendable.representable {msg : CoapMessage} (sendable : Sendable msg) :
    Wire.Representable msg.options := by
  intro option member
  have short := sendable.values option member
  rw [maxOptionValueSize] at short
  exact ⟨sendable.numbers option member, by omega⟩

theorem Sendable.ascending {msg : CoapMessage} (sendable : Sendable msg) : Wire.Ascending 0 msg.options :=
  (Wire.ascending_zero_iff msg.options).mpr sendable.sorted

theorem Sendable.fits {msg : CoapMessage} (sendable : Sendable msg) : (wireMessage msg).Fits := by
  refine ⟨msg.type.toNat_lt, sendable.messageID, ?_, sendable.ascending, sendable.representable⟩
  rw [length_token]
  exact getTokenByteCount_le _

theorem Sendable.limits {msg : CoapMessage} (sendable : Sendable msg) : WithinLimits (wireMessage msg) :=
  ⟨sendable.code, sendable.values, sendable.payload⟩

/-- The token comes back because its length is taken from its value. -/
theorem agrees_parsedMessage (now : Nat) (msg : CoapMessage) :
    Agrees (parsedMessage now (wireMessage msg)) msg := by
  have room := (Wire.byteCount_le_iff msg.token64.toNat (Wire.byteCount msg.token64.toNat)).mp (Nat.le_refl _)
  refine ⟨?_, rfl, rfl, ?_, rfl, rfl⟩
  · simp only [parsedMessage, wireMessage]
    cases msg.type <;> rfl
  · simp only [parsedMessage, wireMessage]
    rw [Wire.littleEndian_digits room, UInt64.ofNat_toNat]

theorem size_buildDatagram (destArr : Memory) (msg : CoapMessage) :
    (coapBuildDatagram destArr msg).2.1 ≤ 65535 := by
  have token := getTokenByteCount_le msg.token64
  simp only [coapBuildDatagram, buildPayload, buildOptions]
  repeat' split
  all_goals simp only
  all_goals omega

/-- What comes back has an encoding that fits the offsets: behind the datagram there may be nothing but
markers. -/
theorem RoundTrips.bound {msg : CoapMessage} (roundTrips : RoundTrips msg) :
    (wireMessage msg).encode.length ≤ 65535 := by
  have small := size_buildDatagram (fun _ => 0) msg
  have returned := roundTrips (fun _ => true) 0 (fun _ => 0)
  obtain ⟨built, builtEq⟩ : ∃ built, built = coapBuildDatagram (fun _ => 0) msg := ⟨_, rfl⟩
  rw [← builtEq] at returned small
  have inside : Memory.Holds (fun i => if i < built.2.1 then built.1 i else 0xFF) 0
      (built.1.bytes 0 built.2.1) := by
    apply (Memory.holds_bytes built.1 0 built.2.1).congr
    intro i _ before
    rw [Memory.length_bytes] at before
    exact if_pos (by omega)
  obtain ⟨parsed, accepts, agrees⟩ := returned _ (fun _ => rfl) inside
  have compact := parse_compact (fun _ => rfl) small (fun i outside => if_neg (by omega)) accepts
  rw [agrees.wireMessage_eq] at compact
  exact Nat.le_trans compact small

/-- The parser refuses a payload marker behind the token. -/
theorem RoundTrips.regular {msg : CoapMessage} (roundTrips : RoundTrips msg) (sendable : Sendable msg) :
    msg.options ≠ [] ∨ msg.payload = [] := by
  have bound := roundTrips.bound
  obtain ⟨holds, size⟩ := buildDatagram_spec (fun _ => 0) msg sendable.coded sendable.ascending
    sendable.representable bound
  have returned := roundTrips (fun _ => true) 0 (fun _ => 0) (coapBuildDatagram (fun _ => 0) msg).1
    (fun _ => rfl) (Memory.holds_bytes ..)
  rw [size] at returned
  obtain ⟨parsed, accepts, _⟩ := returned
  have spells : Spells (wireMessage msg).encode (wireMessage msg) := ⟨sendable.fits, sendable.limits, rfl⟩
  obtain ⟨header, tokenLength, inside⟩ := spells.header holds
  obtain ⟨result, other, decides, iff⟩ :=
    parse_inside 0 (fun _ => rfl) bound header (by rw [tokenLength]; exact inside)
  rw [accepts, Option.some.injEq, Prod.mk.injEq] at decides
  by_contra bare
  simp only [not_or, not_not] at bare
  obtain ⟨marker, goesOn, _⟩ := spells.payloadOnly holds bare.1 bare.2
  exact not_accepted_of_marker marker (by omega) (iff.mp decides.1.symm)

/-- A message comes back exactly when a payload has options in front of it and the encoding fits the
16 bit offsets. -/
theorem build_parse_iff (msg : CoapMessage) (sendable : Sendable msg) :
    RoundTrips msg ↔
      (msg.options ≠ [] ∨ msg.payload = []) ∧ (wireMessage msg).encode.length ≤ 65535 := by
  constructor
  · intro roundTrips
    exact ⟨roundTrips.regular sendable, roundTrips.bound⟩
  · intro condition alloc now destArr memory available built sent
    obtain ⟨regular, bound⟩ := condition
    obtain ⟨holds, size⟩ := buildDatagram_spec destArr msg sendable.coded sendable.ascending
      sendable.representable bound
    simp only [built, size] at sent ⊢
    rw [holds.eq_bytes rfl] at sent
    exact ⟨_, parse_of_message now available sendable.fits sendable.limits regular bound sent,
      agrees_parsedMessage now msg⟩

/-- A 2.05 response with a token, Content-Format and a payload. -/
theorem build_parse_iff_content :
    let msg : CoapMessage := ⟨0, .ack, respSuccessContent, 0x1234, 0, 0x0203, [⟨12, [0]⟩], [0x41]⟩
    Sendable msg ∧ (RoundTrips msg ↔
      (msg.options ≠ [] ∨ msg.payload = []) ∧ (wireMessage msg).encode.length ≤ 65535) := by
  have sendable : Sendable ⟨0, .ack, respSuccessContent, 0x1234, 0, 0x0203, [⟨12, [0]⟩], [0x41]⟩ :=
    ⟨by decide, by decide, by decide, by decide, by decide, by decide, by decide⟩
  exact ⟨sendable, build_parse_iff _ sendable⟩

/-- The same response without an option does not come back. -/
theorem build_parse_loses_payload_without_options :
    let msg : CoapMessage := ⟨0, .ack, respSuccessContent, 0x1234, 0, 0x0203, [], [0x41]⟩
    Sendable msg ∧ ¬ RoundTrips msg := by
  have sendable : Sendable ⟨0, .ack, respSuccessContent, 0x1234, 0, 0x0203, [], [0x41]⟩ :=
    ⟨by decide, by decide, by decide, by decide, by decide, by decide, by decide⟩
  refine ⟨sendable, fun roundTrips => ?_⟩
  cases roundTrips.regular sendable with
  | inl some_ => exact some_ rfl
  | inr none => cases none

end SmingCoap.Server
