import SmingCoap.Server.BlockwiseSoundness

/-! # The block that is asked for

`CoAP_SetPayload` turns the Block2 option of the request into the one of the
reply.  The byte offset that the client means is its number times its own size.
A size above `MAX_PAYLOAD_SIZE` is lowered but the number stays, so that the
offset moves; and an M flag that the request has stays on the last block.
Everything else is the block at the offset (`setPayload_answers_iff`).
-/

namespace SmingCoap.Server

open Wire (Opt)

/-- A Block2 option in a request: number, M flag and size exponent. -/
def CarriesBlock (req : CoapMessage) (num : Nat) (more : Bool) (szx : Nat) : Prop :=
  ∃ option, req.options.find? (fun option => option.number = optBlock2) = some option ∧
    option.value.length ≤ 3 ∧ bigEndian option.value = num * 16 + (if more then 8 else 0) + szx

/-- The payload is as long as it says, and at the payload pointer of the response where it is passed in there. -/
structure Given (mode : PayloadMode) (content : List UInt8) (msg : PayloadMessage) : Prop where
  positive : 0 < content.length
  total : content.length ≤ 65535
  buffer : mode = .inPlace → msg.location ≠ .null ∧ msg.buffer.take content.length = content

/-- A reply that starts at a byte offset of the payload, with an option that says so. -/
structure StartsAt (content : List UInt8) (offset : Nat) (reply : PayloadMessage) : Prop where
  nonempty : reply.payload ≠ []
  payload : reply.payload <+: content.drop offset
  option : ∃ num more szx, readBlock reply.toCoapMessage = some (num, more, szx) ∧ num * 2 ^ (szx + 4) = offset ∧
    (more = true ↔ offset + reply.payload.length < content.length)

/-- The answer to a block number and a size exponent: 4.02 behind the end, and else the block. -/
def AnswersBlock (content : List UInt8) (num szx : Nat) (msg : PayloadMessage)
    (answer : Option (CoapResult × PayloadMessage)) : Prop :=
  ∃ result reply, answer = some (result, reply) ∧
    if content.length ≤ num * 2 ^ (szx + 4) then result = .errWrongOption ∧ reply.code = respBadOption
    else result = .ok ∧ reply.code = msg.code ∧ StartsAt content (num * 2 ^ (szx + 4)) reply

/-- There is memory, and unless the block is behind the end anyway, the size need not be lowered for a number
above 0 and no M flag comes with the last block. -/
def BlockInOrder (optionMem bufferMem : Bool) (mode : PayloadMode) (content : List UInt8) (num : Nat) (more : Bool)
    (szx : Nat) (msg : PayloadMessage) : Prop :=
  let size := min (2 ^ (szx + 4)) maxPayloadSize
  if content.length ≤ size * num then BufferAvailable bufferMem msg blockNotExisting.length
  else
    (num = 0 ∨ 2 ^ (szx + 4) ≤ maxPayloadSize) ∧ (more = true → size * num + size < content.length) ∧
      optionMem = true ∧ PlaceAvailable bufferMem msg (mode.source content) (min size (content.length - size * num))

section

variable {optionMem bufferMem : Bool} {mode : PayloadMode} {content : List UInt8} {msg : PayloadMessage}
  {b2opt : BlockOption}

theorem removeAll_noBlock (msg : CoapMessage) :
    ∀ option ∈ (removeAllBlockOptionsFromMsg msg .block2).options, option.number ≠ optBlock2 := by
  intro option member
  exact of_decide_eq_true (List.mem_filter.mp member).2

/-- Without memory for the option there is none in the reply. -/
theorem readBlock_unavailable {options : List Opt} {option : Opt} {reply : CoapMessage}
    (added : reply.options = (appendOptionToList false options option).2)
    (noBlock : ∀ option ∈ options, option.number ≠ optBlock2) : readBlock reply = none := by
  have absent : ∀ option ∈ reply.options, option.number ≠ optBlock2 := by
    intro kept member
    rw [added, appendOptionToList] at member
    simp only [Bool.false_eq_true, if_false] at member
    split at member
    next => cases member
    next => exact noBlock kept member
  rw [readBlock, List.find?_eq_none.mpr (by simpa using absent), Option.map_none]

/-- A block in front of the end, with all that is in the reply. -/
theorem setPayloadBlock_reply {result : CoapResult} {reply : PayloadMessage} (given : Given mode content msg)
    (within : servedSize b2opt * b2opt.blockNum.toNat < content.length)
    (answer : setPayloadBlock optionMem bufferMem b2opt msg (mode.source content) (UInt16.ofNat content.length) =
      some (result, reply)) :
    let size := servedSize b2opt
    let offset := size * b2opt.blockNum.toNat
    result = .ok ∧ reply.code = msg.code ∧
      reply.payload = (content.drop offset).take (min size (content.length - offset)) ∧
      reply.options = (appendOptionToList optionMem (removeAllBlockOptionsFromMsg msg.toCoapMessage .block2).options
        ⟨b2opt.type.toNat, blockOptionBytes { b2opt with
          blockSize := size
          moreFlag := decide (offset + size < content.length) || b2opt.moreFlag }⟩).2 := by
  have totalEq := ofNat_length given.total
  rw [setPayloadBlock_within (by rwa [totalEq])] at answer
  simp only [totalEq] at answer
  obtain ⟨placed, put, result⟩ := Option.map_eq_some_iff.mp answer
  have inside : servedSize b2opt * b2opt.blockNum.toNat +
      min (servedSize b2opt) (content.length - servedSize b2opt * b2opt.blockNum.toNat) ≤ content.length := by omega
  obtain ⟨bytes, same⟩ := placePayload_placed inside (by exact given.buffer) put
  have code := congrArg CoapMessage.code same
  have options := congrArg CoapMessage.options same
  cases result
  exact ⟨rfl, code, bytes, options⟩

theorem Given.covers (given : Given mode content msg) :
    Covers (mode.source content) (UInt16.ofNat content.length).toNat := by
  rw [ofNat_length given.total]
  cases mode with
  | static => exact Nat.le_refl _
  | volatile => exact Nat.le_refl _
  | inPlace => trivial

/-- Nothing is there from the number on, whatever the size. -/
theorem answersBlock_behind {num szx : Nat} (given : Given mode content msg)
    (behind : content.length ≤ servedSize b2opt * b2opt.blockNum.toNat) (farther : content.length ≤ num * 2 ^ (szx + 4)) :
    AnswersBlock content num szx msg (setPayloadBlock optionMem bufferMem b2opt msg (mode.source content)
        (UInt16.ofNat content.length)) ↔
      BufferAvailable bufferMem msg blockNotExisting.length := by
  have short : ¬ maxPayloadSize < blockNotExisting.length := by decide
  have available := @addNewPayloadToMessage_isSome bufferMem msg blockNotExisting
  rw [or_iff_right short] at available
  rw [setPayloadBlock_behind (by rwa [ofNat_length given.total]), ← available]
  simp only [AnswersBlock, if_pos farther]
  constructor
  · rintro ⟨result, reply, answer, -⟩
    obtain ⟨added, done, -⟩ := Option.map_eq_some_iff.mp answer
    rw [done]
    rfl
  · intro room
    obtain ⟨added, done⟩ := Option.isSome_iff_exists.mp room
    exact ⟨_, _, by rw [done]; rfl, rfl, rfl⟩

/-- What is served is what was meant. -/
theorem startsAt_iff {num szx served : Nat} {more : Bool} {reply : PayloadMessage} (size : served ≤ 6)
    (bound : num < 2 ^ 20) (within : 2 ^ (served + 4) * num < content.length)
    (payload : reply.payload = (content.drop (2 ^ (served + 4) * num)).take
      (min (2 ^ (served + 4)) (content.length - 2 ^ (served + 4) * num)))
    (options : reply.options = (appendOptionToList optionMem (removeAllBlockOptionsFromMsg msg.toCoapMessage .block2).options
      ⟨optBlock2, blockOptionBytes
        { type := .block2, blockSize := 2 ^ (served + 4), blockNum := UInt32.ofNat num
          moreFlag := decide (2 ^ (served + 4) * num + 2 ^ (served + 4) < content.length) || more }⟩).2) :
    num * 2 ^ (szx + 4) < content.length ∧ StartsAt content (num * 2 ^ (szx + 4)) reply ↔
      (num = 0 ∨ szx = served) ∧ (more = true → 2 ^ (served + 4) * num + 2 ^ (served + 4) < content.length) ∧
        optionMem = true := by
  have positive : 0 < 2 ^ (served + 4) := Nat.two_pow_pos _
  have length : reply.payload.length = min (2 ^ (served + 4)) (content.length - 2 ^ (served + 4) * num) := by
    rw [payload, List.length_take, List.length_drop]
    omega
  constructor
  · rintro ⟨-, -, -, blockNum, flag, exponent, read, offset, remains⟩
    -- the option says which offset it is
    cases optionMem with
    | false =>
      rw [readBlock_unavailable options (removeAll_noBlock _)] at read
      cases read
    | true =>
      rw [readBlock_appended _ options (removeAll_noBlock _) size bound] at read
      cases read
      have same : num = 0 ∨ szx = served := by
        cases Nat.eq_zero_or_pos num with
        | inl first => exact .inl first
        | inr later =>
          have powers := Nat.eq_of_mul_eq_mul_left later offset
          have exponents := Nat.pow_right_injective (Nat.le_refl 2) powers
          exact .inr (by omega)
      refine ⟨same, fun kept => ?_, rfl⟩
      rw [kept, Bool.or_true, length, ← offset, Nat.mul_comm num] at remains
      have left := remains.mp rfl
      omega
  · rintro ⟨same, last, rfl⟩
    have offset : num * 2 ^ (szx + 4) = 2 ^ (served + 4) * num := by
      cases same with
      | inl first => simp [first]
      | inr exponent => rw [exponent, Nat.mul_comm]
    rw [offset]
    refine ⟨within, ?_, ?_, num, _, served, readBlock_appended _ options (removeAll_noBlock _) size bound,
      Nat.mul_comm _ _, ?_⟩
    · intro none
      rw [none] at length
      simp only [List.length_nil] at length
      omega
    · rw [payload]
      exact List.take_prefix _ _
    · rw [length, Bool.or_eq_true, decide_eq_true_eq]
      constructor
      · rintro (left | kept)
        · omega
        · have left := last kept
          omega
      · intro left
        exact .inl (by omega)

end

/-- `CoAP_SetPayload` answers a Block2 option as the client means it, if and only if there is memory and, for a
block that is served, its size need not be lowered and its M flag is right. -/
theorem setPayload_answers_iff (optionMem bufferMem : Bool) (mode : PayloadMode) (content : List UInt8) (num : Nat)
    (more : Bool) (szx : Nat) (req : CoapMessage) (msg : PayloadMessage) (carries : CarriesBlock req num more szx)
    (bound : num < 2 ^ 20) (size : szx ≤ 6) (given : Given mode content msg) :
    AnswersBlock content num szx msg (setPayload optionMem bufferMem (some req) msg (mode.source content)
        (UInt16.ofNat content.length)) ↔
      BlockInOrder optionMem bufferMem mode content num more szx msg := by
  obtain ⟨option, found, short, number⟩ := carries
  have read := @getBlockOptionFromMsg_ok req .block2 option num szx more found short number size bound
  have numEq : (UInt32.ofNat num).toNat = num := UInt32.toNat_ofNat_of_lt' (by rw [UInt32.size]; omega)
  have totalEq := ofNat_length given.total
  -- the server lowers the size to 256 at most, so a number counts in smaller blocks than were asked for
  have sizes : ∀ szx < 7, min (2 ^ (szx + 4)) maxPayloadSize = 2 ^ (min szx 4 + 4) ∧
      (2 ^ (szx + 4) ≤ maxPayloadSize ↔ szx = min szx 4) := by decide
  obtain ⟨lowered, unchanged⟩ := sizes szx (by omega)
  have served : servedSize ⟨.block2, 2 ^ (szx + 4), more, UInt32.ofNat num⟩ = 2 ^ (min szx 4 + 4) := by
    rw [servedSize_eq]
    exact lowered
  simp only [setPayload, if_neg (ofNat_length_ne given.positive given.total), Option.map_some, read]
  simp only [BlockInOrder, lowered, unchanged]
  have smaller : 2 ^ (min szx 4 + 4) ≤ 2 ^ (szx + 4) := Nat.pow_le_pow_right (by omega) (by omega)
  split
  next behind =>
    apply answersBlock_behind given
    · rwa [served, numEq]
    · exact behind.trans (by rw [Nat.mul_comm]; exact Nat.mul_le_mul_left num smaller)
  next within =>
    have before := Nat.lt_of_not_le within
    have available := @setPayloadBlock_isSome optionMem bufferMem msg (mode.source content)
      ⟨.block2, 2 ^ (szx + 4), more, UInt32.ofNat num⟩ (UInt16.ofNat content.length) (Nat.two_pow_pos _) given.covers
    simp only [BlockAvailable, served, numEq, totalEq, if_neg within] at available
    have replied := fun result reply => @setPayloadBlock_reply optionMem bufferMem mode content msg
      ⟨.block2, 2 ^ (szx + 4), more, UInt32.ofNat num⟩ result reply given (by rwa [served, numEq])
    simp only [served, numEq] at replied
    constructor
    · rintro ⟨result, reply, answer, meant⟩
      obtain ⟨rfl, code, payload, options⟩ := replied result reply answer
      split at meant
      next => cases meant.1
      next inside =>
        obtain ⟨same, last, memory⟩ := (startsAt_iff (by omega) bound before payload options).mp
          ⟨Nat.lt_of_not_le inside, meant.2.2⟩
        exact ⟨same, last, memory, available.mp (by rw [answer]; rfl)⟩
    · rintro ⟨same, last, memory, room⟩
      obtain ⟨⟨result, reply⟩, answer⟩ := Option.isSome_iff_exists.mp (available.mpr room)
      obtain ⟨rfl, code, payload, options⟩ := replied result reply answer
      obtain ⟨inside, starts⟩ := (startsAt_iff (by omega) bound before payload options).mpr
        ⟨same, last, memory⟩
      refine ⟨_, _, answer, ?_⟩
      rw [if_neg (Nat.not_le.mpr inside)]
      exact ⟨rfl, code, starts⟩

/-- A response without a payload. -/
def blankReply : PayloadMessage := ⟨coapInitToEmptyResetMsg, .null, [], by decide⟩

/-- The first block of three bytes. -/
theorem setPayload_answers_first : AnswersBlock [1, 2, 3] 0 2 blankReply
    (setPayload true true (some { coapInitToEmptyResetMsg with options := [⟨optBlock2, [2]⟩] }) blankReply
      (PayloadMode.source [1, 2, 3] .static) (UInt16.ofNat 3)) :=
  (setPayload_answers_iff true true .static [1, 2, 3] 0 false 2 _ blankReply ⟨⟨optBlock2, [2]⟩, rfl, by decide, rfl⟩
    (by decide) (by decide) ⟨by decide, by decide, fun inPlace => nomatch inPlace⟩).mpr (by
      simp [BlockInOrder, maxPayloadSize, PlaceAvailable, PayloadMode.source])

/-- Block 1 of size 512 is asked for, of 300 bytes, and the last 44 of them are sent. -/
theorem setPayload_answers_lowered : ¬ ∀ (mode : PayloadMode) (content : List UInt8) (num : Nat) (more : Bool)
    (szx : Nat) (req : CoapMessage) (msg : PayloadMessage), CarriesBlock req num more szx → num < 2 ^ 20 → szx ≤ 6 →
    Given mode content msg → AnswersBlock content num szx msg
      (setPayload true true (some req) msg (mode.source content) (UInt16.ofNat content.length)) := by
  intro answers
  obtain ⟨content, length⟩ : ∃ content : List UInt8, content.length = 300 :=
    ⟨List.replicate 300 7, List.length_replicate⟩
  have given : Given .static content blankReply := ⟨by omega, by omega, fun inPlace => nomatch inPlace⟩
  obtain ⟨result, reply, answer, meant⟩ := answers .static content 1 false 5
    { coapInitToEmptyResetMsg with options := [⟨optBlock2, [0x15]⟩] } blankReply
    ⟨⟨optBlock2, [0x15]⟩, rfl, by decide, rfl⟩ (by decide) (by decide) given
  rw [if_pos (by rw [length]; decide)] at meant
  have read : getBlockOptionFromMsg { coapInitToEmptyResetMsg with options := [⟨optBlock2, [0x15]⟩] } .block2 =
      .ok ⟨.block2, 512, false, 1⟩ := rfl
  simp only [setPayload, if_neg (ofNat_length_ne given.positive given.total), Option.map_some, read] at answer
  have within : servedSize ⟨.block2, 512, false, 1⟩ * (1 : UInt32).toNat < content.length := by
    rw [length]
    decide
  cases (setPayloadBlock_reply given within answer).1.symm.trans meant.1

end SmingCoap.Server
