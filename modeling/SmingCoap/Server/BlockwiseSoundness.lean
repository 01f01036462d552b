import SmingCoap.Server.MemorySoundness

/-! # A payload in blocks

A client asks for the first block, or for no block at all, and goes on with the next number as long as the M flag of
the reply is set.  `fetch` is such an exchange: each request is answered by `CoAP_SetPayload` from a response of its
own.  The replies together are the payload, whatever size was asked for, and they are the same for a static payload,
a volatile one and one that lies in the buffer of the response (`fetch_complete`).
-/

namespace SmingCoap.Server

open Wire (Memory Opt)

/-! ## The value of a block option -/

/-- The number that the value bytes of an option stand for. -/
def bigEndian (value : List UInt8) : Nat := value.foldl (fun number byte => number * 256 + byte.toNat) 0

theorem or_of_lt {low : Nat} (high width : Nat) (small : low < 2 ^ width) :
    high * 2 ^ width ||| low = high * 2 ^ width + low := by
  have sum := Nat.two_pow_add_eq_or_of_lt small high
  rw [Nat.mul_comm] at sum
  exact sum.symm

theorem shifted_byte (byte : UInt8) (width : UInt32) (small : width ≤ 24) :
    (byte.toUInt32 <<< width).toNat = byte.toNat * 2 ^ width.toNat := by
  have bound := byte.toNat_lt
  have widthBound : width.toNat ≤ 24 := by simpa [UInt32.le_iff_toNat_le] using small
  have power : 2 ^ width.toNat ≤ 2 ^ 24 := Nat.pow_le_pow_right (by omega) widthBound
  rw [UInt32.toNat_shiftLeft, UInt8.toNat_toUInt32, Nat.mod_eq_of_lt (by omega : width.toNat < 32), Nat.shiftLeft_eq]
  apply Nat.mod_eq_of_lt
  calc byte.toNat * 2 ^ width.toNat ≤ 255 * 2 ^ 24 := Nat.mul_le_mul (by omega) power
    _ < 2 ^ 32 := by decide

theorem readBlockValue_toNat {value : List UInt8} (short : value.length ≤ 3) :
    (readBlockValue value).toNat = bigEndian value := by
  match value, short with
  | [], _ => rfl
  | [low], _ => simp [readBlockValue, bigEndian]
  | [high, low], _ =>
    have lowBound := low.toNat_lt
    rw [readBlockValue, UInt32.toNat_or, shifted_byte _ _ (by decide), UInt8.toNat_toUInt32]
    simp only [UInt32.reduceToNat]
    rw [or_of_lt _ 8 lowBound]
    simp [bigEndian]
  | [top, high, low], _ =>
    have highBound := high.toNat_lt
    have lowBound := low.toNat_lt
    rw [readBlockValue, UInt32.toNat_or, UInt32.toNat_or, shifted_byte _ _ (by decide), shifted_byte _ _ (by decide),
      UInt8.toNat_toUInt32]
    simp only [UInt32.reduceToNat]
    have upper : top.toNat * 2 ^ 16 + high.toNat * 2 ^ 8 = (top.toNat * 2 ^ 8 + high.toNat) * 2 ^ 8 := by omega
    rw [or_of_lt _ 16 (by omega), upper, or_of_lt _ 8 lowBound]
    simp [bigEndian]

theorem getBlockOptionFromMsg_ok {req : CoapMessage} {type : BlockOptionType} {option : Opt} {num szx : Nat}
    {moreFlag : Bool} (found : req.options.find? (fun option => option.number = type.toNat) = some option)
    (short : option.value.length ≤ 3)
    (number : bigEndian option.value = num * 16 + (if moreFlag then 8 else 0) + szx) (size : szx ≤ 6)
    (bound : num < 2 ^ 20) :
    getBlockOptionFromMsg req type =
      .ok { type, blockSize := 2 ^ (szx + 4), moreFlag, blockNum := UInt32.ofNat num } := by
  have few : (if moreFlag then 8 else 0) + szx < 16 := by split <;> omega
  have read := readBlockValue_toNat short
  rw [number] at read
  simp only [getBlockOptionFromMsg, found]
  rw [if_neg (by omega)]
  split
  -- an empty value is the number zero
  next empty =>
    rw [empty] at number
    have zero : num * 16 + (if moreFlag then 8 else 0) + szx = 0 := number.symm
    cases moreFlag with
    | true => simp at zero
    | false =>
      obtain ⟨rfl, rfl⟩ : num = 0 ∧ szx = 0 := by
        simp only [Bool.false_eq_true, if_false] at zero
        omega
      rfl
  next =>
    have exponent : (readBlockValue option.value &&& 7).toNat = szx := by
      rw [UInt32.toNat_and, read, show (7 : UInt32).toNat = 2 ^ 3 - 1 from rfl, Nat.and_two_pow_sub_one_eq_mod]
      split <;> omega
    have more : decide (readBlockValue option.value &&& 8 ≠ 0) = moreFlag := by
      -- the flag is the bit of value 8, so the lowest four bits decide it
      have flags : ∀ szx < 7, ∀ moreFlag : Bool,
          (((if moreFlag then 8 else 0) + szx) &&& 8 ≠ 0) = (moreFlag = true) := by decide
      have modulo := @Nat.and_mod_two_pow (num * 16 + (if moreFlag then 8 else 0) + szx) 8 4
      have small : (num * 16 + (if moreFlag then 8 else 0) + szx) &&& 8 ≤ 8 := Nat.and_le_right
      rw [Nat.mod_eq_of_lt (by omega), show (num * 16 + (if moreFlag then 8 else 0) + szx) % 2 ^ 4 =
        (if moreFlag then 8 else 0) + szx by omega, show 8 % 2 ^ 4 = 8 from rfl] at modulo
      have bits : (readBlockValue option.value &&& 8).toNat = ((if moreFlag then 8 else 0) + szx) &&& 8 := by
        rw [UInt32.toNat_and, read]
        exact modulo
      have nonzero : readBlockValue option.value &&& 8 ≠ 0 ↔ (readBlockValue option.value &&& 8).toNat ≠ 0 :=
        not_congr UInt32.toNat_inj.symm
      simp only [nonzero, bits, flags szx (by omega) moreFlag, Bool.decide_eq_true]
    have block : readBlockValue option.value >>> 4 = UInt32.ofNat num := by
      apply UInt32.toNat_inj.mp
      rw [UInt32.toNat_shiftRight, read, Nat.shiftRight_eq_div_pow,
        UInt32.toNat_ofNat_of_lt' (by rw [UInt32.size]; omega)]
      simp only [UInt32.reduceToNat, Nat.reduceMod]
      omega
    have valid : readBlockValue option.value &&& 7 ≠ 7 := by
      intro seven
      rw [seven] at exponent
      have last : 7 = szx := exponent
      omega
    rw [if_neg valid, exponent, more, block, Nat.one_shiftLeft]

theorem blockOptionValue_toNat {blkOption : BlockOption} {szx : Nat} (size : szx ≤ 6)
    (blockSize : blkOption.blockSize = 2 ^ (szx + 4)) (bound : blkOption.blockNum.toNat < 2 ^ 20) :
    (blockOptionValue blkOption).toNat =
      blkOption.blockNum.toNat * 16 + (if blkOption.moreFlag then 8 else 0) + szx := by
  have flags : ∀ szx < 7, ∀ moreFlag : Bool,
      (highestBit (UInt8.ofNat (2 ^ (szx + 4) >>> 4)) 6 ||| (if moreFlag then 8 else 0)).toNat =
        (if moreFlag then 8 else 0) + szx := by decide
  have small : (if blkOption.moreFlag then 8 else 0) + szx < 2 ^ 4 := by split <;> omega
  have shifted : (blkOption.blockNum <<< 4).toNat = blkOption.blockNum.toNat * 2 ^ 4 := by
    rw [UInt32.toNat_shiftLeft, Nat.shiftLeft_eq]
    simp only [UInt32.reduceToNat, Nat.reduceMod]
    omega
  simp only [blockOptionValue, blockSize]
  rw [UInt32.toNat_or, flags szx (by omega), shifted, Nat.or_comm, or_of_lt _ 4 small]
  omega

theorem blockOptionBytes_number {blkOption : BlockOption} {szx : Nat} (size : szx ≤ 6)
    (blockSize : blkOption.blockSize = 2 ^ (szx + 4)) (bound : blkOption.blockNum.toNat < 2 ^ 20) :
    bigEndian (blockOptionBytes blkOption) =
      blkOption.blockNum.toNat * 16 + (if blkOption.moreFlag then 8 else 0) + szx := by
  have number := blockOptionValue_toNat size blockSize bound
  have small : (if blkOption.moreFlag then 8 else 0) + szx < 16 := by split <;> omega
  have low : (blockOptionValue blkOption &&& 0xFF).toNat = (blockOptionValue blkOption).toNat % 256 := by
    rw [UInt32.toNat_and, show (0xFF : UInt32).toNat = 2 ^ 8 - 1 from rfl, Nat.and_two_pow_sub_one_eq_mod]
  have middle : (blockOptionValue blkOption >>> 8).toNat = (blockOptionValue blkOption).toNat / 256 := by
    rw [UInt32.toNat_shiftRight, Nat.shiftRight_eq_div_pow]
    rfl
  have high : (blockOptionValue blkOption >>> 16).toNat = (blockOptionValue blkOption).toNat / 65536 := by
    rw [UInt32.toNat_shiftRight, Nat.shiftRight_eq_div_pow]
    rfl
  simp only [blockOptionBytes]
  split
  -- the smallest first block is written as no byte at all
  next first =>
    obtain ⟨zero, sixteen, last⟩ := first
    rw [sixteen] at blockSize
    have smallest : szx = 0 := by
      by_contra other
      have larger : 2 ^ (1 + 4) ≤ 2 ^ (szx + 4) := Nat.pow_le_pow_right (by omega) (by omega)
      rw [← blockSize, blockSize16] at larger
      omega
    simp [zero, last, smallest, bigEndian]
  next =>
    split
    next one =>
      have bound : blkOption.blockNum.toNat < 16 := one
      simp only [bigEndian, List.foldl_cons, List.foldl_nil, UInt32.toNat_toUInt8, number]
      omega
    next =>
      split
      next two =>
        have bound : blkOption.blockNum.toNat < 4096 := two
        simp only [bigEndian, List.foldl_cons, List.foldl_nil, UInt32.toNat_toUInt8, low, middle, number]
        omega
      next =>
        simp only [bigEndian, List.foldl_cons, List.foldl_nil, UInt32.toNat_toUInt8, low, middle, high, number]
        omega

/-! ## One reply -/

/-- How a handler passes the payload. -/
inductive PayloadMode where
  | static
  | volatile
  | inPlace
  deriving DecidableEq

def PayloadMode.source (content : List UInt8) : PayloadMode → PayloadSource
  | .static => .external content false
  | .volatile => .external content true
  | .inPlace => .own

/-- A response to be filled: without a Block2 option, and with the payload at the start of its buffer where it is
passed in there. -/
structure Prepared (mode : PayloadMode) (content : List UInt8) (msg : PayloadMessage) : Prop where
  noBlock : ∀ option ∈ msg.options, option.number ≠ optBlock2
  buffer : mode = .inPlace → msg.location ≠ .null ∧ msg.buffer.take content.length = content

/-- What of a message does not come from the payload. -/
def shell (msg : CoapMessage) : CoapMessage :=
  { msg with timestamp := 0, payloadBufSize := 0, payload := [] }

/-- In all three modes the block lies at the payload pointer, and nothing else changes. -/
theorem placePayload_placed {mode : PayloadMode} {content : List UInt8} {msg placed : PayloadMessage}
    {bufferMem : Bool} {offset size : Nat} (inside : offset + size ≤ content.length)
    (buffer : mode = .inPlace → msg.location ≠ .null ∧ msg.buffer.take content.length = content)
    (put : placePayload bufferMem msg (mode.source content) offset size = some placed) :
    placed.buffer.take size = (content.drop offset).take size ∧
      shell placed.toCoapMessage = shell msg.toCoapMessage := by
  have length : ((content.drop offset).take size).length = size := by simp; omega
  cases mode with
  | static =>
    simp only [PayloadMode.source, placePayload, Option.some.injEq] at put
    subst put
    exact ⟨rfl, rfl⟩
  | volatile =>
    simp only [PayloadMode.source, placePayload, copyVolatile] at put
    split at put
    next room =>
      split at put
      next => cases put
      next =>
        cases put
        refine ⟨?_, rfl⟩
        simp only [List.take_append_of_le_length (Nat.le_of_eq length.symm)]
        exact List.take_of_length_le (Nat.le_of_eq length)
    next =>
      cases bufferMem with
      | false => cases put
      | true =>
        cases put
        refine ⟨List.take_of_length_le (Nat.le_of_eq length), ?_⟩
        simp only [freeMsgPayload]
        split
        next => rfl
        next => rfl
  | inPlace =>
    obtain ⟨location, start⟩ := buffer rfl
    simp only [PayloadMode.source, placePayload, moveToFront, if_neg location, Option.some.injEq] at put
    subst put
    refine ⟨?_, rfl⟩
    -- what is moved to the front is the block, since the content starts the buffer
    have same : (msg.buffer.drop offset).take size = (content.drop offset).take size := by
      rw [← start, List.drop_take, List.take_take]
      congr 1
      omega
    simp only [same]
    rw [List.take_append_of_le_length (Nat.le_of_eq length.symm)]
    exact List.take_of_length_le (Nat.le_of_eq length)

theorem placePayload_spec {mode : PayloadMode} {content : List UInt8} {msg : PayloadMessage} {offset size : Nat}
    (inside : offset + size ≤ content.length) (positive : 0 < size)
    (buffer : mode = .inPlace → msg.location ≠ .null ∧ msg.buffer.take content.length = content) :
    ∃ placed, placePayload true msg (mode.source content) offset size = some placed ∧
      placed.buffer.take size = (content.drop offset).take size ∧
      shell placed.toCoapMessage = shell msg.toCoapMessage := by
  have covers : Covers (mode.source content) (offset + size) := by
    cases mode with
    | static => exact inside
    | volatile => exact inside
    | inPlace => exact trivial
  have available : PlaceAvailable true msg (mode.source content) size := by
    cases mode with
    | static => exact trivial
    | volatile => exact .inr rfl
    | inPlace => exact (buffer rfl).1
  obtain ⟨placed, put⟩ := Option.isSome_iff_exists.mp ((placePayload_isSome positive covers).mpr available)
  exact ⟨placed, put, placePayload_placed inside buffer put⟩

/-- A reply that is one block: its bytes, its Block2 option among those of the response, and the rest of the
response. -/
structure IsBlock (content : List UInt8) (num szx : Nat) (msg reply : PayloadMessage) : Prop where
  payload : reply.payload = (content.drop (2 ^ (szx + 4) * num)).take (2 ^ (szx + 4))
  options : reply.options = (appendOptionToList true msg.options ⟨optBlock2, blockOptionBytes
    { type := .block2, blockSize := 2 ^ (szx + 4), blockNum := UInt32.ofNat num
      moreFlag := decide (2 ^ (szx + 4) * num + 2 ^ (szx + 4) < content.length) }⟩).2
  shell_eq : shell { reply.toCoapMessage with options := [] } = shell { msg.toCoapMessage with options := [] }

/-- What a client asks for: nothing special, or a block by number and size exponent, without the M flag. -/
def Asks (req : CoapMessage) : Option (Nat × Nat) → Prop
  | none => req.options.find? (fun option => option.number = optBlock2) = none
  | some (num, szx) => ∃ option, req.options.find? (fun option => option.number = optBlock2) = some option ∧
      option.value.length ≤ 3 ∧ bigEndian option.value = num * 16 + szx

section

variable {mode : PayloadMode} {content : List UInt8} {msg : PayloadMessage} {req : CoapMessage}

theorem removeAll_eq (noBlock : ∀ option ∈ msg.options, option.number ≠ optBlock2) :
    (removeAllBlockOptionsFromMsg msg.toCoapMessage .block2).options = msg.options := by
  simp only [removeAllBlockOptionsFromMsg, List.filter_eq_self]
  intro option member
  exact decide_eq_true (noBlock option member)

/-- A block that is asked for and exists. -/
theorem setPayload_block {num szx : Nat} (prepared : Prepared mode content msg) (asks : Asks req (some (num, szx)))
    (size : szx ≤ 6) (total : content.length ≤ 65535) (within : 2 ^ (min szx 4 + 4) * num < content.length) :
    ∃ reply, setPayload true true (some req) msg (mode.source content) (UInt16.ofNat content.length) =
      some (.ok, reply) ∧ IsBlock content num (min szx 4) msg reply := by
  obtain ⟨option, found, short, number⟩ := asks
  have totalEq : (UInt16.ofNat content.length).toNat = content.length :=
    UInt16.toNat_ofNat_of_lt' (by rw [UInt16.size]; omega)
  have power : 0 < 2 ^ (min szx 4 + 4) := Nat.two_pow_pos _
  have numBound : num < 65536 := by
    by_contra large
    have product : 1 * num ≤ 2 ^ (min szx 4 + 4) * num := Nat.mul_le_mul_right num power
    omega
  have read := @getBlockOptionFromMsg_ok req .block2 option num szx false found short number size (by omega)
  have numEq : (UInt32.ofNat num).toNat = num := UInt32.toNat_ofNat_of_lt' (by rw [UInt32.size]; omega)
  have served : servedSize ⟨.block2, 2 ^ (szx + 4), false, UInt32.ofNat num⟩ = 2 ^ (min szx 4 + 4) := by
    have sizes : ∀ szx < 7, min (2 ^ (szx + 4)) maxPayloadSize = 2 ^ (min szx 4 + 4) := by decide
    rw [servedSize_eq]
    exact sizes szx (by omega)
  have some : UInt16.ofNat content.length ≠ 0 := by
    intro zero
    rw [zero] at totalEq
    have none : content.length = 0 := totalEq.symm
    omega
  simp only [setPayload, if_neg some, Option.map_some, read]
  rw [setPayloadBlock_within (by rw [served, numEq, totalEq]; exact within)]
  simp only [served, numEq, totalEq, Bool.or_false]
  generalize blockSizeEq : 2 ^ (min szx 4 + 4) = blockSize at *
  -- the last block may be shorter
  have sent : ∀ list : List UInt8, list.length = content.length - blockSize * num →
      list.take (min blockSize (content.length - blockSize * num)) = list.take blockSize := by
    intro list length
    rw [← length, ← List.take_take, List.take_length]
  obtain ⟨placed, placedEq, bytes, same⟩ := @placePayload_spec mode content
    (setOptions msg (addBlkOptionToMsg true (removeAllBlockOptionsFromMsg msg.toCoapMessage .block2)
      ⟨.block2, blockSize, decide (blockSize * num + blockSize < content.length), UInt32.ofNat num⟩).options)
    (blockSize * num) (min blockSize (content.length - blockSize * num)) (by omega) (by omega) prepared.buffer
  rw [sent (content.drop (blockSize * num)) (by rw [List.length_drop])] at bytes
  rw [placedEq]
  refine ⟨_, rfl, ?_, ?_, ?_⟩
  · rw [blockSizeEq]
    exact bytes
  · have options := congrArg CoapMessage.options same
    rw [blockSizeEq, ← removeAll_eq prepared.noBlock]
    exact options
  · have others := congrArg (fun message : CoapMessage => { message with options := [] }) same
    exact others

theorem ofNat_length (total : content.length ≤ 65535) : (UInt16.ofNat content.length).toNat = content.length :=
  UInt16.toNat_ofNat_of_lt' (by rw [UInt16.size]; omega)

theorem ofNat_length_ne (positive : 0 < content.length) (total : content.length ≤ 65535) :
    UInt16.ofNat content.length ≠ 0 := by
  intro zero
  have length := ofNat_length total
  rw [zero] at length
  have none : content.length = 0 := length.symm
  omega

/-- The start of a payload that no block is asked of. -/
theorem setPayloadWhole_spec {size : Nat} {options : List Opt} (total : content.length ≤ 65535)
    (sizeEq : (if content.length > maxPayloadSize then maxPayloadSize else content.length) = size)
    (optionsEq : (if content.length > maxPayloadSize then (addBlkOptionToMsg true msg.toCoapMessage
      ⟨.block2, maxPayloadSize, true, 0⟩).options else msg.options) = options) (positive : 0 < size)
    (buffer : mode = .inPlace → msg.location ≠ .null ∧ msg.buffer.take content.length = content) :
    ∃ placed, setPayloadWhole true true msg (mode.source content) (UInt16.ofNat content.length) =
        some (.ok, setPayloadLength placed size) ∧
      placed.buffer.take size = content.take size ∧
      shell placed.toCoapMessage = shell (setOptions msg options).toCoapMessage := by
  have inside : size ≤ content.length := by
    rw [← sizeEq]
    split <;> omega
  obtain ⟨placed, placedEq, bytes, same⟩ :=
    @placePayload_spec mode content (setOptions msg options) 0 size (by omega) positive buffer
  rw [List.drop_zero] at bytes
  simp only [setPayloadWhole, ofNat_length total, sizeEq, optionsEq]
  cases mode with
  | static =>
    simp only [PayloadMode.source] at placedEq ⊢
    rw [placedEq]
    exact ⟨placed, rfl, bytes, same⟩
  | volatile =>
    simp only [PayloadMode.source] at placedEq ⊢
    rw [placedEq]
    exact ⟨placed, rfl, bytes, same⟩
  | inPlace =>
    obtain ⟨_, start⟩ := buffer rfl
    refine ⟨setOptions msg options, rfl, ?_, rfl⟩
    conv_rhs => rw [← start, List.take_take, Nat.min_eq_left inside]
    rfl

/-- A request without the option: the whole payload where it fits, and else the first block of the largest size. -/
theorem setPayload_first (prepared : Prepared mode content msg) (asks : Asks req none)
    (positive : 0 < content.length) (total : content.length ≤ 65535) :
    ∃ reply, setPayload true true (some req) msg (mode.source content) (UInt16.ofNat content.length) =
      some (.ok, reply) ∧
        if content.length ≤ maxPayloadSize then
          reply.payload = content ∧ shell reply.toCoapMessage = shell msg.toCoapMessage
        else IsBlock content 0 4 msg reply := by
  have read : getBlockOptionFromMsg req .block2 = .error .errNotFound := by
    have absent : req.options.find? (fun option => option.number = BlockOptionType.block2.toNat) = none := asks
    rw [getBlockOptionFromMsg, absent]
  simp only [setPayload, if_neg (ofNat_length_ne positive total), Option.map_some, read]
  by_cases small : content.length ≤ maxPayloadSize
  · have fits : ¬ content.length > maxPayloadSize := Nat.not_lt.mpr small
    obtain ⟨placed, result, bytes, same⟩ :=
      @setPayloadWhole_spec mode content msg _ _ total (if_neg fits) (if_neg fits) positive prepared.buffer
    rw [List.take_length] at bytes
    refine ⟨_, result, ?_⟩
    rw [if_pos small]
    exact ⟨bytes, same⟩
  · have exceeds : content.length > maxPayloadSize := Nat.lt_of_not_le small
    obtain ⟨placed, result, bytes, same⟩ :=
      @setPayloadWhole_spec mode content msg _ _ total (if_pos exceeds) (if_pos exceeds) (by decide) prepared.buffer
    refine ⟨_, result, ?_⟩
    rw [if_neg small]
    have more : decide (2 ^ (4 + 4) * 0 + 2 ^ (4 + 4) < content.length) = true := decide_eq_true exceeds
    refine ⟨bytes, ?_, congrArg (fun message : CoapMessage => { message with options := [] }) same⟩
    rw [more]
    exact congrArg CoapMessage.options same

end

/-! ## The exchange -/

/-- What a client reads off the Block2 option of a reply: number, M flag and size exponent. -/
def readBlock (reply : CoapMessage) : Option (Nat × Bool × Nat) :=
  (reply.options.find? fun option => option.number = optBlock2).map fun option =>
    let number := bigEndian option.value
    (number / 16, decide (number / 8 % 2 = 1), number % 8)

/-- The replies to a client that asks for the next block as long as there are more.  `ask` makes the requests and
`respond` the responses to be filled; no result means that the client did not get to the end. -/
def fetch (ask : Nat → Option (Nat × Nat) → CoapMessage) (respond : Nat → PayloadMessage) (mode : PayloadMode)
    (content : List UInt8) : Nat → Nat → Option (Nat × Nat) → Option (List PayloadMessage)
  | 0, _, _ => none
  | requests + 1, turn, asked =>
    match setPayload true true (some (ask turn asked)) (respond turn) (mode.source content)
      (UInt16.ofNat content.length) with
    | none => none
    | some (_, reply) =>
      match readBlock reply.toCoapMessage with
      | some (num, true, szx) =>
        (fetch ask respond mode content requests (turn + 1) (some (num + 1, szx))).map (reply :: ·)
      | _ => some [reply]

/-- An option among others of different numbers is found. -/
theorem find_appended {options : List Opt} {number : Nat} (value : List UInt8)
    (absent : ∀ other ∈ options, other.number ≠ number) :
    (appendOptionToList true options ⟨number, value⟩).2.find? (fun other => other.number = number) =
      some ⟨number, value⟩ := by
  have before : (options.takeWhile fun other => other.number ≤ number).find? (fun other => other.number = number) =
      none := by
    rw [List.find?_eq_none]
    intro other member
    simpa using absent other ((List.takeWhile_sublist _).subset member)
  simp [appendOptionToList, List.find?_append, before]

/-- What is read off an option among others is what the server put into it. -/
theorem readBlock_appended {msg : CoapMessage} {options : List Opt} {num szx : Nat} (moreFlag : Bool)
    (added : msg.options = (appendOptionToList true options ⟨optBlock2, blockOptionBytes
      { type := .block2, blockSize := 2 ^ (szx + 4), blockNum := UInt32.ofNat num, moreFlag }⟩).2)
    (noBlock : ∀ option ∈ options, option.number ≠ optBlock2) (size : szx ≤ 6) (bound : num < 2 ^ 20) :
    readBlock msg = some (num, moreFlag, szx) := by
  have numEq : (UInt32.ofNat num).toNat = num := UInt32.toNat_ofNat_of_lt' (by rw [UInt32.size]; omega)
  rw [readBlock, added, find_appended _ noBlock, Option.map_some]
  simp only
  rw [blockOptionBytes_number size rfl (by rw [numEq]; exact bound)]
  simp only [numEq, Option.some.injEq, Prod.mk.injEq]
  cases moreFlag with
  | true =>
    simp only [if_true, decide_eq_true_eq]
    omega
  | false =>
    simp only [Bool.false_eq_true, if_false, decide_eq_false_iff_not]
    omega

section

variable {content : List UInt8} {num szx : Nat} {msg reply : PayloadMessage}

/-- The client reads off a reply which block it is. -/
theorem IsBlock.read (block : IsBlock content num szx msg reply)
    (noBlock : ∀ option ∈ msg.options, option.number ≠ optBlock2) (size : szx ≤ 6) (bound : num < 2 ^ 20) :
    readBlock reply.toCoapMessage =
      some (num, decide (2 ^ (szx + 4) * num + 2 ^ (szx + 4) < content.length), szx) :=
  readBlock_appended _ block.options noBlock size bound

/-- Two messages that give the same datagram. -/
structure SameOnWire (left right : CoapMessage) : Prop where
  shell : shell left = shell right
  payload : left.payload = right.payload

theorem SameOnWire.datagram {left right : CoapMessage} (same : SameOnWire left right) (destArr : Memory) :
    (coapBuildDatagram destArr left).1 = (coapBuildDatagram destArr right).1 ∧
      (coapBuildDatagram destArr left).2.1 = (coapBuildDatagram destArr right).2.1 := by
  have built : ∀ msg : CoapMessage, (coapBuildDatagram destArr msg).1 =
        (coapBuildDatagram destArr { Server.shell msg with payload := msg.payload }).1 ∧
      (coapBuildDatagram destArr msg).2.1 =
        (coapBuildDatagram destArr { Server.shell msg with payload := msg.payload }).2.1 := by
    intro msg
    by_cases none : msg.code = empty
    · rw [coapBuildDatagram, coapBuildDatagram, if_pos none, if_pos (by exact none)]
      exact ⟨rfl, rfl⟩
    · rw [coapBuildDatagram, coapBuildDatagram, if_neg none, if_neg (by exact none)]
      exact ⟨rfl, rfl⟩
  rw [(built left).1, (built left).2, same.shell, same.payload, ← (built right).1, ← (built right).2]
  exact ⟨rfl, rfl⟩

/-- The same block in responses that are the same apart from it. -/
theorem IsBlock.sameOnWire {other otherReply : PayloadMessage} (block : IsBlock content num szx msg reply)
    (otherBlock : IsBlock content num szx other otherReply)
    (same : Server.shell msg.toCoapMessage = Server.shell other.toCoapMessage) :
    SameOnWire reply.toCoapMessage otherReply.toCoapMessage := by
  have options : msg.options = other.options := (congrArg CoapMessage.options same :)
  have rest : Server.shell { msg.toCoapMessage with options := [] } =
      Server.shell { other.toCoapMessage with options := [] } :=
    congrArg (fun message : CoapMessage => { message with options := [] }) same
  refine ⟨?_, block.payload.trans otherBlock.payload.symm⟩
  have replyOptions : reply.options = otherReply.options := by rw [block.options, otherBlock.options, options]
  have replyRest := block.shell_eq.trans (rest.trans otherBlock.shell_eq.symm)
  have split : ∀ message : CoapMessage, Server.shell message =
      { Server.shell { message with options := [] } with options := message.options } := fun _ => rfl
  rw [split, replyRest, replyOptions, ← split]

end


/-! ## The whole payload -/

section

variable {ask : Nat → Option (Nat × Nat) → CoapMessage} {content : List UInt8}

/-- The client's requests carry what it asks for. -/
structure Asking (ask : Nat → Option (Nat × Nat) → CoapMessage) : Prop where
  first : ∀ turn, Asks (ask turn none) none
  block : ∀ turn num szx, num < 2 ^ 20 → szx ≤ 6 → Asks (ask turn (some (num, szx))) (some (num, szx))

/-- From a block on: the rest of the payload, in the same replies for both modes. -/
theorem fetch_blocks (asking : Asking ask) (total : content.length ≤ 65535) {left right : PayloadMode}
    {leftRespond rightRespond : Nat → PayloadMessage} (leftPrepared : ∀ turn, Prepared left content (leftRespond turn))
    (rightPrepared : ∀ turn, Prepared right content (rightRespond turn))
    (same : ∀ turn, shell (leftRespond turn).toCoapMessage = shell (rightRespond turn).toCoapMessage)
    (requests turn num : Nat) {szx : Nat} (size : szx ≤ 6)
    (within : 2 ^ (min szx 4 + 4) * num < content.length)
    (enough : content.length ≤ 2 ^ (min szx 4 + 4) * num + requests) :
    ∃ leftReplies rightReplies,
      fetch ask leftRespond left content requests turn (some (num, szx)) = some leftReplies ∧
      fetch ask rightRespond right content requests turn (some (num, szx)) = some rightReplies ∧
      (leftReplies.map (·.payload)).flatten = content.drop (2 ^ (min szx 4 + 4) * num) ∧
      List.Forall₂ (fun reply other => SameOnWire reply.toCoapMessage other.toCoapMessage)
        leftReplies rightReplies := by
  -- induction on the requests that are left
  induction requests generalizing turn num szx with
  | zero => omega
  | succ requests inductionHypothesis =>
    have power : 16 ≤ 2 ^ (min szx 4 + 4) := by
      calc 16 = 2 ^ 4 := rfl
        _ ≤ 2 ^ (min szx 4 + 4) := Nat.pow_le_pow_right (by omega) (by omega)
    have numBound : num < 65536 := by
      have product : 1 * num ≤ 2 ^ (min szx 4 + 4) * num := Nat.mul_le_mul_right num (by omega)
      omega
    have asks := asking.block turn num szx (by omega) size
    obtain ⟨leftReply, leftResult, leftBlock⟩ := setPayload_block (leftPrepared turn) asks size total within
    obtain ⟨rightReply, rightResult, rightBlock⟩ := setPayload_block (rightPrepared turn) asks size total within
    have leftRead := leftBlock.read (leftPrepared turn).noBlock (by omega) (by omega)
    have rightRead := rightBlock.read (rightPrepared turn).noBlock (by omega) (by omega)
    have wire := leftBlock.sameOnWire rightBlock (same turn)
    simp only [fetch, leftResult, rightResult, leftRead, rightRead]
    by_cases more : 2 ^ (min szx 4 + 4) * num + 2 ^ (min szx 4 + 4) < content.length
    · -- the next number, with the size of the reply
      have next : 2 ^ (min szx 4 + 4) * (num + 1) = 2 ^ (min szx 4 + 4) * num + 2 ^ (min szx 4 + 4) :=
        Nat.mul_succ ..
      have smaller : min (min szx 4) 4 = min szx 4 := by omega
      obtain ⟨leftRest, rightRest, leftFetched, rightFetched, whole, alike⟩ :=
        @inductionHypothesis (turn + 1) (num + 1) (min szx 4) (by omega) (by rw [smaller, next]; exact more)
          (by rw [smaller, next]; omega)
      refine ⟨leftReply :: leftRest, rightReply :: rightRest, ?_, ?_, ?_, .cons wire alike⟩
      · simp only [more, decide_true, leftFetched, Option.map_some]
      · simp only [more, decide_true, rightFetched, Option.map_some]
      · rw [List.map_cons, List.flatten_cons, whole, smaller, next, leftBlock.payload, ← List.drop_drop]
        exact List.take_append_drop ..
    · refine ⟨[leftReply], [rightReply], ?_, ?_, ?_, .cons wire .nil⟩
      · simp only [more, decide_false]
      · simp only [more, decide_false]
      · rw [List.map_cons, List.map_nil, List.flatten_cons, List.flatten_nil, List.append_nil, leftBlock.payload]
        apply List.take_of_length_le
        rw [List.length_drop]
        omega

/-- The exchange in two modes, from the first request on. -/
theorem fetch_whole (asking : Asking ask) (positive : 0 < content.length) (total : content.length ≤ 65535)
    {left right : PayloadMode} {leftRespond rightRespond : Nat → PayloadMessage}
    (leftPrepared : ∀ turn, Prepared left content (leftRespond turn))
    (rightPrepared : ∀ turn, Prepared right content (rightRespond turn))
    (same : ∀ turn, shell (leftRespond turn).toCoapMessage = shell (rightRespond turn).toCoapMessage)
    (asked : Option (Nat × Nat)) (first : asked = none ∨ ∃ szx, szx ≤ 6 ∧ asked = some (0, szx)) (requests : Nat)
    (enough : content.length ≤ requests) :
    ∃ leftReplies rightReplies,
      fetch ask leftRespond left content requests 0 asked = some leftReplies ∧
      fetch ask rightRespond right content requests 0 asked = some rightReplies ∧
      (leftReplies.map (·.payload)).flatten = content ∧
      List.Forall₂ (fun reply other => SameOnWire reply.toCoapMessage other.toCoapMessage)
        leftReplies rightReplies := by
  rcases first with rfl | ⟨szx, size, rfl⟩
  · obtain ⟨leftReply, leftResult, leftKind⟩ := setPayload_first (leftPrepared 0) (asking.first 0) positive total
    obtain ⟨rightReply, rightResult, rightKind⟩ := setPayload_first (rightPrepared 0) (asking.first 0) positive total
    cases requests with
    | zero => omega
    | succ requests =>
      simp only [fetch, leftResult, rightResult]
      by_cases small : content.length ≤ maxPayloadSize
      · rw [if_pos small] at leftKind rightKind
        -- no Block2 option in the response, none in the reply
        have unread : ∀ {msg reply : PayloadMessage}, (∀ option ∈ msg.options, option.number ≠ optBlock2) →
            shell reply.toCoapMessage = shell msg.toCoapMessage → readBlock reply.toCoapMessage = none := by
          intro msg reply noBlock kept
          have options : reply.options = msg.options := (congrArg CoapMessage.options kept :)
          rw [readBlock, options, Option.map_eq_none_iff, List.find?_eq_none]
          intro option member
          simpa using noBlock option member
        rw [unread (leftPrepared 0).noBlock leftKind.2, unread (rightPrepared 0).noBlock rightKind.2]
        refine ⟨[leftReply], [rightReply], rfl, rfl, by simp [leftKind.1], .cons ⟨?_, ?_⟩ .nil⟩
        · rw [leftKind.2, rightKind.2, same 0]
        · rw [leftKind.1, rightKind.1]
      · rw [if_neg small] at leftKind rightKind
        rw [maxPayloadSize] at small
        have more : decide (2 ^ (4 + 4) * 0 + 2 ^ (4 + 4) < content.length) = true := decide_eq_true (by omega)
        have leftRead := leftKind.read (leftPrepared 0).noBlock (by omega) (by omega)
        have rightRead := rightKind.read (rightPrepared 0).noBlock (by omega) (by omega)
        rw [more] at leftRead rightRead
        obtain ⟨leftRest, rightRest, leftFetched, rightFetched, whole, alike⟩ :=
          @fetch_blocks ask content asking total left right leftRespond rightRespond leftPrepared rightPrepared same
            requests 1 1 4 (by omega) (by simp; omega) (by simp; omega)
        simp only [leftRead, rightRead, leftFetched, rightFetched, Option.map_some]
        refine ⟨leftReply :: leftRest, rightReply :: rightRest, rfl, rfl, ?_,
          .cons (leftKind.sameOnWire rightKind (same 0)) alike⟩
        rw [List.map_cons, List.flatten_cons, whole, leftKind.payload, Nat.mul_zero, List.drop_zero]
        exact List.take_append_drop ..
  · have fetched := fetch_blocks asking total leftPrepared rightPrepared same requests 0 0 size
      (by rw [Nat.mul_zero]; exact positive) (by omega)
    rw [Nat.mul_zero, List.drop_zero] at fetched
    exact fetched

/-- A client that asks for the whole payload or for its first block, and then for the next block as long as there are
more, has the payload after at most as many requests as it has bytes, and in all three modes it gets the same
datagrams. -/
theorem fetch_complete (ask : Nat → Option (Nat × Nat) → CoapMessage) (asking : Asking ask) (content : List UInt8)
    (positive : 0 < content.length) (total : content.length ≤ 65535) (respond : PayloadMode → Nat → PayloadMessage)
    (prepared : ∀ mode turn, Prepared mode content (respond mode turn))
    (same : ∀ mode other turn, shell (respond mode turn).toCoapMessage = shell (respond other turn).toCoapMessage)
    (asked : Option (Nat × Nat)) (first : asked = none ∨ ∃ szx, szx ≤ 6 ∧ asked = some (0, szx)) :
    ∃ replies : PayloadMode → List PayloadMessage,
      (∀ mode, fetch ask (respond mode) mode content content.length 0 asked = some (replies mode) ∧
        ((replies mode).map (·.payload)).flatten = content) ∧
      ∀ mode other, List.Forall₂ (fun reply otherReply : PayloadMessage => ∀ destArr,
        (coapBuildDatagram destArr reply.toCoapMessage).1 = (coapBuildDatagram destArr otherReply.toCoapMessage).1 ∧
          (coapBuildDatagram destArr reply.toCoapMessage).2.1 =
            (coapBuildDatagram destArr otherReply.toCoapMessage).2.1) (replies mode) (replies other) := by
  have pair := fun left right => fetch_whole asking positive total (prepared left) (prepared right) (same left right)
    asked first content.length (Nat.le_refl _)
  refine ⟨fun mode => (fetch ask (respond mode) mode content content.length 0 asked).getD [], ?_, ?_⟩
  · intro mode
    obtain ⟨replies, _, fetched, _, whole, _⟩ := pair mode mode
    simp only [fetched, Option.getD_some]
    exact ⟨trivial, whole⟩
  · intro mode other
    obtain ⟨replies, otherReplies, fetched, otherFetched, _, alike⟩ := pair mode other
    simp only [fetched, otherFetched, Option.getD_some]
    exact alike.imp fun _ _ wire destArr => wire.datagram destArr

end

/-- A GET with the number of the block in three bytes. -/
def blockRequest (asked : Option (Nat × Nat)) : CoapMessage :=
  { coapInitToEmptyResetMsg with
    type := .con
    code := reqGet
    options := asked.toList.map fun (num, szx) =>
      let number := num * 16 + szx
      ⟨optBlock2, [UInt8.ofNat (number / 65536), UInt8.ofNat (number / 256), UInt8.ofNat number]⟩ }

theorem asking_blockRequest : Asking fun _ => blockRequest where
  first _ := rfl
  block _ num szx bound size := by
    refine ⟨⟨optBlock2, _⟩, rfl, by simp, ?_⟩
    simp only [bigEndian, List.foldl_cons, List.foldl_nil, UInt8.toNat_ofNat']
    omega

/-- Three bytes, in the smallest blocks. -/
theorem fetch_complete_three : ∃ replies : PayloadMode → List PayloadMessage, ∀ mode,
    ((replies mode).map (·.payload)).flatten = [1, 2, 3] := by
  obtain ⟨msg, msgEq⟩ : ∃ msg : PayloadMessage, msg = { coapInitToEmptyResetMsg with
    payloadBufSize := 3, location := .message, buffer := [1, 2, 3], writable := fun _ => .inl rfl } := ⟨_, rfl⟩
  have prepared : ∀ mode, Prepared mode [1, 2, 3] msg := by
    intro mode
    rw [msgEq]
    exact ⟨nofun, fun _ => ⟨nofun, rfl⟩⟩
  obtain ⟨replies, whole, _⟩ := fetch_complete (fun _ => blockRequest) asking_blockRequest [1, 2, 3] (by decide)
    (by decide) (fun _ _ => msg) (fun mode _ => prepared mode) (fun _ _ _ => rfl) (some (0, 0))
    (.inr ⟨0, by decide, rfl⟩)
  exact ⟨replies, fun mode => (whole mode).2⟩

end SmingCoap.Server
