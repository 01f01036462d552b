import SmingCoap.Client.AddOptionSoundness

/-! # The PDU of a request

`builPDU` sets up a header with a token, adds the options of the URI and the
content format, and appends the payload.  `Drafts` is what holds in between:
the PDU is the encoding of a message without payload, with a list of options
that grows by one for each call of `addOption`.  A value of 269 bytes and more
loses its tail on the way (`storedValue`), so the options of the PDU agree with
those that were asked for in number and length only.
-/

namespace SmingCoap

open Wire (Memory Opt)

namespace CoapPDU

/-! ## Header and token -/

theorem setVersion_new (block : Nat) (memory : Memory) : (new block memory).setVersion 1 = new block memory := by
  have first : (new block memory).pdu 0 = 0x40 := by
    have cleared : memory.copy 0 [0, 0, 0, 0] 0 = 0 := by simp [Memory.copy]
    simp only [new, setVersion_one, Memory.store_same, cleared]
    rfl
  have same : (new block memory).pdu.store 0 ((0x40 &&& (0x3F : UInt8)) ||| (0x40 : UInt8)) =
      (new block memory).pdu := by
    funext i
    by_cases zero : i = 0
    · rw [zero, Memory.store_same, first]
      rfl
    · exact Memory.store_other _ _ zero
  rw [setVersion_one, first, same]

/-- A first token on a PDU of its own. -/
theorem setToken_spec {this : CoapPDU} (memory : Realloc) {token : List UInt8}
    (represents : this.Represents []) (bare : this.getTokenLength = 0)
    (dynamic : this.constructedFromBuffer = false) (filled : token ≠ []) (size : token.length ≤ 8) :
    ∃ next, this.setToken (some memory) token = (0, next) ∧ next.Represents [] ∧
      next.constructedFromBuffer = false ∧ next.pdu.Holds 4 token ∧
      next.pdu 0 = (this.pdu 0 &&& (0xF0 : UInt8)) ||| UInt8.ofNat token.length ∧
      ∀ i, 0 < i → i < 4 → next.pdu i = this.pdu i := by
  have lengthEq : this.pduLength = 4 := by
    rw [represents.length_eq, bare]
    rfl
  have nonempty := List.length_pos_iff.mpr filled
  -- the PDU ends behind the header, so there is nothing to move
  have old : this.pduLength % 256 = 4 := by omega
  have new : this.pduLength - 0 + token.length = 4 + token.length := by omega
  have amount : (((4 + token.length : Nat) : Int) - token.length - hdrSize).toNat = 0 := by
    rw [hdrSize]
    omega
  obtain ⟨reserved, reservedEq⟩ : ∃ reserved, this.reserve (some memory) (4 + token.length) = some reserved := by
    rw [reserve, if_pos dynamic]
    exact ⟨_, rfl⟩
  obtain ⟨_, facts, _, kept⟩ := reserve_spec represents.owned reservedEq
  obtain ⟨next, nextEq⟩ : ∃ next,
    next = ({ reserved with pdu := reserved.pdu.copy 4 token }.setTokenLength token.length).2 := ⟨_, rfl⟩
  have result : this.setToken (some memory) token = (0, next) := by
    rw [setToken, if_neg (by omega), bare, if_neg (by omega)]
    simp only [old, new, reservedEq, shiftPDUUp, amount, shiftUpLoop]
    rw [if_pos (by omega), nextEq]
  have nextPdu : next.pdu = (reserved.pdu.copy 4 token).store 0
      ((reserved.pdu.copy 4 token 0 &&& (0xF0 : UInt8)) ||| UInt8.ofNat token.length) := by
    rw [nextEq, setTokenLength, if_neg (by omega)]
  have first : reserved.pdu.copy 4 token 0 = this.pdu 0 := by
    rw [Memory.copy_outside _ (by omega), kept 0 (by omega) (by omega)]
  refine ⟨next, result, (setToken_represents represents (by omega) size result).1, ?_, ?_, ?_, ?_⟩
  · rw [nextEq, setTokenLength, if_neg (by omega)]
    exact facts.constructedFromBuffer.trans dynamic
  · rw [nextPdu]
    apply (Memory.copy_holds reserved.pdu 4 token).congr
    intro i behind _
    exact Memory.store_other _ _ (by omega)
  · rw [nextPdu, Memory.store_same, first]
  · intro i behind inside
    rw [nextPdu, Memory.store_other _ _ (by omega), Memory.copy_outside _ (by omega),
      kept i (by omega) (by omega)]

/-- The PDU has `message` in it, apart from the payload that is still to come. -/
structure Drafts (this : CoapPDU) (message : Wire.Message) : Prop where
  represents : this.Represents message.options
  dynamic : this.constructedFromBuffer = false
  head : this.pdu.Holds 0 (message.header ++ message.token)
  tokenLength : this.getTokenLength = message.token.length

/-- The token `builPDU` gives every request. -/
def requestToken : List UInt8 := [3, 2, 1, 1]

/-- The message a request is. -/
def requestMessage (messageID : UInt16) (connType : MessageType) (method : UInt8) (options : List Opt)
    (payload : List UInt8) : Wire.Message where
  type := connType.toByte.toNat / 16
  code := method
  messageID := messageID.toNat
  token := requestToken
  options := options
  payload := payload

theorem firstByte_setType (connType : MessageType) :
    (((0x40 : UInt8) &&& (0xCF : UInt8)) ||| connType.toByte) &&& (0xF0 : UInt8) ||| UInt8.ofNat 4 =
      UInt8.ofNat (64 + connType.toByte.toNat / 16 * 16 + 4) := by
  cases connType <;> decide

theorem header_drafts (block : Nat) (memory : Memory) (grant : Realloc) (messageID : UInt16)
    (connType : MessageType) (method : UInt8) :
    let pdu := (((new block memory).setVersion 1).setType connType).setCode method
    ((pdu.setToken (some grant) [3, 2, 1, 1]).2.setMessageID messageID.toNat).Drafts
      (requestMessage messageID connType method [] []) := by
  simp only [setVersion_new]
  obtain ⟨start, startEq⟩ : ∃ start, start = ((new block memory).setType connType).setCode method := ⟨_, rfl⟩
  have fresh : Fresh start := startEq ▸ .setCode method (.setType connType (.new block memory))
  have cleared : memory.copy 0 [0, 0, 0, 0] 0 = 0 := by simp [Memory.copy]
  -- the first byte before the token length is set
  have first : start.pdu 0 = ((0x40 : UInt8) &&& (0xCF : UInt8)) ||| connType.toByte := by
    rw [startEq, setCode, setType]
    simp only
    rw [Memory.store_other _ _ (by decide), Memory.store_same]
    simp only [new, setVersion_one, Memory.store_same, cleared]
    rfl
  have second : start.pdu 1 = method := by
    simp only [startEq, setCode, Memory.store_same]
  have bare : start.getTokenLength = 0 := by
    rw [getTokenLength, first]
    cases connType <;> rfl
  have dynamic : start.constructedFromBuffer = false := by
    rw [startEq, new, setVersion_one]
    rfl
  obtain ⟨next, nextEq, represents, nextDynamic, token, header, kept⟩ := setToken_spec grant fresh.represents.1 bare
    dynamic (List.cons_ne_nil 3 [2, 1, 1]) (by decide)
  rw [← startEq, nextEq]
  -- the message id is written over two bytes and nothing else
  have frame : ∀ i, i < 2 ∨ 4 ≤ i → (next.setMessageID messageID.toNat).pdu i = next.pdu i := by
    intro i outside
    exact Memory.copy_outside _ (by simpa [endianStore16] using outside)
  have tokenLength : (next.setMessageID messageID.toNat).getTokenLength = 4 := by
    rw [getTokenLength, frame 0 (by decide), header, first]
    cases connType <;> rfl
  have lengthEq : next.getTokenLength = 4 := by
    rw [getTokenLength, header, first]
    cases connType <;> rfl
  have id := Memory.copy_holds next.pdu 2 (endianStore16 messageID.toNat)
  refine ⟨represents_nil represents.owned ?_ represents.numOptions_eq represents.maximum
    represents.noPointer represents.noPayload, nextDynamic, ?_, tokenLength⟩
  · have size := represents.length_eq
    rw [lengthEq] at size
    rw [tokenLength]
    exact size
  · simp only [requestMessage, requestToken, Wire.Message.header, List.cons_append, List.nil_append,
      Memory.holds_cons, List.length_cons, List.length_nil, Nat.zero_add, Nat.reduceAdd]
    simp only [endianStore16, Memory.holds_cons, Memory.holds_nil, and_true, Nat.reduceAdd] at id token
    refine ⟨?_, ?_, id.1, id.2, ?_, ?_, ?_, ?_, Memory.holds_nil ..⟩
    · rw [frame 0 (by decide), header, first]
      exact firstByte_setType connType
    · rw [frame 1 (by decide), kept 1 (by decide) (by decide), second]
    · rw [frame 4 (by decide), token.1]
    · rw [frame 5 (by decide), token.2.1]
    · rw [frame 6 (by decide), token.2.2.1]
    · rw [frame 7 (by decide), token.2.2.2]

/-! ## Options -/

/-- With memory granted a PDU of its own takes every option. -/
theorem addOption_dynamic {this : CoapPDU} (dynamic : this.constructedFromBuffer = false) (grant : Realloc)
    (number length : Nat) (value : List UInt8) :
    ∃ next, this.addOption (some grant) number length value = (0, next) ∧
      next.constructedFromBuffer = false := by
  have noted : ∀ position, (this.noteMaximum position number).constructedFromBuffer = false := by
    intro position
    rw [noteMaximum]
    split
    · exact dynamic
    · exact dynamic
  -- a dynamic buffer grows to any length
  have opened : ∀ position previous optionLength, ∃ gap,
      (this.noteMaximum position number).openGap (some grant) number position previous optionLength =
        some gap ∧ gap.constructedFromBuffer = false := by
    intro position previous optionLength
    simp only [openGap, reserve, if_pos (noted position)]
    split
    · exact ⟨_, rfl, noted position⟩
    · refine ⟨_, rfl, ?_⟩
      rw [setOptionDelta_eq, shiftPDUUp_eq]
      exact noted position
  cases place : this.findInsertionPosition number with
  | mk position previous =>
    obtain ⟨gap, gapEq, gapDynamic⟩ := opened position previous ((optionHdrByte +
      computeExtraBytes ((number + 65536 - previous) % 65536) + computeExtraBytes length + length) % 65536)
    rw [addOption, place]
    simp only [gapEq]
    refine ⟨_, rfl, ?_⟩
    simp only
    rw [insertOption_constructedFromBuffer]
    exact gapDynamic

/-- Bytes behind the stated length are never read. -/
theorem addOption_take (this : CoapPDU) (grant : Option Realloc) (number length : Nat) (value : List UInt8) :
    this.addOption grant number length value = this.addOption grant number length (value.take length) := by
  have inserted : ∀ (pdu : CoapPDU) headerStart delta,
      pdu.insertOption headerStart delta length value =
        pdu.insertOption headerStart delta length (value.take length) := by
    intro pdu headerStart delta
    obtain ⟨deltaEnd, _⟩ := storeDelta_spec
      (pdu.pdu.store headerStart (pdu.pdu headerStart &&& (0x00 : UInt8))) headerStart delta
    obtain ⟨_, copied, _⟩ := storeLength_spec
      (storeDelta (pdu.pdu.store headerStart (pdu.pdu headerStart &&& (0x00 : UInt8))) headerStart delta).1
      length (Nat.le_add_right headerStart (Wire.extra delta))
    simp only [insertOption, deltaEnd, copied, List.take_take, Nat.min_eq_left (copiedLength_le length)]
  simp only [addOption, inserted]

section Options

variable {messageID : UInt16} {connType : MessageType} {method : UInt8}

/-- One more option, its value of the length that was asked for. -/
theorem addOption_drafts {this : CoapPDU} {options : List Opt}
    (drafts : this.Drafts (requestMessage messageID connType method options [])) {number : Nat}
    (bound : number ≤ 65535) {value : List UInt8} (short : value.length ≤ 1034) (grant : Realloc) :
    ∃ next stored, this.addOption (some grant) number value.length value = (0, next) ∧
      stored.length = value.length ∧
      next.Drafts (requestMessage messageID connType method
        (Wire.insertBehind Opt.number ⟨number, stored⟩ options) []) := by
  obtain ⟨next, success, dynamic⟩ := addOption_dynamic drafts.dynamic grant number value.length value
  have fits : this.TotalLengthFits number value := by
    have deltaExtra := Wire.extra_le ((number + 65536 - (this.findInsertionPosition number).2) % 65536)
    have lengthExtra := Wire.extra_le value.length
    rw [TotalLengthFits, computeExtraBytes_eq, computeExtraBytes_eq, optionHdrByte]
    omega
  obtain ⟨stored, represents, frame, size, _⟩ := addOption_spec drafts.represents bound fits success
  refine ⟨next, stored, success, size, represents, dynamic, ?_, ?_⟩
  · apply drafts.head.congr
    intro i _ inside
    apply frame
    rw [drafts.tokenLength]
    rw [List.length_append, Nat.zero_add] at inside
    exact inside
  · refine Eq.trans ?_ drafts.tokenLength
    apply getTokenLength_congr
    rw [frame 0 (by omega)]

/-- What `setURI` hands to `addOption` one after the other; a 16 bit parameter takes the length. -/
def uriSegments : Nat → UInt8 → Nat → List UInt8 → List Opt
  | 0, _, _, _ => []
  | fuel + 1, splitChar, optionType, startP =>
    if startP.headD 0 = 0 ∨ startP.tail.headD 0 = 0 then []
    else
      let (startP, endP, queryStageTriggered) := nextSegment splitChar startP
      let oLen := startP.length - endP.length
      ⟨optionType, (startP.take oLen).take (oLen % 65536)⟩ ::
        if queryStageTriggered then uriSegments fuel 0x26 optionUriQuery endP.tail
        else uriSegments fuel splitChar optionType endP

/-- The options of a URI. -/
def uriOptions (uri : List UInt8) : List Opt :=
  if uri.length = 0 then []
  else if uri.length = 1 then [⟨optionUriPath, uri⟩]
  else uriSegments uri.length 0x2F optionUriPath uri

/-- The value of the content format option. -/
def contentFormatValue (format : Nat) : List UInt8 :=
  if format = contentFormatTextPlain then []
  else if format = contentFormatAppJson ∨ format = contentFormatAppExi ∨
      format = contentFormatAppXml ∨ format = contentFormatAppOctet ∨
      format = contentFormatAppLink then [UInt8.ofNat format]
  else if format % 65536 ≤ 0xFF then [UInt8.ofNat format]
  else endianStore16 format

theorem setContentFormat_eq (this : CoapPDU) (grant : Option Realloc) (format : Nat) :
    this.setContentFormat grant format =
      this.addOption grant optionContentFormat (contentFormatValue format).length
        (contentFormatValue format) := by
  rw [setContentFormat, contentFormatValue]
  split
  · rfl
  · split
    · rfl
    · split <;> rfl

/-- The PDU is the request with some list of options, none longer than the server's limit. -/
def Composes (messageID : UInt16) (connType : MessageType) (method : UInt8) (this : CoapPDU)
    (options : List Opt) : Prop :=
  this.Drafts (requestMessage messageID connType method options []) ∧
    ∀ option ∈ options, option.value.length ≤ 1034

theorem Composes.addOption {this : CoapPDU} {options : List Opt}
    (composes : Composes messageID connType method this options) {number : Nat} (bound : number ≤ 65535)
    {value : List UInt8} (short : value.length ≤ 1034) {grant : Option Realloc} (granted : grant ≠ none) :
    ∃ next longer, this.addOption grant number value.length value = (0, next) ∧ longer ≠ [] ∧
      Composes messageID connType method next longer := by
  cases grant with
  | none => exact absurd rfl granted
  | some grant =>
    obtain ⟨next, stored, success, size, drafts⟩ := addOption_drafts composes.1 bound short grant
    refine ⟨next, _, success, ?_, drafts, ?_⟩
    · intro none
      have count := Wire.length_insertBehind Opt.number ⟨number, stored⟩ options
      rw [none] at count
      cases count
    · intro option member
      rcases (Wire.mem_insertBehind Opt.number).mp member with new | old
      · rw [new, size]
        exact short
      · exact composes.2 option old

/-- The loop of `setURI` goes through all segments; induction on its turns. -/
theorem Composes.setURILoop (fuel : Nat) {this : CoapPDU} {options : List Opt} {heap : Heap}
    {splitChar : UInt8} {optionType : Nat} {startP : List UInt8}
    (composes : Composes messageID connType method this options) (bound : optionType ≤ 65535)
    (short : ∀ option ∈ uriSegments fuel splitChar optionType startP, option.value.length ≤ 1034)
    (granted : ∀ i, heap i ≠ none) :
    ∃ next longer rest, setURILoop fuel this heap splitChar optionType startP = (0, next, rest) ∧
      Composes messageID connType method next longer ∧ ∀ i, rest i ≠ none := by
  induction fuel generalizing this options heap splitChar optionType startP with
  | zero => exact ⟨this, options, heap, rfl, composes, granted⟩
  | succ fuel inductionHypothesis =>
    rw [CoapPDU.setURILoop]
    rw [uriSegments] at short
    split
    next => exact ⟨this, options, heap, rfl, composes, granted⟩
    next goesOn =>
      rw [if_neg goesOn] at short
      simp only [List.forall_mem_cons] at short ⊢
      obtain ⟨⟨segment, endP, query⟩, cut⟩ : ∃ cut, nextSegment splitChar startP = cut := ⟨_, rfl⟩
      simp only [cut] at short ⊢
      obtain ⟨first, others⟩ := short
      -- the piece as `addOption` is given it, its length cut to 16 bits
      have size : ((segment.take (segment.length - endP.length)).take
          ((segment.length - endP.length) % 65536)).length = (segment.length - endP.length) % 65536 := by
        rw [List.length_take, List.length_take]
        have small := Nat.mod_le (segment.length - endP.length) 65536
        omega
      obtain ⟨next, longer, success, _, nextComposes⟩ := composes.addOption bound first (granted 0)
      rw [size, ← addOption_take] at success
      rw [Heap.next, success]
      simp only [ne_eq, not_true_eq_false, if_false]
      have rest : ∀ i, heap.rest i ≠ none := fun i => granted (i + 1)
      -- behind a question mark the rest is split at ampersands
      split
      next queries =>
        rw [if_pos queries] at others
        exact inductionHypothesis nextComposes (by decide) others rest
      next path =>
        rw [if_neg path] at others
        exact inductionHypothesis nextComposes bound others rest

theorem Composes.setURI {this : CoapPDU} {options : List Opt} {heap : Heap} {uri : List UInt8}
    (composes : Composes messageID connType method this options)
    (short : ∀ option ∈ uriOptions uri, option.value.length ≤ 1034) (granted : ∀ i, heap i ≠ none) :
    ∃ result next longer rest, this.setURI heap uri = (result, next, rest) ∧
      Composes messageID connType method next longer ∧ ∀ i, rest i ≠ none := by
  rw [CoapPDU.setURI]
  rw [uriOptions] at short
  split
  next => exact ⟨1, this, options, heap, rfl, composes, granted⟩
  next filled =>
    rw [if_neg filled] at short
    split
    next single =>
      rw [if_pos single] at short
      obtain ⟨next, longer, success, _, nextComposes⟩ := composes.addOption (show optionUriPath ≤ 65535 by decide)
        (short _ (List.mem_singleton_self _)) (granted 0)
      rw [single] at success
      rw [Heap.next, success]
      exact ⟨0, next, longer, heap.rest, rfl, nextComposes, fun i => granted (i + 1)⟩
    next several =>
      rw [if_neg several] at short
      obtain ⟨next, longer, rest, result, nextComposes, restGranted⟩ :=
        composes.setURILoop uri.length (by decide) short granted
      exact ⟨0, next, longer, rest, result, nextComposes, restGranted⟩

theorem length_contentFormatValue (format : Nat) : (contentFormatValue format).length ≤ 2 := by
  rw [contentFormatValue]
  split
  · exact Nat.zero_le 2
  · split
    · exact Nat.le_succ 1
    · split
      · exact Nat.le_succ 1
      · exact Nat.le_refl 2

/-! ## The payload -/

/-- The PDU is the whole message. -/
structure Carries (this : CoapPDU) (message : Wire.Message) : Prop where
  holds : this.pdu.Holds 0 message.encode
  length_eq : this.pduLength = message.encode.length
  numOptions_eq : this.numOptions = message.options.length
  payload_eq : this.getPayload = message.payload

theorem Drafts.carries {this : CoapPDU} {options : List Opt}
    (drafts : this.Drafts (requestMessage messageID connType method options [])) :
    this.Carries (requestMessage messageID connType method options []) := by
  have represents := drafts.represents
  have head := drafts.head
  have options_hold := represents.holds
  rw [drafts.tokenLength] at options_hold
  refine ⟨?_, ?_, represents.numOptions_eq, ?_⟩
  · rw [Wire.Message.encode, ← List.append_assoc]
    refine Memory.holds_append.mpr ⟨head, ?_⟩
    rw [List.length_append, Nat.zero_add]
    exact Memory.holds_append.mpr ⟨options_hold, Memory.holds_nil ..⟩
  · rw [represents.length_eq, drafts.tokenLength, Wire.Message.length_encode]
    rfl
  · rw [getPayload, represents.noPointer]
    rfl

/-- The payload goes behind a marker at the end of the PDU. -/
theorem Drafts.setPayload {this : CoapPDU} {options : List Opt}
    (drafts : this.Drafts (requestMessage messageID connType method options [])) (grant : Realloc)
    {payload : List UInt8} (filled : payload ≠ []) :
    (this.setPayload (some grant) payload).2.Carries
      (requestMessage messageID connType method options payload) := by
  have carries := drafts.carries
  have represents := drafts.represents
  have nonempty := List.length_pos_iff.mpr filled
  have noPayload := represents.noPayload
  have encoded : (requestMessage messageID connType method options payload).encode =
      (requestMessage messageID connType method options []).encode ++ 0xFF :: payload := by
    simp only [Wire.Message.encode, requestMessage, Wire.Message.header, Wire.payloadSection_of_ne filled,
      Wire.payloadSection_nil, List.append_nil, List.append_assoc]
  obtain ⟨length, lengthEq⟩ : ∃ length, length = this.pduLength := ⟨_, rfl⟩
  have before := carries.length_eq
  rw [← lengthEq] at before
  have newLength : ((length : Int) + payload.length + (1 : Nat)).toNat = length + (payload.length + 1) := by
    omega
  obtain ⟨reserved, reservedEq⟩ : ∃ reserved,
      this.reserve (some grant) (length + (payload.length + 1)) = some reserved := by
    rw [reserve, if_pos drafts.dynamic]
    exact ⟨_, rfl⟩
  obtain ⟨reservedLength, facts, _, kept⟩ := reserve_spec represents.owned reservedEq
  have result : (this.setPayload (some grant) payload).2 = { reserved with
      pdu := (reserved.pdu.store length 0xFF).copy (length + 1) payload
      payloadPointer := some ⟨reserved.block, length + 1⟩
      payloadLength := payload.length } := by
    simp only [CoapPDU.setPayload, mallocPayload, noPayload, if_neg (Nat.ne_of_gt nonempty), ne_eq,
      not_true_eq_false, if_false, newLength, reservedEq, represents.noPointer, ← lengthEq, if_true]
  -- the marker first, and the copy begins behind it
  have written : ((reserved.pdu.store length 0xFF).copy (length + 1) payload).Holds length (0xFF :: payload) := by
    refine Memory.holds_cons.mpr ⟨?_, Memory.copy_holds ..⟩
    rw [Memory.copy_outside _ (by omega), Memory.store_same]
  rw [result]
  refine ⟨?_, ?_, ?_, ?_⟩
  · rw [encoded]
    refine Memory.holds_append.mpr ⟨?_, ?_⟩
    · apply carries.holds.congr
      intro i _ inside
      simp only
      rw [Memory.copy_outside _ (by omega), Memory.store_other _ _ (by omega), kept i (by omega) (by omega)]
    · rw [Nat.zero_add, ← before]
      exact written
  · rw [encoded, List.length_append, ← before]
    exact reservedLength
  · exact facts.numOptions.trans carries.numOptions_eq
  · simp only [getPayload, if_true]
    exact (Memory.holds_cons.mp written).2.eq_bytes rfl

end Options

end CoapPDU

open CoapPDU in
/-- With memory granted the PDU is the request that was asked for: its options are those of the URI
and the content format, in ascending order. -/
theorem builPDU_carries (block : Nat) (memory : Memory) {heap : Heap} (messageID : UInt16)
    (connType : MessageType) (method : UInt8) {pathWithQuery : List UInt8} (format : Nat)
    (payload : List UInt8) (granted : ∀ i, heap i ≠ none)
    (short : ∀ option ∈ uriOptions pathWithQuery, option.value.length ≤ 1034) :
    ∃ options, options ≠ [] ∧ Wire.Ascending 0 options ∧ Wire.Representable options ∧
      (∀ option ∈ options, option.value.length ≤ 1034) ∧
      (builPDU block memory heap messageID connType method pathWithQuery format payload).1.Carries
        (requestMessage messageID connType method options payload) := by
  obtain ⟨token, tokenEq⟩ : ∃ token, heap.next = some token := Option.ne_none_iff_exists'.mp (granted 0)
  have header := header_drafts block memory token messageID connType method
  have start : Composes messageID connType method _ [] := ⟨header, fun _ member => nomatch member⟩
  have restGranted : ∀ i, heap.rest i ≠ none := fun i => granted (i + 1)
  obtain ⟨_, withUri, uriList, afterUri, uriSet, uriComposes, uriGranted⟩ := start.setURI short restGranted
  have format_short := Nat.le_trans (length_contentFormatValue format) (show 2 ≤ 1034 by decide)
  obtain ⟨withFormat, options, formatSet, some_, composes⟩ := uriComposes.addOption
    (show optionContentFormat ≤ 65535 by decide) format_short (show afterUri.next ≠ none from uriGranted 0)
  obtain ⟨last, lastEq⟩ : ∃ last, afterUri.rest.next = some last := Option.ne_none_iff_exists'.mp (uriGranted 1)
  refine ⟨options, some_, composes.1.represents.ascending, composes.1.represents.representable, composes.2, ?_⟩
  simp only [builPDU, tokenEq, uriSet, setContentFormat_eq, formatSet]
  split
  next filled =>
    have nonempty : payload ≠ [] := List.length_pos_iff.mp filled
    rw [lastEq]
    exact composes.1.setPayload last nonempty
  next none =>
    have bare : payload = [] := List.eq_nil_of_length_eq_zero (by omega)
    rw [bare]
    exact composes.1.carries

end SmingCoap
