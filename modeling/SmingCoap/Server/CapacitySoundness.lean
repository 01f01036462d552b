import SmingCoap.Server.BlockReplySoundness
import SmingCoap.Transition.Runs

/-! # The payload buffer of a response

Over the life of a response its payload pointer turns from the memory behind the
message to memory of its own, to static data and back, and `PayloadBufSize` is
all that the next copy looks at.  It never exceeds what can be written there,
and no copy leaves its buffers, but for two calls (`payload_calls_iff`).  Moving
a block to the front writes at the payload pointer without a look at
`PayloadBufSize`, so that it writes into static data; and the allocator takes
sizes of 16 bits with a sign, so that a message whose size does not fit gets
less memory than it asked for.
-/

namespace SmingCoap.Server

open Transition (Along)

/-- The payload buffer of a new message: zeros, and what is copied into them. -/
def initialBuffer (pPayloadInitialContent : Option (List UInt8)) (payloadInitialContentLength room : Nat) :
    List UInt8 :=
  let zeros := List.replicate room 0
  match pPayloadInitialContent with
  | some content =>
    (content.take payloadInitialContentLength ++ zeros.drop payloadInitialContentLength).take room
  | none => zeros

/-- The null pointer promises no room. -/
theorem nothing_writable : 0 < coapInitToEmptyResetMsg.payloadBufSize →
    PayloadLocation.null = .message ∨ PayloadLocation.null = .heap := by
  decide

/-- `CoAP_CreateMessage`: header and payload buffer are one block of zeroed memory. -/
def coapCreateMessage (available : Bool) (sizeofMessage : Nat) (type : MessageType) (code : UInt8)
    (messageID : UInt16) (pPayloadInitialContent : Option (List UInt8))
    (payloadInitialContentLength payloadMaxSize : UInt16) (token : UInt64) : Option PayloadMessage :=
  if available = false then none
  else if payloadInitialContentLength > payloadMaxSize then none
  else if payloadMaxSize = 0 then
    some { coapInitToEmptyResetMsg with
      type, code, messageID := messageID.toNat, token64 := token, payload := [], location := .null, buffer := []
      writable := nothing_writable }
  else
    let length := payloadInitialContentLength.toNat
    let buffer := initialBuffer pPayloadInitialContent length
      (requestedBytes (sizeofMessage + payloadMaxSize.toNat) - sizeofMessage)
    some { coapInitToEmptyResetMsg with
      type, code, messageID := messageID.toNat, token64 := token, payload := buffer.take length
      payloadBufSize := payloadMaxSize.toNat, location := .message, buffer, writable := fun _ => .inl rfl }

/-! ## What a call does to memory -/

/-- How many bytes can be written at the payload pointer. -/
def PayloadMessage.capacity (msg : PayloadMessage) : Nat :=
  match msg.location with
  | .message | .heap => msg.buffer.length
  | .null | .static => 0

/-- A copy or a move to the payload pointer: of `room` bytes that can be written, the first `length` take those of
the source from `offset` on. -/
structure PayloadCopy where
  room : Nat
  source : Nat
  offset : Nat
  length : Nat

structure PayloadCopy.Within (copy : PayloadCopy) : Prop where
  room : copy.length ≤ copy.room
  source : copy.offset + copy.length ≤ copy.source

/-- The copies that a call makes, and what it sets `PayloadLength` to. -/
structure PayloadEffect where
  copies : List PayloadCopy
  payloadLength : Option Nat

/-- The room for some bytes: the buffer that is there, or a new one of their size. -/
def roomFor (msg : PayloadMessage) (length : Nat) : Nat :=
  if msg.payloadBufSize ≥ length then msg.capacity else length

def addNewPayloadEffect (msg : PayloadMessage) (data : List UInt8) : PayloadEffect :=
  if data.length > maxPayloadSize then ⟨[], none⟩
  else if data.length ≠ 0 then ⟨[⟨roomFor msg data.length, data.length, 0, data.length⟩], some data.length⟩
  else ⟨[], some 0⟩

def placeCopies (msg : PayloadMessage) (pPayload : PayloadSource) (offset bytesToSend : Nat) : List PayloadCopy :=
  match pPayload with
  | .own => [⟨msg.capacity, msg.buffer.length, offset, bytesToSend⟩]
  | .external data true => [⟨roomFor msg bytesToSend, data.length, offset, bytesToSend⟩]
  | .external _ false => []

def setPayloadEffect (pMsgReq : Option CoapMessage) (msg : PayloadMessage) (pPayload : PayloadSource)
    (payloadTotalSize : UInt16) : PayloadEffect :=
  if payloadTotalSize = 0 then ⟨[], some 0⟩
  else
    match pMsgReq.map fun pMsgReq => getBlockOptionFromMsg pMsgReq .block2 with
    | some (.ok b2opt) =>
      let offset := servedSize b2opt * b2opt.blockNum.toNat
      let bytesToSend := min (servedSize b2opt) (payloadTotalSize.toNat - offset)
      if payloadTotalSize.toNat ≤ offset then addNewPayloadEffect msg blockNotExisting
      else ⟨placeCopies msg pPayload offset bytesToSend, some bytesToSend⟩
    | _ =>
      let bytesToSend := min payloadTotalSize.toNat maxPayloadSize
      match pPayload with
      | .own => ⟨[], some bytesToSend⟩
      | .external .. => ⟨placeCopies msg pPayload 0 bytesToSend, some bytesToSend⟩

/-! ## Calls -/

/-- A call on the response message, of which there is none before the first `CoAP_CreateMessage`. -/
inductive PayloadCall where
  | createMessage (type : MessageType) (code : UInt8) (messageID : UInt16) (content : Option (List UInt8))
      (length payloadMaxSize : UInt16) (token : UInt64)
  | setPayload (pMsgReq : Option CoapMessage) (pPayload : PayloadSource) (payloadTotalSize : UInt16)
  | addNewPayload (data : List UInt8)

/-- The message after a call.  There is no result where there is no message, or where a null pointer is written to. -/
def PayloadCall.step (sizeofMessage : Nat) (msg : Option PayloadMessage) : PayloadCall → Option (Option PayloadMessage)
  | .createMessage type code messageID content length payloadMaxSize token =>
    some (coapCreateMessage true sizeofMessage type code messageID content length payloadMaxSize token)
  | .setPayload pMsgReq pPayload payloadTotalSize =>
    msg.bind fun msg => (Server.setPayload true true pMsgReq msg pPayload payloadTotalSize).map fun result => some result.2
  | .addNewPayload data =>
    msg.bind fun msg => (addNewPayloadToMessage true msg data).map fun result => some result.2

def PayloadCall.effect (sizeofMessage : Nat) (msg : Option PayloadMessage) : PayloadCall → PayloadEffect
  | .createMessage _ _ _ content length payloadMaxSize _ =>
    if length > payloadMaxSize then ⟨[], none⟩
    else if payloadMaxSize = 0 then ⟨[], some length.toNat⟩
    else
      let room := requestedBytes (sizeofMessage + payloadMaxSize.toNat) - sizeofMessage
      match content with
      | some content => ⟨[⟨room, content.length, 0, length.toNat⟩], some length.toNat⟩
      | none => ⟨[], some length.toNat⟩
  | .setPayload pMsgReq pPayload payloadTotalSize =>
    match msg with
    | some msg => setPayloadEffect pMsgReq msg pPayload payloadTotalSize
    | none => ⟨[], none⟩
  | .addNewPayload data =>
    match msg with
    | some msg => addNewPayloadEffect msg data
    | none => ⟨[], none⟩

/-- The bytes that a payload pointer is said to have are there. -/
def SourceHolds (pPayload : PayloadSource) (msg : PayloadMessage) (length : Nat) : Prop :=
  match pPayload with
  | .own => length ≤ msg.buffer.length
  | .external data _ => length ≤ data.length

/-- A call is made on a message, with a source of the size that is passed. -/
def Stated (msg : Option PayloadMessage) : PayloadCall → Prop
  | .createMessage _ _ _ content length _ _ => ∀ bytes, content = some bytes → length.toNat ≤ bytes.length
  | .setPayload _ pPayload payloadTotalSize => ∃ msg', msg = some msg' ∧ SourceHolds pPayload msg' payloadTotalSize.toNat
  | .addNewPayload _ => msg ≠ none

/-- A message is created whose size is no `bufsize`, or a block that exists is moved to the front while the payload
pointer is turned to static data. -/
def Overruns (sizeofMessage : Nat) (msg : Option PayloadMessage) : PayloadCall → Prop
  | .createMessage _ _ _ _ length payloadMaxSize _ =>
    length ≤ payloadMaxSize ∧ payloadMaxSize ≠ 0 ∧ 32768 ≤ sizeofMessage + payloadMaxSize.toNat
  | .setPayload pMsgReq .own payloadTotalSize => ∃ msg' req b2opt, msg = some msg' ∧ msg'.location = .static ∧
      pMsgReq = some req ∧ getBlockOptionFromMsg req .block2 = .ok b2opt ∧
      servedSize b2opt * b2opt.blockNum.toNat < payloadTotalSize.toNat
  | _ => False

/-- What `PayloadBufSize` promises is there, and a null pointer has nothing behind it. -/
structure InOrder (msg : PayloadMessage) : Prop where
  size : msg.payloadBufSize ≤ msg.capacity
  null : msg.location = .null → msg.buffer = []

/-- As many bytes can be read as `PayloadLength` is set to, or the message is left as it is. -/
def Readable (msg : Option PayloadMessage) (payloadLength : Option Nat) (after : PayloadMessage) : Prop :=
  match payloadLength with
  | some length => length ≤ after.buffer.length ∧ after.payload = after.buffer.take length
  | none => msg = some after

/-- A call stays within its buffers and leaves the message in order and readable. -/
structure Keeps (sizeofMessage : Nat) (msg : Option PayloadMessage) (call : PayloadCall) : Prop where
  within : ∀ copy ∈ (call.effect sizeofMessage msg).copies, copy.Within
  returns : ∃ after, call.step sizeofMessage msg = some after
  order : ∀ after, call.step sizeofMessage msg = some (some after) → InOrder after
  readable : ∀ after, call.step sizeofMessage msg = some (some after) →
    Readable msg (call.effect sizeofMessage msg).payloadLength after

/-! ## One call -/

section

variable {sizeofMessage : Nat} {msg after : PayloadMessage} {pPayload : PayloadSource} {data : List UInt8}

theorem InOrder.room (order : InOrder msg) (length : Nat) : length ≤ roomFor msg length := by
  have size := order.size
  simp only [roomFor]
  split <;> omega

/-- Only what the payload pointer is turned to counts. -/
theorem InOrder.congr (order : InOrder msg) (location : after.location = msg.location)
    (buffer : after.buffer = msg.buffer) (size : after.payloadBufSize = msg.payloadBufSize) : InOrder after := by
  constructor
  · rw [PayloadMessage.capacity, location, buffer, size]
    exact order.size
  · rw [location, buffer]
    exact order.null

/-- A buffer in its place that is no shorter, of which no more is promised. -/
theorem InOrder.longer (order : InOrder msg) (some : msg.location ≠ .null) (location : after.location = msg.location)
    (buffer : msg.buffer.length ≤ after.buffer.length) (size : after.payloadBufSize ≤ msg.payloadBufSize) :
    InOrder after := by
  refine ⟨?_, fun null => absurd (location ▸ null) some⟩
  have before := order.size
  cases place : msg.location with
  | message | heap =>
    simp only [PayloadMessage.capacity, location, place] at before ⊢
    omega
  | static =>
    simp only [PayloadMessage.capacity, location, place] at before ⊢
    omega
  | null => exact absurd place some

theorem InOrder.setPayloadLength (order : InOrder msg) (length : Nat) : InOrder (setPayloadLength msg length) :=
  order.congr rfl rfl rfl

theorem InOrder.freeMsgPayload (order : InOrder msg) : InOrder (freeMsgPayload msg) := by
  unfold Server.freeMsgPayload
  split
  next => exact ⟨Nat.zero_le _, fun _ => rfl⟩
  next => exact order

theorem copyToNewBuffer_order (copied : copyToNewBuffer true msg data = some after) :
    InOrder after ∧ after.buffer = data := by
  simp only [copyToNewBuffer, if_true, Option.some.injEq] at copied
  subst copied
  exact ⟨⟨Nat.le_refl _, fun null => by cases null⟩, rfl⟩

/-- Bytes written over the front of a buffer leave it no shorter. -/
theorem length_overwritten (buffer data : List UInt8) :
    buffer.length ≤ (data ++ buffer.drop data.length).length := by
  simp only [List.length_append, List.length_drop]
  omega

theorem InOrder.copyToBuffer (order : InOrder msg) (copied : copyToBuffer msg data = some after) :
    InOrder after ∧ after.buffer = data ++ msg.buffer.drop data.length := by
  simp only [Server.copyToBuffer] at copied
  split at copied
  next => cases copied
  next some =>
    cases copied
    exact ⟨order.longer some rfl (length_overwritten ..) (Nat.le_refl _), rfl⟩

theorem InOrder.copyVolatile (order : InOrder msg) (copied : copyVolatile true msg data = some after) :
    InOrder after ∧ data.length ≤ after.buffer.length := by
  unfold Server.copyVolatile at copied
  split at copied
  next enough =>
    split at copied
    next => cases copied
    next some =>
      cases copied
      exact ⟨order.longer some rfl (length_overwritten ..) enough, by simp⟩
  next =>
    obtain ⟨order, buffer⟩ := copyToNewBuffer_order copied
    exact ⟨order, by rw [buffer]⟩

/-- `CoAP_addNewPayloadToMessage` keeps any message in order. -/
theorem InOrder.addNewPayload (order : InOrder msg) (data : List UInt8) :
    ∃ result after, addNewPayloadToMessage true msg data = some (result, after) ∧ InOrder after ∧
      Readable (some msg) (addNewPayloadEffect msg data).payloadLength after := by
  have returns := (@addNewPayloadToMessage_isSome true msg data).mpr (.inr (.inr rfl))
  obtain ⟨⟨result, after⟩, done⟩ := Option.isSome_iff_exists.mp returns
  refine ⟨result, after, done, ?_⟩
  unfold addNewPayloadToMessage at done
  unfold addNewPayloadEffect
  split at done
  next large =>
    cases done
    exact ⟨order, by rw [if_pos large]; rfl⟩
  next small =>
    rw [if_neg small]
    split at done
    next some =>
      rw [if_pos some]
      have kept : ∀ copied, InOrder copied → data.length ≤ copied.buffer.length →
          InOrder (Server.setPayloadLength copied data.length) ∧
            Readable (Option.some msg) (Option.some data.length) (Server.setPayloadLength copied data.length) :=
        fun copied order enough => ⟨order.setPayloadLength _, enough, rfl⟩
      dsimp only at done
      split at done
      next =>
        obtain ⟨copied, put, done⟩ := Option.bind_eq_some_iff.mp done
        cases done
        obtain ⟨order, buffer⟩ := order.copyToBuffer put
        exact kept copied order (by rw [buffer]; simp)
      next =>
        obtain ⟨copied, put, done⟩ := Option.bind_eq_some_iff.mp done
        cases done
        obtain ⟨order, buffer⟩ := copyToNewBuffer_order put
        exact kept copied order (by rw [buffer])
    next none =>
      rw [if_neg none]
      cases done
      exact ⟨order.freeMsgPayload.setPayloadLength _, Nat.zero_le _, rfl⟩

theorem InOrder.addNewPayload_within (order : InOrder msg) :
    ∀ copy ∈ (addNewPayloadEffect msg data).copies, copy.Within := by
  intro copy member
  unfold addNewPayloadEffect at member
  split at member
  next => cases member
  next =>
    split at member
    next =>
      rw [List.mem_singleton.mp member]
      exact ⟨order.room _, by simp⟩
    next => cases member

/-- The bytes of a block are put in place. -/
theorem InOrder.placePayload {offset bytesToSend : Nat} (order : InOrder msg) (positive : 0 < bytesToSend)
    (holds : SourceHolds pPayload msg (offset + bytesToSend)) :
    ∃ after, placePayload true msg pPayload offset bytesToSend = some after ∧ InOrder after ∧
      bytesToSend ≤ after.buffer.length := by
  cases pPayload with
  | own =>
    have enough : offset + bytesToSend ≤ msg.buffer.length := holds
    have some : msg.location ≠ .null := by
      intro null
      rw [order.null null, List.length_nil] at enough
      omega
    have length : ((msg.buffer.drop offset).take bytesToSend ++ msg.buffer.drop bytesToSend).length =
        msg.buffer.length := by
      simp only [List.length_append, List.length_take, List.length_drop]
      omega
    simp only [Server.placePayload, moveToFront, if_neg some, Option.some.injEq, exists_eq_left']
    exact ⟨order.longer some rfl (Nat.le_of_eq length.symm) (Nat.le_refl _), by rw [length]; omega⟩
  | external data payloadIsVolatile =>
    have enough : offset + bytesToSend ≤ data.length := holds
    cases payloadIsVolatile with
    | false =>
      refine ⟨_, rfl, ⟨Nat.zero_le _, fun null => by cases null⟩, ?_⟩
      simp only [pointToStatic, List.length_drop]
      omega
    | true =>
      have length : ((data.drop offset).take bytesToSend).length = bytesToSend := by simp; omega
      have returns := (@copyVolatile_isSome true msg ((data.drop offset).take bytesToSend) (by omega)).mpr (.inr rfl)
      obtain ⟨after, copied⟩ := Option.isSome_iff_exists.mp returns
      obtain ⟨order, room⟩ := order.copyVolatile copied
      exact ⟨after, copied, order, by rwa [length] at room⟩

/-- Its copy stays within the buffers, but for a move in static data. -/
theorem InOrder.placePayload_within {offset bytesToSend : Nat} (order : InOrder msg) (positive : 0 < bytesToSend)
    (holds : SourceHolds pPayload msg (offset + bytesToSend)) :
    (∀ copy ∈ placeCopies msg pPayload offset bytesToSend, copy.Within) ↔
      ¬ (pPayload = .own ∧ msg.location = .static) := by
  cases pPayload with
  | own =>
    have enough : offset + bytesToSend ≤ msg.buffer.length := holds
    simp only [placeCopies, List.mem_singleton, forall_eq, true_and]
    constructor
    · rintro ⟨room, -⟩ static
      simp only [PayloadMessage.capacity, static] at room
      omega
    · intro writable
      refine ⟨?_, enough⟩
      simp only [PayloadMessage.capacity]
      split
      next => omega
      next => omega
      next null =>
        rw [order.null null, List.length_nil] at enough
        omega
      next static => exact absurd static writable
  | external data payloadIsVolatile =>
    have enough : offset + bytesToSend ≤ data.length := holds
    cases payloadIsVolatile with
    | false => simp [placeCopies]
    | true =>
      simp only [placeCopies, List.mem_singleton, forall_eq, reduceCtorEq, false_and, not_false_eq_true, iff_true]
      exact ⟨order.room _, enough⟩

theorem SourceHolds.less {length less : Nat} (holds : SourceHolds pPayload msg length) (below : less ≤ length) :
    SourceHolds pPayload msg less := by
  cases pPayload with
  | own => exact below.trans holds
  | external data payloadIsVolatile => exact below.trans holds

/-- `CoAP_SetPayload` for a block. -/
theorem InOrder.setPayloadBlock {b2opt : BlockOption} {payloadTotalSize : UInt16} (order : InOrder msg)
    (positive : 0 < b2opt.blockSize) (holds : SourceHolds pPayload msg payloadTotalSize.toNat) :
    ∃ result after, setPayloadBlock true true b2opt msg pPayload payloadTotalSize = some (result, after) ∧
      InOrder after ∧
      if payloadTotalSize.toNat ≤ servedSize b2opt * b2opt.blockNum.toNat then
        Readable (some msg) (addNewPayloadEffect msg blockNotExisting).payloadLength after
      else Readable (some msg)
        (some (min (servedSize b2opt) (payloadTotalSize.toNat - servedSize b2opt * b2opt.blockNum.toNat))) after := by
  split
  next behind =>
    obtain ⟨result, added, done, kept, readable⟩ := order.addNewPayload blockNotExisting
    rw [setPayloadBlock_behind behind, done]
    refine ⟨_, _, rfl, kept.congr rfl rfl rfl, ?_⟩
    -- the code is all that differs, and the text is never too long
    exact readable
  next within =>
    have served : 0 < servedSize b2opt := by
      rw [servedSize_eq]
      exact lt_min positive (by decide)
    have inside := Nat.lt_of_not_le within
    rw [setPayloadBlock_within inside]
    simp only
    generalize (addBlkOptionToMsg true (removeAllBlockOptionsFromMsg msg.toCoapMessage .block2) _).options = options
    have moved : InOrder (setOptions msg options) := order.congr rfl rfl rfl
    have sent : SourceHolds pPayload (setOptions msg options) (servedSize b2opt * b2opt.blockNum.toNat +
        min (servedSize b2opt) (payloadTotalSize.toNat - servedSize b2opt * b2opt.blockNum.toNat)) :=
      holds.less (by omega)
    obtain ⟨after, put, kept, enough⟩ := moved.placePayload (lt_min served (Nat.sub_pos_of_lt inside)) sent
    rw [put]
    exact ⟨_, _, rfl, kept.setPayloadLength _, enough, rfl⟩

/-- `CoAP_SetPayload` for a payload that no block is asked of. -/
theorem InOrder.setPayloadWhole {payloadTotalSize : UInt16} (order : InOrder msg)
    (positive : 0 < payloadTotalSize.toNat) (holds : SourceHolds pPayload msg payloadTotalSize.toNat) :
    ∃ result after, setPayloadWhole true true msg pPayload payloadTotalSize = some (result, after) ∧ InOrder after ∧
      Readable (some msg) (some (min payloadTotalSize.toNat maxPayloadSize)) after := by
  have send : (if payloadTotalSize.toNat > maxPayloadSize then maxPayloadSize else payloadTotalSize.toNat) =
      min payloadTotalSize.toNat maxPayloadSize := by
    split <;> omega
  simp only [Server.setPayloadWhole, send]
  generalize (if payloadTotalSize.toNat > maxPayloadSize then _ else msg.options) = options
  have moved : InOrder (setOptions msg options) := order.congr rfl rfl rfl
  cases pPayload with
  | own =>
    have enough : payloadTotalSize.toNat ≤ msg.buffer.length := holds
    exact ⟨_, _, rfl, moved.setPayloadLength _, (Nat.min_le_left _ _).trans enough, rfl⟩
  | external data payloadIsVolatile =>
    have large : 0 < maxPayloadSize := by decide
    have sent : SourceHolds (.external data payloadIsVolatile) (setOptions msg options)
        (0 + min payloadTotalSize.toNat maxPayloadSize) := holds.less (by omega)
    obtain ⟨after, put, kept, enough⟩ := moved.placePayload (lt_min positive large) sent
    simp only [put]
    exact ⟨_, _, rfl, kept.setPayloadLength _, enough, rfl⟩

/-- `CoAP_SetPayload` keeps any message in order. -/
theorem InOrder.setPayload {pMsgReq : Option CoapMessage} {payloadTotalSize : UInt16} (order : InOrder msg)
    (holds : SourceHolds pPayload msg payloadTotalSize.toNat) :
    ∃ result after, setPayload true true pMsgReq msg pPayload payloadTotalSize = some (result, after) ∧
      InOrder after ∧ Readable (some msg) (setPayloadEffect pMsgReq msg pPayload payloadTotalSize).payloadLength after := by
  unfold Server.setPayload setPayloadEffect
  split
  next => exact ⟨_, _, rfl, order.setPayloadLength 0, Nat.zero_le _, rfl⟩
  next some =>
    have positive : 0 < payloadTotalSize.toNat :=
      Nat.pos_of_ne_zero fun zero => some (UInt16.toNat_inj.mp zero)
    have whole := order.setPayloadWhole positive holds
    cases parsed : pMsgReq.map fun pMsgReq => getBlockOptionFromMsg pMsgReq .block2 with
    | none =>
      obtain ⟨result, after, done, kept, readable⟩ := whole
      exact ⟨result, after, done, kept, by cases pPayload <;> exact readable⟩
    | some read =>
      cases read with
      | error =>
        obtain ⟨result, after, done, kept, readable⟩ := whole
        exact ⟨result, after, done, kept, by cases pPayload <;> exact readable⟩
      | ok b2opt =>
        obtain ⟨req, _, parsed⟩ := Option.map_eq_some_iff.mp parsed
        obtain ⟨result, after, done, kept, readable⟩ :=
          order.setPayloadBlock (getBlockOptionFromMsg_positive parsed) holds
        refine ⟨result, after, done, kept, ?_⟩
        simp only
        split at readable
        next behind => rwa [if_pos behind]
        next within => rwa [if_neg within]

/-- Without a block only what comes from elsewhere is copied, all of it from the start. -/
theorem InOrder.whole_within {payloadTotalSize : UInt16} (order : InOrder msg)
    (positive : 0 < payloadTotalSize.toNat) {data : List UInt8} {payloadIsVolatile : Bool}
    (holds : SourceHolds (.external data payloadIsVolatile) msg payloadTotalSize.toNat) :
    ∀ copy ∈ placeCopies msg (.external data payloadIsVolatile) 0 (min payloadTotalSize.toNat maxPayloadSize),
      copy.Within := by
  have large : 0 < maxPayloadSize := by decide
  have sent : SourceHolds (.external data payloadIsVolatile) msg (0 + min payloadTotalSize.toNat maxPayloadSize) :=
    holds.less (by omega)
  exact (order.placePayload_within (lt_min positive large) sent).mpr (by simp)

/-- It is a block within static data that is moved there. -/
theorem overruns_setPayload_iff {pMsgReq : Option CoapMessage} {payloadTotalSize : UInt16} :
    Overruns sizeofMessage (some msg) (.setPayload pMsgReq pPayload payloadTotalSize) ↔
      (pPayload = .own ∧ msg.location = .static) ∧ ∃ b2opt,
        (pMsgReq.map fun pMsgReq => getBlockOptionFromMsg pMsgReq .block2) = some (.ok b2opt) ∧
          servedSize b2opt * b2opt.blockNum.toNat < payloadTotalSize.toNat := by
  cases pPayload with
  | external => simp [Overruns]
  | own =>
    simp only [Overruns, true_and]
    constructor
    · rintro ⟨_, req, b2opt, ⟨⟩, static, rfl, block, within⟩
      exact ⟨static, b2opt, congrArg some block, within⟩
    · rintro ⟨static, b2opt, asked, within⟩
      obtain ⟨req, rfl, block⟩ := Option.map_eq_some_iff.mp asked
      exact ⟨msg, req, b2opt, rfl, static, rfl, block, within⟩

/-- A block that was asked for is copied from its offset on. -/
theorem InOrder.block_within {payloadTotalSize : UInt16} {b2opt : BlockOption} (order : InOrder msg)
    (size : 0 < b2opt.blockSize) (holds : SourceHolds pPayload msg payloadTotalSize.toNat)
    (within : servedSize b2opt * b2opt.blockNum.toNat < payloadTotalSize.toNat) :
    (∀ copy ∈ placeCopies msg pPayload (servedSize b2opt * b2opt.blockNum.toNat)
      (min (servedSize b2opt) (payloadTotalSize.toNat - servedSize b2opt * b2opt.blockNum.toNat)), copy.Within) ↔
        ¬ (pPayload = .own ∧ msg.location = .static) := by
  have served : 0 < servedSize b2opt := by
    rw [servedSize_eq]
    exact lt_min size (by decide)
  have sent : SourceHolds pPayload msg (servedSize b2opt * b2opt.blockNum.toNat +
      min (servedSize b2opt) (payloadTotalSize.toNat - servedSize b2opt * b2opt.blockNum.toNat)) :=
    holds.less (by omega)
  exact order.placePayload_within (lt_min served (Nat.sub_pos_of_lt within)) sent

/-- All copies of `CoAP_SetPayload` stay within their buffers, if and only if it does not move a block in static
data. -/
theorem InOrder.setPayload_within {pMsgReq : Option CoapMessage} {payloadTotalSize : UInt16} (order : InOrder msg)
    (holds : SourceHolds pPayload msg payloadTotalSize.toNat) :
    (∀ copy ∈ (setPayloadEffect pMsgReq msg pPayload payloadTotalSize).copies, copy.Within) ↔
      ¬ Overruns sizeofMessage (some msg) (.setPayload pMsgReq pPayload payloadTotalSize) := by
  rw [overruns_setPayload_iff]
  unfold setPayloadEffect
  split
  next none =>
    refine iff_of_true (List.forall_mem_nil _) ?_
    rintro ⟨_, _, _, within⟩
    rw [none] at within
    exact Nat.not_lt_zero _ within
  next some =>
    have positive : 0 < payloadTotalSize.toNat :=
      Nat.pos_of_ne_zero fun zero => some (UInt16.toNat_inj.mp zero)
    split
    next b2opt asked =>
      obtain ⟨req, _, parsed⟩ := Option.map_eq_some_iff.mp asked
      simp only
      split
      next behind =>
        refine iff_of_true order.addNewPayload_within ?_
        rintro ⟨_, other, same, within⟩
        cases asked.symm.trans same
        exact absurd within (Nat.not_lt.mpr behind)
      next inside =>
        have within := Nat.lt_of_not_le inside
        rw [order.block_within (getBlockOptionFromMsg_positive parsed) holds within]
        exact not_congr (and_iff_left ⟨b2opt, asked, within⟩).symm
    next noBlock =>
      have whole : ¬ ((pPayload = .own ∧ msg.location = .static) ∧ ∃ b2opt,
          (pMsgReq.map fun pMsgReq => getBlockOptionFromMsg pMsgReq .block2) = Option.some (.ok b2opt) ∧
            servedSize b2opt * b2opt.blockNum.toNat < payloadTotalSize.toNat) := by
        rintro ⟨_, b2opt, asked, _⟩
        exact noBlock b2opt asked
      cases pPayload with
      | own => exact iff_of_true (List.forall_mem_nil _) whole
      | external data payloadIsVolatile => exact iff_of_true (order.whole_within positive holds) whole

theorem requestedBytes_eq {size : Nat} (fits : size < 32768) : requestedBytes size = size := by
  unfold requestedBytes
  omega

theorem requestedBytes_lt {size : Nat} (large : 32768 ≤ size) : requestedBytes size < size := by
  unfold requestedBytes
  omega

theorem initialBuffer_length {content : Option (List UInt8)} {length : Nat} (room : Nat)
    (stated : ∀ bytes, content = some bytes → length ≤ bytes.length) :
    (initialBuffer content length room).length = room := by
  cases content with
  | none => exact List.length_replicate
  | some bytes =>
    have enough := stated bytes rfl
    simp only [initialBuffer, List.length_take, List.length_append, List.length_drop, List.length_replicate]
    omega

/-- A call keeps a message in order when its copies stay within their buffers and what it returns is in order. -/
theorem Keeps.of_step {msg after : Option PayloadMessage} {call : PayloadCall}
    (step : call.step sizeofMessage msg = some after)
    (within : ∀ copy ∈ (call.effect sizeofMessage msg).copies, copy.Within)
    (kept : ∀ message, after = some message →
      InOrder message ∧ Readable msg (call.effect sizeofMessage msg).payloadLength message) :
    Keeps sizeofMessage msg call := by
  refine ⟨within, ⟨after, step⟩, ?_, ?_⟩
  · intro message taken
    exact (kept message (Option.some.inj (step.symm.trans taken))).1
  · intro message taken
    exact (kept message (Option.some.inj (step.symm.trans taken))).2

section

variable {msg : Option PayloadMessage} (type : MessageType) (code : UInt8) (messageID : UInt16)
  {content : Option (List UInt8)} {length payloadMaxSize : UInt16} (token : UInt64)

/-- The content is larger than the buffer: no message. -/
theorem createMessage_refused (large : length > payloadMaxSize) :
    Keeps sizeofMessage msg (.createMessage type code messageID content length payloadMaxSize token) := by
  have created : PayloadCall.step sizeofMessage msg
      (.createMessage type code messageID content length payloadMaxSize token) = some none := by
    simp only [PayloadCall.step, coapCreateMessage, Bool.true_eq_false, if_false, if_pos large]
  have effect : PayloadCall.effect sizeofMessage msg
      (.createMessage type code messageID content length payloadMaxSize token) = ⟨[], none⟩ := by
    simp only [PayloadCall.effect, if_pos large]
  apply Keeps.of_step created
  · rw [effect]
    exact List.forall_mem_nil _
  · intro message nothing
    cases nothing

/-- No payload pointer at all. -/
theorem createMessage_empty (fits : length ≤ payloadMaxSize) (missing : payloadMaxSize = 0) :
    Keeps sizeofMessage msg (.createMessage type code messageID content length payloadMaxSize token) := by
  have small : ¬ length > payloadMaxSize := UInt16.not_lt.mpr fits
  have short : length.toNat ≤ payloadMaxSize.toNat := fits
  have zero : length.toNat = 0 := by
    rw [missing] at short
    exact Nat.le_zero.mp short
  have effect : PayloadCall.effect sizeofMessage msg
      (.createMessage type code messageID content length payloadMaxSize token) = ⟨[], some 0⟩ := by
    simp only [PayloadCall.effect, if_neg small, if_pos missing, zero]
  have created : PayloadCall.step sizeofMessage msg
      (.createMessage type code messageID content length payloadMaxSize token) = some (some
        { coapInitToEmptyResetMsg with
          type, code, messageID := messageID.toNat, token64 := token, payload := [], location := .null, buffer := []
          writable := nothing_writable }) := by
    simp only [PayloadCall.step, coapCreateMessage, Bool.true_eq_false, if_false, if_neg small, if_pos missing]
  apply Keeps.of_step created
  · rw [effect]
    exact List.forall_mem_nil _
  · intro message same
    cases same
    rw [effect]
    exact ⟨⟨Nat.zero_le _, fun _ => rfl⟩, Nat.zero_le _, rfl⟩

/-- Header and buffer are one block of memory, as large as the allocator takes the size to be. -/
theorem createMessage_block (fits : length ≤ payloadMaxSize) (present : payloadMaxSize ≠ 0)
    (stated : ∀ bytes, content = some bytes → length.toNat ≤ bytes.length) :
    ∃ message, PayloadCall.step sizeofMessage msg
        (.createMessage type code messageID content length payloadMaxSize token) = some (some message) ∧
      message.location = .message ∧ message.payloadBufSize = payloadMaxSize.toNat ∧
      message.buffer.length = requestedBytes (sizeofMessage + payloadMaxSize.toNat) - sizeofMessage ∧
      message.payload = message.buffer.take length.toNat := by
  have small : ¬ length > payloadMaxSize := UInt16.not_lt.mpr fits
  simp only [PayloadCall.step, coapCreateMessage, Bool.true_eq_false, if_false, if_neg small, if_neg present,
    Option.some.injEq, exists_eq_left', true_and, and_true]
  exact initialBuffer_length _ stated

/-- The allocator gives less than the size of the message, so less than its buffer is said to be. -/
theorem createMessage_overruns (fits : length ≤ payloadMaxSize) (present : payloadMaxSize ≠ 0)
    (stated : ∀ bytes, content = some bytes → length.toNat ≤ bytes.length)
    (large : 32768 ≤ sizeofMessage + payloadMaxSize.toNat) :
    ¬ Keeps sizeofMessage msg (.createMessage type code messageID content length payloadMaxSize token) := by
  intro keeps
  obtain ⟨message, created, location, bufSize, room, _⟩ :=
    @createMessage_block sizeofMessage msg type code messageID content length payloadMaxSize token fits present stated
  have positive : 0 < payloadMaxSize.toNat := Nat.pos_of_ne_zero fun zero => present (UInt16.toNat_inj.mp zero)
  have order := (keeps.order message created).size
  have less := requestedBytes_lt large
  simp only [PayloadMessage.capacity, location, room, bufSize] at order
  omega

theorem createMessage_keeps (fits : length ≤ payloadMaxSize) (present : payloadMaxSize ≠ 0)
    (stated : ∀ bytes, content = some bytes → length.toNat ≤ bytes.length)
    (bufsize : sizeofMessage + payloadMaxSize.toNat < 32768) :
    Keeps sizeofMessage msg (.createMessage type code messageID content length payloadMaxSize token) := by
  have small : ¬ length > payloadMaxSize := UInt16.not_lt.mpr fits
  have short : length.toNat ≤ payloadMaxSize.toNat := fits
  obtain ⟨message, created, location, bufSize, room, payload⟩ :=
    @createMessage_block sizeofMessage msg type code messageID content length payloadMaxSize token fits present stated
  rw [requestedBytes_eq bufsize, Nat.add_sub_cancel_left] at room
  apply Keeps.of_step created
  · intro copy member
    simp only [PayloadCall.effect, if_neg small, if_neg present, requestedBytes_eq bufsize,
      Nat.add_sub_cancel_left] at member
    cases content with
    | none => cases member
    | some bytes =>
      have enough := stated bytes rfl
      rw [List.mem_singleton.mp member]
      exact ⟨short, by simpa using enough⟩
  · intro other same
    cases same
    have payloadLength : (PayloadCall.effect sizeofMessage msg
        (.createMessage type code messageID content length payloadMaxSize token)).payloadLength =
          some length.toNat := by
      simp only [PayloadCall.effect, if_neg small, if_neg present]
      cases content <;> rfl
    rw [payloadLength]
    refine ⟨⟨?_, ?_⟩, room.symm ▸ short, payload⟩
    · simp only [PayloadMessage.capacity, location, room, bufSize]
      exact Nat.le_refl _
    · intro null
      cases location.symm.trans null

end

/-- A message is created in order, if and only if its size is a `bufsize`. -/
theorem createMessage_keeps_iff {msg : Option PayloadMessage} (type : MessageType) (code : UInt8) (messageID : UInt16)
    {content : Option (List UInt8)} {length : UInt16} (payloadMaxSize : UInt16) (token : UInt64)
    (stated : ∀ bytes, content = some bytes → length.toNat ≤ bytes.length) :
    Keeps sizeofMessage msg (.createMessage type code messageID content length payloadMaxSize token) ↔
      ¬ Overruns sizeofMessage msg (.createMessage type code messageID content length payloadMaxSize token) := by
  by_cases fits : length ≤ payloadMaxSize
  · by_cases missing : payloadMaxSize = 0
    · exact iff_of_true (createMessage_empty _ _ _ _ fits missing) fun overruns => overruns.2.1 missing
    · by_cases large : 32768 ≤ sizeofMessage + payloadMaxSize.toNat
      · exact iff_of_false (createMessage_overruns _ _ _ _ fits missing stated large)
          (not_not_intro ⟨fits, missing, large⟩)
      · exact iff_of_true (createMessage_keeps _ _ _ _ fits missing stated (Nat.lt_of_not_le large))
          fun overruns => large overruns.2.2
  · exact iff_of_true (createMessage_refused _ _ _ _ (UInt16.not_le.mp fits)) fun overruns => fits overruns.1

/-- A call keeps a message in order, if and only if it is none of the two. -/
theorem PayloadCall.keeps_iff {msg : Option PayloadMessage} (call : PayloadCall)
    (order : ∀ present, msg = some present → InOrder present) (stated : Stated msg call) :
    Keeps sizeofMessage msg call ↔ ¬ Overruns sizeofMessage msg call := by
  cases call with
  | createMessage type code messageID content length payloadMaxSize token =>
    exact createMessage_keeps_iff type code messageID payloadMaxSize token stated
  | setPayload pMsgReq pPayload payloadTotalSize =>
    obtain ⟨msg, rfl, holds⟩ := stated
    obtain ⟨result, after, done, kept, readable⟩ :=
      @InOrder.setPayload msg pPayload pMsgReq payloadTotalSize (order msg rfl) holds
    have step : PayloadCall.step sizeofMessage (some msg) (.setPayload pMsgReq pPayload payloadTotalSize) =
        some (some after) := by
      simp only [PayloadCall.step, Option.bind_some, done, Option.map_some]
    rw [← (order msg rfl).setPayload_within holds]
    refine ⟨Keeps.within, fun within => Keeps.of_step step within fun message same => ?_⟩
    cases same
    exact ⟨kept, readable⟩
  | addNewPayload data =>
    obtain ⟨msg, rfl⟩ := Option.ne_none_iff_exists'.mp stated
    obtain ⟨result, after, done, kept, readable⟩ := (order msg rfl).addNewPayload data
    have step : PayloadCall.step sizeofMessage (some msg) (.addNewPayload data) = some (some after) := by
      simp only [PayloadCall.step, Option.bind_some, done, Option.map_some]
    refine iff_of_true (Keeps.of_step step (order msg rfl).addNewPayload_within fun message same => ?_) not_false
    cases same
    exact ⟨kept, readable⟩

end

/-- Every call of a sequence stays within its buffers, if and only if none creates a message whose size is no
`bufsize` or moves a block to the front in static data. -/
theorem payload_calls_iff (sizeofMessage : Nat) (calls : List PayloadCall)
    (stated : Along (PayloadCall.step sizeofMessage) Stated none calls) :
    Along (PayloadCall.step sizeofMessage) (Keeps sizeofMessage) none calls ↔
      Along (PayloadCall.step sizeofMessage) (fun msg call => ¬ Overruns sizeofMessage msg call) none calls := by
  refine @Along.iff _ _ _ Stated (Keeps sizeofMessage) (fun msg call => ¬ Overruns sizeofMessage msg call)
    (fun msg => ∀ present, msg = some present → InOrder present) none calls nofun ?_ ?_ stated
  · intro before call after order stated passes taken present same
    subst same
    exact ((call.keeps_iff order stated).mpr passes).order present taken
  · intro msg call order stated
    exact call.keeps_iff order stated

/-- A text is added to a new message and passed on in place. -/
def textCalls : List PayloadCall :=
  [.createMessage .ack respSuccessContent 1 none 0 4 7, .addNewPayload [1, 2, 3], .setPayload none .own 3]

theorem textCalls_stated : Along (PayloadCall.step 32) Stated none textCalls := by
  refine ⟨fun _ none => (by cases none), fun _ taken => ?_⟩
  cases taken
  refine ⟨Option.some_ne_none _, fun _ taken => ?_⟩
  cases taken
  refine ⟨⟨_, rfl, ?_⟩, fun _ _ => trivial⟩
  show 3 ≤ [1, 2, 3, 0].length
  decide

theorem payload_calls_text : Along (PayloadCall.step 32) (Keeps 32) none textCalls := by
  apply (payload_calls_iff 32 textCalls textCalls_stated).mpr
  refine ⟨by simp [Overruns], fun _ taken => ?_⟩
  cases taken
  refine ⟨not_false, fun _ taken => ?_⟩
  cases taken
  refine ⟨?_, fun _ _ => trivial⟩
  rintro ⟨_, _, _, -, -, ⟨⟩, -⟩

/-- Static data, and then the block of them in place. -/
def staticCalls : List PayloadCall :=
  [.createMessage .ack respSuccessContent 1 none 0 4 7, .setPayload none (.external [1, 2] false) 2,
    .setPayload (some { coapInitToEmptyResetMsg with options := [⟨optBlock2, []⟩] }) .own 2]

/-- Two bytes are written where nothing may be. -/
theorem payload_calls_static : ¬ ∀ (sizeofMessage : Nat) (calls : List PayloadCall),
    Along (PayloadCall.step sizeofMessage) Stated none calls →
      Along (PayloadCall.step sizeofMessage) (Keeps sizeofMessage) none calls := by
  intro keeps
  have stated : Along (PayloadCall.step 32) Stated none staticCalls := by
    refine ⟨nofun, fun _ taken => ?_⟩
    cases taken
    refine ⟨⟨_, rfl, Nat.le_refl 2⟩, fun _ taken => ?_⟩
    cases taken
    exact ⟨⟨_, rfl, Nat.le_refl 2⟩, fun _ _ => trivial⟩
  have moved := ((keeps 32 staticCalls stated).2 _ rfl).2 _ rfl
  have room : 2 ≤ 0 := (moved.1.within ⟨0, 2, 0, 2⟩ (List.mem_singleton.mpr rfl)).room
  omega

end SmingCoap.Server
