import SmingCoap.Server.ObserverSoundness
import SmingCoap.Server.Payload
import SmingCoap.Server.RequeueSoundness

/-! # Memory for a response

`CoAP_AllocRespMsg` hands a null pointer on when there is no memory, and
`CoAP_doWork` hands it on to the resource handler or to `SendResp` without
looking at it.  The payload functions copy into the buffer that they have asked
for whether they got it or not.
-/

namespace SmingCoap.Server

/-! ## Payload buffers -/

/-- A payload of some length goes into the buffer that the message has, or into a new one. -/
def BufferAvailable (bufferMem : Bool) (msg : PayloadMessage) (length : Nat) : Prop :=
  length ≤ msg.payloadBufSize ∨ bufferMem = true

/-- The copy that `placePayload` makes has somewhere to go. -/
def PlaceAvailable (bufferMem : Bool) (msg : PayloadMessage) (pPayload : PayloadSource) (bytesToSend : Nat) : Prop :=
  match pPayload with
  | .own => msg.location ≠ .null
  | .external _ true => BufferAvailable bufferMem msg bytesToSend
  | .external _ false => True

/-- One block has somewhere to go, or the text that there is none. -/
def BlockAvailable (bufferMem : Bool) (b2opt : BlockOption) (msg : PayloadMessage) (pPayload : PayloadSource)
    (payloadTotalSize : Nat) : Prop :=
  let offset := servedSize b2opt * b2opt.blockNum.toNat
  if payloadTotalSize ≤ offset then BufferAvailable bufferMem msg blockNotExisting.length
  else PlaceAvailable bufferMem msg pPayload (min (servedSize b2opt) (payloadTotalSize - offset))

/-- A payload that no block is asked of has somewhere to go, or stays where it is. -/
def WholeAvailable (bufferMem : Bool) (msg : PayloadMessage) (pPayload : PayloadSource) (payloadTotalSize : Nat) : Prop :=
  match pPayload with
  | .own => True
  | .external .. => PlaceAvailable bufferMem msg pPayload (min payloadTotalSize maxPayloadSize)

/-- What `CoAP_SetPayload` copies has somewhere to go. -/
def PayloadAvailable (bufferMem : Bool) (pMsgReq : Option CoapMessage) (msg : PayloadMessage)
    (pPayload : PayloadSource) (payloadTotalSize : Nat) : Prop :=
  payloadTotalSize = 0 ∨
    match pMsgReq.map fun pMsgReq => getBlockOptionFromMsg pMsgReq .block2 with
    | some (.ok b2opt) => BlockAvailable bufferMem b2opt msg pPayload payloadTotalSize
    | _ => WholeAvailable bufferMem msg pPayload payloadTotalSize

/-- Data that a handler passes are as long as it says. -/
def Covers (pPayload : PayloadSource) (payloadTotalSize : Nat) : Prop :=
  match pPayload with
  | .own => True
  | .external data _ => payloadTotalSize ≤ data.length

section
variable {optionMem bufferMem : Bool} {msg : PayloadMessage} {data : List UInt8} {pPayload : PayloadSource}

/-- A buffer that is large enough for some data is there. -/
theorem PayloadMessage.location_of_room (msg : PayloadMessage) (positive : 0 < data.length)
    (room : data.length ≤ msg.payloadBufSize) : msg.location ≠ .null := by
  intro null
  cases msg.writable (positive.trans_le room) with
  | inl inside => simp [null] at inside
  | inr outside => simp [null] at outside

theorem copyToNewBuffer_isSome : (copyToNewBuffer bufferMem msg data).isSome = bufferMem := by
  cases bufferMem <;> rfl

theorem addNewPayloadToMessage_isSome : (addNewPayloadToMessage bufferMem msg data).isSome = true ↔
    maxPayloadSize < data.length ∨ BufferAvailable bufferMem msg data.length := by
  unfold addNewPayloadToMessage BufferAvailable
  split
  next large => simp [large]
  next small =>
    split
    next some =>
      have positive : 0 < data.length := Nat.pos_of_ne_zero some
      split
      next room =>
        simp [copyToBuffer, msg.location_of_room positive room, room]
      next little =>
        have absent : ¬ data.length ≤ msg.payloadBufSize := little
        cases bufferMem <;> simp [copyToNewBuffer, small, absent]
    next none =>
      have empty : data.length = 0 := not_not.mp none
      simp [empty]

theorem copyVolatile_isSome (positive : 0 < data.length) :
    (copyVolatile bufferMem msg data).isSome = true ↔ BufferAvailable bufferMem msg data.length := by
  unfold copyVolatile BufferAvailable
  split
  next room => simp [msg.location_of_room positive room, room]
  next little => simp [copyToNewBuffer_isSome, little]

theorem placePayload_isSome {offset bytesToSend : Nat} (positive : 0 < bytesToSend)
    (covers : Covers pPayload (offset + bytesToSend)) :
    (placePayload bufferMem msg pPayload offset bytesToSend).isSome = true ↔
      PlaceAvailable bufferMem msg pPayload bytesToSend := by
  cases pPayload with
  | own =>
    simp only [placePayload, moveToFront, PlaceAvailable]
    split
    next null => simp [null]
    next => simpa
  | external data payloadIsVolatile =>
    cases payloadIsVolatile with
    | false => simp [placePayload, PlaceAvailable]
    | true =>
      have covered : offset + bytesToSend ≤ data.length := covers
      have length : ((data.drop offset).take bytesToSend).length = bytesToSend := by simp; omega
      simp only [placePayload, PlaceAvailable]
      rw [copyVolatile_isSome (by rwa [length]), length]

theorem servedSize_eq (b2opt : BlockOption) : servedSize b2opt = min b2opt.blockSize maxPayloadSize := by
  unfold servedSize
  split <;> omega

/-- A block behind the end. -/
theorem setPayloadBlock_behind {b2opt : BlockOption} {payloadTotalSize : UInt16}
    (behind : payloadTotalSize.toNat ≤ servedSize b2opt * b2opt.blockNum.toNat) :
    setPayloadBlock optionMem bufferMem b2opt msg pPayload payloadTotalSize =
      (addNewPayloadToMessage bufferMem msg blockNotExisting).map fun added =>
        (.errWrongOption, { added.2 with code := respBadOption }) := by
  have none : (payloadTotalSize.toNat : Int) - (servedSize b2opt * b2opt.blockNum.toNat : Nat) ≤ 0 := by omega
  simp only [setPayloadBlock, none, if_true, Option.map_eq_bind]
  rfl

/-- A block in front of the end. -/
theorem setPayloadBlock_within {b2opt : BlockOption} {payloadTotalSize : UInt16}
    (within : servedSize b2opt * b2opt.blockNum.toNat < payloadTotalSize.toNat) :
    setPayloadBlock optionMem bufferMem b2opt msg pPayload payloadTotalSize =
      let offset := servedSize b2opt * b2opt.blockNum.toNat
      let bytesToSend := min (servedSize b2opt) (payloadTotalSize.toNat - offset)
      (placePayload bufferMem (setOptions msg (addBlkOptionToMsg optionMem
        (removeAllBlockOptionsFromMsg msg.toCoapMessage .block2) { b2opt with
          blockSize := servedSize b2opt
          moreFlag := decide (offset + servedSize b2opt < payloadTotalSize.toNat) || b2opt.moreFlag }).options)
        pPayload offset bytesToSend).map fun placed => (.ok, setPayloadLength placed bytesToSend) := by
  simp only [setPayloadBlock]
  generalize servedSize b2opt * b2opt.blockNum.toNat = offset at *
  have left : ¬ (payloadTotalSize.toNat : Int) - offset ≤ 0 := by omega
  rw [if_neg left]
  by_cases more : offset + servedSize b2opt < payloadTotalSize.toNat
  · have larger : (payloadTotalSize.toNat : Int) - offset > servedSize b2opt := by omega
    have send : min (servedSize b2opt) (payloadTotalSize.toNat - offset) = servedSize b2opt := by omega
    simp only [larger, more, send, if_true, decide_true, Bool.true_or, Option.map_eq_bind]
    rfl
  · have last : ¬ (payloadTotalSize.toNat : Int) - offset > servedSize b2opt := by omega
    have send : min (servedSize b2opt) (payloadTotalSize.toNat - offset) =
        ((payloadTotalSize.toNat : Int) - offset).toNat := by omega
    simp only [last, more, send, if_false, decide_false, Bool.false_or, Option.map_eq_bind]
    rfl

/-- Where the bytes go does not depend on the options. -/
theorem placeAvailable_setOptions (options : List Wire.Opt) (bytesToSend : Nat) :
    PlaceAvailable bufferMem (setOptions msg options) pPayload bytesToSend ↔
      PlaceAvailable bufferMem msg pPayload bytesToSend := Iff.rfl

theorem Covers.less {total less : Nat} (covers : Covers pPayload total) (below : less ≤ total) :
    Covers pPayload less := by
  cases pPayload with
  | own => trivial
  | external data payloadIsVolatile => exact below.trans covers

theorem getBlockOptionFromMsg_positive {req : CoapMessage} {type : BlockOptionType} {blkOption : BlockOption}
    (parsed : getBlockOptionFromMsg req type = .ok blkOption) : 0 < blkOption.blockSize := by
  unfold getBlockOptionFromMsg at parsed
  split at parsed
  next => cases parsed
  next option found =>
    split at parsed
    next => cases parsed
    next =>
      split at parsed
      next =>
        cases parsed
        simp [blockSize16]
      next =>
        simp only at parsed
        split at parsed
        next => cases parsed
        next =>
          cases parsed
          simp only [Nat.one_shiftLeft]
          exact Nat.two_pow_pos _

theorem setPayloadBlock_isSome {b2opt : BlockOption} {payloadTotalSize : UInt16} (positive : 0 < b2opt.blockSize)
    (covers : Covers pPayload payloadTotalSize.toNat) :
    (setPayloadBlock optionMem bufferMem b2opt msg pPayload payloadTotalSize).isSome = true ↔
      BlockAvailable bufferMem b2opt msg pPayload payloadTotalSize.toNat := by
  unfold BlockAvailable
  simp only
  split
  next behind =>
    rw [setPayloadBlock_behind behind, Option.isSome_map, addNewPayloadToMessage_isSome]
    have short : ¬ maxPayloadSize < blockNotExisting.length := by decide
    simp [short]
  next within =>
    have served : 0 < servedSize b2opt := by
      rw [servedSize_eq]
      exact lt_min positive (by decide)
    have sends : 0 < min (servedSize b2opt) (payloadTotalSize.toNat - servedSize b2opt * b2opt.blockNum.toNat) := by
      omega
    rw [setPayloadBlock_within (Nat.lt_of_not_le within)]
    simp only [Option.isSome_map]
    rw [placePayload_isSome sends (covers.less (by omega)), placeAvailable_setOptions]

theorem setPayloadWhole_isSome {payloadTotalSize : UInt16} (positive : 0 < payloadTotalSize.toNat)
    (covers : Covers pPayload payloadTotalSize.toNat) :
    (setPayloadWhole optionMem bufferMem msg pPayload payloadTotalSize).isSome = true ↔
      WholeAvailable bufferMem msg pPayload payloadTotalSize.toNat := by
  have send : (if payloadTotalSize.toNat > maxPayloadSize then maxPayloadSize else payloadTotalSize.toNat) =
      min payloadTotalSize.toNat maxPayloadSize := by
    split <;> omega
  cases pPayload with
  | own => simp [setPayloadWhole, WholeAvailable]
  | external data payloadIsVolatile =>
    have sends : 0 < min payloadTotalSize.toNat maxPayloadSize := lt_min positive (by decide)
    have placed : ∀ options,
        (placePayload bufferMem (setOptions msg options) (.external data payloadIsVolatile) 0
          (min payloadTotalSize.toNat maxPayloadSize)).isSome = true ↔
        PlaceAvailable bufferMem msg (.external data payloadIsVolatile) (min payloadTotalSize.toNat maxPayloadSize) :=
      fun _ => placePayload_isSome sends (covers.less (by omega))
    simp only [setPayloadWhole, send, Option.bind_eq_bind, Option.isSome_bind, Option.isSome_some]
    simpa [WholeAvailable] using placed _

/-- `CoAP_SetPayload` copies into a buffer that is there, if and only if there is one or memory for one. -/
theorem setPayload_isSome {pMsgReq : Option CoapMessage} {payloadTotalSize : UInt16}
    (covers : Covers pPayload payloadTotalSize.toNat) :
    (setPayload optionMem bufferMem pMsgReq msg pPayload payloadTotalSize).isSome = true ↔
      PayloadAvailable bufferMem pMsgReq msg pPayload payloadTotalSize.toNat := by
  unfold setPayload PayloadAvailable
  split
  next none =>
    simp [none]
  next some =>
    have positive : 0 < payloadTotalSize.toNat := by
      apply Nat.pos_of_ne_zero
      exact fun zero => some (UInt16.toNat_inj.mp zero)
    simp only [positive.ne', false_or]
    cases parsed : pMsgReq.map fun pMsgReq => getBlockOptionFromMsg pMsgReq .block2 with
    | none => exact setPayloadWhole_isSome positive covers
    | some result =>
      cases result with
      | error => exact setPayloadWhole_isSome positive covers
      | ok b2opt =>
        obtain ⟨req, _, parsed⟩ := Option.map_eq_some_iff.mp parsed
        exact setPayloadBlock_isSome (getBlockOptionFromMsg_positive parsed) covers

end

/-! ## The turn of a request -/

namespace CoapServer

/-- A request that is worked on gets its response: there is memory for it, or the handler was called before. -/
def ResponseMemory (env : Env) (this : CoapServer) (pIA : CoapInteraction) : Prop :=
  Unanswered pIA → ∀ req pRes resource, pIA.pReqMsg = some req → pIA.pRes = some pRes →
    this.resources[pRes]? = some resource →
      env.alloc this.allocs = true ∨ methodNotAllowed req.code resource.flags = false ∧ pIA.pRespMsg ≠ none

/-- The response message that a turn passes on: to the handler, to `SendResp`, or to `CoAP_SendMsg` once more. -/
def responsePassed (env : Env) (this : CoapServer) (pIA : CoapInteraction) : Option CoapMessage :=
  match pIA.state with
  | .responseSent => pIA.pRespMsg
  | _ =>
    match pIA.pReqMsg, pIA.pRes.bind fun pRes => this.resources[pRes]? with
    | some req, some resource =>
      if methodNotAllowed req.code resource.flags then (this.allocRespMsg env req respMethodNotAllowed 0).1
      else (handlerGiven env this pIA req).1
    | _, _ => none

/-- An interaction has been answered with an error code, or deleted. -/
def Failed (pIA : CoapInteraction) (after : CoapServer) : Prop :=
  (∀ other ∈ after.pInteractions, other.ref ≠ pIA.ref) ∨
    ∃ worked ∈ after.pInteractions, worked.ref = pIA.ref ∧ worked.state = .responseSent ∧
      ∃ resp, worked.pRespMsg = some resp ∧ resp.code ≥ respErrorBadRequest

/-- No null pointer is passed in a turn.  It comes to its end with the list in order, and without a response
the interaction fails. -/
structure Checked (env : Env) (this : CoapServer) (now : UInt32) (pIA : CoapInteraction) (rest : List CoapInteraction) :
    Prop where
  passed : responsePassed env this pIA ≠ none
  ends : ∃ after, this.doWork env now = some after ∧ Requeues now pIA rest this after ∧
    (responsePassed env this pIA = none → Failed pIA after)

section
variable {env : Env} {now : UInt32} {this : CoapServer} {pIA : CoapInteraction} {req : CoapMessage} {pRes : Nat}
  {resource : CoapResource}

theorem handlerGiven_ne_none : (handlerGiven env this pIA req).1 ≠ none ↔
    env.alloc this.allocs = true ∨ pIA.pRespMsg ≠ none := by
  unfold handlerGiven
  split
  next resp response => simp [response]
  next missing =>
    have available := (allocRespMsg_isSome env this req empty preferedPayloadSize).1
    rw [ne_eq, ← Option.not_isSome_iff_eq_none, available]
    simp [missing]

/-- What is passed on for a request that has not been answered. -/
theorem responsePassed_unanswered (unanswered : Unanswered pIA) (request : pIA.pReqMsg = some req)
    (asked : pIA.pRes = some pRes) (found : this.resources[pRes]? = some resource) :
    responsePassed env this pIA ≠ none ↔
      env.alloc this.allocs = true ∨ methodNotAllowed req.code resource.flags = false ∧ pIA.pRespMsg ≠ none := by
  have passed : responsePassed env this pIA =
      if methodNotAllowed req.code resource.flags then (this.allocRespMsg env req respMethodNotAllowed 0).1
      else (handlerGiven env this pIA req).1 := by
    unfold responsePassed
    cases unanswered with
    | inl state => simp [state, request, asked, found]
    | inr state => simp [state, request, asked, found]
  rw [passed]
  split
  next refused =>
    have available := (allocRespMsg_isSome env this req respMethodNotAllowed 0).1
    rw [ne_eq, ← Option.not_isSome_iff_eq_none, available]
    simp [refused]
  next allowed =>
    rw [handlerGiven_ne_none]
    simp [allowed]

/-- Where there is a response for the handler, the turn reads no null pointer. -/
theorem ResponseMemory.survives (memory : ResponseMemory env this pIA) (role : pIA.role = .server) :
    Survives env this now pIA := by
  unfold Survives
  rw [role]
  intro unanswered req pRes resource request asked found
  unfold ResponseAvailable
  cases memory unanswered req pRes resource request asked found with
  | inl available =>
    split
    next => exact available
    next => exact .inr (.inl available)
  | inr earlier =>
    rw [if_neg (by simp [earlier.1])]
    exact .inl earlier.2

end

theorem checked_iff (env : Env) (resources : List CoapResource) (this : CoapServer) (reaches : Reaches env resources this)
    (now : UInt32) (pIA : CoapInteraction) (rest : List CoapInteraction) (list : this.pInteractions = pIA :: rest)
    (due : pIA.sleepUntil ≤ now) (role : pIA.role = .server) :
    Checked env this now pIA rest ↔ ResponseMemory env this pIA := by
  have holds := run_shaped reaches
  have shaped := holds.interactions pIA (list ▸ List.mem_cons_self)
  constructor
  · intro checked unanswered req pRes resource request asked found
    exact (responsePassed_unanswered unanswered request asked found).mp checked.passed
  · intro memory
    have passed : responsePassed env this pIA ≠ none := by
      by_cases unanswered : Unanswered pIA
      · obtain ⟨req, pRes, resource, request, asked, listed⟩ := shaped.serving role
        obtain ⟨kept, found, _⟩ := layout_getElem? holds.layouts listed
        exact (responsePassed_unanswered unanswered request asked found).mpr
          (memory unanswered req pRes kept request asked found)
      · have staged := shaped.staged
        simp only [Staged, role] at staged
        have state : pIA.state = .responseSent := staged.resolve_left unanswered
        obtain ⟨resp, response⟩ := shaped.responded role state
        simp [responsePassed, state, response]
    obtain ⟨after, worked, requeues⟩ := (doWork_requeues_iff env resources this reaches now pIA rest list due).mpr
      (memory.survives role)
    exact ⟨passed, after, worked, requeues, fun none => absurd none passed⟩

/-- A turn of the server, and the payload functions in any state of a message, do without null pointers if and
only if there is memory for what they allocate. -/
theorem memory_checked_iff (env : Env) (resources : List CoapResource) (this : CoapServer)
    (reaches : Reaches env resources this) (optionMem bufferMem : Bool) (pMsgReq : Option CoapMessage)
    (msg : PayloadMessage) :
    (∀ (now : UInt32) (pIA : CoapInteraction) (rest : List CoapInteraction), this.pInteractions = pIA :: rest →
      pIA.sleepUntil ≤ now → pIA.role = .server → (Checked env this now pIA rest ↔ ResponseMemory env this pIA)) ∧
    (∀ data : List UInt8, (addNewPayloadToMessage bufferMem msg data).isSome = true ↔
      maxPayloadSize < data.length ∨ BufferAvailable bufferMem msg data.length) ∧
    (∀ (pPayload : PayloadSource) (payloadTotalSize : UInt16), Covers pPayload payloadTotalSize.toNat →
      ((setPayload optionMem bufferMem pMsgReq msg pPayload payloadTotalSize).isSome = true ↔
        PayloadAvailable bufferMem pMsgReq msg pPayload payloadTotalSize.toNat)) :=
  ⟨checked_iff env resources this reaches, fun _ => addNewPayloadToMessage_isSome, fun _ _ => setPayload_isSome⟩

/-- The first turn of a request, and a text that needs a buffer. -/
theorem sensor_memory_checked : ∃ (this : CoapServer) (pIA : CoapInteraction), Checked idealEnv this 0 pIA [] ∧
    (addNewPayloadToMessage true ⟨coapInitToEmptyResetMsg, .null, [], by decide⟩ blockNotExisting).isSome = true ∧
    (setPayload true true none ⟨coapInitToEmptyResetMsg, .null, [], by decide⟩ (.external [1, 2] true) 2).isSome = true := by
  have reached : ([Event.packet (datagram 0 getSensor) 0].foldlM (step idealEnv) (new [sensor])).map
      (fun this => this.pInteractions.map fun pIA => (pIA.role, pIA.sleepUntil)) = some [(.server, 0)] := by
    decide +kernel
  obtain ⟨this, taken, facts⟩ := Option.map_eq_some_iff.mp reached
  obtain ⟨pIA, list, facts⟩ := List.map_eq_singleton_iff.mp facts
  simp only [Prod.mk.injEq] at facts
  obtain ⟨turn, add, set⟩ := memory_checked_iff idealEnv [sensor] this (.of_events _ .refl taken) true true none
    ⟨coapInitToEmptyResetMsg, .null, [], by decide⟩
  refine ⟨this, pIA, ?_, ?_, ?_⟩
  · apply (turn 0 pIA [] list (by simp [facts.2]) facts.1).mpr
    exact fun _ _ _ _ _ _ _ => .inl rfl
  · exact (add blockNotExisting).mpr (.inr (.inr rfl))
  · have covers : Covers (.external [1, 2] true) (2 : UInt16).toNat := Nat.le_refl 2
    exact (set (.external [1, 2] true) 2 covers).mpr (.inr (.inr rfl))

/-- The ninth allocation fails, that of the response message: the handler gets a null pointer. -/
theorem sensor_memory_unchecked : ¬ ∀ (env : Env) (resources : List CoapResource) (this : CoapServer),
    Reaches env resources this → ∀ (now : UInt32) (pIA : CoapInteraction) (rest : List CoapInteraction),
      this.pInteractions = pIA :: rest → pIA.sleepUntil ≤ now → pIA.role = .server → Checked env this now pIA rest := by
  intro checked
  let env : Env := { idealEnv with alloc := fun n => n ≠ 8 }
  have reached : ([Event.packet (datagram 0 getSensor) 0].foldlM (step env) (new [sensor])).map
      (fun this => this.pInteractions.map fun pIA => (pIA.role, pIA.sleepUntil, (responsePassed env this pIA).isNone)) =
        some [(.server, 0, true)] := by
    decide +kernel
  obtain ⟨this, taken, facts⟩ := Option.map_eq_some_iff.mp reached
  obtain ⟨pIA, list, facts⟩ := List.map_eq_singleton_iff.mp facts
  simp only [Prod.mk.injEq] at facts
  obtain ⟨role, sleepUntil, missing⟩ := facts
  have turn := checked env [sensor] this (.of_events _ .refl taken) 0 pIA [] list (by simp [sleepUntil]) role
  exact turn.passed (Option.isNone_iff_eq_none.mp missing)

end CoapServer

end SmingCoap.Server
