import SmingCoap.Server.WorkSteps

/-! # What a received packet can do

A packet that can be parsed is noted.  It is answered without an interaction,
starts a server interaction, or changes one interaction of the list: an
acknowledgement or a reset marks the first that awaits it, a response is
attached to a client.
-/

namespace SmingCoap.Server

namespace CoapServer

/-- A message that goes out for a packet, whichever interactions there are. -/
inductive Replies (pckt : NetPacket) (msg : CoapMessage) : Effect → Prop
  | nextMid (mid : Nat) : Replies pckt msg (.nextMid mid)
  | sent {reply : CoapMessage} (token : reply.code = empty ∨ reply.token64 = msg.token64) :
      Replies pckt msg (.sent none (some pckt) pckt.ifID pckt.sender reply)

/-- An interaction that its message was acknowledged or reset for. -/
def marked (pIA : CoapInteraction) (state : ReliabilityState) : CoapInteraction :=
  match pIA.role with
  | .client => { pIA with reqReliabilityState := state }
  | _ => { pIA with respReliabilityState := state }

/-- What a mark does not touch. -/
theorem marked_fields (pIA : CoapInteraction) (state : ReliabilityState) :
    (marked pIA state).ref = pIA.ref ∧ (marked pIA state).role = pIA.role ∧
      (marked pIA state).state = pIA.state ∧ (marked pIA state).pRes = pIA.pRes ∧
      (marked pIA state).pReqMsg = pIA.pReqMsg ∧ (marked pIA state).pRespMsg = pIA.pRespMsg ∧
      (marked pIA state).remoteEp = pIA.remoteEp ∧ (marked pIA state).ifID = pIA.ifID ∧
      (marked pIA state).origin = pIA.origin := by
  unfold marked
  cases pIA.role with
  | server => exact ⟨rfl, rfl, rfl, rfl, rfl, rfl, rfl, rfl, rfl⟩
  | notification => exact ⟨rfl, rfl, rfl, rfl, rfl, rfl, rfl, rfl, rfl⟩
  | client => exact ⟨rfl, rfl, rfl, rfl, rfl, rfl, rfl, rfl, rfl⟩

/-- The interaction that a separate response belongs to. -/
structure AwaitsResponse (pIA : CoapInteraction) (pckt : NetPacket) (msg : CoapMessage) : Prop where
  role : pIA.role = .client
  token : ∃ req, pIA.pReqMsg = some req ∧ req.token64 = msg.token64
  sender : epAreEqual pckt.sender pIA.remoteEp = true

/-- A message that is no request gets behind the checks. -/
def Accepted (msg : CoapMessage) : Prop :=
  msg.isRequest = false ∧ checkForUnknownCriticalOption msg.options = 0

/-- What a packet makes of an interaction. -/
inductive Touches (this : CoapServer) (pckt : NetPacket) (msg : CoapMessage) (pIA : CoapInteraction) :
    CoapInteraction → Prop
  | reset (type : msg.type = .rst)
      (found : this.pInteractions.find? (fun other => other.awaits msg.messageID pckt.sender) = some pIA) :
      Touches this pckt msg pIA (marked pIA .rstSet)
  | acknowledged (type : msg.type = .ack) (accepted : Accepted msg)
      (found : this.pInteractions.find? (fun other => other.awaits msg.messageID pckt.sender) = some pIA) :
      Touches this pckt msg pIA (marked pIA .ackSet)
  | piggybacked (type : msg.type = .ack) (accepted : Accepted msg)
      (found : this.pInteractions.find? (fun other => other.awaits msg.messageID pckt.sender) = some pIA)
      (role : pIA.role = .client) (state : pIA.state = .waitingResponse) :
      Touches this pckt msg pIA (attachResponse (marked pIA .ackSet) msg)
  | separate (awaits : AwaitsResponse pIA pckt msg)
      (state : pIA.state = .waitingResponse ∨ pIA.state = .handleResponse) (reliability : ReliabilityState) :
      Touches this pckt msg pIA { attachResponse pIA msg with respReliabilityState := reliability }
  | early (awaits : AwaitsResponse pIA pckt msg) (reliability : ReliabilityState) :
      Touches this pckt msg pIA { pIA with respReliabilityState := reliability }

theorem Touches.identity {this : CoapServer} {pckt : NetPacket} {msg : CoapMessage} {pIA worked : CoapInteraction}
    (touches : Touches this pckt msg pIA worked) : worked.ref = pIA.ref ∧ worked.role = pIA.role ∧
      worked.pRes = pIA.pRes ∧ worked.remoteEp = pIA.remoteEp ∧ worked.ifID = pIA.ifID ∧
      worked.origin = pIA.origin ∧ worked.pReqMsg = pIA.pReqMsg := by
  have fields : ∀ state, _ := fun state => marked_fields pIA state
  cases touches with
  | reset =>
    obtain ⟨ref, role, _, pRes, pReqMsg, _, remoteEp, ifID, origin⟩ := fields .rstSet
    exact ⟨ref, role, pRes, remoteEp, ifID, origin, pReqMsg⟩
  | acknowledged =>
    obtain ⟨ref, role, _, pRes, pReqMsg, _, remoteEp, ifID, origin⟩ := fields .ackSet
    exact ⟨ref, role, pRes, remoteEp, ifID, origin, pReqMsg⟩
  | piggybacked =>
    obtain ⟨ref, role, _, pRes, pReqMsg, _, remoteEp, ifID, origin⟩ := fields .ackSet
    exact ⟨ref, role, pRes, remoteEp, ifID, origin, pReqMsg⟩
  | separate => exact ⟨rfl, rfl, rfl, rfl, rfl, rfl, rfl⟩
  | early => exact ⟨rfl, rfl, rfl, rfl, rfl, rfl, rfl⟩

/-- What an admitted request has passed. -/
structure Admits (this : CoapServer) (msg : CoapMessage) (pRes : Nat) (resource : CoapResource) : Prop where
  type : msg.type = .con ∨ msg.type = .non
  request : msg.isRequest = true
  found : findResourceByUri this.resources msg.options = some pRes
  listed : this.resources[pRes]? = some resource
  handler : resource.handler = true
  options : checkForUnknownCriticalOption msg.options = 0

/-- What becomes of a packet that could be parsed. -/
inductive Receives (env : Env) (now : UInt32) (pckt : NetPacket) (msg : CoapMessage) (this after : CoapServer) :
    Prop
  | answered {effects : List Effect} (replies : ∀ effect ∈ effects, Replies pckt msg effect)
      (placed : Places this after effects this.pInteractions)
  | duplicate {pIA : CoapInteraction} {req : CoapMessage} (member : pIA ∈ this.pInteractions)
      (role : pIA.role = .server) (state : pIA.state = .resourcePostponeEmptyAckSent)
      (request : pIA.pReqMsg = some req) (confirmable : req.type = .con)
      (placed : Places this after [sending now pIA { coapInitToEmptyResetMsg with
        type := .ack, messageID := req.messageID }] this.pInteractions)
  | admitted {pRes : Nat} {resource : CoapResource} (admits : Admits this msg pRes resource)
      (new : ∀ pIA ∈ this.pInteractions, pIA.isDuplicate pckt msg = false)
      (middle : CoapServer) (same : Silent this middle)
      (started : after = middle.startInteraction (.serving msg pRes pckt))
  | touched {pIA worked : CoapInteraction} {effects : List Effect} (notRequest : msg.isRequest = false)
      (member : pIA ∈ this.pInteractions) (touches : Touches this pckt msg pIA worked) (replies : ∀ effect ∈ effects, Replies pckt msg effect)
      (placed : Places this after effects
        (this.pInteractions.map fun other => if other.ref = worked.ref then worked else other))

theorem Silent.places {this after : CoapServer} (same : Silent this after) :
    Places this after [] this.pInteractions :=
  ⟨same.pInteractions, same.resources, same.interactions, same.log⟩

section
variable {env : Env} {now : UInt32} {pckt : NetPacket} {msg : CoapMessage}

theorem Receives.silent {this after : CoapServer} (same : Silent this after) :
    Receives env now pckt msg this after :=
  .answered (fun _ member => absurd member List.not_mem_nil) same.places

/-- A short response is sent, or it is not. -/
theorem sendShortResp_places (env : Env) (now : UInt32) (pckt : NetPacket) (this : CoapServer)
    (type : MessageType) (code : UInt8) (messageID : Nat) (token : UInt64) (reply : code = empty ∨ token = msg.token64) :
    ∃ effects, (∀ effect ∈ effects, Replies pckt msg effect) ∧
      Places this (this.sendShortResp env now none (some pckt) type code messageID token pckt.ifID pckt.sender).2
        effects this.pInteractions := by
  simp only [sendShortResp]
  cases success : env.transmit this.transmissions with
  | true =>
    rw [sendMsg_sent now none (some pckt) _ pckt.ifID pckt.sender success]
    refine ⟨_, ?_, ⟨rfl, rfl, rfl, List.singleton_append.symm⟩⟩
    intro effect member
    rw [List.mem_singleton.mp member]
    exact .sent (by simpa using reply)
  | false =>
    obtain ⟨_, failed⟩ := sendMsg_failed now none (some pckt)
      { coapInitToEmptyResetMsg with type, code, messageID, token64 := token } pckt.ifID pckt.sender success
    rw [failed]
    exact ⟨[], fun _ member => absurd member List.not_mem_nil, rfl, rfl, rfl, rfl⟩

theorem sendShortResp_receives (this : CoapServer) (type : MessageType) (code : UInt8) (messageID : Nat)
    (token : UInt64) (reply : code = empty ∨ token = msg.token64) :
    Receives env now pckt msg this
      (this.sendShortResp env now none (some pckt) type code messageID token pckt.ifID pckt.sender).2 := by
  obtain ⟨effects, replies, placed⟩ := sendShortResp_places env now pckt this type code messageID token reply
  exact .answered replies placed

theorem applyReliabilityState_eq (this : CoapServer) (state : ReliabilityState) (mID : Nat) (fromEp : NetEp) :
    this.applyReliabilityState state mID fromEp =
      match this.pInteractions.find? fun pIA => pIA.awaits mID fromEp with
      | none => (none, this)
      | some pIA => (some (marked pIA state), this.storeInteraction (marked pIA state)) := rfl

theorem storeInteraction_places (this : CoapServer) (pIA : CoapInteraction) :
    Places this (this.storeInteraction pIA) []
      (this.pInteractions.map fun other => if other.ref = pIA.ref then pIA else other) :=
  ⟨rfl, rfl, rfl, rfl⟩

theorem storeInteraction_twice (this : CoapServer) {pIA worked : CoapInteraction} (ref : worked.ref = pIA.ref) :
    (this.storeInteraction pIA).storeInteraction worked = this.storeInteraction worked := by
  simp only [storeInteraction, List.map_map, ref]
  congr 1
  apply List.map_congr_left
  intro other _
  simp only [Function.comp_apply]
  split
  next => simp
  next => simp

theorem onAck_receives (this : CoapServer) (accepted : Accepted msg) (type : msg.type = .ack) :
    Receives env now pckt msg this (this.onAck pckt msg) := by
  simp only [onAck, applyReliabilityState_eq]
  cases found : this.pInteractions.find? fun pIA => pIA.awaits msg.messageID pckt.sender with
  | none => exact .silent (.refl this)
  | some pIA =>
    have member := List.mem_of_find?_eq_some found
    simp only
    split
    next response =>
      obtain ⟨_, role, _, state⟩ := response
      have client : pIA.role = .client := by
        unfold marked at role
        split at role
        next client => exact client
        next => exact role
      have waiting : pIA.state = .waitingResponse := by simpa [marked, client] using state
      have ref : (attachResponse (marked pIA .ackSet) msg).ref = (marked pIA .ackSet).ref := rfl
      rw [storeInteraction_twice this ref]
      exact .touched accepted.1 member (.piggybacked type accepted found client waiting)
        (fun _ member => absurd member List.not_mem_nil) (storeInteraction_places _ _)
    next =>
      exact .touched accepted.1 member (.acknowledged type accepted found) (fun _ member => absurd member List.not_mem_nil)
        (storeInteraction_places _ _)

theorem onRequest_receives {this : CoapServer} {pRes : Nat} {resource : CoapResource}
    (admits : Admits this msg pRes resource) :
    Receives env now pckt msg this (this.onRequest env now pckt msg pRes) := by
  -- a request that is known already is acknowledged once more, or dropped
  cases found : this.pInteractions.find? fun pIA => pIA.isDuplicate pckt msg with
  | none =>
    simp only [onRequest, startNewServerInteraction, found, memGet]
    cases env.alloc this.allocs with
    | true =>
      have new : ∀ pIA ∈ this.pInteractions, pIA.isDuplicate pckt msg = false := by
        intro pIA member
        exact Bool.eq_false_iff.mpr (List.find?_eq_none.mp found pIA member)
      exact .admitted admits new { this with allocs := this.allocs + 1 } ⟨rfl, rfl, rfl, rfl, rfl⟩ rfl
    | false =>
      simp only
      split
      next =>
        obtain ⟨effects, replies, placed⟩ := sendShortResp_places env now pckt
          { this with allocs := this.allocs + 1 } .ack respInternalServerError msg.messageID msg.token64 (.inr rfl)
        exact .answered replies ⟨placed.1, placed.2, placed.3, placed.4⟩
      next => exact .silent ⟨rfl, rfl, rfl, rfl, rfl⟩
  | some pIA =>
    have member := List.mem_of_find?_eq_some found
    have duplicate := List.find?_some found
    simp only [CoapInteraction.isDuplicate, Bool.and_eq_true, decide_eq_true_eq] at duplicate
    simp only [onRequest, startNewServerInteraction, found]
    cases request : pIA.pReqMsg with
    | none => exact .silent (.refl this)
    | some req =>
      by_cases postponed : req.type = .con ∧ pIA.state = .resourcePostponeEmptyAckSent
      · simp only [if_pos postponed, sendEmptyAck, sendShortResp]
        cases success : env.transmit this.transmissions with
        | true =>
          rw [sendMsg_sent now _ _ _ _ _ success]
          exact .duplicate member duplicate.1.1.1 postponed.2 request postponed.1 ⟨rfl, rfl, rfl, rfl⟩
        | false =>
          obtain ⟨_, failed⟩ := sendMsg_failed now (some pIA) pIA.origin { coapInitToEmptyResetMsg with
            type := .ack, code := empty, messageID := req.messageID, token64 := 0 } pIA.ifID pIA.remoteEp success
          rw [failed]
          exact .answered (fun _ member => absurd member List.not_mem_nil) ⟨rfl, rfl, rfl, rfl⟩
      · simp only [if_neg postponed]
        exact .silent (.refl this)

theorem findRequest_awaits {this : CoapServer} {pIA : CoapInteraction}
    (found : this.findRequest msg pckt.sender = some pIA) :
    pIA ∈ this.pInteractions ∧ AwaitsResponse pIA pckt msg := by
  have awaits := List.find?_some found
  simp only [Bool.and_eq_true, decide_eq_true_eq, Option.any_eq_true] at awaits
  obtain ⟨⟨role, req, request, token⟩, sender⟩ := awaits
  exact ⟨List.mem_of_find?_eq_some found, role, ⟨req, request, token⟩, sender⟩

theorem onSeparateResponse_receives (this : CoapServer) (notRequest : msg.isRequest = false) :
    Receives env now pckt msg this (this.onSeparateResponse env now pckt msg) := by
  simp only [onSeparateResponse]
  split
  next pIA found =>
    obtain ⟨member, awaits⟩ := findRequest_awaits found
    -- the record as it goes back, with any mark on the acknowledgement
    have touches : ∀ reliability, Touches this pckt msg pIA
        { (if pIA.state = .waitingResponse ∨ pIA.state = .handleResponse then attachResponse pIA msg else pIA)
          with respReliabilityState := reliability } := by
      intro reliability
      split
      next state => exact .separate awaits state reliability
      next => exact .early awaits reliability
    generalize touched : (if pIA.state = .waitingResponse ∨ pIA.state = .handleResponse then
      attachResponse pIA msg else pIA) = worked at touches
    have same : { worked with respReliabilityState := worked.respReliabilityState } = worked := rfl
    split
    next =>
      obtain ⟨effects, replies, placed⟩ := sendShortResp_places env now pckt this .ack empty msg.messageID
        msg.token64 (.inl rfl)
      split
      next after sent =>
        rw [sent] at placed
        apply Receives.touched notRequest member (touches .ackSet) replies
        exact ⟨by rw [storeInteraction, placed.1], placed.2, placed.3, placed.4⟩
      next after failed =>
        rw [failed] at placed
        apply Receives.touched notRequest member (same ▸ touches worked.respReliabilityState) replies
        exact ⟨by rw [storeInteraction, placed.1], placed.2, placed.3, placed.4⟩
    next =>
      exact .touched notRequest member (same ▸ touches worked.respReliabilityState)
        (fun _ member => absurd member List.not_mem_nil) (storeInteraction_places this worked)
  next => exact sendShortResp_receives this .rst empty msg.messageID msg.token64 (.inl rfl)

theorem Replies.nextMid_first {effects : List Effect} (replies : ∀ effect ∈ effects, Replies pckt msg effect)
    (mid : Nat) : ∀ effect ∈ effects ++ [.nextMid mid], Replies pckt msg effect := by
  intro effect member
  cases List.mem_append.mp member with
  | inl later => exact replies effect later
  | inr first =>
    rw [List.mem_singleton.mp first]
    exact .nextMid mid

/-- A message with unknown critical options goes no further. -/
theorem checkOptions_receives {this : CoapServer} (pRes : Option Nat)
    (dispatched : checkForUnknownCriticalOption msg.options = 0 →
      Receives env now pckt msg this (this.dispatch env now pckt msg pRes)) :
    Receives env now pckt msg this (this.checkOptions env now pckt msg pRes) := by
  unfold checkOptions
  split
  next =>
    split
    next =>
      split
      next => exact sendShortResp_receives this .ack respBadOption msg.messageID msg.token64 (.inr rfl)
      next => exact sendShortResp_receives this .rst empty msg.messageID 0 (.inl rfl)
    next => exact .silent (.refl this)
  next known => exact dispatched (Decidable.not_not.mp known)

theorem dispatch_receives (this : CoapServer) (notRequest : msg.isRequest = false)
    (known : checkForUnknownCriticalOption msg.options = 0) :
    Receives env now pckt msg this (this.dispatch env now pckt msg none) := by
  unfold dispatch
  cases type : msg.type with
  | con => exact onSeparateResponse_receives this notRequest
  | non => exact onSeparateResponse_receives this notRequest
  | ack => exact onAck_receives this ⟨notRequest, known⟩ type
  | rst =>
    simp only [applyReliabilityState_eq]
    cases found : this.pInteractions.find? fun pIA => pIA.awaits msg.messageID pckt.sender with
    | none => exact .silent (.refl this)
    | some pIA =>
      exact .touched notRequest (List.mem_of_find?_eq_some found) (.reset type found)
        (fun _ member => absurd member List.not_mem_nil) (storeInteraction_places this _)

theorem onMessage_receives (this : CoapServer) :
    Receives env now pckt msg this (this.onMessage env now pckt msg) := by
  unfold onMessage
  split
  next => exact sendShortResp_receives this .rst empty msg.messageID 0 (.inl rfl)
  next notPing =>
    split
    next => exact .silent (.refl this)
    next notAck =>
      -- an acknowledgement or a reset that is a request is dropped
      split
      next => exact .silent (.refl this)
      next notReset =>
        split
        next request =>
          split
          next =>
            split
            next => exact sendShortResp_receives this .ack respNotFound msg.messageID msg.token64 (.inr rfl)
            next =>
              obtain ⟨effects, replies, placed⟩ := sendShortResp_places env now pckt this.getNextMid.2 .non
                respNotFound this.getNextMid.1 msg.token64 (.inr rfl)
              apply Receives.answered (Replies.nextMid_first replies this.getNextMid.1)
              exact ⟨placed.1, placed.2, placed.3, placed.4.trans (List.append_cons _ _ _)⟩
          next pRes found =>
            obtain ⟨found, handled⟩ := Option.filter_eq_some_iff.mp found
            obtain ⟨resource, listed, handler⟩ := Option.any_eq_true _ _ |>.mp handled
            apply checkOptions_receives
            intro known
            have notEmpty : msg.code ≠ empty := by
              simp only [CoapMessage.isRequest, ne_eq, Bool.and_eq_true, decide_eq_true_eq] at request
              exact request.1
            unfold dispatch
            cases type : msg.type with
            | con => exact onRequest_receives ⟨.inl type, request, found, listed, handler, known⟩
            | non => exact onRequest_receives ⟨.inr type, request, found, listed, handler, known⟩
            | ack => exact absurd ⟨type, request⟩ notAck
            | rst => exact absurd ⟨type, notEmpty⟩ notReset
        next other =>
          have notRequest : msg.isRequest = false := Bool.eq_false_iff.mpr other
          exact checkOptions_receives none (dispatch_receives this notRequest)

end

/-- A packet that could be parsed is noted before anything else happens. -/
def noted (this : CoapServer) (pckt : NetPacket) (msg : CoapMessage) : CoapServer :=
  { this with allocs := this.allocs + pckt.size.toNat + 1, log := .received pckt msg :: this.log }

theorem onNewPacketHandler_cases (env : Env) (this : CoapServer) (now : UInt32) (pckt : NetPacket) :
    this.parsePacket env now pckt = none ∧ Silent this (this.onNewPacketHandler env now pckt) ∨
      ∃ msg, this.parsePacket env now pckt = some msg ∧
        Receives env now pckt msg (this.noted pckt msg) (this.onNewPacketHandler env now pckt) := by
  unfold onNewPacketHandler
  cases parsed : this.parsePacket env now pckt with
  | none => exact .inl ⟨rfl, rfl, rfl, rfl, rfl, rfl⟩
  | some msg => exact .inr ⟨msg, rfl, onMessage_receives (this.noted pckt msg)⟩

end CoapServer

end SmingCoap.Server
