import SmingCoap.Server.Invariants

/-! # Which packets are ignored

Three combinations of type and code make no sense, and a packet with one of them
is to be ignored.  The filter tests for an empty confirmable message twice and
for an empty non-confirmable one never, so that one goes on to the search for
the request it would answer.
-/

namespace SmingCoap.Server

namespace CoapServer

/-- Empty in a non-confirmable message, a request in an acknowledgement, a request or a response in a
reset. -/
def RuledOut (msg : CoapMessage) : Prop :=
  msg.type = .non ∧ msg.code = empty ∨ msg.type = .ack ∧ msg.isRequest = true ∨
    msg.type = .rst ∧ (msg.isRequest = true ∨ msg.isResponse = true)

/-- Of a packet nothing but its arrival is noted, and everything else stays as it is. -/
structure Ignores (pckt : NetPacket) (msg : CoapMessage) (this after : CoapServer) : Prop where
  log : after.log = .received pckt msg :: this.log
  pInteractions : after.pInteractions = this.pInteractions
  resources : after.resources = this.resources

/-- An empty non-confirmable message gets stuck behind the filter: on an unknown critical option, on a
reset that cannot be sent, or on a request that takes no response or has this very one. -/
def GetsStuck (env : Env) (this : CoapServer) (sender : NetEp) (msg : CoapMessage) : Prop :=
  checkForUnknownCriticalOption msg.options ≠ 0 ∨
    match this.findRequest msg sender with
    | none => env.transmit this.transmissions = false
    | some pIA =>
      pIA.state = .waitingResponse ∨ pIA.state = .handleResponse →
        pIA.state = .handleResponse ∧ pIA.pRespMsg = some msg

theorem Ignores.noted {pckt : NetPacket} {msg : CoapMessage} {this after : CoapServer}
    (list : after.pInteractions = this.pInteractions) (resources : after.resources = this.resources)
    (log : after.log = (this.noted pckt msg).log) : Ignores pckt msg this after :=
  ⟨log, list, resources⟩

/-- An interaction goes back as it was if and only if the list stays as it was. -/
theorem storeInteraction_same {this : CoapServer} {pIA worked : CoapInteraction}
    (nodup : (this.pInteractions.map CoapInteraction.ref).Nodup) (member : pIA ∈ this.pInteractions)
    (ref : worked.ref = pIA.ref) :
    (this.storeInteraction worked).pInteractions = this.pInteractions ↔ worked = pIA := by
  constructor
  · intro same
    have kept := List.map_inj_left.mp (same.trans (List.map_id _).symm) pIA member
    simpa [ref] using kept
  · intro same
    subst same
    apply (List.map_inj_left.mpr _).trans (List.map_id _)
    intro other listed
    by_cases found : other.ref = worked.ref
    · simp [eq_of_ref nodup listed member found]
    · simp [found]

/-- A request that takes no response, or takes the one it has, stays as it is. -/
theorem attachResponse_same (pIA : CoapInteraction) (msg : CoapMessage) :
    (if pIA.state = .waitingResponse ∨ pIA.state = .handleResponse then attachResponse pIA msg else pIA) = pIA ↔
      (pIA.state = .waitingResponse ∨ pIA.state = .handleResponse →
        pIA.state = .handleResponse ∧ pIA.pRespMsg = some msg) := by
  by_cases takes : pIA.state = .waitingResponse ∨ pIA.state = .handleResponse
  · simp only [takes, if_true, true_implies, attachResponse]
    constructor
    · intro same
      rw [← same]
      exact ⟨rfl, rfl⟩
    · rintro ⟨state, response⟩
      rw [← state, ← response]
  · simp [takes]

section
variable {env : Env} {this : CoapServer} {now : UInt32} {pckt : NetPacket} {msg : CoapMessage}

/-- An empty non-confirmable message behind the checks. -/
theorem onSeparateResponse_ignores (nodup : (this.pInteractions.map CoapInteraction.ref).Nodup)
    (type : msg.type = .non) :
    Ignores pckt msg this ((this.noted pckt msg).onSeparateResponse env now pckt msg) ↔
      match this.findRequest msg pckt.sender with
      | none => env.transmit this.transmissions = false
      | some pIA =>
        pIA.state = .waitingResponse ∨ pIA.state = .handleResponse →
          pIA.state = .handleResponse ∧ pIA.pRespMsg = some msg := by
  have same : (this.noted pckt msg).findRequest msg pckt.sender = this.findRequest msg pckt.sender := rfl
  simp only [onSeparateResponse, same, type, reduceCtorEq, if_false]
  cases found : this.findRequest msg pckt.sender with
  | none =>
    -- the reset is noted if and only if it can be sent
    cases success : env.transmit this.transmissions with
    | true =>
      simp only [sendShortResp, @sendMsg_sent env (this.noted pckt msg) now none (some pckt) _ pckt.ifID
        pckt.sender success, Bool.true_eq_false, iff_false]
      intro ignores
      exact absurd ignores.log (List.cons_ne_self _ _)
    | false =>
      obtain ⟨_, failed⟩ := @sendMsg_failed env (this.noted pckt msg) now none (some pckt)
        { coapInitToEmptyResetMsg with type := .rst, code := empty, messageID := msg.messageID, token64 := msg.token64 }
        pckt.ifID pckt.sender success
      simp only [sendShortResp, failed, iff_true]
      exact ⟨rfl, rfl, rfl⟩
  | some pIA =>
    obtain ⟨member, _⟩ := findRequest_awaits found
    simp only
    rw [← attachResponse_same pIA msg]
    have ref : (if pIA.state = .waitingResponse ∨ pIA.state = .handleResponse then attachResponse pIA msg
        else pIA).ref = pIA.ref := by
      split <;> rfl
    have stored := storeInteraction_same nodup member ref
    rw [← stored]
    constructor
    · exact fun ignores => ignores.pInteractions
    · exact fun list => ⟨rfl, list, rfl⟩

/-- A combination that makes no sense is ignored, but for an empty non-confirmable message that does not
get stuck. -/
theorem onMessage_ignores (nodup : (this.pInteractions.map CoapInteraction.ref).Nodup) (ruledOut : RuledOut msg) :
    Ignores pckt msg this ((this.noted pckt msg).onMessage env now pckt msg) ↔
      (msg.type = .non → GetsStuck env this pckt.sender msg) := by
  have ignores : Ignores pckt msg this (this.noted pckt msg) := ⟨rfl, rfl, rfl⟩
  rcases ruledOut with nothing | request | answer
  · obtain ⟨type, code⟩ := nothing
    have notRequest : msg.isRequest = false := by simp [CoapMessage.isRequest, code]
    simp only [onMessage, type, notRequest, reduceCtorEq, false_and, if_false, Bool.false_eq_true, checkOptions,
      forall_const, GetsStuck]
    by_cases known : checkForUnknownCriticalOption msg.options = 0
    · simp only [known, ne_eq, not_true_eq_false, if_false, false_or, dispatch, type]
      exact onSeparateResponse_ignores nodup type
    · simp [known, ignores]
  · simp [onMessage, request.1, request.2, ignores]
  · obtain ⟨type, code⟩ := answer
    have filled : msg.code ≠ empty := by
      cases code with
      | inl request =>
        simp only [CoapMessage.isRequest, ne_eq, Bool.and_eq_true, decide_eq_true_eq] at request
        exact request.1
      | inr response =>
        simp only [CoapMessage.isResponse, ne_eq, Bool.and_eq_true, decide_eq_true_eq] at response
        exact response.1
    simp [onMessage, type, filled, ignores]

end

/-- In a state that is reached, a packet that makes no sense is ignored, if and only if it is not an
empty non-confirmable message or such a message gets stuck. -/
theorem ruledOut_ignored_iff (env : Env) (resources : List CoapResource) (this : CoapServer)
    (reaches : Reaches env resources this) (now : UInt32) (pckt : NetPacket) (msg : CoapMessage)
    (parsed : this.parsePacket env now pckt = some msg) (ruledOut : RuledOut msg) :
    Ignores pckt msg this (this.onNewPacketHandler env now pckt) ↔
      (msg.type = .non → GetsStuck env this pckt.sender msg) := by
  have handled : this.onNewPacketHandler env now pckt = (this.noted pckt msg).onMessage env now pckt msg := by
    rw [onNewPacketHandler, parsed]
    rfl
  rw [handled]
  exact onMessage_ignores (run_shaped reaches).numbered.nodup ruledOut

/-- An acknowledgement with a GET in it. -/
theorem sensor_ruledOut_ignored : ∃ msg,
    (new [sensor]).parsePacket idealEnv 0 (datagram 0 [0x60, 0x01, 0x00, 0x01]) = some msg ∧
      Ignores (datagram 0 [0x60, 0x01, 0x00, 0x01]) msg (new [sensor])
        ((new [sensor]).onNewPacketHandler idealEnv 0 (datagram 0 [0x60, 0x01, 0x00, 0x01])) := by
  have parsed : ((new [sensor]).parsePacket idealEnv 0 (datagram 0 [0x60, 0x01, 0x00, 0x01])).map
      (fun msg => (msg.type, msg.isRequest)) = some (.ack, true) := by
    decide +kernel
  obtain ⟨msg, found, facts⟩ := Option.map_eq_some_iff.mp parsed
  simp only [Prod.mk.injEq] at facts
  refine ⟨msg, found, (ruledOut_ignored_iff idealEnv [sensor] _ .refl 0 _ msg found (.inr (.inl facts))).mpr ?_⟩
  simp [facts.1]

/-- An empty non-confirmable message is answered with a reset. -/
theorem emptyNon_answered : ¬ ∀ (env : Env) (resources : List CoapResource) (this : CoapServer),
    Reaches env resources this → ∀ (now : UInt32) (pckt : NetPacket) (msg : CoapMessage),
      this.parsePacket env now pckt = some msg → RuledOut msg →
        Ignores pckt msg this (this.onNewPacketHandler env now pckt) := by
  intro ignored
  have parsed : ((new [sensor]).parsePacket idealEnv 0 (datagram 0 [0x50, 0x00, 0x00, 0x01])).map
      (fun msg => (msg.type, msg.code)) = some (.non, empty) := by
    decide +kernel
  obtain ⟨msg, found, facts⟩ := Option.map_eq_some_iff.mp parsed
  simp only [Prod.mk.injEq] at facts
  have ignores := ignored idealEnv [sensor] (new [sensor]) .refl 0 _ msg found (.inl facts)
  have noted : ((new [sensor]).onNewPacketHandler idealEnv 0 (datagram 0 [0x50, 0x00, 0x00, 0x01])).log.length =
      2 := by
    decide +kernel
  rw [ignores.log] at noted
  cases noted

end CoapServer

end SmingCoap.Server
