import SmingCoap.Server.Invariants

/-! # Responses and the requests they answer

Type and message id of a response depend on whether an empty acknowledgement
went out before it.  The flag `ReqReliabilityState` of an interaction without a
response says just that, and once there is a response it is not looked at again.
-/

namespace SmingCoap.Server

namespace CoapServer

/-- An empty acknowledgement was sent for an interaction. -/
def EmptyAckSent (log : List Effect) (ref : Nat) : Prop :=
  ∃ pIA origin ifID receiver msg, .sent (some pIA) origin ifID receiver msg ∈ log ∧ pIA.ref = ref ∧
    msg.type = .ack ∧ msg.code = empty

/-- A response was sent as an acknowledgement. -/
def AckResponseSent (log : List Effect) (ref : Nat) : Prop :=
  ∃ pIA origin ifID receiver msg, .sent (some pIA) origin ifID receiver msg ∈ log ∧ pIA.ref = ref ∧
    msg.type = .ack ∧ msg.code ≠ empty

/-- A response goes with its request, after what was sent before. -/
structure Paired (log : List Effect) (ref : Nat) (req resp : CoapMessage) : Prop where
  token64 : resp.token64 = req.token64
  piggybacked : req.type = .con → ¬ EmptyAckSent log ref → resp.type = .ack ∧ resp.messageID = req.messageID
  separate : req.type = .con → EmptyAckSent log ref → resp.type = .con ∧ .nextMid resp.messageID ∈ log

/-- Handlers leave token and message id of the response alone. -/
def HandlersKeep (env : Env) : Prop :=
  ∀ turn pRes req resp, (env.handler turn pRes req (some resp)).resp.token64 = resp.token64 ∧
    (env.handler turn pRes req (some resp)).resp.messageID = resp.messageID

/-! ## What was sent -/

section
variable {log : List Effect} {effect : Effect} {ref : Nat}

theorem EmptyAckSent.cons (effect : Effect) (sent : EmptyAckSent log ref) : EmptyAckSent (effect :: log) ref := by
  obtain ⟨pIA, origin, ifID, receiver, msg, member, rest⟩ := sent
  exact ⟨pIA, origin, ifID, receiver, msg, List.mem_cons_of_mem _ member, rest⟩

/-- What an interaction sent of a kind was sent before an effect of another one, or of another kind. -/
theorem sent_earlier {Kind : CoapMessage → Prop} (other : effect.actor ≠ some ref ∨
    ∀ pIA origin ifID receiver msg, effect = .sent (some pIA) origin ifID receiver msg → ¬ Kind msg)
    (sent : ∃ pIA origin ifID receiver msg, .sent (some pIA) origin ifID receiver msg ∈ effect :: log ∧
      pIA.ref = ref ∧ Kind msg) :
    ∃ pIA origin ifID receiver msg, .sent (some pIA) origin ifID receiver msg ∈ log ∧ pIA.ref = ref ∧ Kind msg := by
  obtain ⟨pIA, origin, ifID, receiver, msg, member, same, kind⟩ := sent
  cases List.mem_cons.mp member with
  | inl first =>
    cases other with
    | inl foreign =>
      rw [← first] at foreign
      exact absurd (congrArg some same) foreign
    | inr unlike => exact absurd kind (unlike pIA origin ifID receiver msg first.symm)
  | inr before => exact ⟨pIA, origin, ifID, receiver, msg, before, same, kind⟩

theorem EmptyAckSent.earlier (other : effect.actor ≠ some ref ∨
    ∀ pIA origin ifID receiver msg, effect = .sent (some pIA) origin ifID receiver msg → msg.code ≠ empty)
    (sent : EmptyAckSent (effect :: log) ref) : EmptyAckSent log ref := by
  refine sent_earlier (other.imp_right ?_) sent
  intro response pIA origin ifID receiver msg same ack
  exact response pIA origin ifID receiver msg same ack.2

theorem AckResponseSent.earlier (other : effect.actor ≠ some ref ∨
    ∀ pIA origin ifID receiver msg, effect = .sent (some pIA) origin ifID receiver msg → msg.code = empty)
    (sent : AckResponseSent (effect :: log) ref) : AckResponseSent log ref := by
  refine sent_earlier (other.imp_right ?_) sent
  intro response pIA origin ifID receiver msg same ack
  exact ack.2 (response pIA origin ifID receiver msg same)

theorem Paired.cons {req resp : CoapMessage} (paired : Paired log ref req resp)
    (earlier : EmptyAckSent (effect :: log) ref → EmptyAckSent log ref) : Paired (effect :: log) ref req resp where
  token64 := paired.token64
  piggybacked := fun confirmable none => paired.piggybacked confirmable fun sent => none (sent.cons effect)
  separate := by
    intro confirmable sent
    obtain ⟨type, drawn⟩ := paired.separate confirmable (earlier sent)
    exact ⟨type, List.mem_cons_of_mem _ drawn⟩

theorem Paired.transmitted {req resp : CoapMessage} (paired : Paired log ref req resp) (now : UInt32) :
    Paired log ref req (transmitted now resp) where
  token64 := by rw [transmitted_token64]; exact paired.token64
  piggybacked := by rw [transmitted_type, transmitted_messageID]; exact paired.piggybacked
  separate := by rw [transmitted_type, transmitted_messageID]; exact paired.separate

end

/-! ## The invariant -/

/-- What the fields of a server interaction say about the log. -/
structure Pairing (resources : List CoapResource) (log : List Effect) (pIA : CoapInteraction) (req : CoapMessage) :
    Prop where
  request : pIA.pReqMsg = some req
  answered : pIA.state = .responseSent → ∃ resp, pIA.pRespMsg = some resp ∧ resp.code ≠ empty ∧
    Paired log pIA.ref req resp
  unanswered : Unanswered pIA → ¬ AckResponseSent log pIA.ref
  acknowledged : Unanswered pIA → (pIA.reqReliabilityState = .ackSet ↔ EmptyAckSent log pIA.ref)
  postponed : pIA.state = .resourcePostponeEmptyAckSent → pIA.reqReliabilityState = .ackSet
  offered : Unanswered pIA → ∀ resp, pIA.pRespMsg = some resp → resp.token64 = req.token64 ∧
    (req.type = .con → pIA.reqReliabilityState ≠ .ackSet → resp.messageID = req.messageID)
  supported : Unanswered pIA → pIA.reqReliabilityState = .ackSet → ∀ pRes resource, pIA.pRes = some pRes →
    resources[pRes]? = some resource → methodNotAllowed req.code resource.flags = false

theorem Pairing.congr {resources : List CoapResource} {log : List Effect} {pIA worked : CoapInteraction}
    {req : CoapMessage} (pairing : Pairing resources log pIA req) (ref : worked.ref = pIA.ref)
    (state : worked.state = pIA.state) (pRes : worked.pRes = pIA.pRes) (pReqMsg : worked.pReqMsg = pIA.pReqMsg)
    (pRespMsg : worked.pRespMsg = pIA.pRespMsg)
    (reliability : worked.reqReliabilityState = pIA.reqReliabilityState) : Pairing resources log worked req := by
  have stage : Unanswered worked → Unanswered pIA := by
    unfold Unanswered
    rw [state]
    exact id
  refine ⟨pReqMsg.trans pairing.request, ?_, ?_, ?_, ?_, ?_, ?_⟩
  · rw [state, pRespMsg, ref]
    exact pairing.answered
  · rw [ref]
    exact fun waiting => pairing.unanswered (stage waiting)
  · rw [ref, reliability]
    exact fun waiting => pairing.acknowledged (stage waiting)
  · rw [state, reliability]
    exact pairing.postponed
  · rw [pRespMsg, reliability]
    exact fun waiting => pairing.offered (stage waiting)
  · rw [reliability, pRes]
    exact fun waiting => pairing.supported (stage waiting)

/-- An effect that is neither an empty acknowledgement nor a response. -/
theorem Pairing.cons {resources : List CoapResource} {log : List Effect} {pIA : CoapInteraction}
    {req : CoapMessage} {effect : Effect} (pairing : Pairing resources log pIA req)
    (empty : EmptyAckSent (effect :: log) pIA.ref → EmptyAckSent log pIA.ref)
    (response : AckResponseSent (effect :: log) pIA.ref → AckResponseSent log pIA.ref) :
    Pairing resources (effect :: log) pIA req where
  request := pairing.request
  answered := by
    intro state
    obtain ⟨resp, response, code, paired⟩ := pairing.answered state
    exact ⟨resp, response, code, paired.cons empty⟩
  unanswered := fun waiting sent => pairing.unanswered waiting (response sent)
  acknowledged := by
    intro waiting
    rw [pairing.acknowledged waiting]
    exact ⟨EmptyAckSent.cons effect, empty⟩
  postponed := pairing.postponed
  offered := pairing.offered
  supported := pairing.supported

/-- A transmission of a server interaction. -/
def PairedEffect (log : List Effect) : Effect → Prop
  | .sent (some pIA) _ _ _ msg => pIA.role = .server → ∃ req, pIA.pReqMsg = some req ∧
      (msg.code ≠ empty → Paired log pIA.ref req msg) ∧
      (msg.type = .ack → msg.code = empty → ¬ AckResponseSent log pIA.ref)
  | _ => True

/-! ## What work does to it -/

section
variable {env : Env} {resources listed : List CoapResource} {now : UInt32} {log : List Effect}
  {pIA : CoapInteraction} {req : CoapMessage}

/-- The message a handler is given has the token of the request, and its id if it can be piggybacked. -/
theorem Pairing.offers (pairing : Pairing resources log pIA req) (waiting : Unanswered pIA) {offered : CoapMessage}
    (offers : Offered pIA req (some offered)) : offered.token64 = req.token64 ∧
      (req.type = .con → pIA.reqReliabilityState ≠ .ackSet → offered.messageID = req.messageID) := by
  cases offers with
  | inl earlier => exact pairing.offered waiting offered earlier.1.symm
  | inr new =>
    have allocated := new.2 offered rfl
    exact ⟨allocated.token64, fun confirmable _ => (allocated.piggybacked confirmable).2⟩

/-- What is sent is a response, so no empty acknowledgement is new. -/
theorem EmptyAckSent.before_response {resp : CoapMessage} {ref : Nat} (code : resp.code ≠ empty)
    (sent : EmptyAckSent (sending now pIA resp :: log) ref) : EmptyAckSent log ref := by
  apply sent.earlier
  right
  intro other origin ifID receiver msg same
  cases same
  rwa [transmitted_code]

/-- A response is paired with the request of its interaction as it is sent. -/
theorem PairedEffect.response {resp : CoapMessage} (request : pIA.pReqMsg = some req) (code : resp.code ≠ empty)
    (paired : Paired log pIA.ref req resp) : PairedEffect log (sending now pIA resp) := by
  intro _
  refine ⟨req, request, fun _ => paired.transmitted now, ?_⟩
  intro _ empty
  rw [transmitted_code] at empty
  exact absurd empty code

/-- A response is sent, once. -/
theorem Pairing.responds (now : UInt32) (pairing : Pairing resources log pIA req) {resp : CoapMessage} (code : resp.code ≠ empty)
    (paired : Paired log pIA.ref req resp) :
    Pairing resources (sending now { pIA with pRespMsg := some resp } resp :: log)
      (responded now { pIA with pRespMsg := some resp } resp .responseSent) req := by
  obtain ⟨ref, _, state, _, pReqMsg, pRespMsg, _⟩ := responded_fields now { pIA with pRespMsg := some resp } resp
    .responseSent
  have waits : ¬ Unanswered (responded now { pIA with pRespMsg := some resp } resp .responseSent) := by
    unfold Unanswered
    rw [state]
    decide
  refine ⟨pReqMsg.trans pairing.request, ?_, fun waiting => absurd waiting waits,
    fun waiting => absurd waiting waits, ?_, fun waiting => absurd waiting waits, fun waiting => absurd waiting waits⟩
  · intro _
    refine ⟨_, pRespMsg, by rwa [transmitted_code], ?_⟩
    rw [ref]
    exact (paired.transmitted now).cons (EmptyAckSent.before_response code)
  · intro postponed
    rw [state] at postponed
    cases postponed

/-- A request whose method is not allowed was never postponed, so its refusal is piggybacked. -/
theorem Pairing.refused (layouts : layout listed = layout resources) (pairing : Pairing resources log pIA req)
    (waiting : Unanswered pIA) {pRes : Nat} {resource : CoapResource} (asked : pIA.pRes = some pRes)
    (found : listed[pRes]? = some resource) (refused : methodNotAllowed req.code resource.flags = true)
    {resp : CoapMessage} (allocated : Allocated req respMethodNotAllowed resp) : Paired log pIA.ref req resp := by
  obtain ⟨kept, listedToo, sameLayout⟩ := layout_getElem? layouts.symm found
  have fresh : ¬ EmptyAckSent log pIA.ref := by
    rw [← pairing.acknowledged waiting]
    intro acked
    have supported := pairing.supported waiting acked pRes kept asked listedToo
    rw [(layout_singleton sameLayout).1, refused] at supported
    cases supported
  exact ⟨allocated.token64, fun confirmable _ => allocated.piggybacked confirmable,
    fun _ sent => absurd sent fresh⟩

/-- What a handler made of the message it was given is paired when it is complete. -/
theorem Pairing.completed (keeps : HandlersKeep env) (pairing : Pairing resources log pIA req)
    (waiting : Unanswered pIA) {offered resp : CoapMessage} {turn pRes : Nat} (offers : Offered pIA req (some offered))
    (complete : Answers log pIA req (env.handler turn pRes req (some offered)).resp resp) :
    Paired log pIA.ref req resp := by
  obtain ⟨token, messageID⟩ := pairing.offers waiting offers
  obtain ⟨keepsToken, keepsID⟩ := keeps turn pRes req offered
  refine ⟨(complete.token64.trans keepsToken).trans token, ?_, ?_⟩
  · intro confirmable none
    have unacked : pIA.reqReliabilityState ≠ .ackSet := fun acked => none ((pairing.acknowledged waiting).mp acked)
    obtain ⟨type, same⟩ := complete.piggybacked confirmable unacked
    exact ⟨type, (same.trans keepsID).trans (messageID confirmable unacked)⟩
  · exact fun confirmable sent => complete.separate confirmable ((pairing.acknowledged waiting).mpr sent)

/-- The token of what a handler leaves behind is that of the request. -/
theorem Pairing.handled_token (keeps : HandlersKeep env) (pairing : Pairing resources log pIA req)
    (waiting : Unanswered pIA) {offered : Option CoapMessage} {turn pRes : Nat} (offers : Offered pIA req offered)
    {resp : CoapMessage} (handled : offered.map (fun _ => (env.handler turn pRes req offered).resp) = some resp) :
    resp.token64 = req.token64 := by
  obtain ⟨given, rfl, rfl⟩ := Option.map_eq_some_iff.mp handled
  exact (keeps turn pRes req given).1.trans (pairing.offers waiting offers).1

/-- A request that is acknowledged first, and answered later. -/
theorem Pairing.postpones (keeps : HandlersKeep env) (layouts : layout listed = layout resources) (now : UInt32)
    (pairing : Pairing resources log pIA req) (waiting : Unanswered pIA) {offered resp : Option CoapMessage}
    {turn pRes : Nat} {resource : CoapResource} (asked : pIA.pRes = some pRes)
    (found : listed[pRes]? = some resource) (supported : methodNotAllowed req.code resource.flags = false)
    (offers : Offered pIA req offered) (handled : resp = offered.map fun _ => (env.handler turn pRes req offered).resp) :
    Pairing resources
      (sending now { pIA with pRespMsg := resp } { coapInitToEmptyResetMsg with
        type := .ack, messageID := req.messageID } :: log)
      { pIA with
        pRespMsg := resp
        reqReliabilityState := .ackSet
        state := .resourcePostponeEmptyAckSent
        sleepUntil := now + postponeWaitTimeSek } req where
  request := pairing.request
  answered := by
    intro responseSent
    cases responseSent
  unanswered := by
    intro _ sent
    apply pairing.unanswered waiting
    apply sent.earlier
    right
    intro first origin ifID receiver msg same
    cases same
    rfl
  acknowledged := by
    intro _
    have acknowledges : EmptyAckSent (sending now { pIA with pRespMsg := resp } { coapInitToEmptyResetMsg with
        type := .ack, messageID := req.messageID } :: log) pIA.ref :=
      ⟨_, _, _, _, _, List.mem_cons_self, rfl, rfl, rfl⟩
    exact ⟨fun _ => acknowledges, fun _ => rfl⟩
  postponed := fun _ => rfl
  offered := by
    intro _ left response
    rw [handled] at response
    exact ⟨pairing.handled_token keeps waiting offers response, fun _ unacked => absurd rfl unacked⟩
  supported := by
    intro _ _ index kept sameIndex listedToo
    obtain rfl := Option.some.inj (sameIndex.symm.trans asked)
    obtain ⟨other, listedOther, sameLayout⟩ := layout_getElem? layouts.symm found
    rw [Option.some.inj (listedToo.symm.trans listedOther), (layout_singleton sameLayout).1]
    exact supported

/-- A request that is looked at again later, with nothing sent. -/
theorem Pairing.sleeps (keeps : HandlersKeep env) (now : UInt32) (pairing : Pairing resources log pIA req)
    (waiting : Unanswered pIA) {offered resp : Option CoapMessage} {turn pRes : Nat} (offers : Offered pIA req offered)
    (handled : resp = offered.map fun _ => (env.handler turn pRes req offered).resp)
    (later : req.type = .con → pIA.reqReliabilityState = .ackSet) :
    Pairing resources log { pIA with pRespMsg := resp, sleepUntil := now + postponeWaitTimeSek } req := by
  refine ⟨pairing.request, ?_, pairing.unanswered, pairing.acknowledged, pairing.postponed, ?_, pairing.supported⟩
  · intro responseSent
    cases waiting with
    | inl first => exact absurd (first.symm.trans responseSent) (by decide)
    | inr again => exact absurd (again.symm.trans responseSent) (by decide)
  · intro _ left response
    rw [handled] at response
    exact ⟨pairing.handled_token keeps waiting offers response,
      fun confirmable unacked => absurd (later confirmable) unacked⟩

/-- The response is sent once more. -/
theorem Pairing.repeats (now : UInt32) (pairing : Pairing resources log pIA req) (state : pIA.state = .responseSent)
    {resp : CoapMessage} (code : resp.code ≠ empty) (paired : Paired log pIA.ref req resp) :
    Pairing resources (sending now pIA resp :: log) (repeated now pIA resp) req := by
  have waits : ¬ Unanswered pIA := by
    unfold Unanswered
    rw [state]
    decide
  refine ⟨pairing.request, ?_, fun waiting => absurd waiting waits, fun waiting => absurd waiting waits,
    pairing.postponed, fun waiting => absurd waiting waits, fun waiting => absurd waiting waits⟩
  intro _
  exact ⟨_, rfl, by rwa [transmitted_code], (paired.transmitted now).cons (EmptyAckSent.before_response code)⟩

theorem Works.pairing (keeps : HandlersKeep env) (layouts : layout listed = layout resources)
    {effects : List Effect} {worked : CoapInteraction} (role : pIA.role = .server)
    (pairing : Pairing resources log pIA req) (works : Works env now listed log pIA effects worked) :
    (∀ effect ∈ effects, PairedEffect log effect) ∧ Pairing resources (effects ++ log) worked req := by
  have same : ∀ {other}, pIA.pReqMsg = some other → other = req :=
    fun request => Option.some.inj (request.symm.trans pairing.request)
  cases works with
  | waits => exact ⟨List.forall_mem_nil _, pairing⟩
  | @refuses other resp pRes resource _ state request asked found refused allocated =>
    obtain rfl := same request
    have code : resp.code ≠ empty := by
      rw [allocated.code]
      decide
    have paired := pairing.refused layouts state asked found refused allocated
    exact ⟨List.forall_mem_singleton.mpr (PairedEffect.response pairing.request code paired),
      pairing.responds now code paired⟩
  | @answers other offered resp turn pRes _ state request offers complete =>
    obtain rfl := same request
    have paired := pairing.completed keeps state offers complete
    exact ⟨List.forall_mem_singleton.mpr (PairedEffect.response pairing.request complete.code paired),
      pairing.responds now complete.code paired⟩
  | @postpones other offered resp turn pRes resource _ state request asked found supported offers handled _ _ =>
    obtain rfl := same request
    refine ⟨List.forall_mem_singleton.mpr ?_,
      pairing.postpones keeps layouts now state asked found supported offers handled⟩
    exact fun _ => ⟨other, pairing.request, fun response => absurd rfl response,
      fun _ _ => pairing.unanswered state⟩
  | @sleeps other offered resp turn pRes _ state request offers handled later =>
    obtain rfl := same request
    exact ⟨List.forall_mem_nil _, pairing.sleeps keeps now state offers handled later⟩
  | @repeats resp stage response =>
    cases stage with
    | inr notification => exact absurd (notification.1.symm.trans role) (by decide)
    | inl server =>
      obtain ⟨other, sent, code, paired⟩ := pairing.answered server.2
      obtain rfl := Option.some.inj (sent.symm.trans response)
      exact ⟨List.forall_mem_singleton.mpr (PairedEffect.response pairing.request code paired),
        pairing.repeats now server.2 code paired⟩
  | notifies notification => exact absurd (notification.symm.trans role) (by decide)
  | repeatsRefreshed notification => exact absurd (notification.symm.trans role) (by decide)
  | refreshes notification => exact absurd (notification.symm.trans role) (by decide)
  | requests client => exact absurd (client.symm.trans role) (by decide)
  | requestsAgain client => exact absurd (client.symm.trans role) (by decide)

end

/-- A new interaction, of which the log has nothing yet. -/
theorem Pairing.serving {resources : List CoapResource} {log : List Effect} (msg : CoapMessage) (pRes : Nat)
    (pckt : NetPacket) {ref : Nat} (fresh : Fresh log ref) :
    Pairing resources log { CoapInteraction.serving msg pRes pckt with ref } msg where
  request := rfl
  answered := by
    intro state
    cases state
  unanswered := by
    intro _ sent
    obtain ⟨pIA, origin, ifID, receiver, msg, member, same, _⟩ := sent
    exact fresh _ member (congrArg some same)
  acknowledged := by
    intro _
    constructor
    · intro acked
      cases acked
    · intro sent
      obtain ⟨pIA, origin, ifID, receiver, msg, member, same, _⟩ := sent
      exact absurd (congrArg some same) (fresh _ member)
  postponed := by
    intro state
    cases state
  offered := by
    intro _ resp response
    cases response
  supported := by
    intro _ acked
    cases acked

/-- Another empty acknowledgement for a duplicate. -/
theorem Pairing.duplicate {resources : List CoapResource} {log : List Effect} {pIA : CoapInteraction}
    {req : CoapMessage} (now : UInt32) (messageID : Nat) (pairing : Pairing resources log pIA req)
    (state : pIA.state = .resourcePostponeEmptyAckSent) :
    ¬ AckResponseSent log pIA.ref ∧ Pairing resources
      (sending now pIA { coapInitToEmptyResetMsg with type := .ack, messageID } :: log) pIA req := by
  have waiting : Unanswered pIA := .inr state
  have acknowledged := (pairing.acknowledged waiting).mp (pairing.postponed state)
  refine ⟨pairing.unanswered waiting, pairing.request, ?_, ?_, ?_, pairing.postponed, pairing.offered,
    pairing.supported⟩
  · intro responseSent
    rw [state] at responseSent
    cases responseSent
  · intro _ sent
    apply pairing.unanswered waiting
    apply sent.earlier
    right
    intro first origin ifID receiver msg same
    cases same
    rfl
  · exact fun _ => ⟨fun _ => acknowledged.cons _, fun _ => pairing.postponed state⟩

/-- A mark for the response leaves the rest alone. -/
theorem Pairing.touched {resources : List CoapResource} {log : List Effect} {this : CoapServer} {pckt : NetPacket}
    {msg req : CoapMessage} {pIA worked : CoapInteraction} (server : pIA.role = .server)
    (pairing : Pairing resources log pIA req) (touches : Touches this pckt msg pIA worked) :
    Pairing resources log worked req := by
  have marks : ∀ state, Pairing resources log (marked pIA state) req := by
    intro state
    unfold marked
    rw [server]
    exact pairing.congr rfl rfl rfl rfl rfl rfl
  cases touches with
  | reset => exact marks .rstSet
  | acknowledged => exact marks .ackSet
  | piggybacked _ _ _ client => exact absurd (client.symm.trans server) (by decide)
  | separate awaits => exact absurd (awaits.role.symm.trans server) (by decide)
  | early awaits => exact absurd (awaits.role.symm.trans server) (by decide)

/-- Every server interaction has its request and its log. -/
theorem pairing_stable (env : Env) (resources : List CoapResource) (keeps : HandlersKeep env) :
    Stable env resources (fun _ _ => True)
      (fun log pIA => pIA.role = .server → ∃ req, Pairing resources log pIA req) PairedEffect
      (fun _ _ => True) where
  foreign := by
    intro log pIA effect pairing other server
    obtain ⟨req, pairing⟩ := pairing server
    exact ⟨req, pairing.cons (EmptyAckSent.earlier (.inl other)) (AckResponseSent.earlier (.inl other))⟩
  observer := fun _ _ => trivial
  nextMid := fun _ _ => trivial
  received := fun _ => trivial
  replies := by
    intro log pckt msg effect _ replies
    cases replies with
    | nextMid => trivial
    | sent => trivial
  flagged := fun _ pending server => absurd (pending.symm.trans server) (by decide)
  client := by
    intro log msg ref ifID serverEp cb _ _ server
    cases server
  notification := by
    intro log pRes resource pObserver created resp turn ref _ _ _ _ _ _ server
    cases server
  serving := by
    intro this pckt msg pRes resource ref _ _ _ fresh _
    exact ⟨msg, Pairing.serving msg pRes pckt fresh⟩
  duplicate := by
    intro log pIA req now pairing role state request _
    obtain ⟨other, pairing⟩ := pairing role
    obtain ⟨silent, after⟩ := pairing.duplicate now req.messageID state
    exact ⟨fun _ => ⟨other, pairing.request, fun response => absurd rfl response, fun _ _ => silent⟩,
      fun _ => ⟨other, after⟩⟩
  touched := by
    intro this pckt now msg pIA worked _ _ _ _ pairing touches server
    rw [touches.identity.2.1] at server
    obtain ⟨req, pairing⟩ := pairing server
    exact ⟨req, pairing.touched server touches⟩
  handled := by
    intro log pIA req pairing role _ _
    obtain ⟨other, pairing⟩ := pairing role
    -- what is noted of the handler is no message
    refine ⟨trivial, fun _ => ⟨other, pairing.cons (EmptyAckSent.earlier (.inr ?_))
      (AckResponseSent.earlier (.inr ?_))⟩⟩
    · intro _ _ _ _ _ same
      cases same
    · intro _ _ _ _ _ same
      cases same
  works := by
    intro listed log now pIA effects worked layouts _ pairing works
    by_cases role : pIA.role = .server
    · obtain ⟨req, pairing⟩ := pairing role
      obtain ⟨noted, after⟩ := works.pairing keeps layouts role pairing
      exact ⟨noted, fun _ => ⟨req, after⟩⟩
    · constructor
      · intro effect member
        obtain ⟨other, msg, rfl, _, same, _⟩ := works.sends effect member
        exact fun server => absurd (same.symm.trans server) role
      · exact fun server => absurd (works.identity.1.symm.trans server) role
  registers := fun _ _ => trivial

/-- Whatever is sent for a request: a response has its token, and its type and message id go with
the acknowledgement that was or was not sent before; an empty acknowledgement never follows a response
that was one. -/
theorem responses_paired (env : Env) (resources : List CoapResource) (this : CoapServer) (keeps : HandlersKeep env)
    (reaches : Reaches env resources this) (later earlier : List Effect) (pIA : CoapInteraction)
    (origin : Option NetPacket) (ifID : UInt8) (receiver : NetEp) (msg : CoapMessage)
    (sent : this.log = later ++ .sent (some pIA) origin ifID receiver msg :: earlier)
    (server : pIA.role = .server) :
    ∃ req, pIA.pReqMsg = some req ∧ (msg.code ≠ empty → Paired earlier pIA.ref req msg) ∧
      (msg.type = .ack → msg.code = empty → ¬ AckResponseSent earlier pIA.ref) := by
  have noted := ((pairing_stable env resources keeps).holds reaches).effects
  rw [sent] at noted
  exact noted.split server

/-- The piggybacked response of a server with one resource. -/
theorem sensor_responses_paired : ∃ (log : List Effect) (ref : Nat) (req resp : CoapMessage),
    req.type = .con ∧ resp.code = respSuccessContent ∧ Paired log ref req resp := by
  have reached : ([Event.packet (datagram 0 getSensor) 0, .doWork 0].foldlM (step idealEnv) (new [sensor])).map
      (fun this => this.log.any fun effect =>
        match effect with
        | .sent (some pIA) _ _ _ msg => pIA.role = .server && msg.code = respSuccessContent &&
            pIA.pReqMsg.any (fun req => req.type = .con)
        | _ => false) = some true := by
    decide +kernel
  obtain ⟨this, taken, responds⟩ := Option.map_eq_some_iff.mp reached
  obtain ⟨effect, member, isResponse⟩ := List.any_eq_true.mp responds
  obtain ⟨later, earlier, split⟩ := List.append_of_mem member
  have keeps : HandlersKeep idealEnv := fun _ _ _ _ => ⟨rfl, rfl⟩
  split at isResponse
  next pIA origin ifID receiver msg =>
    simp only [Bool.and_eq_true, decide_eq_true_eq] at isResponse
    obtain ⟨⟨server, code⟩, confirmable⟩ := isResponse
    obtain ⟨req, request, paired, _⟩ := responses_paired idealEnv [sensor] this keeps (.of_events _ .refl taken)
      later earlier pIA origin ifID receiver msg split server
    rw [request] at confirmable
    exact ⟨earlier, pIA.ref, req, msg, of_decide_eq_true confirmable, code, paired (by rw [code]; decide)⟩
  next => cases isResponse

end CoapServer

end SmingCoap.Server
