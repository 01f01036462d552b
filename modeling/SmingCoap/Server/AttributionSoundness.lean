import SmingCoap.Server.Invariants
import SmingCoap.Server.ParseExactness

/-! # Whom the server answers

Everything that goes out of the stack for a request can be traced to the packet
that the request came in: the interaction still has the request as it was
parsed, and a reply without an interaction is made from the packet at hand.  The
log only grows, so what is traced once stays traced.
-/

namespace SmingCoap.Server

open Wire (Memory Opt)

/-! ## Parsing -/

/-- An option is appended with memory as it was without. -/
theorem appendOptionToList_of_ok {available : Bool} {options after : List Opt} {option : Opt}
    (appended : appendOptionToList available options option = (.ok, after)) :
    appendOptionToList true options option = (.ok, after) := by
  cases available with
  | true => exact appended
  | false => simp [appendOptionToList] at appended

/-- A parse that goes through has the outcome it has when there is memory for everything. -/
theorem parseOptionsLoop_of_ok {alloc : Nat → Bool} {srcArr : Memory} {srcLength fuel offset lastOptionNumber : Nat}
    {options parsed : List Opt} {payload : Option Nat}
    (parses : parseOptionsLoop alloc srcArr srcLength fuel offset lastOptionNumber options = some (.ok, parsed, payload)) :
    parseOptionsLoop (fun _ => true) srcArr srcLength fuel offset lastOptionNumber options = some (.ok, parsed, payload) := by
  induction fuel generalizing offset lastOptionNumber options with
  | zero => cases parses
  | succ fuel inductionHypothesis =>
    rw [parseOptionsLoop] at parses ⊢
    split at parses
    next inside =>
      rw [if_pos inside]
      split at parses
      next marker =>
        rw [if_pos marker]
        exact parses
      next option =>
        rw [if_neg option]
        simp only at parses ⊢
        split at parses
        next => cases parses
        next =>
          split at parses
          next => cases parses
          next =>
            split at parses
            next => cases parses
            next short =>
              rw [if_neg short]
              split at parses
              next => cases parses
              next fits =>
                rw [if_neg fits]
                split at parses
                next appended =>
                  rw [appendOptionToList_of_ok appended]
                  exact inductionHypothesis parses
                next result others different appended =>
                  cases parses
                  exact absurd rfl different
    next past =>
      rw [if_neg past]
      exact parses

theorem parseOptionsFromRaw_of_ok {alloc : Nat → Bool} {srcArr : Memory} {srcLength : Nat} {parsed : List Opt}
    {payload : Option Nat} (parses : parseOptionsFromRaw alloc srcArr srcLength = some (.ok, parsed, payload)) :
    parseOptionsFromRaw (fun _ => true) srcArr srcLength = some (.ok, parsed, payload) := by
  rw [parseOptionsFromRaw] at parses ⊢
  split at parses
  next none =>
    rw [if_pos none]
    exact parses
  next some =>
    rw [if_neg some]
    split at parses
    next => cases parses
    next option =>
      rw [if_neg option]
      exact parseOptionsLoop_of_ok parses

theorem copyMessage_of_ok {available : Bool} {now : Nat} {parsed msg : CoapMessage}
    (copies : copyMessage available now parsed = (.ok, some msg)) : copyMessage true now parsed = (.ok, some msg) := by
  cases available with
  | true => exact copies
  | false => cases copies

theorem parse_of_ok {alloc : Nat → Bool} {now : Nat} {srcArr : Memory} {srcArrLength : Nat} {msg : CoapMessage}
    (accepts : coapParseMessageFromDatagram alloc now srcArr srcArrLength = some (.ok, some msg)) :
    coapParseMessageFromDatagram (fun _ => true) now srcArr srcArrLength = some (.ok, some msg) := by
  have header : HeaderAccepted srcArr srcArrLength := by
    by_contra rejected
    obtain ⟨result, failed, returned⟩ := parse_rejects alloc now rejected
    rw [returned] at accepts
    cases accepts
  rw [parse_of_header _ now header] at accepts ⊢
  split at accepts
  next bare =>
    rw [if_pos bare]
    exact congrArg some (copyMessage_of_ok (Option.some.inj accepts))
  next more =>
    rw [if_neg more]
    split at accepts
    next atEnd =>
      rw [if_pos atEnd]
      exact congrArg some (copyMessage_of_ok (Option.some.inj accepts))
    next behind =>
      rw [if_neg behind]
      simp only [parseBody] at accepts ⊢
      split at accepts
      next => cases accepts
      next options parsed =>
        rw [parseOptionsFromRaw_of_ok parsed]
        exact congrArg some (copyMessage_of_ok (Option.some.inj accepts))
      next options payload parsed =>
        rw [parseOptionsFromRaw_of_ok parsed]
        simp only
        split at accepts
        next => cases accepts
        next small =>
          rw [if_neg small]
          exact congrArg some (copyMessage_of_ok (Option.some.inj accepts))
      next => cases accepts

namespace CoapServer

/-! ## Interactions and their packets -/

/-- A server interaction has the request of the packet that it answers, and a client a request of its own. -/
structure Originated (log : List Effect) (pIA : CoapInteraction) : Prop where
  serving : pIA.role = .server → ∃ pckt req, pIA.origin = some pckt ∧ pIA.pReqMsg = some req ∧
    .received pckt req ∈ log ∧ pIA.remoteEp = pckt.sender
  requesting : pIA.role = .client → ∃ req, pIA.pReqMsg = some req ∧ req.isRequest = true

/-- What an interaction sends, and what a handler gets. -/
def OriginatedEffect (log : List Effect) : Effect → Prop
  | .sent (some pIA) origin _ receiver msg =>
    (pIA.role = .server → ∃ pckt req, origin = some pckt ∧ pIA.pReqMsg = some req ∧ .received pckt req ∈ log ∧
      receiver = pckt.sender) ∧
    (pIA.role = .client → msg.isRequest = true)
  | .handled pIA req => ∃ pckt, .received pckt req ∈ log ∧ pIA.remoteEp = pckt.sender
  | _ => True

section
variable {env : Env} {log : List Effect} {pIA worked : CoapInteraction} {now : UInt32} {msg : CoapMessage}

theorem Originated.cons (attributed : Originated log pIA) (effect : Effect) : Originated (effect :: log) pIA where
  serving role := by
    obtain ⟨pckt, req, origin, request, received, sender⟩ := attributed.serving role
    exact ⟨pckt, req, origin, request, List.mem_cons_of_mem _ received, sender⟩
  requesting := attributed.requesting

theorem Originated.congr (attributed : Originated log pIA) (role : worked.role = pIA.role)
    (origin : worked.origin = pIA.origin) (remoteEp : worked.remoteEp = pIA.remoteEp)
    (pReqMsg : worked.pReqMsg = pIA.pReqMsg) : Originated log worked where
  serving := by
    rw [role, origin, remoteEp, pReqMsg]
    exact attributed.serving
  requesting := by
    rw [role, pReqMsg]
    exact attributed.requesting

theorem isRequest_transmitted : (transmitted now msg).isRequest = msg.isRequest := by
  rw [CoapMessage.isRequest, CoapMessage.isRequest, transmitted_code]

/-- A server interaction, or a notification, sends a message. -/
theorem Originated.answers (attributed : Originated log pIA) (role : worked.role = pIA.role)
    (origin : worked.origin = pIA.origin) (remoteEp : worked.remoteEp = pIA.remoteEp)
    (pReqMsg : worked.pReqMsg = pIA.pReqMsg) (other : pIA.role ≠ .client) :
    OriginatedEffect log (sending now worked msg) := by
  refine ⟨fun server => ?_, fun client => absurd (role.symm.trans client) other⟩
  rw [role] at server
  rw [origin, pReqMsg, remoteEp]
  exact attributed.serving server

theorem Works.originated {resources : List CoapResource} {effects : List Effect} (attributed : Originated log pIA)
    (works : Works env now resources log pIA effects worked) :
    (∀ effect ∈ effects, OriginatedEffect log effect) ∧ Originated (effects ++ log) worked := by
  have one : ∀ {effect worked}, OriginatedEffect log effect → Originated log worked →
      (∀ other ∈ [effect], OriginatedEffect log other) ∧ Originated ([effect] ++ log) worked :=
    fun noted kept => ⟨by simpa using noted, kept.cons _⟩
  have server : pIA.role = .server → pIA.role ≠ .client := by
    rintro role
    rw [role]
    decide
  have notification : pIA.role = .notification → pIA.role ≠ .client := by
    rintro role
    rw [role]
    decide
  obtain ⟨sameRole, remoteEp, _, rest⟩ := works.identity
  have kept : pIA.role ≠ .client → Originated log worked := fun other =>
    attributed.congr sameRole (rest other).2.1 remoteEp (rest other).2.2
  cases works with
  | waits => exact ⟨by simp, attributed⟩
  | refuses role => exact one (attributed.answers rfl rfl rfl rfl (server role)) (kept (server role))
  | answers role => exact one (attributed.answers rfl rfl rfl rfl (server role)) (kept (server role))
  | postpones role => exact one (attributed.answers rfl rfl rfl rfl (server role)) (kept (server role))
  | sleeps role => exact ⟨by simp, kept (server role)⟩
  | repeats role =>
    have other : pIA.role ≠ .client := role.elim (fun served => server served.1) fun pending => notification pending.1
    exact one (attributed.answers rfl rfl rfl rfl other) (kept other)
  | notifies role => exact one (attributed.answers rfl rfl rfl rfl (notification role)) (kept (notification role))
  | repeatsRefreshed role =>
    exact one (attributed.answers rfl rfl rfl rfl (notification role)) (kept (notification role))
  | refreshes role => exact ⟨by simp, kept (notification role)⟩
  -- a client sends its own request
  | @requests req role _ request =>
    obtain ⟨own, same, isRequest⟩ := attributed.requesting role
    obtain rfl : own = req := Option.some.inj (same.symm.trans request)
    obtain ⟨_, requestedRole, _, pReqMsg, _⟩ := requested_fields now pIA own
    have differs : pIA.role ≠ .server := by
      rw [role]
      decide
    refine one ⟨fun server => absurd server differs, fun _ => isRequest_transmitted.trans isRequest⟩
      ⟨fun server => absurd (requestedRole.symm.trans server) differs, fun _ => ⟨_, pReqMsg, ?_⟩⟩
    exact isRequest_transmitted.trans isRequest
  | @requestsAgain req role _ request =>
    obtain ⟨own, same, isRequest⟩ := attributed.requesting role
    obtain rfl : own = req := Option.some.inj (same.symm.trans request)
    have differs : pIA.role ≠ .server := by
      rw [role]
      decide
    refine one ⟨fun server => absurd server differs, fun _ => isRequest_transmitted.trans isRequest⟩
      ⟨fun server => absurd server differs, fun _ => ⟨_, rfl, ?_⟩⟩
    exact isRequest_transmitted.trans isRequest

end

theorem originated_stable (env : Env) (resources : List CoapResource) :
    Stable env resources (fun _ _ => True) Originated OriginatedEffect (fun _ _ => True) where
  foreign := fun attributed _ => attributed.cons _
  observer := fun _ _ => trivial
  nextMid := fun _ _ => trivial
  received := fun _ => trivial
  replies := by
    intro log pckt msg effect _ replies
    cases replies with
    | nextMid => trivial
    | sent => trivial
  flagged := fun attributed _ => attributed.congr rfl rfl rfl rfl
  client := fun _ _ _ request _ => ⟨fun server => InteractionRole.noConfusion server, fun _ => ⟨_, rfl, request⟩⟩
  notification := fun _ _ _ _ _ _ =>
    ⟨fun server => InteractionRole.noConfusion server, fun client => InteractionRole.noConfusion client⟩
  serving := fun _ received _ _ =>
    ⟨fun _ => ⟨_, _, rfl, rfl, received, rfl⟩, fun client => InteractionRole.noConfusion client⟩
  duplicate := by
    intro log pIA req now attributed role _ _ _
    have other : pIA.role ≠ .client := by
      rw [role]
      decide
    exact ⟨attributed.answers rfl rfl rfl rfl other, attributed.cons _⟩
  touched := by
    intro this pckt now msg pIA worked _ _ _ _ attributed touches
    obtain ⟨_, role, _, remoteEp, _, origin, pReqMsg⟩ := touches.identity
    exact attributed.congr role origin remoteEp pReqMsg
  handled := by
    intro log pIA req attributed role _ request
    obtain ⟨pckt, own, _, same, received, sender⟩ := attributed.serving role
    obtain rfl : own = req := Option.some.inj (same.symm.trans request)
    exact ⟨⟨pckt, received, sender⟩, attributed.cons _⟩
  works := fun _ _ attributed works => works.originated attributed
  registers := fun _ _ => trivial

/-! ## The log -/

/-- A step adds these effects to the log, and takes none away. -/
def Logs (fresh : Effect → Prop) (this after : CoapServer) : Prop :=
  ∃ effects, after.log = effects ++ this.log ∧ ∀ effect ∈ effects, fresh effect

/-- An effect of an interaction, or a message id that was drawn. -/
def Internal : Effect → Prop
  | .received _ _ => False
  | .sent none _ _ _ _ => False
  | _ => True

/-- What is made from a request at hand: an acknowledgement has its message id, and a reset is empty. -/
structure Suits (req reply : CoapMessage) : Prop where
  reset : reply.type = .rst → reply.code = empty
  messageID : reply.type = .ack → reply.messageID = req.messageID

/-- What becomes of a packet, in the log. -/
def Answering (pckt : NetPacket) (req : CoapMessage) : Effect → Prop
  | .sent none origin ifID receiver reply =>
    origin = some pckt ∧ ifID = pckt.ifID ∧ receiver = pckt.sender ∧ Suits req reply
  | effect => Internal effect

section
variable {env : Env} {known : CoapObserver → Prop} {fresh other : Effect → Prop} {this middle after : CoapServer}
  {now : UInt32} {pckt : NetPacket} {msg : CoapMessage}

theorem Logs.same (log : after.log = this.log) : Logs fresh this after :=
  ⟨[], log, fun _ member => absurd member List.not_mem_nil⟩

theorem Logs.one {effect : Effect} (log : after.log = effect :: this.log) (noted : fresh effect) :
    Logs fresh this after :=
  ⟨[effect], log, by simpa using noted⟩

theorem Logs.trans (first : Logs fresh this middle) (second : Logs fresh middle after) : Logs fresh this after := by
  obtain ⟨earlier, log, noted⟩ := first
  obtain ⟨later, logAfter, notedLater⟩ := second
  refine ⟨later ++ earlier, by rw [logAfter, log, List.append_assoc], fun effect member => ?_⟩
  exact (List.mem_append.mp member).elim (notedLater effect) (noted effect)

theorem Logs.weaken (logs : Logs fresh this after) (implies : ∀ effect, fresh effect → other effect) :
    Logs other this after := by
  obtain ⟨effects, log, noted⟩ := logs
  exact ⟨effects, log, fun effect member => implies effect (noted effect member)⟩

theorem Logs.subset (logs : Logs fresh this after) : this.log ⊆ after.log := by
  obtain ⟨effects, log, _⟩ := logs
  rw [log]
  exact List.subset_append_right ..

theorem Logs.mem (logs : Logs fresh this after) {effect : Effect} (member : effect ∈ after.log) :
    fresh effect ∨ effect ∈ this.log := by
  obtain ⟨effects, log, noted⟩ := logs
  rw [log] at member
  exact (List.mem_append.mp member).imp_left (noted effect)

theorem CallAct.logs (act : CallAct env known this after) : Logs Internal this after := by
  cases act with
  | silent same => exact .same same.log
  | nextMid => exact .one rfl trivial
  | _ => exact .same rfl

theorem Calls.logs (calls : Calls env known this after) : Logs Internal this after := by
  induction calls with
  | refl => exact .same rfl
  | tail _ act inductionHypothesis => exact inductionHypothesis.trans act.logs

theorem Begins.logs {pIA : CoapInteraction} (begins : Begins pIA this after) : Logs Internal this after := by
  cases begins with
  | nothing same => exact .same same.log
  | handled _ _ _ _ _ _ _ log => exact .one log trivial

theorem removeInteractionsObserver_log (this : CoapServer) (pIA : CoapInteraction) (token : UInt64) :
    (this.removeInteractionsObserver pIA token).log = this.log := by
  unfold removeInteractionsObserver
  cases pIA.pRes <;> rfl

theorem Observes.logs {pIA : CoapInteraction} (observes : Observes pIA this after) : Logs Internal this after := by
  cases observes with
  | nothing same => exact .same same.log
  | registered _ _ middle same changed =>
    rw [changed]
    exact .same same.log
  | removed token _ changed =>
    rw [changed]
    exact .same (removeInteractionsObserver_log ..)
  | aborted token _ _ _ changed =>
    rw [changed]
    exact .same (removeInteractionsObserver_log ..)

theorem Ends.logs {listed : List CoapResource} {pIA : CoapInteraction} (ends : Ends env now listed pIA this after) :
    Logs Internal this after := by
  have own : ∀ {effects worked}, Works env now listed this.log pIA effects worked → ∀ effect ∈ effects, Internal effect := by
    intro effects worked works effect member
    cases works with
    | waits => cases member
    | sleeps => cases member
    | refreshes => cases member
    | _ =>
      rw [List.mem_singleton.mp member]
      trivial
  cases ends with
  | deleted placed => exact .same placed.log
  | last works placed => exact ⟨_, placed.log, own works⟩
  | first works _ placed => exact ⟨_, placed.log, own works⟩

theorem Turn.logs {pIA : CoapInteraction} (turn : Turn env known now pIA this after) : Logs Internal this after := by
  obtain ⟨prepared, begun, called, observed, ready, prepares, begins, calls, observes, finishes, ends⟩ := turn
  exact prepares.logs.trans (begins.logs.trans (calls.logs.trans (observes.logs.trans (finishes.logs.trans ends.logs))))

/-! ## Replies -/

theorem sendShortResp_logs {type : MessageType} {code : UInt8} {messageID : Nat} {token : UInt64}
    (reset : type = .rst → code = empty) (acknowledges : type = .ack → messageID = msg.messageID) :
    Logs (Answering pckt msg) this
      (this.sendShortResp env now none (some pckt) type code messageID token pckt.ifID pckt.sender).2 := by
  simp only [sendShortResp]
  cases success : env.transmit this.transmissions with
  | true =>
    rw [sendMsg_sent now none (some pckt) _ pckt.ifID pckt.sender success]
    refine .one rfl ⟨rfl, rfl, rfl, ?_, ?_⟩
    · rw [transmitted_type, transmitted_code]
      exact reset
    · rw [transmitted_type, transmitted_messageID]
      exact acknowledges
  | false =>
    obtain ⟨_, failed⟩ := sendMsg_failed now none (some pckt)
      { coapInitToEmptyResetMsg with type, code, messageID, token64 := token } pckt.ifID pckt.sender success
    rw [failed]
    exact .same rfl

theorem onAck_logs : Logs fresh this (this.onAck pckt msg) := by
  refine .same ?_
  simp only [onAck, applyReliabilityState_eq]
  split
  next found =>
    split at found
    · cases found
      rfl
    · cases found
  next found =>
    split at found
    · cases found
    · cases found
      split <;> rfl

theorem startNewServerInteraction_logs (pRes : Nat) :
    Logs Internal this (this.startNewServerInteraction env now msg pRes pckt).2 := by
  simp only [startNewServerInteraction]
  split
  next pIA _ =>
    split
    next req _ =>
      split
      next =>
        simp only [sendEmptyAck, sendShortResp]
        cases success : env.transmit this.transmissions with
        | true =>
          rw [sendMsg_sent now _ _ _ _ _ success]
          exact .one rfl trivial
        | false =>
          obtain ⟨_, failed⟩ := sendMsg_failed now (some pIA) pIA.origin { coapInitToEmptyResetMsg with
            type := .ack, code := empty, messageID := req.messageID, token64 := 0 } pIA.ifID pIA.remoteEp success
          rw [failed]
          exact .same rfl
      next => exact .same rfl
    next => exact .same rfl
  next =>
    simp only [memGet]
    cases env.alloc this.allocs with
    | true => exact .same rfl
    | false => exact .same rfl

theorem internal_answering {effect : Effect} (own : Internal effect) : Answering pckt msg effect := by
  cases effect with
  | sent ia => cases ia with
    | none => exact own.elim
    | some => trivial
  | _ => exact own

theorem onRequest_logs (pRes : Nat) : Logs (Answering pckt msg) this (this.onRequest env now pckt msg pRes) := by
  have started : Logs (Answering pckt msg) this (this.startNewServerInteraction env now msg pRes pckt).2 :=
    (startNewServerInteraction_logs pRes).weaken fun _ => internal_answering
  simp only [onRequest]
  split
  next middle result =>
    rw [result] at started
    split
    next =>
      exact started.trans (sendShortResp_logs (fun reset => MessageType.noConfusion reset) fun _ => rfl)
    next => exact started
  next middle _ result =>
    rw [result] at started
    exact started

theorem onSeparateResponse_logs : Logs (Answering pckt msg) this (this.onSeparateResponse env now pckt msg) := by
  simp only [onSeparateResponse]
  split
  next pIA _ =>
    split
    next =>
      have acknowledged : Logs (Answering pckt msg) this (this.sendShortResp env now none (some pckt) .ack empty
          msg.messageID msg.token64 pckt.ifID pckt.sender).2 :=
        sendShortResp_logs (fun _ => rfl) fun _ => rfl
      split
      next middle sent =>
        rw [sent] at acknowledged
        exact acknowledged.trans (.same rfl)
      next middle failed =>
        rw [failed] at acknowledged
        exact acknowledged.trans (.same rfl)
    next => exact .same rfl
  next => exact sendShortResp_logs (fun _ => rfl) fun acknowledges => MessageType.noConfusion acknowledges

theorem dispatch_logs (pRes : Option Nat) : Logs (Answering pckt msg) this (this.dispatch env now pckt msg pRes) := by
  unfold dispatch
  split
  next =>
    refine .same ?_
    simp only [applyReliabilityState_eq]
    split <;> rfl
  next => exact onAck_logs
  next =>
    split
    next pRes => exact onRequest_logs pRes
    next => exact onSeparateResponse_logs

theorem checkOptions_logs (pRes : Option Nat) :
    Logs (Answering pckt msg) this (this.checkOptions env now pckt msg pRes) := by
  unfold checkOptions
  split
  next =>
    split
    next =>
      split
      next => exact sendShortResp_logs (fun reset => MessageType.noConfusion reset) fun _ => rfl
      next => exact sendShortResp_logs (fun _ => rfl) fun acknowledges => MessageType.noConfusion acknowledges
    next => exact .same rfl
  next => exact dispatch_logs pRes

theorem onMessage_logs : Logs (Answering pckt msg) this (this.onMessage env now pckt msg) := by
  unfold onMessage
  split
  next => exact sendShortResp_logs (fun _ => rfl) fun acknowledges => MessageType.noConfusion acknowledges
  next =>
    split
    next => exact .same rfl
    next =>
      split
      next => exact .same rfl
      next =>
        split
        next =>
          split
          next =>
            split
            next => exact sendShortResp_logs (fun reset => MessageType.noConfusion reset) fun _ => rfl
            next =>
              have drawn : Logs (Answering pckt msg) this this.getNextMid.2 := .one rfl trivial
              exact drawn.trans (sendShortResp_logs (fun reset => MessageType.noConfusion reset)
                fun acknowledges => MessageType.noConfusion acknowledges)
          next pRes _ => exact checkOptions_logs (some pRes)
        next => exact checkOptions_logs none

theorem onNewPacketHandler_logs (env : Env) (this : CoapServer) (now : UInt32) (pckt : NetPacket) :
    this.parsePacket env now pckt = none ∧ Logs Internal this (this.onNewPacketHandler env now pckt) ∨
      ∃ msg, this.parsePacket env now pckt = some msg ∧
        Logs (Answering pckt msg) (this.noted pckt msg) (this.onNewPacketHandler env now pckt) := by
  unfold onNewPacketHandler
  cases parsed : this.parsePacket env now pckt with
  | none => exact .inl ⟨rfl, .same rfl⟩
  | some msg => exact .inr ⟨msg, rfl, onMessage_logs⟩

/-- A packet that can be parsed is noted. -/
theorem received_logged (parsed : this.parsePacket env now pckt = some msg) :
    .received pckt msg ∈ (this.onNewPacketHandler env now pckt).log := by
  rcases onNewPacketHandler_logs env this now pckt with ⟨none, _⟩ | ⟨other, same, logs⟩
  · rw [parsed] at none
    cases none
  · obtain rfl : msg = other := Option.some.inj (parsed.symm.trans same)
    exact logs.subset List.mem_cons_self

end

/-! ## Runs -/

/-- What a step may add to the log. -/
def MayLog (env : Env) (this : CoapServer) : Event → Effect → Prop
  | .packet pckt now, effect =>
    (∃ msg, effect = .received pckt msg ∧ this.parsePacket env now pckt = some msg) ∨
      (∃ msg, this.parsePacket env now pckt = some msg ∧ Answering pckt msg effect) ∨ Internal effect
  | _, effect => Internal effect

theorem step_logs {env : Env} {resources : List CoapResource} {this after : CoapServer} {event : Event}
    (reaches : Reaches env resources this) (taken : step env this event = some after) :
    Logs (MayLog env this event) this after := by
  cases event with
  | packet pckt now =>
    obtain rfl : this.onNewPacketHandler env now pckt = after := Option.some.inj taken
    rcases onNewPacketHandler_logs env this now pckt with ⟨_, logs⟩ | ⟨msg, parsed, logs⟩
    · exact logs.weaken fun _ own => .inr (.inr own)
    · have noted : Logs (MayLog env this (.packet pckt now)) this (this.noted pckt msg) :=
        .one rfl (.inl ⟨msg, rfl, parsed⟩)
      exact noted.trans (logs.weaken fun _ answering => .inr (.inl ⟨msg, parsed, answering⟩))
  | doWork now =>
    cases list : this.pInteractions with
    | nil =>
      obtain rfl : this = after := Option.some.inj ((doWork_nil list).symm.trans taken)
      exact .same rfl
    | cons pIA rest =>
      have member : pIA ∈ this.pInteractions := by
        rw [list]
        exact List.mem_cons_self
      exact (doWork_turn list ((run_shaped reaches).interactions pIA member).staged taken).logs
  | call request =>
    obtain rfl : this.call env request = after := Option.some.inj taken
    have calls : Calls env (fun _ => True) this (this.call env request) := call_calls (fun _ _ => trivial) request
    exact calls.logs

/-- A reply without an interaction goes back to a packet, and suits it. -/
theorem replies_suit {env : Env} {resources : List CoapResource} {this : CoapServer}
    (reaches : Reaches env resources this) {origin : Option NetPacket} {ifID : UInt8} {receiver : NetEp}
    {reply : CoapMessage} (sent : .sent none origin ifID receiver reply ∈ this.log) :
    ∃ pckt req, origin = some pckt ∧ .received pckt req ∈ this.log ∧ receiver = pckt.sender ∧ Suits req reply := by
  induction reaches with
  | refl => cases sent
  | next before event _ taken inductionHypothesis =>
    have logs := step_logs before taken
    rcases logs.mem sent with new | old
    · cases event with
      | packet pckt now =>
        obtain rfl := Option.some.inj taken
        rcases new with ⟨_, different, _⟩ | ⟨msg, parsed, back, _, same, suits⟩ | own
        · cases different
        · exact ⟨pckt, msg, back, received_logged parsed, same, suits⟩
        · exact own.elim
      | doWork => exact new.elim
      | call => exact new.elim
    · obtain ⟨pckt, req, back, received, same⟩ := inductionHypothesis old
      exact ⟨pckt, req, back, logs.subset received, same⟩

end CoapServer

end SmingCoap.Server
