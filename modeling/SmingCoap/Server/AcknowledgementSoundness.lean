import SmingCoap.Server.Invariants

/-! # Which message an acknowledgement is for

An acknowledgement marks the first interaction whose own message has its id and
whose endpoint sent it, be the message sent or not and whatever interface it
goes over.  As long as acknowledgements find only messages that were sent, each
on its interface, a confirmable message counts as acknowledged only if it was.
-/

namespace SmingCoap.Server

namespace CoapServer

/-- The flag that `CheckRespStatus` and `CheckReqStatus` look at. -/
def ownReliability (pIA : CoapInteraction) : ReliabilityState :=
  match pIA.role with
  | .client => pIA.reqReliabilityState
  | _ => pIA.respReliabilityState

/-- The own message of an interaction was sent. -/
def Sent (pIA : CoapInteraction) : Prop :=
  pIA.state = .responseSent ∨ pIA.state = .notificationSent ∨ pIA.state = .waitingResponse ∨
    pIA.state = .handleResponse

/-- The own message is confirmable, or its type is still open. -/
def Confirmable (pIA : CoapInteraction) : Prop :=
  (∃ msg, pIA.ownMsg = some msg ∧ msg.type = .con) ∨ pIA.role = .server ∧ Unanswered pIA

/-- A confirmable message that was sent and waits for its acknowledgement. -/
structure Outstanding (pIA : CoapInteraction) (msg : CoapMessage) : Prop where
  own : pIA.ownMsg = some msg
  type : msg.type = .con
  sent : Sent pIA
  pending : ownReliability pIA = .notSet

/-- A confirmable message that was sent and counts as acknowledged. -/
structure Acknowledged (pIA : CoapInteraction) (msg : CoapMessage) : Prop where
  own : pIA.ownMsg = some msg
  type : msg.type = .con
  sent : Sent pIA
  flag : ownReliability pIA = .ackSet

/-- A message with the id was sent for an interaction. -/
def Transmitted (log : List Effect) (ref mID : Nat) : Prop :=
  ∃ pIA origin ifID receiver msg, .sent (some pIA) origin ifID receiver msg ∈ log ∧ pIA.ref = ref ∧
    msg.messageID = mID

/-- An acknowledgement of a message of an interaction. -/
structure Acknowledges (pckt : NetPacket) (ack : CoapMessage) (pIA : CoapInteraction) (mID : Nat) : Prop where
  type : ack.type = .ack
  messageID : ack.messageID = mID
  sender : epAreEqual pckt.sender pIA.remoteEp = true
  interface : pckt.ifID = pIA.ifID

/-- An acknowledgement came after the message was sent. -/
def WasAcknowledged (log : List Effect) (pIA : CoapInteraction) (mID : Nat) : Prop :=
  ∃ later pckt ack earlier, log = later ++ .received pckt ack :: earlier ∧ Acknowledges pckt ack pIA mID ∧
    Transmitted earlier pIA.ref mID

/-- What an acknowledgement has to meet: the first message it fits was sent over its interface unless
it needs none; and it is not taken from the message it is for, neither by the checks nor by an
interaction in front. -/
def Attributable (env : Env) (this : CoapServer) : Event → Prop
  | .packet pckt now => ∀ ack, this.parsePacket env now pckt = some ack → ack.type = .ack →
      (∀ pIA, Accepted ack →
        this.pInteractions.find? (fun other => other.awaits ack.messageID pckt.sender) = some pIA →
        Confirmable pIA → Sent pIA ∧ pIA.ifID = pckt.ifID) ∧
      ∀ front pIA behind msg, this.pInteractions = front ++ pIA :: behind → Outstanding pIA msg →
        Acknowledges pckt ack pIA msg.messageID →
        Accepted ack ∧ ∀ other ∈ front, other.awaits ack.messageID pckt.sender = false
  | _ => True

/-! ## The log -/

section
variable {log : List Effect} {pIA : CoapInteraction} {mID : Nat}

theorem Transmitted.append {ref : Nat} (transmitted : Transmitted log ref mID) (effects : List Effect) :
    Transmitted (effects ++ log) ref mID := by
  obtain ⟨other, origin, ifID, receiver, msg, member, fields⟩ := transmitted
  exact ⟨other, origin, ifID, receiver, msg, List.mem_append_right _ member, fields⟩

theorem WasAcknowledged.append (acknowledged : WasAcknowledged log pIA mID) (effects : List Effect) :
    WasAcknowledged (effects ++ log) pIA mID := by
  obtain ⟨later, pckt, ack, earlier, rfl, fields⟩ := acknowledged
  exact ⟨effects ++ later, pckt, ack, earlier, (List.append_assoc ..).symm, fields⟩

theorem Transmitted.sending (now : UInt32) (pIA : CoapInteraction) (msg : CoapMessage) (log : List Effect) :
    Transmitted (sending now pIA msg :: log) pIA.ref msg.messageID :=
  ⟨pIA, _, _, _, _, List.mem_cons_self, rfl, transmitted_messageID now msg⟩

end

/-! ## The invariant -/

/-- What the state and the flag of an interaction say about the log. -/
structure Attributed (log : List Effect) (pIA : CoapInteraction) : Prop where
  sent : Sent pIA → ∃ msg, pIA.ownMsg = some msg ∧ Transmitted log pIA.ref msg.messageID
  early : Confirmable pIA → ¬ Sent pIA → ownReliability pIA ≠ .ackSet
  acknowledged : ∀ msg, Acknowledged pIA msg → WasAcknowledged log pIA msg.messageID

section
variable {log : List Effect} {pIA worked : CoapInteraction}

theorem Attributed.append (attributed : Attributed log pIA) (effects : List Effect) :
    Attributed (effects ++ log) pIA where
  sent := by
    intro sent
    obtain ⟨msg, own, transmitted⟩ := attributed.sent sent
    exact ⟨msg, own, transmitted.append effects⟩
  early := attributed.early
  acknowledged := fun msg flagged => (attributed.acknowledged msg flagged).append effects

/-- The flag says nothing of an acknowledgement. -/
theorem Attributed.unmarked (flag : ownReliability pIA ≠ .ackSet)
    (sent : Sent pIA → ∃ msg, pIA.ownMsg = some msg ∧ Transmitted log pIA.ref msg.messageID) :
    Attributed log pIA where
  sent := sent
  early := fun _ _ => flag
  acknowledged := fun _ acknowledged => absurd acknowledged.flag flag

theorem Unanswered.notSent (waiting : Unanswered pIA) : ¬ Sent pIA := by
  unfold Sent
  cases waiting with
  | inl state => simp [state]
  | inr state => simp [state]

/-- Nothing but own message, stage and flag matters. -/
theorem Attributed.congr (attributed : Attributed log pIA) (ref : worked.ref = pIA.ref)
    (ownMsg : worked.ownMsg = pIA.ownMsg) (sent : Sent worked ↔ Sent pIA)
    (confirmable : Confirmable worked → Confirmable pIA) (reliability : ownReliability worked = ownReliability pIA)
    (remoteEp : worked.remoteEp = pIA.remoteEp) (ifID : worked.ifID = pIA.ifID) : Attributed log worked := by
  refine ⟨?_, ?_, ?_⟩
  · rw [sent, ownMsg, ref]
    exact attributed.sent
  · rw [sent, reliability]
    exact fun may => attributed.early (confirmable may)
  · intro msg flagged
    obtain ⟨later, pckt, ack, earlier, split, acknowledges, transmitted⟩ := attributed.acknowledged msg
      ⟨ownMsg ▸ flagged.own, flagged.type, sent.mp flagged.sent, reliability ▸ flagged.flag⟩
    exact ⟨later, pckt, ack, earlier, split, ⟨acknowledges.type, acknowledges.messageID,
      remoteEp ▸ acknowledges.sender, ifID ▸ acknowledges.interface⟩, ref ▸ transmitted⟩

theorem Confirmable.congr (confirmable : Confirmable worked) (role : worked.role = pIA.role)
    (ownMsg : worked.ownMsg = pIA.ownMsg) (unanswered : Unanswered worked → Unanswered pIA) : Confirmable pIA := by
  cases confirmable with
  | inl confirmable => exact .inl (ownMsg ▸ confirmable)
  | inr stage => exact .inr ⟨role ▸ stage.1, unanswered stage.2⟩

/-- The own message was just sent, and if it is confirmable the flag says nothing. -/
theorem Attributed.transmitted (msg : CoapMessage) (own : pIA.ownMsg = some msg) (sent : Sent pIA)
    (flag : msg.type = .con → ownReliability pIA ≠ .ackSet) (transmitted : Transmitted log pIA.ref msg.messageID) :
    Attributed log pIA where
  sent := fun _ => ⟨msg, own, transmitted⟩
  early := fun _ unsent => absurd sent unsent
  acknowledged := by
    intro other acknowledged
    have same : msg = other := Option.some.inj (own.symm.trans acknowledged.own)
    exact absurd acknowledged.flag (flag (same ▸ acknowledged.type))

/-- A response that was just sent. -/
theorem Attributed.responded (now : UInt32) (pIA : CoapInteraction) {resp : CoapMessage} {next : InteractionState}
    (stage : next = .responseSent ∨ next = .notificationSent) (role : pIA.role ≠ .client)
    (flag : resp.type = .con → ownReliability pIA ≠ .ackSet) :
    Attributed (CoapServer.sending now pIA resp :: log) (CoapServer.responded now pIA resp next) := by
  obtain ⟨ref, sameRole, state, _, _, sent, _, _, _, reliability⟩ := responded_fields now pIA resp next
  apply Attributed.transmitted (CoapServer.transmitted now resp)
  · simp only [CoapInteraction.ownMsg, sameRole, sent]
    cases isRole : pIA.role with
    | client => exact absurd isRole role
    | _ => rfl
  · unfold Sent
    rw [state]
    cases stage with
    | inl response => exact .inl response
    | inr notification => exact .inr (.inl notification)
  · simpa only [ownReliability, sameRole, reliability, transmitted_type] using flag
  · rw [ref, transmitted_messageID]
    exact Transmitted.sending now pIA resp log

/-- A response that was just sent once more. -/
theorem Attributed.repeated (now : UInt32) {resp : CoapMessage}
    (role : pIA.role = .server ∧ pIA.state = .responseSent ∨
      pIA.role = .notification ∧ pIA.state = .notificationSent)
    (pending : pIA.respReliabilityState = .notSet) :
    Attributed (CoapServer.sending now pIA resp :: log) (CoapServer.repeated now pIA resp) := by
  apply Attributed.transmitted (CoapServer.transmitted now resp)
  · cases role with
    | inl server => simp [CoapInteraction.ownMsg, CoapServer.repeated, enableAckTimeout, server.1]
    | inr notification => simp [CoapInteraction.ownMsg, CoapServer.repeated, enableAckTimeout, notification.1]
  · cases role with
    | inl server => exact .inl server.2
    | inr notification => exact .inr (.inl notification.2)
  · intro _
    cases role with
    | inl server => simp [ownReliability, CoapServer.repeated, enableAckTimeout, server.1, pending]
    | inr notification => simp [ownReliability, CoapServer.repeated, enableAckTimeout, notification.1, pending]
  · rw [transmitted_messageID]
    exact Transmitted.sending now pIA resp log

theorem Works.attributed {env : Env} {now : UInt32} {listed : List CoapResource} {effects : List Effect}
    (attributed : Attributed log pIA) (works : Works env now listed log pIA effects worked) :
    Attributed (effects ++ log) worked := by
  cases works with
  | waits => exact attributed
  -- before it is sent nothing can have been acknowledged
  | @refuses req resp _ _ role state =>
    have flag := attributed.early (.inr ⟨role, state⟩) state.notSent
    exact Attributed.responded now { pIA with pRespMsg := some resp } (.inl rfl) (by simp [role])
      fun _ => flag
  | @answers req offered resp _ _ role state =>
    have flag := attributed.early (.inr ⟨role, state⟩) state.notSent
    exact Attributed.responded now { pIA with pRespMsg := some resp } (.inl rfl) (by simp [role])
      fun _ => flag
  | postpones role state =>
    have flag := attributed.early (.inr ⟨role, state⟩) state.notSent
    apply Attributed.unmarked
    · simpa only [ownReliability, role] using flag
    · simp [Sent]
  | sleeps role state =>
    have flag := attributed.early (.inr ⟨role, state⟩) state.notSent
    apply Attributed.unmarked
    · simpa only [ownReliability, role] using flag
    · exact fun sent => absurd sent state.notSent
  -- sent again only while no acknowledgement came
  | repeats role _ _ pending => exact Attributed.repeated now role pending
  | @notifies resp role state response =>
    apply Attributed.responded now pIA (.inr rfl) (by simp [role])
    intro confirmable
    have own : pIA.ownMsg = some resp := by simp [CoapInteraction.ownMsg, role, response]
    exact attributed.early (.inl ⟨resp, own, confirmable⟩) (by simp [Sent, state])
  | @repeatsRefreshed resp refreshed role state response _ pending =>
    exact Attributed.repeated now (.inr ⟨role, state⟩) pending
  | refreshes role =>
    apply Attributed.unmarked
    · simp [ownReliability, role]
    · simp [Sent]
  | @requests req role state request =>
    obtain ⟨ref, sameRole, next, sent, _, _, reliability⟩ := requested_fields now pIA req
    have own : pIA.ownMsg = some req := by simp [CoapInteraction.ownMsg, role, request]
    apply Attributed.transmitted (CoapServer.transmitted now req)
    · simp [CoapInteraction.ownMsg, sameRole, role, sent]
    · exact .inr (.inr (.inl next))
    · intro confirmable
      rw [transmitted_type] at confirmable
      have flag := attributed.early (.inl ⟨req, own, confirmable⟩) (by simp [Sent, state])
      simpa only [ownReliability, sameRole, role, reliability] using flag
    · rw [ref, transmitted_messageID]
      exact Transmitted.sending now pIA req log
  | @requestsAgain req role state request _ pending =>
    apply Attributed.transmitted (CoapServer.transmitted now req)
    · simp [CoapInteraction.ownMsg, requestedAgain, enableAckTimeout, role]
    · exact .inr (.inr (.inl state))
    · simp [ownReliability, requestedAgain, enableAckTimeout, role, pending]
    · rw [transmitted_messageID]
      exact Transmitted.sending now pIA req log

/-- An own message that is not confirmable needs no acknowledgement. -/
theorem Attributed.unconfirmed (attributed : Attributed log pIA) (other : ¬ Confirmable worked)
    (ref : worked.ref = pIA.ref) (ownMsg : worked.ownMsg = pIA.ownMsg) (sent : Sent worked ↔ Sent pIA) :
    Attributed log worked where
  sent := by
    rw [sent, ref, ownMsg]
    exact attributed.sent
  early := fun confirmable => absurd confirmable other
  acknowledged := fun msg acknowledged => absurd (.inl ⟨msg, acknowledged.own, acknowledged.type⟩) other

theorem marked_ownMsg (pIA : CoapInteraction) (state : ReliabilityState) :
    (marked pIA state).ownMsg = pIA.ownMsg ∧ ownReliability (marked pIA state) = state := by
  unfold marked
  cases role : pIA.role with
  | server => exact ⟨by simp [CoapInteraction.ownMsg, role], by simp [ownReliability]⟩
  | notification => exact ⟨by simp [CoapInteraction.ownMsg, role], by simp [ownReliability]⟩
  | client => exact ⟨by simp [CoapInteraction.ownMsg, role], by simp [ownReliability]⟩

/-- The first interaction that an acknowledgement fits is marked, and it may become `handleResponse`. -/
theorem Attributed.acknowledge {pckt : NetPacket} {ack : CoapMessage} (attributed : Attributed log pIA)
    (type : ack.type = .ack) (awaits : pIA.awaits ack.messageID pckt.sender = true)
    (permitted : Confirmable pIA → Sent pIA ∧ pIA.ifID = pckt.ifID) (ref : worked.ref = pIA.ref)
    (ownMsg : worked.ownMsg = pIA.ownMsg) (sent : Sent worked ↔ Sent pIA)
    (confirmable : Confirmable worked → Confirmable pIA) (remoteEp : worked.remoteEp = pIA.remoteEp)
    (ifID : worked.ifID = pIA.ifID) : Attributed (.received pckt ack :: log) worked := by
  by_cases may : Confirmable worked
  · obtain ⟨wasSent, interface⟩ := permitted (confirmable may)
    obtain ⟨msg, own, transmitted⟩ := attributed.sent wasSent
    simp only [CoapInteraction.awaits, own, Option.any_some, Bool.and_eq_true, decide_eq_true_eq] at awaits
    refine ⟨fun _ => ⟨msg, ownMsg.trans own, ?_⟩, fun _ unsent => absurd (sent.mpr wasSent) unsent, ?_⟩
    · rw [ref]
      exact transmitted.append [_]
    · intro other acknowledged
      have same : msg = other := Option.some.inj (own.symm.trans (ownMsg.symm.trans acknowledged.own))
      subst same
      refine ⟨[], pckt, ack, log, rfl, ⟨type, awaits.1.symm, ?_, interface.symm.trans ifID.symm⟩, ?_⟩
      · rw [remoteEp]
        exact awaits.2
      · rw [ref]
        exact transmitted
  · exact Attributed.unconfirmed (attributed.append [_]) may ref ownMsg sent

theorem attributed_stable (env : Env) (resources : List CoapResource) :
    Stable env resources (Attributable env) Attributed (fun _ _ => True) (fun _ _ => True) where
  foreign := fun attributed _ => attributed.append [_]
  observer := fun _ _ => trivial
  nextMid := fun _ _ => trivial
  received := fun _ => trivial
  replies := fun _ _ => trivial
  flagged := fun attributed _ => attributed.congr rfl rfl Iff.rfl id rfl rfl rfl
  client := fun _ _ _ _ _ => Attributed.unmarked (by simp [ownReliability, CoapInteraction.requesting])
    (by simp [Sent, CoapInteraction.requesting])
  notification := fun _ _ _ _ _ _ => Attributed.unmarked (by simp [ownReliability, CoapInteraction.notifying])
    (by simp [Sent, CoapInteraction.notifying])
  serving := fun _ _ _ _ => Attributed.unmarked (by simp [ownReliability, CoapInteraction.serving])
    (by simp [Sent, CoapInteraction.serving])
  duplicate := fun _ attributed _ _ _ _ => ⟨trivial, attributed.append [_]⟩
  touched := by
    intro this pckt now msg pIA worked permitted parsed all member attributed touches
    have before := all pIA member
    cases touches with
    | reset =>
      obtain ⟨ref, role, state, _, _, _, remoteEp, ifID, _⟩ := marked_fields pIA .rstSet
      obtain ⟨ownMsg, flag⟩ := marked_ownMsg pIA .rstSet
      apply Attributed.unmarked (by rw [flag]; simp)
      unfold Sent
      rw [state, ownMsg, ref]
      exact attributed.sent
    | acknowledged type accepted found =>
      obtain ⟨ref, role, state, _, _, _, remoteEp, ifID, _⟩ := marked_fields pIA .ackSet
      have awaits : pIA.awaits msg.messageID pckt.sender = true := by simpa using List.find?_some found
      have ownMsg := (marked_ownMsg pIA .ackSet).1
      refine before.acknowledge type awaits ((permitted msg parsed type).1 pIA accepted found) ref ownMsg ?_ ?_
        remoteEp ifID
      · simp only [Sent, state]
      · intro confirmable
        apply confirmable.congr role ownMsg
        simp only [Unanswered, state]
        exact id
    | piggybacked type accepted found client waiting =>
      obtain ⟨ref, role, _, _, pReqMsg, _, remoteEp, ifID, _⟩ := marked_fields pIA .ackSet
      have awaits : pIA.awaits msg.messageID pckt.sender = true := by simpa using List.find?_some found
      have ownMsg : (attachResponse (marked pIA .ackSet) msg).ownMsg = pIA.ownMsg := by
        simp only [CoapInteraction.ownMsg, attachResponse, role, client]
        exact pReqMsg
      refine before.acknowledge type awaits ((permitted msg parsed type).1 pIA accepted found) ref ownMsg ?_ ?_
        remoteEp ifID
      · simp [Sent, attachResponse, waiting]
      · intro confirmable
        apply confirmable.congr role ownMsg
        simp [Unanswered, attachResponse]
    | separate awaits stage reliability =>
      -- the flag of a client is the one of its request
      have ownMsg : { attachResponse pIA msg with respReliabilityState := reliability }.ownMsg = pIA.ownMsg := by
        simp [CoapInteraction.ownMsg, attachResponse, awaits.role]
      refine attributed.congr rfl ownMsg ?_ ?_ ?_ rfl rfl
      · cases stage with
        | inl waiting => simp [Sent, attachResponse, waiting]
        | inr handling => simp [Sent, attachResponse, handling]
      · intro confirmable
        refine confirmable.congr rfl ownMsg ?_
        simp [Unanswered, attachResponse]
      · simp [ownReliability, attachResponse, awaits.role]
    | early awaits reliability =>
      have ownMsg : { pIA with respReliabilityState := reliability }.ownMsg = pIA.ownMsg := by
        simp [CoapInteraction.ownMsg, awaits.role]
      refine attributed.congr rfl ownMsg Iff.rfl ?_ ?_ rfl rfl
      · exact fun confirmable => confirmable.congr rfl ownMsg id
      · simp [ownReliability, awaits.role]
  handled := fun attributed _ _ _ => ⟨trivial, attributed.append [_]⟩
  works := fun _ _ attributed works => ⟨fun _ _ => trivial, works.attributed attributed⟩
  registers := fun _ _ => trivial

/-! ## Attribution -/

/-- An acknowledgement that gets behind the checks is applied. -/
theorem onNewPacketHandler_ack {env : Env} {this : CoapServer} {now : UInt32} {pckt : NetPacket}
    {ack : CoapMessage} (parsed : this.parsePacket env now pckt = some ack) (type : ack.type = .ack)
    (accepted : Accepted ack) :
    this.onNewPacketHandler env now pckt = (this.noted pckt ack).onAck pckt ack := by
  simp [onNewPacketHandler, parsed, noted, onMessage, checkOptions, dispatch, type, accepted.1, accepted.2]

/-- The interaction is marked, the others are left as they are. -/
def Marks (pIA : CoapInteraction) (this after : CoapServer) : Prop :=
  ∃ worked, worked.ref = pIA.ref ∧ ownReliability worked = .ackSet ∧
    after.pInteractions = this.pInteractions.map fun other => if other.ref = pIA.ref then worked else other

/-- The first interaction that fits is marked. -/
theorem onAck_marks (this : CoapServer) {pckt : NetPacket} {ack : CoapMessage}
    (found : this.pInteractions.find? (fun other => other.awaits ack.messageID pckt.sender) = some pIA) :
    Marks pIA this (this.onAck pckt ack) := by
  have ref := (marked_fields pIA .ackSet).1
  have role := (marked_fields pIA .ackSet).2.1
  have flag := (marked_ownMsg pIA .ackSet).2
  simp only [onAck, applyReliabilityState_eq, found]
  split
  next response =>
    have attached : (attachResponse (marked pIA .ackSet) ack).ref = (marked pIA .ackSet).ref := rfl
    rw [storeInteraction_twice this attached]
    refine ⟨attachResponse (marked pIA .ackSet) ack, ref, ?_, ?_⟩
    · simpa [ownReliability, attachResponse, response.2.1] using flag
    · rw [storeInteraction, attached, ref]
  next => exact ⟨marked pIA .ackSet, ref, flag, by rw [storeInteraction, ref]⟩

/-- In a run in which acknowledgements find what they are for, a confirmable message counts as
acknowledged only if an acknowledgement came for it after it was sent; and in the next step an
acknowledgement of a message that waits for it marks its interaction. -/
theorem acknowledgements_attributed (env : Env) (resources : List CoapResource) (this : CoapServer)
    (run : Transition.Run (step env) (Attributable env) (new resources) this) :
    (∀ pIA ∈ this.pInteractions, ∀ msg, Acknowledged pIA msg → WasAcknowledged this.log pIA msg.messageID) ∧
    ∀ pckt now ack pIA msg, Attributable env this (.packet pckt now) →
      this.parsePacket env now pckt = some ack → pIA ∈ this.pInteractions → Outstanding pIA msg →
      Acknowledges pckt ack pIA msg.messageID → Marks pIA this (this.onNewPacketHandler env now pckt) := by
  constructor
  · exact fun pIA member => (((attributed_stable env resources).holds run).interactions pIA member).acknowledged
  · intro pckt now ack pIA msg permitted parsed member outstanding acknowledges
    obtain ⟨front, behind, list⟩ := List.append_of_mem member
    obtain ⟨accepted, others⟩ :=
      (permitted ack parsed acknowledges.type).2 front pIA behind msg list outstanding acknowledges
    rw [onNewPacketHandler_ack parsed acknowledges.type accepted]
    have awaits : pIA.awaits ack.messageID pckt.sender = true := by
      simp [CoapInteraction.awaits, outstanding.own, acknowledges.messageID, acknowledges.sender]
    have found : this.pInteractions.find? (fun other => other.awaits ack.messageID pckt.sender) = some pIA := by
      rw [list, List.find?_append, List.find?_eq_none.mpr (by simpa using others)]
      simp [awaits]
    exact onAck_marks (this.noted pckt ack) found

/-- The empty acknowledgement of the first message with an id of the stack. -/
def firstAck : List UInt8 := [0x60, 0x00, 0x00, 0x01]

/-- A GET for `/a` that was sent. -/
def getRequested : List Event := [.call (.request (.get [0x61] 0 neighbour false)), .doWork 0]

/-- The acknowledgement of a request. -/
theorem get_acknowledged : ∃ (this : CoapServer) (pIA : CoapInteraction), this.pInteractions = [pIA] ∧
    Marks pIA this (this.onNewPacketHandler idealEnv 0 (datagram 0 firstAck)) := by
  -- the run is evaluated once, and every field that is needed is read off the result
  have reached : (getRequested.foldlM (step idealEnv) (new [])).map (fun this =>
      (this.pInteractions.map fun pIA => pIA.state = .waitingResponse && pIA.ifID = 0 &&
          ownReliability pIA = .notSet && pIA.ownMsg.map CoapMessage.type = some .con && pIA.awaits 1 neighbour,
        (this.parsePacket idealEnv 0 (datagram 0 firstAck)).any fun ack => ack.type = .ack && ack.messageID = 1 &&
          !ack.isRequest && checkForUnknownCriticalOption ack.options = 0)) =
      some ([true], true) := by
    decide +kernel
  obtain ⟨this, taken, facts⟩ := Option.map_eq_some_iff.mp reached
  obtain ⟨listed, accepts⟩ := Prod.mk.injEq .. ▸ facts
  obtain ⟨pIA, list, fields⟩ := List.map_eq_singleton_iff.mp listed
  obtain ⟨ack, parsed, ackFields⟩ := Option.any_eq_true _ _ |>.mp accepts
  simp only [Bool.and_eq_true, decide_eq_true_eq, Bool.not_eq_true'] at fields ackFields
  obtain ⟨⟨⟨⟨state, ifID⟩, flag⟩, own⟩, awaits⟩ := fields
  obtain ⟨⟨⟨ackType, ackID⟩, notRequest⟩, known⟩ := ackFields
  obtain ⟨msg, own, type⟩ := Option.map_eq_some_iff.mp own
  simp only [CoapInteraction.awaits, own, Option.any_some, Bool.and_eq_true, decide_eq_true_eq] at awaits
  have sent : Sent pIA := .inr (.inr (.inl state))
  have permitted : Attributable idealEnv this (.packet (datagram 0 firstAck) 0) := by
    intro other same _
    obtain rfl : ack = other := Option.some.inj (parsed.symm.trans same)
    rw [list]
    constructor
    · intro found _ first _
      obtain rfl : pIA = found := (List.mem_singleton.mp (List.mem_of_find?_eq_some first)).symm
      exact ⟨sent, ifID⟩
    · intro front found behind _ split _ _
      have alone : front = [] := (List.singleton_eq_append_iff.mp split).elim And.left fun none => by
        cases none.2
      exact ⟨⟨notRequest, known⟩, by simp [alone]⟩
  have run : Transition.Run (step idealEnv) (Attributable idealEnv) (new []) this :=
    Transition.Run.of_permitted .refl getRequested (by simp [getRequested, Attributable]) taken
  exact ⟨this, pIA, list, (acknowledgements_attributed idealEnv [] this run).2 (datagram 0 firstAck) 0 ack pIA msg
    permitted parsed (list ▸ List.mem_singleton.mpr rfl) ⟨own, type, sent, flag⟩
    ⟨ackType, ackID.trans awaits.1.symm, awaits.2, ifID.symm⟩⟩

/-- An acknowledgement that comes over another interface. -/
theorem foreign_acknowledgement : ¬ ∀ (env : Env) (resources : List CoapResource) (this : CoapServer),
    Reaches env resources this → ∀ pIA ∈ this.pInteractions, ∀ msg, Acknowledged pIA msg →
      WasAcknowledged this.log pIA msg.messageID := by
  intro attributed
  have reached : ((getRequested ++ [Event.packet (datagram 1 firstAck) 0]).foldlM (step idealEnv)
      (new [])).map (fun this : CoapServer =>
      (this.pInteractions.map fun pIA => pIA.state = .waitingResponse && pIA.ifID = 0 &&
          ownReliability pIA = .ackSet && pIA.ownMsg.map CoapMessage.type = some .con,
        this.log.all fun effect =>
          match effect with
          | .received pckt _ => pckt.ifID = 1
          | _ => true)) = some ([true], true) := by
    decide +kernel
  obtain ⟨this, taken, facts⟩ := Option.map_eq_some_iff.mp reached
  obtain ⟨listed, interfaces⟩ := Prod.mk.injEq .. ▸ facts
  obtain ⟨pIA, list, fields⟩ := List.map_eq_singleton_iff.mp listed
  simp only [Bool.and_eq_true, decide_eq_true_eq] at fields
  obtain ⟨⟨⟨state, ifID⟩, flag⟩, own⟩ := fields
  obtain ⟨msg, own, type⟩ := Option.map_eq_some_iff.mp own
  have member : pIA ∈ this.pInteractions := list ▸ List.mem_singleton.mpr rfl
  obtain ⟨later, pckt, ack, earlier, split, acknowledges, _⟩ := attributed idealEnv [] this (.of_events _ .refl taken)
    pIA member msg ⟨own, type, .inr (.inr (.inl state)), flag⟩
  have received : .received pckt ack ∈ this.log := split ▸ List.mem_append_right _ List.mem_cons_self
  have interface := of_decide_eq_true (List.all_eq_true.mp interfaces _ received)
  rw [acknowledges.interface, ifID] at interface
  cases interface

end

end CoapServer

end SmingCoap.Server
