import Mathlib.Data.List.Chain
import SmingCoap.Server.ObserveValue
import SmingCoap.Server.ObserverSoundness
import SmingCoap.Server.RetransmissionSoundness

/-! # What a client gets for an observation

The values that a client gets start again with each registration.  `Serial` is
what holds of them and of the notifications that are still to be sent, and
`Still` is a step that changes neither; most of them are.
-/

namespace SmingCoap.Server

open Wire (Opt)

namespace CoapServer

/-! ## What a client gets -/

/-- What a client observes, from where and under which token. -/
structure Observation where
  pRes : Nat
  ifID : UInt8
  ep : NetEp
  token : UInt64

/-- A message belongs to the observation. -/
def Observation.covers (key : Observation) (pRes : Option Nat) (ifID : UInt8) (ep : NetEp) (token : UInt64) : Bool :=
  pRes = some key.pRes && ifID = key.ifID && epAreEqual ep key.ep && token = key.token

/-- A message goes out once more. -/
def sentBefore (log : List Effect) (pIA : CoapInteraction) (msg : CoapMessage) : Bool :=
  (pIA.state = .responseSent || pIA.state = .notificationSent) && log.any fun
    | .sent (some other) _ _ _ earlier =>
      other.ref = pIA.ref && earlier.messageID = msg.messageID && earlier.options = msg.options
    | _ => false

/-- The value that an effect brings to an observation for the first time; `log` is what was before. -/
def brings (key : Observation) (log : List Effect) : Effect → Option Nat
  | .sent (some pIA) _ ifID receiver msg =>
    if pIA.role ≠ .client ∧ key.covers pIA.pRes ifID receiver msg.token64 = true ∧ sentBefore log pIA msg = false then
      getObserveOptionFromMsg msg
    else none
  | _ => none

/-- The response to a request. -/
def Effect.isResponse : Effect → Bool
  | .sent (some pIA) _ _ _ _ => pIA.role = .server
  | _ => false

/-- The values that a client gets for an observation from its last registration on, the latest first. -/
def received (key : Observation) : List Effect → List Nat
  | [] => []
  | effect :: log =>
    match brings key log effect with
    | none => received key log
    | some value => if Effect.isResponse effect then [value] else value :: received key log

/-- They are in the order of serial numbers. -/
def Increasing (values : List Nat) : Prop := values.IsChain fun later earlier => Older earlier later

section
variable {key : Observation} {log : List Effect} {effect : Effect} {pIA other : CoapInteraction} {msg : CoapMessage}

theorem Observation.covers_iff {pRes : Option Nat} {ifID : UInt8} {ep : NetEp} {token : UInt64} :
    key.covers pRes ifID ep token = true ↔
      pRes = some key.pRes ∧ ifID = key.ifID ∧ epAreEqual ep key.ep = true ∧ token = key.token := by
  simp [Observation.covers, and_assoc]

theorem received_none (nothing : brings key log effect = none) : received key (effect :: log) = received key log := by
  rw [received, nothing]

/-- Effects that bring no value to anyone. -/
theorem received_append {effects : List Effect} (nothing : ∀ effect ∈ effects, ∀ log, brings key log effect = none) :
    received key (effects ++ log) = received key log := by
  induction effects with
  | nil => rfl
  | cons effect rest inductionHypothesis =>
    rw [List.cons_append, received_none (nothing effect List.mem_cons_self _)]
    exact inductionHypothesis fun other member => nothing other (List.mem_cons_of_mem _ member)

theorem brings_plain (now : UInt32) (plain : observeOptions msg = []) :
    brings key log (sending now pIA msg) = none := by
  have none : getObserveOptionFromMsg (transmitted now msg) = none :=
    getObserveOptionFromMsg_none (by rw [observeOptions_transmitted, plain])
  simp [brings, sending, none]

theorem brings_client (now : UInt32) (role : pIA.role = .client) : brings key log (sending now pIA msg) = none := by
  simp [brings, sending, role]

/-- The message of an interaction that was sent last. -/
theorem brings_repeated (now : UInt32) (last : LastSent log pIA.ref msg)
    (waits : pIA.state = .responseSent ∨ pIA.state = .notificationSent) :
    brings key log (sending now pIA msg) = none := by
  obtain ⟨earlier, origin, ifID, receiver, found⟩ := last
  have ref := List.find?_some found
  simp only [Effect.isSentFor, decide_eq_true_eq] at ref
  have before : sentBefore log pIA (transmitted now msg) = true := by
    simp only [sentBefore, Bool.and_eq_true, Bool.or_eq_true, decide_eq_true_eq, List.any_eq_true]
    exact ⟨waits, _, List.mem_of_find?_eq_some found, by simp [ref]⟩
  simp [brings, sending, before]

/-- A message that goes out for the first time. -/
theorem brings_new (now : UInt32) (role : pIA.role ≠ .client)
    (covered : key.covers pIA.pRes pIA.ifID pIA.remoteEp msg.token64 = true)
    (state : pIA.state ≠ .responseSent ∧ pIA.state ≠ .notificationSent) :
    brings key log (sending now pIA msg) = getObserveOptionFromMsg msg := by
  have same : getObserveOptionFromMsg (transmitted now msg) = getObserveOptionFromMsg msg :=
    getObserveOptionFromMsg_congr (observeOptions_transmitted now msg)
  simp [brings, sending, role, covered, sentBefore, state, same]

/-- What any message brings is its own value, to its own observation. -/
theorem brings_some {now : UInt32} {value : Nat} (brought : brings key log (sending now pIA msg) = some value) :
    key.covers pIA.pRes pIA.ifID pIA.remoteEp msg.token64 = true ∧ getObserveOptionFromMsg msg = some value := by
  have same : getObserveOptionFromMsg (transmitted now msg) = getObserveOptionFromMsg msg :=
    getObserveOptionFromMsg_congr (observeOptions_transmitted now msg)
  simp only [brings, sending, transmitted_token64, same, Option.ite_none_right_eq_some] at brought
  exact ⟨brought.1.2.1, brought.2⟩

end

/-! ## The order of what is still to be sent -/

/-- What the client has under a notification before the notification is refreshed; `last` is what it has. -/
def front (last : Option Nat) (pIA : CoapInteraction) (msg : CoapMessage) : Option Nat :=
  if pIA.state = .readyToNotify then (getObserveOptionFromMsg msg).or last else last

/-- The value of an unsent notification is newer than the last, and the counter is newer than both where it
is going to replace it. -/
structure Ordered (last : Option Nat) (updateCnt : UInt32) (pIA : CoapInteraction) (msg : CoapMessage) : Prop where
  unsent : pIA.state = .readyToNotify → ∀ earlier value, last = some earlier →
    getObserveOptionFromMsg msg = some value → Older earlier value
  outdated : pIA.updatePendingNotification = true → ∀ earlier, front last pIA msg = some earlier →
    Older earlier (observeNumber updateCnt)

/-- A response that is not complete has no Observe option. -/
def Plain (pIA : CoapInteraction) : Prop :=
  Unanswered pIA → ∀ msg, pIA.pRespMsg = some msg → observeOptions msg = []

/-- What holds of the values that were sent, and of those that are still to be sent. -/
structure Serial (this : CoapServer) : Prop where
  message : ∀ pIA ∈ this.pInteractions, pIA.role = .notification → ∃ msg, pIA.pRespMsg = some msg ∧
    (observeOptions msg).length ≤ 1
  ordered : ∀ pIA ∈ this.pInteractions, pIA.role = .notification → ∀ key msg resource, pIA.pRespMsg = some msg →
    this.resources[key.pRes]? = some resource → key.covers pIA.pRes pIA.ifID pIA.remoteEp msg.token64 = true →
      Ordered (received key this.log).head? resource.updateCnt pIA msg
  plain : ∀ pIA ∈ this.pInteractions, pIA.role = .server → Plain pIA
  single : ∀ pIA ∈ this.pInteractions, ∀ other ∈ this.pInteractions, SameNotification pIA other → pIA.ref = other.ref
  increasing : ∀ key, Increasing (received key this.log)

/-- Two interactions with the same part in this. -/
structure SameValue (pIA other : CoapInteraction) : Prop extends SameLink pIA other where
  state : other.state = pIA.state
  updatePendingNotification : other.updatePendingNotification = pIA.updatePendingNotification
  pRespMsg : other.pRespMsg.map (fun msg => (msg.token64, observeOptions msg)) =
    pIA.pRespMsg.map fun msg => (msg.token64, observeOptions msg)

/-- An interaction of before, or one without a notification. -/
inductive Known (this : CoapServer) (other : CoapInteraction) : Prop
  | earlier {pIA : CoapInteraction} (member : pIA ∈ this.pInteractions) (same : SameValue pIA other)
  | client (role : other.role = .client)
  | server (role : other.role = .server) (plain : Plain other)

/-- Neither a value nor a counter changes. -/
structure Still (this after : CoapServer) : Prop where
  counters : ∀ pRes : Nat, after.resources[pRes]?.map CoapResource.updateCnt = this.resources[pRes]?.map CoapResource.updateCnt
  among : ∀ other ∈ after.pInteractions, Known this other
  received : ∀ key, received key after.log = received key this.log

section
variable {this middle after : CoapServer} {pIA other : CoapInteraction}

theorem SameValue.refl (pIA : CoapInteraction) : SameValue pIA pIA := ⟨.refl pIA, rfl, rfl, rfl⟩

theorem SameValue.trans {between : CoapInteraction} (first : SameValue pIA between) (further : SameValue between other) :
    SameValue pIA other :=
  ⟨first.toSameLink.trans further.toSameLink, further.state.trans first.state,
    further.updatePendingNotification.trans first.updatePendingNotification, further.pRespMsg.trans first.pRespMsg⟩

/-- Its message is one of before. -/
theorem SameValue.msg {msg : CoapMessage} (same : SameValue pIA other) (response : other.pRespMsg = some msg) :
    ∃ older, pIA.pRespMsg = some older ∧ older.token64 = msg.token64 ∧ observeOptions older = observeOptions msg := by
  have mapped := same.pRespMsg
  rw [response, Option.map_some] at mapped
  obtain ⟨older, found, fields⟩ := Option.map_eq_some_iff.mp mapped.symm
  simp only [Prod.mk.injEq] at fields
  exact ⟨older, found, fields⟩

theorem SameValue.later {older : CoapMessage} (same : SameValue pIA other) (found : pIA.pRespMsg = some older) :
    ∃ msg, other.pRespMsg = some msg ∧ observeOptions msg = observeOptions older := by
  have mapped := same.pRespMsg
  rw [found, Option.map_some] at mapped
  obtain ⟨msg, response, fields⟩ := Option.map_eq_some_iff.mp mapped
  simp only [Prod.mk.injEq] at fields
  exact ⟨msg, response, fields.2⟩

theorem SameValue.plain (same : SameValue pIA other) (plain : Plain pIA) : Plain other := by
  intro unanswered msg response
  obtain ⟨older, found, _, options⟩ := same.msg response
  rw [← options]
  rw [Unanswered, same.state] at unanswered
  exact plain unanswered older found

theorem SameValue.ordered {last : Option Nat} {updateCnt : UInt32} {older msg : CoapMessage} (same : SameValue pIA other)
    (options : observeOptions older = observeOptions msg) (ordered : Ordered last updateCnt pIA older) :
    Ordered last updateCnt other msg where
  unsent := by
    rw [same.state, ← getObserveOptionFromMsg_congr options]
    exact ordered.unsent
  outdated := by
    rw [front, same.state, same.updatePendingNotification, ← getObserveOptionFromMsg_congr options]
    exact ordered.outdated

theorem Known.trans (known : Known middle other) (still : ∀ pIA ∈ middle.pInteractions, Known this pIA) :
    Known this other := by
  cases known with
  | earlier member same =>
    cases still _ member with
    | earlier memberToo further => exact .earlier memberToo (further.trans same)
    | client role => exact .client (same.role.trans role)
    | server role plain => exact .server (same.role.trans role) (same.plain plain)
  | client role => exact .client role
  | server role plain => exact .server role plain

theorem Known.listed (member : pIA ∈ this.pInteractions) : Known this pIA := .earlier member (.refl pIA)

/-- A notification is one of before. -/
theorem Known.notification (known : Known this other) (role : other.role = .notification) :
    ∃ pIA ∈ this.pInteractions, SameValue pIA other := by
  cases known with
  | earlier member same => exact ⟨_, member, same⟩
  | client client =>
    rw [client] at role
    cases role
  | server server =>
    rw [server] at role
    cases role

theorem Still.trans (still : Still this middle) (further : Still middle after) : Still this after where
  counters := fun pRes => (further.counters pRes).trans (still.counters pRes)
  among := fun other member => (further.among other member).trans still.among
  received := fun key => (further.received key).trans (still.received key)

/-- A registration is answered: what its client has is 0. -/
def Answered (this : CoapServer) (key : Observation) : Prop :=
  ∀ pIA ∈ this.pInteractions, pIA.role = .notification → ∀ msg resource, pIA.pRespMsg = some msg →
    this.resources[key.pRes]? = some resource → key.covers pIA.pRes pIA.ifID pIA.remoteEp msg.token64 = true →
      Ordered (some 0) resource.updateCnt pIA msg

/-- Notifications and counters are those of before. -/
theorem Serial.renewed (serial : Serial this)
    (counters : ∀ pRes : Nat, after.resources[pRes]?.map CoapResource.updateCnt =
      this.resources[pRes]?.map CoapResource.updateCnt)
    (among : ∀ other ∈ after.pInteractions, Known this other)
    (values : ∀ key, received key after.log = received key this.log ∨ received key after.log = [0] ∧ Answered this key) :
    Serial after where
  message := by
    intro other member role
    obtain ⟨pIA, earlier, same⟩ := (among other member).notification role
    obtain ⟨older, found, few⟩ := serial.message pIA earlier (same.role ▸ role)
    obtain ⟨msg, response, options⟩ := same.later found
    exact ⟨msg, response, options ▸ few⟩
  ordered := by
    intro other member role key msg resource response listed covered
    -- a notification is one of before, up to what it is allowed to change
    obtain ⟨pIA, earlier, same⟩ := (among other member).notification role
    obtain ⟨older, found, token, options⟩ := same.msg response
    have counter := counters key.pRes
    rw [listed, Option.map_some] at counter
    obtain ⟨current, listedToo, count⟩ := Option.map_eq_some_iff.mp counter.symm
    rw [same.pRes, same.ifID, same.remoteEp, ← token] at covered
    rw [← count]
    apply same.ordered options
    cases values key with
    | inl kept =>
      rw [kept]
      exact serial.ordered pIA earlier (same.role ▸ role) key older current found listedToo covered
    | inr answered =>
      rw [answered.1]
      exact answered.2 pIA earlier (same.role ▸ role) older current found listedToo covered
  plain := by
    intro other member role
    cases among other member with
    | earlier earlier same => exact same.plain (serial.plain _ earlier (same.role ▸ role))
    | client client =>
      rw [client] at role
      cases role
    | server _ plain => exact plain
  single := by
    intro one member two memberToo same
    obtain ⟨pIA, earlier, first⟩ := (among one member).notification same.role
    obtain ⟨other, earlierToo, second⟩ := (among two memberToo).notification same.too
    rw [first.ref, second.ref]
    exact serial.single pIA earlier other earlierToo (first.sameNotification second.toSameLink same)
  increasing := by
    intro key
    cases values key with
    | inl kept => exact kept ▸ serial.increasing key
    | inr answered =>
      rw [answered.1]
      exact .singleton 0

/-- Nothing that matters here has changed. -/
theorem Serial.still (serial : Serial this) (still : Still this after) : Serial after :=
  serial.renewed still.counters still.among fun key => .inl (still.received key)

end

/-! ## Steps that bring no value -/

section
variable {env : Env} {now : UInt32} {this after : CoapServer} {pIA worked : CoapInteraction} {effects : List Effect}
  {list : List CoapInteraction}

theorem Places.still (placed : Places this after effects list) (among : ∀ other ∈ list, Known this other)
    (nothing : ∀ key, CoapServer.received key (effects ++ this.log) = CoapServer.received key this.log) :
    Still this after where
  counters := fun _ => by rw [placed.resources]
  among := fun other member => among other (placed.pInteractions ▸ member)
  received := fun key => by rw [placed.log, nothing]

theorem Silent.still (same : Silent this after) : Still this after :=
  same.places.still (fun _ member => .listed member) fun _ => rfl

theorem Still.refl (this : CoapServer) : Still this this := (Silent.refl this).still

theorem Asked.still (asked : Asked this after) : Still this after where
  counters := fun _ => by rw [asked.resources]
  among := by
    intro other member
    obtain ⟨new, appended, clients⟩ := asked.list
    rw [appended] at member
    cases List.mem_append.mp member with
    | inl earlier => exact .listed earlier
    | inr last => exact .client (clients other last).1
  received := by
    intro key
    obtain ⟨mids, log⟩ := asked.log
    rw [log]
    apply received_append
    intro effect member _
    obtain ⟨mid, _, rfl⟩ := List.mem_map.mp member
    rfl

/-- Resources change, but not their counters. -/
theorem modifyResource_still {pRes : Nat} {change : CoapResource → CoapResource}
    (kept : ∀ resource, (change resource).updateCnt = resource.updateCnt) : Still this (this.modifyResource pRes change) where
  counters := by
    intro other
    rw [modifyResource, List.getElem?_modify]
    cases this.resources[other]? with
    | none => rfl
    | some resource =>
      simp only [Option.map_eq_map, Option.map_some]
      split
      next => rw [kept]
      next => rfl
  among := fun _ member => .listed member
  received := fun _ => rfl

theorem removeInteractionsObserver_still (pIA : CoapInteraction) (token : UInt64) : Still this (this.removeInteractionsObserver pIA token) := by
  unfold removeInteractionsObserver
  split
  next => exact .refl this
  next => exact modifyResource_still fun _ => rfl

theorem known_erased {ref : Nat} : ∀ other ∈ this.pInteractions.eraseP fun other => other.ref = ref, Known this other :=
  fun _ member => .listed (List.mem_of_mem_eraseP member)

theorem known_enqueued {ref : Nat} (known : Known this worked) :
    ∀ other ∈ (this.pInteractions.eraseP fun other => other.ref = ref) ++ [worked], Known this other := by
  intro other member
  cases List.mem_append.mp member with
  | inl kept => exact known_erased other kept
  | inr last =>
    rw [List.mem_singleton.mp last]
    exact known

theorem known_stored (known : Known this worked) :
    ∀ other ∈ this.pInteractions.map fun other => if other.ref = worked.ref then worked else other, Known this other := by
  intro other member
  cases mem_stored member with
  | inl stored =>
    subst stored
    exact known
  | inr kept => exact .listed kept.1

theorem deleteInteraction_still (ref : Nat) : Still this (this.deleteInteraction ref) := by
  have placed : Places this (this.deleteInteraction ref) [] (this.pInteractions.eraseP fun other => other.ref = ref) :=
    ⟨rfl, rfl, rfl, rfl⟩
  exact placed.still known_erased fun _ => rfl

theorem enqueueLastInteraction_still (known : Known this worked) : Still this (this.enqueueLastInteraction worked) := by
  have placed : Places this (this.enqueueLastInteraction worked) []
      ((this.pInteractions.eraseP fun other => other.ref = worked.ref) ++ [worked]) := ⟨rfl, rfl, rfl, rfl⟩
  exact placed.still (known_enqueued known) fun _ => rfl

/-- A response without an Observe option. -/
theorem sendResp_still {resp : CoapMessage} (role : pIA.role = .server) (response : pIA.pRespMsg = some resp)
    (plain : observeOptions resp = []) (sent : this.sendResp env now pIA .responseSent = some after) : Still this after := by
  cases sendResp_places response sent with
  | inl deleted => exact deleted.still known_erased fun _ => rfl
  | inr placed =>
    obtain ⟨_, sameRole, state, _⟩ := responded_fields now pIA resp .responseSent
    have answered : Plain (responded now pIA resp .responseSent) := by
      intro unanswered
      rw [Unanswered, state] at unanswered
      simp at unanswered
    exact placed.still (known_enqueued (.server (sameRole.trans role) answered))
      fun key => received_none (brings_plain now plain)

/-- The last message is sent again. -/
theorem retryResp_still {resp : CoapMessage} (member : pIA ∈ this.pInteractions) (response : pIA.pRespMsg = some resp)
    (last : LastSent this.log pIA.ref resp) (waits : pIA.state = .responseSent ∨ pIA.state = .notificationSent)
    (sent : this.retryResp env now pIA = some after) : Still this after := by
  cases retryResp_places response sent with
  | inl deleted => exact deleted.still known_erased fun _ => rfl
  | inr placed =>
    have same : SameValue pIA (repeated now pIA resp) :=
      ⟨⟨rfl, rfl, rfl, rfl, rfl, rfl⟩, rfl, rfl, by simp [repeated, enableAckTimeout, response]⟩
    exact placed.still (known_stored (.earlier member same)) fun key => received_none (brings_repeated now last waits)

theorem sendReq_still (role : pIA.role = .client) (sent : this.sendReq env now pIA .waitingResponse = some after) :
    Still this after := by
  have taken := sent
  obtain ⟨req, request, _⟩ := Option.bind_eq_some_iff.mp taken
  cases sendReq_places request sent with
  | inl deleted => exact deleted.still known_erased fun _ => rfl
  | inr placed =>
    have client : (requested now pIA req).role = .client := (requested_fields now pIA req).2.1.trans role
    exact placed.still (known_enqueued (.client client)) fun key => received_none (brings_client now role)

theorem retryReq_still (role : pIA.role = .client) (sent : this.retryReq env now pIA = some after) : Still this after := by
  have taken := sent
  obtain ⟨req, request, _⟩ := Option.bind_eq_some_iff.mp taken
  cases retryReq_places request sent with
  | inl deleted => exact deleted.still known_erased fun _ => rfl
  | inr placed =>
    exact placed.still (known_stored (.client role)) fun key => received_none (brings_client now role)

theorem sendEmptyAck_still (ia : CoapInteraction) (messageID : Nat) :
    Still this (this.sendEmptyAck env now ia messageID).2 := by
  simp only [sendEmptyAck, sendShortResp]
  cases success : env.transmit this.transmissions with
  | true =>
    rw [sendMsg_sent _ _ _ _ _ _ success]
    refine ⟨fun _ => rfl, fun _ member => .listed member, fun key => received_none ?_⟩
    exact brings_plain now rfl
  | false =>
    obtain ⟨_, failed⟩ := sendMsg_failed now (some ia) ia.origin
      { coapInitToEmptyResetMsg with type := .ack, code := empty, messageID, token64 := 0 } ia.ifID ia.remoteEp success
    rw [failed]
    exact ⟨fun _ => rfl, fun _ member => .listed member, fun _ => rfl⟩

end

/-! ## Packets -/

section
variable {env : Env} {now : UInt32} {this after : CoapServer} {pIA worked : CoapInteraction} {pckt : NetPacket}
  {msg : CoapMessage}

theorem Replies.nothing {effect : Effect} (replies : Replies pckt msg effect) (key : Observation) (log : List Effect) :
    brings key log effect = none := by
  cases replies with
  | nextMid => rfl
  | sent => rfl

theorem marked_known (member : pIA ∈ this.pInteractions) (state : ReliabilityState) : Known this (marked pIA state) := by
  obtain ⟨_, _, sameState, _, _, pRespMsg, _⟩ := marked_fields pIA state
  have flag : (marked pIA state).updatePendingNotification = pIA.updatePendingNotification := by
    unfold marked
    split
    next => rfl
    next => rfl
  exact .earlier member ⟨marked_link pIA state, sameState, flag, by rw [pRespMsg]⟩

theorem Touches.known (member : pIA ∈ this.pInteractions) (touches : Touches this pckt msg pIA worked) :
    Known this worked := by
  have role := touches.identity.2.1
  cases touches with
  | reset => exact marked_known member .rstSet
  | acknowledged => exact marked_known member .ackSet
  | piggybacked _ _ _ client => exact .client (role.trans client)
  | separate awaits => exact .client awaits.role
  | early awaits => exact .client awaits.role

theorem Receives.still (receives : Receives env now pckt msg this after) : Still this after := by
  cases receives with
  | answered replies placed =>
    exact placed.still (fun _ member => .listed member)
      fun key => received_append fun effect member => (replies effect member).nothing key
  | duplicate _ _ _ _ _ placed =>
    exact placed.still (fun _ member => .listed member) fun key => received_none (brings_plain now rfl)
  | admitted _ _ middle same started =>
    subst started
    have before := same.still
    refine ⟨before.counters, fun other member => ?_, before.received⟩
    cases List.mem_append.mp member with
    | inl earlier => exact before.among other earlier
    | inr last =>
      rw [List.mem_singleton.mp last]
      exact .server rfl fun _ _ response => by cases response
  | touched _ member touches replies placed =>
    exact placed.still (known_stored (touches.known member))
      fun key => received_append fun effect member => (replies effect member).nothing key

theorem onNewPacketHandler_still (env : Env) (this : CoapServer) (now : UInt32) (pckt : NetPacket) :
    Still this (this.onNewPacketHandler env now pckt) := by
  cases onNewPacketHandler_cases env this now pckt with
  | inl unparsed => exact unparsed.2.still
  | inr received =>
    obtain ⟨msg, _, receives⟩ := received
    have noted : Still this (this.noted pckt msg) :=
      ⟨fun _ => rfl, fun _ member => .listed member, fun _ => received_none rfl⟩
    exact noted.trans receives.still

end

end CoapServer

end SmingCoap.Server
