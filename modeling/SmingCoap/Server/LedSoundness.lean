import SmingCoap.Server.CoverageSoundness
import SmingCoap.Server.Handlers
import SmingCoap.Server.RequeueSoundness

/-! # What the observers of the LED are told

`led` notifies the observers of the LED before it sets `LedState`.  A notification
that is pending then is refreshed later, but one that is started carries the old
state.  `LedState` is what the requests that the handler was called for have made
of it.
-/

namespace SmingCoap.Server

open Transition (Along)
open CoapServer (Silent Calls Numbered Unanswered Event lead)

/-- A firmware with the LED: its other resources, and what is outside the stack. -/
structure LedWorld where
  env : Env
  optionMem : Nat → Bool
  before : List CoapResource
  behind : List CoapResource

namespace LedWorld

/-- All resources, as they are made. -/
def resources (world : LedWorld) : List CoapResource := world.before ++ ledResource :: world.behind

def pLed_Res (world : LedWorld) : Nat := world.before.length

/-- `LedState` behind the effects of a log. -/
def replay (world : LedWorld) : List Effect → Bool
  | [] => true
  | .handled pIA pReq :: earlier =>
    if pIA.pRes = some world.pLed_Res then ledHandled (world.replay earlier) pReq else world.replay earlier
  | _ :: earlier => world.replay earlier

def ledState (world : LedWorld) (this : CoapServer) : Bool := world.replay this.log

/-- The handlers and notifiers at a `LedState`. -/
def envAt (world : LedWorld) (ledState : Bool) : Env :=
  { world.env with
    handler := fun turn pRes pReq pResp =>
      if pRes = world.pLed_Res then ledReqHandler (world.optionMem turn) world.pLed_Res ledState pReq pResp
      else world.env.handler turn pRes pReq pResp
    notifier := fun turn pRes pObserver pResp =>
      if pRes = world.pLed_Res then ledNotifyHandler (world.optionMem turn) ledState pResp
      else world.env.notifier turn pRes pObserver pResp }

/-- One step of the firmware.  `LedState` changes behind the notifications that its change starts. -/
def step (world : LedWorld) (this : CoapServer) (event : Event) : Option CoapServer :=
  this.step (world.envAt (world.ledState this)) event

/-! ## What is asked of a notification -/

/-- The message has the payload that a GET for all of it is answered with. -/
def Represents (world : LedWorld) (ledState : Bool) (msg : CoapMessage) : Prop :=
  ∀ turn pReq pResp, pReq.code = reqGet → (∀ option ∈ pReq.options, option.number ≠ optBlock2) →
    ((world.envAt ledState).handler turn world.pLed_Res pReq (some pResp)).resp.payload = msg.payload

/-- A notification of the LED that is not in the state before. -/
structure Started (world : LedWorld) (this after : CoapServer) (pIA : CoapInteraction) : Prop where
  member : pIA ∈ after.pInteractions
  new : this.interactions ≤ pIA.ref
  role : pIA.role = .notification
  pRes : pIA.pRes = some world.pLed_Res

/-- A step that changes the state starts no notification but with what a GET returns behind it. -/
def Informs (world : LedWorld) (this : CoapServer) (event : Event) : Prop :=
  ∀ after, world.step this event = some after → world.ledState after ≠ world.ledState this →
    ∀ pIA, world.Started this after pIA →
      ∃ msg, pIA.pRespMsg = some msg ∧ world.Represents (world.ledState after) msg

/-- The step is the handling of a request that changes the state. -/
structure Commands (world : LedWorld) (this : CoapServer) (event : Event) (now : UInt32) (pIA : CoapInteraction)
    (req : CoapMessage) : Prop where
  event : event = .doWork now
  list : ∃ rest, this.pInteractions = pIA :: rest
  due : pIA.sleepUntil ≤ now
  role : pIA.role = .server
  state : Unanswered pIA
  request : pIA.pReqMsg = some req
  pRes : pIA.pRes = some world.pLed_Res
  differs : ledHandled (world.ledState this) req ≠ world.ledState this

/-- There is memory for the response too. -/
structure Switches (world : LedWorld) (this : CoapServer) (event : Event) (now : UInt32) (pIA : CoapInteraction)
    (req : CoapMessage) : Prop extends world.Commands this event now pIA req where
  responds : pIA.pRespMsg = none → world.env.alloc this.allocs = true

/-- The memory, from the allocation `allocs` on, is enough for none of so many notifications: not for the interaction,
which ends the loop, or not for its message. -/
def Starves (alloc : Nat → Bool) (allocs : Nat) : Nat → Prop
  | 0 => True
  | waiting + 1 => alloc allocs = false ∨ alloc (allocs + 1) = false ∧ Starves alloc (allocs + 2) waiting

/-- The observers of the LED that no notification is pending for. -/
def waiting (world : LedWorld) (this : CoapServer) (observers : List CoapObserver) : List CoapObserver :=
  observers.filter fun pObserver => (this.lead world.pLed_Res pObserver).isNone

/-- When a request changes the state, every observer has a notification pending, or there is no memory for one. -/
def StartsNone (world : LedWorld) (this : CoapServer) (event : Event) : Prop :=
  ∀ now pIA req resource, world.Switches this event now pIA req →
    this.resources[world.pLed_Res]? = some resource →
      Starves world.env.alloc (if pIA.pRespMsg = none then this.allocs + 1 else this.allocs)
        (world.waiting this resource.observers).length

/-! ## The texts -/

theorem ledText_ne {ledState other : Bool} (differs : ledState ≠ other) : ledText ledState ≠ ledText other := by
  have apart : ledText true ≠ ledText false := by decide
  cases ledState with
  | true => cases other with
    | true => exact absurd rfl differs
    | false => exact apart
  | false => cases other with
    | true => exact apart.symm
    | false => exact absurd rfl differs

theorem ledText_fits (ledState : Bool) : (UInt16.ofNat (ledText ledState).length).toNat = (ledText ledState).length ∧
    UInt16.ofNat (ledText ledState).length ≠ 0 ∧ (ledText ledState).length ≤ maxPayloadSize := by
  cases ledState <;> decide

/-- Without a Block2 option in the request the text is the payload. -/
theorem setLedstatePayload_whole (optionMem ledState : Bool) {pReq : Option CoapMessage}
    (whole : ∀ pMsgReq, pReq = some pMsgReq → ∀ option ∈ pMsgReq.options, option.number ≠ optBlock2)
    (pResp : CoapMessage) : ∃ out, setLedstatePayload optionMem ledState pReq (inOwnMemory pResp) = some out ∧
      out.payload = ledText ledState ∧ out.code = pResp.code := by
  obtain ⟨size, positive, small⟩ := ledText_fits ledState
  -- no request, or one without the option, is answered with the whole payload
  have noBlock : setPayload optionMem true pReq (inOwnMemory pResp) (.external (ledText ledState) true)
      (UInt16.ofNat (ledText ledState).length) = setPayloadWhole optionMem true (inOwnMemory pResp)
        (.external (ledText ledState) true) (UInt16.ofNat (ledText ledState).length) := by
    rw [setPayload, if_neg positive]
    cases pReq with
    | none => rfl
    | some pMsgReq =>
      have absent : pMsgReq.options.find? (fun option => option.number = BlockOptionType.block2.toNat) = none := by
        rw [List.find?_eq_none]
        intro option member
        simp [BlockOptionType.toNat, whole pMsgReq rfl option member]
      simp only [Option.map_some, getBlockOptionFromMsg, absent]
  have fits : ¬ (ledText ledState).length > maxPayloadSize := Nat.not_lt.mpr small
  rw [setLedstatePayload, noBlock]
  simp only [setPayloadWhole, size, fits, if_false, placePayload, List.drop_zero, List.take_length, copyVolatile]
  by_cases enough : (ledText ledState).length ≤ pResp.payloadBufSize
  · simp [setOptions, inOwnMemory, enough, setPayloadLength]
  · simp [setOptions, inOwnMemory, enough, copyToNewBuffer, freeMsgPayload, setPayloadLength]

theorem ledNotifyHandler_resp (optionMem ledState : Bool) (pResp : CoapMessage) :
    (ledNotifyHandler optionMem ledState pResp).resp.payload = ledText ledState ∧
      (ledNotifyHandler optionMem ledState pResp).resp.code = pResp.code := by
  obtain ⟨out, set, payload, code⟩ := @setLedstatePayload_whole optionMem ledState none nofun pResp
  simp only [ledNotifyHandler, set, Option.map_some, Option.getD_some]
  exact ⟨payload, code⟩

section
variable {world : LedWorld} {ledState : Bool} {this after : CoapServer}

/-- What a GET returns is the text of the state. -/
theorem represents_iff (msg : CoapMessage) : world.Represents ledState msg ↔ msg.payload = ledText ledState := by
  have answered : ∀ turn pReq pResp, pReq.code = reqGet → (∀ option ∈ pReq.options, option.number ≠ optBlock2) →
      ((world.envAt ledState).handler turn world.pLed_Res pReq (some pResp)).resp.payload = ledText ledState := by
    intro turn pReq pResp get whole
    have notPost : pReq.code ≠ reqPost := by rw [get]; decide
    obtain ⟨out, set, payload, _⟩ :=
      setLedstatePayload_whole (world.optionMem turn) ledState (fun _ same => Option.some.inj same ▸ whole) pResp
    have response : ledResponse (world.optionMem turn) ledState pReq (inOwnMemory pResp) = some out := by
      rw [ledResponse, if_neg notPost, if_pos get, set]
    simp only [envAt, if_true, ledReqHandler, response, Option.map_some, Option.getD_some, payload]
  constructor
  · intro represents
    have get := represents 0 { coapInitToEmptyResetMsg with code := reqGet } msg rfl nofun
    rw [← get]
    exact answered 0 _ msg rfl nofun
  · intro payload turn pReq pResp get whole
    rw [payload]
    exact answered turn pReq pResp get whole

/-! ## The loop over the observers -/

theorem waiting_congr (same : after.pInteractions = this.pInteractions) (observers : List CoapObserver) :
    world.waiting after observers = world.waiting this observers := by
  simp only [waiting, lead, same]

/-- A flag on a pending notification leaves nobody waiting. -/
theorem waiting_flagged (numbered : Numbered this) {asked : CoapObserver} {pending : CoapInteraction}
    (found : this.lead world.pLed_Res asked = some pending) (observers : List CoapObserver) :
    world.waiting (this.storeInteraction { pending with updatePendingNotification := true }) observers =
      world.waiting this observers := by
  apply List.filter_congr
  intro pObserver _
  have led : CoapServer.Led (fun _ => True) world.pLed_Res [asked] pObserver this
      (this.storeInteraction { pending with updatePendingNotification := true }) :=
    CoapServer.storeInteraction_led numbered (fun _ _ => trivial) found
  cases here : this.lead world.pLed_Res pObserver with
  | some pIA =>
    obtain ⟨now, foundNow, _⟩ := led.kept pIA here
    simp [foundNow]
  | none =>
    have apart : [asked].find? (·.beside pObserver) = none := by
      rw [List.find?_singleton]
      split
      next beside =>
        rw [CoapServer.lead_beside beside, here] at found
        cases found
      next => rfl
    simp [led.free here apart]

/-- What is started with the text of the state. -/
structure Stale (world : LedWorld) (ledState : Bool) (first : Nat) (pIA : CoapInteraction) : Prop where
  new : first ≤ pIA.ref
  role : pIA.role = .notification
  pRes : pIA.pRes = some world.pLed_Res
  payload : ∃ msg, pIA.pRespMsg = some msg ∧ msg.payload = ledText ledState

theorem Stale.flagged {first : Nat} {pIA flagged : CoapInteraction} (stale : world.Stale ledState first pIA)
    (same : CoapServer.Flagged pIA flagged) : world.Stale ledState first flagged := by
  rcases same with rfl | ⟨_, rfl⟩
  · exact stale
  · exact ⟨stale.new, stale.role, stale.pRes, stale.payload⟩

/-- It is there when further observers were notified. -/
theorem Stale.grows {first second : Nat} (grows : CoapServer.Grows second this.pInteractions after.pInteractions)
    (started : ∃ pIA ∈ this.pInteractions, world.Stale ledState first pIA) :
    ∃ pIA ∈ after.pInteractions, world.Stale ledState first pIA := by
  obtain ⟨flag, new, list, flags, _⟩ := grows
  obtain ⟨pIA, member, stale⟩ := started
  refine ⟨flag pIA, ?_, stale.flagged (flags pIA member)⟩
  rw [list]
  exact List.mem_append_left _ (List.mem_map_of_mem member)

/-- A turn for an observer that nothing is pending for, when there is memory. -/
theorem notifyObserver_stale {resource : CoapResource} {pObserver : CoapObserver}
    (calls : CoapServer.CallsNotifier (world.envAt ledState) this world.pLed_Res resource pObserver) :
    (this.notifyObserver (world.envAt ledState) world.pLed_Res resource pObserver).1 = true ∧
      ∃ pIA ∈ (this.notifyObserver (world.envAt ledState) world.pLed_Res resource pObserver).2.pInteractions,
        world.Stale ledState this.interactions pIA := by
  have notified : CoapServer.freshNotified (world.envAt ledState) this world.pLed_Res pObserver =
      ledNotifyHandler (world.optionMem this.callbacks) ledState (this.freshMessage pObserver) := by
    simp [CoapServer.freshNotified, envAt]
  obtain ⟨payload, code⟩ :=
    ledNotifyHandler_resp (world.optionMem this.callbacks) ledState (this.freshMessage pObserver)
  have asked : CoapServer.Asked this
      (CoapServer.freshCalled (world.envAt ledState) this world.pLed_Res pObserver) := CoapServer.freshCalled_asked
  have content : ¬ (ledNotifyHandler (world.optionMem this.callbacks) ledState
      (this.freshMessage pObserver)).resp.code ≥ respErrorBadRequest := by
    rw [code]
    exact of_decide_eq_true rfl
  rw [CoapServer.notifyObserver_called calls, notified]
  simp only [content, if_false]
  refine ⟨rfl, _, List.mem_append_right _ List.mem_cons_self, asked.interactions, rfl, rfl, _, rfl, ?_⟩
  rw [← payload, CoapServer.completed]
  split <;> rfl

/-- A pending notification is only flagged, without memory. -/
theorem notifyObserver_pending {resource : CoapResource} {pObserver : CoapObserver} {pIA : CoapInteraction}
    (pending : this.lead world.pLed_Res pObserver = some pIA) :
    this.notifyObserver (world.envAt ledState) world.pLed_Res resource pObserver =
      (true, this.storeInteraction { pIA with updatePendingNotification := true }) := by
  rw [lead] at pending
  simp only [CoapServer.notifyObserver, pending]

/-- No memory for an interaction ends the loop. -/
theorem notifyObserver_noInteraction {resource : CoapResource} {pObserver : CoapObserver}
    (free : this.lead world.pLed_Res pObserver = none) (interaction : world.env.alloc this.allocs = false) :
    this.notifyObserver (world.envAt ledState) world.pLed_Res resource pObserver =
      (false, { this with allocs := this.allocs + 1 }) := by
  rw [lead] at free
  simp only [CoapServer.notifyObserver, free, CoapServer.memGet, envAt, interaction]

/-- An interaction without memory for its message is given back, and the loop goes on. -/
theorem notifyObserver_noMessage {resource : CoapResource} {pObserver : CoapObserver}
    (free : this.lead world.pLed_Res pObserver = none) (interaction : world.env.alloc this.allocs = true)
    (message : world.env.alloc (this.allocs + 1) = false) :
    this.notifyObserver (world.envAt ledState) world.pLed_Res resource pObserver =
      (true, { this.getNextMid.2 with allocs := this.allocs + 2 }) := by
  rw [lead] at free
  simp only [CoapServer.notifyObserver, free, CoapServer.memGet, envAt, interaction, CoapServer.createMessage,
    CoapServer.getNextMid, message]

theorem waiting_pending {pObserver : CoapObserver} {pIA : CoapInteraction}
    (pending : this.lead world.pLed_Res pObserver = some pIA) (rest : List CoapObserver) :
    world.waiting this (pObserver :: rest) = world.waiting this rest := by
  simp [waiting, pending]

theorem waiting_free {pObserver : CoapObserver} (free : this.lead world.pLed_Res pObserver = none)
    (rest : List CoapObserver) : world.waiting this (pObserver :: rest) = pObserver :: world.waiting this rest := by
  simp [waiting, free]

/-- The loop starts a notification exactly when there is memory for one. -/
theorem notifyLoop_stale {resource : CoapResource} (notifier : resource.notifier = true) (observers : List CoapObserver)
    (numbered : Numbered this)
    (found : ∃ current, this.resources[world.pLed_Res]? = some current ∧ current.notifier = resource.notifier) :
    let looped := CoapServer.notifyLoop (world.envAt ledState) world.pLed_Res resource this observers
    (Starves world.env.alloc this.allocs (world.waiting this observers).length →
        looped.pInteractions.map CoapInteraction.ref = this.pInteractions.map CoapInteraction.ref) ∧
      (¬ Starves world.env.alloc this.allocs (world.waiting this observers).length →
        ∃ pIA ∈ looped.pInteractions, world.Stale ledState this.interactions pIA) := by
  induction observers generalizing this with
  | nil => exact ⟨fun _ => rfl, fun memory => absurd trivial memory⟩
  | cons pObserver rest inductionHypothesis =>
    have calls : Calls (world.envAt ledState) (fun _ => True) this
        (this.notifyObserver (world.envAt ledState) world.pLed_Res resource pObserver).2 :=
      CoapServer.notifyObserver_calls found trivial
    obtain ⟨nextNumbered, grown, _⟩ := calls.grows numbered
    obtain ⟨current, listed, same⟩ := found
    obtain ⟨now, listedNow, kept⟩ := CoapServer.layout_getElem? calls.resource listed
    have nextFound := (CoapServer.layout_singleton kept).2.2.2.trans same
    simp only [CoapServer.notifyLoop]
    cases pending : this.lead world.pLed_Res pObserver with
    | some pIA =>
      rw [notifyObserver_pending pending] at nextNumbered listedNow
      have later := inductionHypothesis nextNumbered ⟨now, listedNow, nextFound⟩
      rw [waiting_flagged numbered pending] at later
      rw [notifyObserver_pending pending, waiting_pending pending]
      refine ⟨fun starves => (later.1 starves).trans ?_, later.2⟩
      exact CoapServer.map_ref_stored this.pInteractions { pIA with updatePendingNotification := true }
    | none =>
      rw [waiting_free pending, List.length_cons, Starves]
      cases interaction : world.env.alloc this.allocs with
      | false =>
        rw [notifyObserver_noInteraction pending interaction]
        exact ⟨fun _ => rfl, fun memory => absurd (.inl rfl) memory⟩
      | true =>
        cases message : world.env.alloc (this.allocs + 1) with
        | false =>
          have turn := @notifyObserver_noMessage world ledState this resource pObserver pending interaction message
          rw [turn] at nextNumbered listedNow
          have later := inductionHypothesis nextNumbered ⟨now, listedNow, nextFound⟩
          have unchanged : world.waiting { this.getNextMid.2 with allocs := this.allocs + 2 } rest =
              world.waiting this rest := waiting_congr rfl rest
          simp only [unchanged] at later
          rw [turn]
          refine ⟨fun starves => later.1 ?_, fun memory => later.2 fun starves => memory (.inr ⟨rfl, starves⟩)⟩
          rcases starves with impossible | ⟨_, starves⟩
          · cases impossible
          · exact starves
        | true =>
          have free : CoapServer.CallsNotifier (world.envAt ledState) this world.pLed_Res resource pObserver :=
            ⟨fun pIA member => CoapServer.lead_none pending member, interaction, message, notifier⟩
          obtain ⟨goesOn, started⟩ := notifyObserver_stale free
          refine ⟨fun starves => ?_, fun _ => ?_⟩
          · rcases starves with impossible | ⟨impossible, _⟩ <;> cases impossible
          · split
            next stopped =>
              rw [stopped] at goesOn
              cases goesOn
            next middle turn =>
              -- what was started is still there when the rest was notified
              rw [turn] at started nextNumbered listedNow
              have further : Calls (world.envAt ledState) (fun _ => True) middle
                  (CoapServer.notifyLoop (world.envAt ledState) world.pLed_Res resource middle rest) :=
                CoapServer.notifyLoop_calls rest (fun _ _ => trivial) ⟨now, listedNow, nextFound⟩
              exact Stale.grows (further.grows nextNumbered).2.2.2 started

/-! ## The state in the log -/

theorem ledState_silent (same : Silent this after) : world.ledState after = world.ledState this := by
  rw [ledState, same.log, ledState]

theorem ledState_act {env : Env} {known : CoapObserver → Prop} (act : CoapServer.CallAct env known this after) :
    world.ledState after = world.ledState this := by
  cases act with
  | silent same => exact ledState_silent same
  | nextMid => rfl
  | flag => rfl
  | client => rfl
  | notification => rfl
  | removeObserver => rfl
  | update => rfl

theorem ledState_calls {env : Env} {known : CoapObserver → Prop} (calls : Calls env known this after) :
    world.ledState after = world.ledState this := by
  induction calls with
  | refl => rfl
  | tail _ act inductionHypothesis => exact (ledState_act act).trans inductionHypothesis

/-- Only the calls of handlers count. -/
theorem replay_append (effects earlier : List Effect)
    (others : ∀ effect ∈ effects, ∀ pIA req, effect ≠ .handled pIA req) :
    world.replay (effects ++ earlier) = world.replay earlier := by
  induction effects with
  | nil => rfl
  | cons effect rest inductionHypothesis =>
    have behind := inductionHypothesis fun other member => others other (List.mem_cons_of_mem _ member)
    have here := others effect List.mem_cons_self
    cases effect with
    | received => exact behind
    | sent => exact behind
    | handled pIA req => exact absurd rfl (here pIA req)
    | nextMid => exact behind

theorem ledState_places {effects : List Effect} {list : List CoapInteraction}
    (placed : CoapServer.Places this after effects list) (others : ∀ effect ∈ effects, ∀ pIA req, effect ≠ .handled pIA req) :
    world.ledState after = world.ledState this := by
  rw [ledState, placed.log, replay_append effects _ others, ledState]

theorem ledState_receives {env : Env} {now : UInt32} {pckt : NetPacket} {msg : CoapMessage}
    (receives : CoapServer.Receives env now pckt msg this after) : world.ledState after = world.ledState this := by
  cases receives with
  | answered replies placed =>
    apply ledState_places placed
    rintro _ member pIA req rfl
    cases replies _ member
  | duplicate _ _ _ _ _ placed =>
    apply ledState_places placed
    rintro _ member pIA req rfl
    cases List.mem_singleton.mp member
  | admitted _ _ middle same started =>
    rw [started, ledState, CoapServer.startInteraction, CoapServer.appendInteraction]
    simp only [same.log, ledState]
  | touched _ _ _ replies placed =>
    apply ledState_places placed
    rintro _ member pIA req rfl
    cases replies _ member

theorem ledState_ends {env : Env} {now : UInt32} {resources : List CoapResource} {pIA : CoapInteraction}
    (ends : CoapServer.Ends env now resources pIA this after) : world.ledState after = world.ledState this := by
  have sends : ∀ {log effects worked}, CoapServer.Works env now resources log pIA effects worked →
      ∀ effect ∈ effects, ∀ other req, effect ≠ .handled other req := by
    rintro log effects worked works _ member other req rfl
    obtain ⟨_, _, impossible, _⟩ := works.sends _ member
    cases impossible
  cases ends with
  | deleted placed => exact ledState_places placed fun _ impossible => absurd impossible List.not_mem_nil
  | last works placed => exact ledState_places placed (sends works)
  | first works _ placed => exact ledState_places placed (sends works)

/-- A turn that changes the state handles a request for the LED. -/
theorem ledState_turn {env : Env} {known : CoapObserver → Prop} {now : UInt32} {pIA : CoapInteraction}
    (turn : CoapServer.Turn env known now pIA this after) (differs : world.ledState after ≠ world.ledState this) :
    ∃ req, pIA.role = .server ∧ Unanswered pIA ∧ pIA.pReqMsg = some req ∧ pIA.pRes = some world.pLed_Res ∧
      ledHandled (world.ledState this) req ≠ world.ledState this := by
  obtain ⟨prepared, begun, called, observed, ready, prepares, begins, calls, observes, finishes, ends⟩ := turn
  have observing : world.ledState observed = world.ledState called := by
    rw [ledState, observes.log, ledState]
  rw [ledState_ends ends, ledState_calls finishes, observing, ledState_calls calls] at differs
  cases begins with
  | nothing same =>
    rw [ledState, same.log] at differs
    exact absurd (ledState_calls prepares) differs
  | @handled req role state request _ _ _ _ log =>
    rw [ledState, log, replay] at differs
    split at differs
    next asked =>
      rw [← ledState, ledState_calls prepares] at differs
      exact ⟨req, role, state, request, asked, differs⟩
    next => exact absurd (ledState_calls prepares) differs

/-! ## The step that changes the state -/

/-- What the handler is given, and the stack then. -/
def offer (world : LedWorld) (this : CoapServer) (pIA : CoapInteraction) (req : CoapMessage) :
    Option CoapMessage × CoapServer :=
  match pIA.pRespMsg with
  | some pRespMsg => (some pRespMsg, this)
  | none => this.allocRespMsg (world.envAt (world.ledState this)) req empty CoapServer.preferedPayloadSize

/-- The stack when the handler runs. -/
def handling (world : LedWorld) (this : CoapServer) (pIA : CoapInteraction) (req : CoapMessage) : CoapServer :=
  { (world.offer this pIA req).2 with
    callbacks := (world.offer this pIA req).2.callbacks + 1
    log := .handled pIA req :: (world.offer this pIA req).2.log }

/-- Nothing but the message id and the counters is different behind the allocation of the response. -/
structure Offers (world : LedWorld) (this : CoapServer) (pIA : CoapInteraction)
    (offered : Option CoapMessage × CoapServer) : Prop where
  pInteractions : offered.2.pInteractions = this.pInteractions
  resources : offered.2.resources = this.resources
  interactions : offered.2.interactions = this.interactions
  allocs : offered.2.allocs = if pIA.pRespMsg = none then this.allocs + 1 else this.allocs
  ledState : world.ledState offered.2 = world.ledState this
  isSome : offered.1.isSome = true ↔ (pIA.pRespMsg = none → world.env.alloc this.allocs = true)

theorem offer_offers (world : LedWorld) (this : CoapServer) (pIA : CoapInteraction) (req : CoapMessage) :
    world.Offers this pIA (world.offer this pIA req) := by
  cases given : pIA.pRespMsg with
  | some resp =>
    rw [offer, given]
    exact ⟨rfl, rfl, rfl, by simp [given], rfl, by simp [given]⟩
  | none =>
    rw [offer, given]
    simp only [CoapServer.allocRespMsg]
    split
    next =>
      cases memory : world.env.alloc this.allocs with
      | true =>
        simp only [CoapServer.createMessage, CoapServer.memGet, envAt, memory]
        exact ⟨rfl, rfl, rfl, by simp [given], rfl, by simp [memory]⟩
      | false =>
        simp only [CoapServer.createMessage, CoapServer.memGet, envAt, memory]
        exact ⟨rfl, rfl, rfl, by simp [given], rfl, by simp [given, memory]⟩
    next =>
      cases memory : world.env.alloc this.allocs with
      | true =>
        simp only [CoapServer.createMessage, CoapServer.memGet, CoapServer.getNextMid, envAt, memory]
        exact ⟨rfl, rfl, rfl, by simp [given], rfl, by simp [memory]⟩
      | false =>
        simp only [CoapServer.createMessage, CoapServer.memGet, CoapServer.getNextMid, envAt, memory]
        exact ⟨rfl, rfl, rfl, by simp [given], rfl, by simp [given, memory]⟩

/-- A response is sent, or its interaction goes. -/
theorem sendResp_kept {env : Env} {now : UInt32} {pIA : CoapInteraction} {req resp : CoapMessage}
    (request : pIA.pReqMsg = some req) (response : pIA.pRespMsg = some resp) :
    ∃ after, this.sendResp env now pIA .responseSent = some after ∧ world.ledState after = world.ledState this ∧
      ∀ other, other.ref ≠ pIA.ref → (other ∈ after.pInteractions ↔ other ∈ this.pInteractions) := by
  have named : pIA.pReqMsg ≠ none := by simp [request]
  obtain ⟨after, sent⟩ := Option.isSome_iff_exists.mp
    ((CoapServer.sendResp_isSome pIA .responseSent response).mpr (Or.inr named))
  refine ⟨after, sent, ?_⟩
  have erased : ∀ other : CoapInteraction, other.ref ≠ pIA.ref →
      (other ∈ (this.pInteractions.eraseP fun entry => entry.ref = pIA.ref) ↔ other ∈ this.pInteractions) := by
    intro other apart
    exact List.mem_eraseP_of_neg (by simpa using apart)
  have ref : (CoapServer.responded now pIA resp .responseSent).ref = pIA.ref := (CoapServer.responded_fields ..).1
  rcases CoapServer.sendResp_places response sent with placed | placed
  · refine ⟨ledState_places placed fun _ impossible => absurd impossible List.not_mem_nil, ?_⟩
    rw [placed.pInteractions]
    exact erased
  · constructor
    · apply ledState_places placed
      rintro _ member other req rfl
      cases List.mem_singleton.mp member
    · intro other apart
      rw [placed.pInteractions, ref, List.mem_append, erased other apart, List.mem_singleton]
      constructor
      · rintro (kept | rfl)
        · exact kept
        · exact absurd ref apart
      · exact .inl

/-- Behind the handler of a POST no observer is registered or removed. -/
theorem respond_kept {env : Env} {now : UInt32} {pIA : CoapInteraction} {req : CoapMessage} (post : req.code = reqPost)
    (request : pIA.pReqMsg = some req) (pRes : Nat) (resp : CoapMessage) :
    ∃ after, this.respond env now pIA pRes req resp = some after ∧ world.ledState after = world.ledState this ∧
      ∀ other, other.ref ≠ pIA.ref → (other ∈ after.pInteractions ↔ other ∈ this.pInteractions) := by
  have typed := CoapServer.setRespType_calls env (fun _ => True) this pIA req resp
  have list : (this.setRespType pIA req resp).2.pInteractions = this.pInteractions := by
    unfold CoapServer.setRespType
    split
    next => split <;> rfl
    next => rfl
  obtain ⟨path, _⟩ := CoapServer.addPathOption_silent env (this.setRespType pIA req resp).2 pIA.reqMetaInfo
    (this.setRespType pIA req resp).1
  have notGet : req.code ≠ reqGet := by rw [post]; decide
  have observation : ∀ (middle : CoapServer) (msg : CoapMessage), middle.addObservation env pIA pRes req msg = (msg, middle) := by
    intro middle msg
    unfold CoapServer.addObservation
    cases pIA.origin with
    | none => rfl
    | some origin => exact if_neg fun get => notGet get.1
  simp only [CoapServer.respond, observation]
  generalize CoapServer.setRespType this pIA req resp = first at *
  generalize CoapServer.addPathOption env first.2 pIA.reqMetaInfo first.1 = second at *
  obtain ⟨after, sent, state, members⟩ :=
    @sendResp_kept world second.2 env now { pIA with pRespMsg := some second.1 } req second.1 request rfl
  refine ⟨after, sent, ?_, ?_⟩
  · rw [state, ledState_silent path, ledState_calls typed]
  · intro other apart
    rw [members other apart, path.pInteractions, list]

theorem listed (world : LedWorld) : world.resources[world.pLed_Res]? = some ledResource := by
  simp [resources, pLed_Res]

theorem Commands.post {event : Event} {now : UInt32} {pIA : CoapInteraction} {req : CoapMessage}
    (commands : world.Commands this event now pIA req) : req.code = reqPost := by
  by_contra other
  exact commands.differs (by rw [ledHandled, if_neg other])

/-- The step is the notification of the observers, followed by the response. -/
theorem Commands.step_eq {event : Event} {now : UInt32} {pIA : CoapInteraction} {req : CoapMessage}
    (commands : world.Commands this event now pIA req)
    (layouts : CoapServer.layout this.resources = CoapServer.layout world.resources) :
    world.step this event = (world.offer this pIA req).1.bind fun offered =>
      ((world.handling this pIA req).notifyResourceObservers (world.envAt (world.ledState this)) world.pLed_Res).respond
        (world.envAt (world.ledState this)) now pIA world.pLed_Res req (CoapServer.completeCode .ok
          (ledReqHandler (world.optionMem (world.offer this pIA req).2.callbacks) world.pLed_Res (world.ledState this)
            req (some offered)).resp) := by
  obtain ⟨rest, list⟩ := commands.list
  obtain ⟨resource, found, kept⟩ := CoapServer.layout_getElem? layouts world.listed
  -- the resource allows the method, so the handler is called
  have allowed : CoapServer.methodNotAllowed req.code resource.flags = false := by
    rw [commands.post, (CoapServer.layout_singleton kept).1]
    decide
  have works : world.step this event =
      this.handleRequest (world.envAt (world.ledState this)) now pIA := by
    rw [step, commands.event]
    simp only [CoapServer.step, CoapServer.doWork, list, if_neg (UInt32.not_lt.mpr commands.due), CoapServer.work,
      commands.role]
    rcases commands.state with state | state <;> rw [state]
  have calls : ledCalls world.pLed_Res (world.ledState this) (ledHandled (world.ledState this) req) =
      [.notify world.pLed_Res] := if_pos commands.differs.symm
  rw [works]
  simp only [CoapServer.handleRequest, commands.request, commands.pRes, found, allowed, Option.bind_eq_bind,
    Option.bind_some, Bool.false_eq_true, if_false]
  have handler : ∀ turn pResp, (world.envAt (world.ledState this)).handler turn world.pLed_Res req pResp =
      ledReqHandler (world.optionMem turn) world.pLed_Res (world.ledState this) req pResp := fun _ _ => if_pos rfl
  have answers : ∀ optionMem resp, (ledReqHandler optionMem world.pLed_Res (world.ledState this) req resp).result ≠ .postpone :=
    fun _ _ => by simp [ledReqHandler]
  cases given : pIA.pRespMsg with
  | some resp =>
    have offered : world.offer this pIA req = (some resp, this) := by rw [offer, given]
    simp only [handling, offered, handler, answers, if_false]
    simp only [ledReqHandler, calls]
    rfl
  | none =>
    have offered : world.offer this pIA req =
        this.allocRespMsg (world.envAt (world.ledState this)) req empty CoapServer.preferedPayloadSize := by
      rw [offer, given]
    simp only [handling, offered, handler, answers, if_false]
    rcases this.allocRespMsg (world.envAt (world.ledState this)) req empty
      CoapServer.preferedPayloadSize with ⟨resp, middle⟩
    simp only [ledReqHandler, calls]
    cases resp <;> rfl

/-- The observers are notified, with the state as it is. -/
theorem notifyResourceObservers_stale {resource : CoapResource} (numbered : Numbered this)
    (found : this.resources[world.pLed_Res]? = some resource) (notifier : resource.notifier = true) :
    let notified := this.notifyResourceObservers (world.envAt ledState) world.pLed_Res
    (Starves world.env.alloc this.allocs (world.waiting this resource.observers).length →
        notified.pInteractions.map CoapInteraction.ref = this.pInteractions.map CoapInteraction.ref) ∧
      (¬ Starves world.env.alloc this.allocs (world.waiting this resource.observers).length →
        ∃ pIA ∈ notified.pInteractions, world.Stale ledState this.interactions pIA) := by
  have updated : (this.modifyResource world.pLed_Res fun resource =>
      { resource with updateCnt := resource.updateCnt + 1 }).resources[world.pLed_Res]? =
        some { resource with updateCnt := resource.updateCnt + 1 } := by
    simp [CoapServer.modifyResource, found]
  simp only [CoapServer.notifyResourceObservers, CoapServer.startNotifyInteractions, updated]
  exact @notifyLoop_stale world ledState (this.modifyResource world.pLed_Res _)
    { resource with updateCnt := resource.updateCnt + 1 } notifier resource.observers
    ⟨numbered.nodup, numbered.listed, numbered.logged⟩ ⟨_, updated, rfl⟩

theorem handling_numbered {pIA : CoapInteraction} (numbered : Numbered this) (member : pIA ∈ this.pInteractions)
    (req : CoapMessage) : Numbered (world.handling this pIA req) := by
  have offered : Calls world.env (fun _ => True) this (world.offer this pIA req).2 := by
    unfold offer
    split
    next => exact CoapServer.calls_refl
    next => exact CoapServer.allocRespMsg_calls this req empty CoapServer.preferedPayloadSize
  obtain ⟨offeredNumbered, grown, _⟩ := offered.grows numbered
  have noted := offeredNumbered.note (.handled pIA req) fun ref actor => by
    cases actor
    exact Nat.lt_of_lt_of_le (numbered.listed pIA member) grown
  exact noted.silent ⟨rfl, rfl, rfl, rfl, rfl⟩

/-- What there is behind the step. -/
theorem Switches.outcome {event : Event} {now : UInt32} {pIA : CoapInteraction} {req : CoapMessage}
    (switches : world.Switches this event now pIA req)
    (layouts : CoapServer.layout this.resources = CoapServer.layout world.resources) :
    ∃ after, world.step this event = some after ∧
      world.ledState after = ledHandled (world.ledState this) req ∧ ∀ other, other.ref ≠ pIA.ref →
        (other ∈ after.pInteractions ↔ other ∈ ((world.handling this pIA req).notifyResourceObservers
          (world.envAt (world.ledState this)) world.pLed_Res).pInteractions) := by
  have offers := offer_offers world this pIA req
  obtain ⟨offered, given⟩ := Option.isSome_iff_exists.mp (offers.isSome.mpr switches.responds)
  rw [switches.step_eq layouts, given, Option.bind_some]
  obtain ⟨after, taken, state, members⟩ := @respond_kept world
    ((world.handling this pIA req).notifyResourceObservers (world.envAt (world.ledState this)) world.pLed_Res)
    (world.envAt (world.ledState this)) now pIA req switches.post switches.request world.pLed_Res _
  refine ⟨after, taken, ?_, members⟩
  have notified : Calls (world.envAt (world.ledState this)) (world.handling this pIA req).IsObserver
      (world.handling this pIA req)
      ((world.handling this pIA req).notifyResourceObservers (world.envAt (world.ledState this)) world.pLed_Res) :=
    CoapServer.call_calls (fun _ observer => observer) (.notify world.pLed_Res)
  rw [state, ledState_calls notified]
  have handled : world.ledState (world.handling this pIA req) =
      ledHandled (world.ledState (world.offer this pIA req).2) req := if_pos switches.pRes
  rw [handled, offers.ledState]

/-- A step that changes the state handles a request. -/
theorem switches_of_change {event : Event} (staged : ∀ pIA ∈ this.pInteractions, CoapServer.Staged pIA)
    (layouts : CoapServer.layout this.resources = CoapServer.layout world.resources)
    (taken : world.step this event = some after) (changed : world.ledState after ≠ world.ledState this) :
    ∃ now pIA req, world.Switches this event now pIA req := by
  have worked := taken
  cases event with
  | packet pckt now =>
    cases worked
    rcases CoapServer.onNewPacketHandler_cases (world.envAt (world.ledState this)) this now pckt with
      ⟨_, same⟩ | ⟨msg, _, receives⟩
    · exact absurd (ledState_silent same) changed
    · exact absurd (ledState_receives receives) changed
  | call request =>
    cases worked
    exact absurd (ledState_calls (CoapServer.call_calls (fun _ observer => observer) request)) changed
  | doWork now =>
    rcases CoapServer.doWork_cases worked with ⟨_, rfl⟩ | ⟨pIA, rest, list, ⟨_, rfl⟩ | ⟨due, _⟩⟩
    · exact absurd rfl changed
    · exact absurd rfl changed
    · have member : pIA ∈ this.pInteractions := list ▸ List.mem_cons_self
      obtain ⟨req, role, state, request, pRes, differs⟩ :=
        ledState_turn (CoapServer.doWork_turn list (staged pIA member) worked) changed
      have commands : world.Commands this (.doWork now) now pIA req :=
        ⟨rfl, ⟨rest, list⟩, UInt32.not_lt.mp due, role, state, request, pRes, differs⟩
      refine ⟨now, pIA, req, commands, (offer_offers world this pIA req).isSome.mp ?_⟩
      rw [commands.step_eq layouts] at taken
      obtain ⟨offered, given, _⟩ := Option.bind_eq_some_iff.mp taken
      rw [given, Option.isSome_some]

/-- What a step keeps. -/
def InOrder (world : LedWorld) (this : CoapServer) : Prop :=
  CoapServer.Holds world.resources (fun _ => False) (fun _ pIA => CoapServer.Shaped world.resources pIA)
    (fun _ _ => True) (fun _ _ => True) this

/-- The step starts a notification with the old state exactly when there is memory for one. -/
theorem Switches.stale {event : Event} {now : UInt32} {pIA : CoapInteraction} {req : CoapMessage}
    {resource : CoapResource} (switches : world.Switches this event now pIA req) (inOrder : world.InOrder this)
    (found : this.resources[world.pLed_Res]? = some resource) :
    let starves := Starves world.env.alloc (if pIA.pRespMsg = none then this.allocs + 1 else this.allocs)
      (world.waiting this resource.observers).length
    ∃ after, world.step this event = some after ∧ world.ledState after = ledHandled (world.ledState this) req ∧
      (starves → ∀ other ∈ after.pInteractions, other.ref < this.interactions) ∧
      (¬ starves → ∃ other ∈ after.pInteractions, world.Stale (world.ledState this) this.interactions other) := by
  obtain ⟨rest, list⟩ := switches.list
  have member : pIA ∈ this.pInteractions := list ▸ List.mem_cons_self
  have below : pIA.ref < this.interactions := inOrder.numbered.listed pIA member
  have offers := offer_offers world this pIA req
  obtain ⟨after, taken, state, members⟩ := switches.outcome inOrder.layouts
  obtain ⟨current, foundCurrent, kept⟩ := CoapServer.layout_getElem? inOrder.layouts world.listed
  have notifier : resource.notifier = true := by
    rw [found] at foundCurrent
    exact Option.some.inj foundCurrent ▸ (CoapServer.layout_singleton kept).2.2.2
  have notified := @notifyResourceObservers_stale world (world.ledState this) (world.handling this pIA req) resource
    (handling_numbered inOrder.numbered member req) (offers.resources ▸ found) notifier
  have waits : world.waiting (world.handling this pIA req) resource.observers = world.waiting this resource.observers :=
    waiting_congr offers.pInteractions resource.observers
  have allocs : (world.handling this pIA req).allocs =
      if pIA.pRespMsg = none then this.allocs + 1 else this.allocs := offers.allocs
  have interactions : (world.handling this pIA req).interactions = this.interactions := offers.interactions
  have sameList : (world.handling this pIA req).pInteractions = this.pInteractions := offers.pInteractions
  simp only [waits, allocs, interactions, sameList] at notified
  -- without memory nothing is new; with it a notification of the state before goes into the list
  refine ⟨after, taken, state, fun starves other inside => ?_, fun memory => ?_⟩
  · by_cases own : other.ref = pIA.ref
    · exact own ▸ below
    · have ref := List.mem_map_of_mem (f := CoapInteraction.ref) ((members other own).mp inside)
      rw [notified.1 starves] at ref
      obtain ⟨earlier, listed, same⟩ := List.mem_map.mp ref
      exact same ▸ inOrder.numbered.listed earlier listed
  · obtain ⟨other, inside, stale⟩ := notified.2 memory
    have apart : other.ref ≠ pIA.ref := by
      have new := stale.new
      omega
    exact ⟨other, (members other apart).mpr inside, stale⟩

theorem informs_iff (inOrder : world.InOrder this) (event : Event) :
    world.Informs this event ↔ world.StartsNone this event := by
  obtain ⟨resource, found, kept⟩ := CoapServer.layout_getElem? inOrder.layouts world.listed
  constructor
  · intro informs now pIA req current switches foundCurrent
    by_contra memory
    obtain ⟨after, taken, state, _, starts⟩ := switches.stale inOrder foundCurrent
    obtain ⟨other, inside, stale⟩ := starts memory
    obtain ⟨msg, response, payload⟩ := stale.payload
    have changed : world.ledState after ≠ world.ledState this := state ▸ switches.differs
    obtain ⟨told, sameResponse, represents⟩ :=
      informs after taken changed other ⟨inside, stale.new, stale.role, stale.pRes⟩
    cases Option.some.inj (response.symm.trans sameResponse)
    exact ledText_ne changed (((represents_iff msg).mp represents).symm.trans payload)
  · intro none after taken changed pIA started
    have staged : ∀ pIA ∈ this.pInteractions, CoapServer.Staged pIA := fun pIA member =>
      (inOrder.interactions pIA member).staged
    obtain ⟨now, handled, req, switches⟩ := switches_of_change staged inOrder.layouts taken changed
    obtain ⟨same, takenSame, _, old, _⟩ := switches.stale inOrder found
    cases Option.some.inj (taken.symm.trans takenSame)
    have below := old (none now handled req resource switches found) pIA started.member
    exact absurd started.new (Nat.not_le.mpr below)

theorem inOrder_step {event : Event} (inOrder : world.InOrder this) (taken : world.step this event = some after) :
    world.InOrder after :=
  (CoapServer.shaped_stable (world.envAt (world.ledState this)) world.resources).kept inOrder inOrder.interactions
    trivial taken

/-- A pending notification that is refreshed has what a GET returns then. -/
theorem refresh_represents {pIA : CoapInteraction} {resp : CoapMessage} {refreshed : CoapMessage × CoapServer}
    (led : pIA.pRes = some world.pLed_Res)
    (worked : this.refresh (world.envAt (world.ledState this)) pIA resp = some refreshed) :
    world.Represents (world.ledState this) refreshed.1 := by
  obtain ⟨pRes, resource, asked, _, _, rfl⟩ := CoapServer.refresh_some worked
  obtain rfl : world.pLed_Res = pRes := Option.some.inj (led.symm.trans asked)
  rw [represents_iff]
  simp only [CoapServer.refreshNotified, envAt, if_true]
  exact (ledNotifyHandler_resp (world.optionMem this.callbacks) (world.ledState this) _).1

end

/-! ## All sequences of requests -/

/-- In every run the notifications that a change of the state starts are what a GET returns behind it exactly when no
change starts one. -/
theorem led_informs_iff (world : LedWorld) (events : List Event) :
    Along world.step world.Informs (CoapServer.new world.resources) events ↔
      Along world.step world.StartsNone (CoapServer.new world.resources) events := by
  apply Along.iff (CoapServer.new_holds world.resources _ _ _ : world.InOrder (CoapServer.new world.resources))
  · exact fun before event after inOrder _ _ taken => inOrder_step inOrder taken
  · exact fun state event inOrder _ => informs_iff inOrder event
  · exact Along.always (fun _ _ => trivial : ∀ state event, (fun _ _ => True) state event) _ _

/-- The LED is the only resource. -/
def lamp : LedWorld where
  env := CoapServer.idealEnv
  optionMem := fun _ => true
  before := []
  behind := []

/-- A registration with token 7 and message id 1. -/
def observeLed : List UInt8 :=
  [0x41, 0x01, 0x00, 0x01, 0x07, 0x60, 0x57] ++ cString "esp8266" ++ [0x0A] ++ cString "led_gpio12"

/-- A POST of `off` with message id 2. -/
def switchOff : List UInt8 :=
  [0x40, 0x02, 0x00, 0x02, 0xB7] ++ cString "esp8266" ++ [0x0A] ++ cString "led_gpio12" ++ [0x43] ++ cString "off"

/-- The one observer of the LED is told that it is on when it is switched off. -/
theorem led_told_late : ¬ ∀ (world : LedWorld) (events : List Event),
    Along world.step world.Informs (CoapServer.new world.resources) events := by
  intro told
  have reached : (([.packet (CoapServer.datagram 0 observeLed) 0, .doWork 0, .doWork 1,
      .packet (CoapServer.datagram 0 switchOff) 1].foldlM lamp.step (CoapServer.new lamp.resources)).bind fun this =>
        (lamp.step this (.doWork 1)).map fun after => (lamp.ledState this, lamp.ledState after,
          (after.pInteractions.filter fun pIA =>
            this.interactions ≤ pIA.ref ∧ pIA.role = .notification ∧ pIA.pRes = some lamp.pLed_Res).map fun pIA =>
              pIA.pRespMsg.map CoapMessage.payload)) =
      some (true, false, [some (cString "Led is on!")]) := by
    decide +kernel
  obtain ⟨this, taken, reached⟩ := Option.bind_eq_some_iff.mp reached
  obtain ⟨after, worked, facts⟩ := Option.map_eq_some_iff.mp reached
  simp only [Prod.mk.injEq, List.map_eq_singleton_iff] at facts
  obtain ⟨on, off, pIA, notifications, response⟩ := facts
  have informs := (told lamp _).last taken after worked (by rw [on, off]; decide)
  obtain ⟨member, started⟩ := List.mem_filter.mp (notifications ▸ List.mem_singleton_self pIA)
  obtain ⟨new, role, pRes⟩ := of_decide_eq_true started
  obtain ⟨msg, sameResponse, represents⟩ := informs pIA ⟨member, new, role, pRes⟩
  rw [represents_iff, off] at represents
  rw [sameResponse, Option.map_some, represents] at response
  exact absurd response (by decide)

end LedWorld

end SmingCoap.Server
