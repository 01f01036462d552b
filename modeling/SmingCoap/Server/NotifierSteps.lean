import SmingCoap.Server.Invariants

/-! # What a notifier is asked for, and what comes of it

A notifier is called for a new notification and when a pending one is refreshed.
While it runs it can start requests and nothing else.  `Notifies` is one turn of
the loop over the observers of a resource, `Refreshed` the refreshing of a
message, both with all that was tested on the way.
-/

namespace SmingCoap.Server

namespace CoapServer

/-! ## Requests of user code -/

/-- Requests were started: client interactions at the end of the list. -/
structure Asked (this after : CoapServer) : Prop where
  resources : after.resources = this.resources
  list : ∃ new, after.pInteractions = this.pInteractions ++ new ∧
    ∀ pIA ∈ new, pIA.role = .client ∧ this.interactions ≤ pIA.ref
  interactions : this.interactions ≤ after.interactions
  transmissions : after.transmissions = this.transmissions
  log : ∃ mids : List Nat, after.log = mids.map Effect.nextMid ++ this.log

theorem Asked.silent {this after : CoapServer} (same : Silent this after) : Asked this after where
  resources := same.resources
  list := ⟨[], by simp [same.pInteractions]⟩
  interactions := same.interactions.ge
  transmissions := same.transmissions
  log := ⟨[], by simp [same.log]⟩

theorem Asked.refl (this : CoapServer) : Asked this this := .silent (.refl this)

theorem Asked.trans {this middle after : CoapServer} (asked : Asked this middle) (further : Asked middle after) :
    Asked this after where
  resources := further.resources.trans asked.resources
  list := by
    obtain ⟨first, firstList, firstClients⟩ := asked.list
    obtain ⟨last, lastList, lastClients⟩ := further.list
    refine ⟨first ++ last, by rw [lastList, firstList, List.append_assoc], ?_⟩
    intro pIA member
    cases List.mem_append.mp member with
    | inl earlier => exact firstClients pIA earlier
    | inr later => exact ⟨(lastClients pIA later).1, asked.interactions.trans (lastClients pIA later).2⟩
  interactions := asked.interactions.trans further.interactions
  transmissions := further.transmissions.trans asked.transmissions
  log := by
    obtain ⟨first, firstLog⟩ := asked.log
    obtain ⟨last, lastLog⟩ := further.log
    exact ⟨last ++ first, by rw [lastLog, firstLog, List.map_append, List.append_assoc]⟩

theorem Asked.nextMid (this : CoapServer) : Asked this this.getNextMid.2 where
  resources := rfl
  list := ⟨[], by simp [getNextMid]⟩
  interactions := le_rfl
  transmissions := rfl
  log := ⟨[this.getNextMid.1], rfl⟩

theorem Asked.client (this : CoapServer) (pMsgReq : CoapMessage) (ifID : UInt8) (serverEp : NetEp) (cb : Bool) :
    Asked this (this.startInteraction (.requesting pMsgReq ifID serverEp cb)) where
  resources := rfl
  list := by
    refine ⟨[_], rfl, ?_⟩
    intro pIA member
    rw [List.mem_singleton.mp member]
    exact ⟨rfl, le_rfl⟩
  interactions := Nat.le_succ _
  transmissions := rfl
  log := ⟨[], rfl⟩

section
variable {env : Env}

theorem startNewClientInteraction_asked (this : CoapServer) (pMsgReq : CoapMessage) (ifID : UInt8)
    (serverEp : NetEp) (cb : Bool) : Asked this (this.startNewClientInteraction env pMsgReq ifID serverEp cb) := by
  unfold startNewClientInteraction
  split
  next => exact .refl this
  next =>
    have allocated : Asked this (this.memGet env).2 := .silent (memGet_silent env this)
    split
    next after full =>
      rw [full] at allocated
      exact allocated
    next after available =>
      rw [available] at allocated
      exact allocated.trans (.client after pMsgReq ifID serverEp cb)

theorem perform_asked (this : CoapServer) (request : ClientRequest) : Asked this (this.perform env request) := by
  cases request with
  | interaction pMsgReq ifID serverEp cb => exact startNewClientInteraction_asked this pMsgReq ifID serverEp cb
  | get uriString ifID serverEp cb =>
    have drawn := (Asked.nextMid this).trans (.silent (generateToken_silent this.getNextMid.2))
    have created := drawn.trans (.silent (createMessage_silent env this.getNextMid.2.generateToken.2 .con reqGet
      this.getNextMid.1 0 this.getNextMid.2.generateToken.1))
    simp only [perform, startNewGetRequest]
    split
    next after nothing =>
      rw [nothing] at created
      exact created
    next pReqMsg after made =>
      rw [made] at created
      exact (created.trans (.silent (allocs_silent after _))).trans (startNewClientInteraction_asked ..)

/-- Induction on the requests that are still to be sent. -/
theorem performs_asked (requests : List ClientRequest) (this : CoapServer) :
    Asked this (requests.foldl (perform env) this) := by
  induction requests generalizing this with
  | nil => exact .refl this
  | cons request rest inductionHypothesis =>
    exact (perform_asked this request).trans (inductionHypothesis (this.perform env request))

theorem callNotifier_asked (this : CoapServer) (pRes : Nat) (pObserver : Option CoapObserver)
    (pResp : CoapMessage) : Asked this (this.callNotifier env pRes pObserver pResp).2 := by
  have called : Asked this { this with callbacks := this.callbacks + 1 } := .silent ⟨rfl, rfl, rfl, rfl, rfl⟩
  exact called.trans (performs_asked (env.notifier this.callbacks pRes pObserver pResp).requests _)

end

/-! ## A new notification -/

/-- The message a notifier is given for a new notification. -/
def freshMessage (this : CoapServer) (pObserver : CoapObserver) : CoapMessage where
  timestamp := 0
  type := .con
  code := respSuccessContent
  messageID := this.getNextMid.1
  payloadBufSize := preferedPayloadSize
  token64 := pObserver.token
  options := []
  payload := []

/-- The outcome of the notifier for a new notification. -/
def freshNotified (env : Env) (this : CoapServer) (pRes : Nat) (pObserver : CoapObserver) : Notified :=
  env.notifier this.callbacks pRes (some pObserver) (this.freshMessage pObserver)

/-- The stack as the notifier leaves it. -/
def freshCalled (env : Env) (this : CoapServer) (pRes : Nat) (pObserver : CoapObserver) : CoapServer :=
  ({ this.getNextMid.2 with allocs := this.allocs + 2 }.callNotifier env pRes (some pObserver)
    (this.freshMessage pObserver)).2

/-- The notification that goes out, with or without memory for the Observe option. -/
def completed (available : Bool) (resp : CoapMessage) (updateCnt : UInt32) : CoapMessage :=
  let resp := addObserveOptionToMsg available resp updateCnt
  if resp.type = .non ∧ updateCnt % 20 = 0 then { resp with type := .con } else resp

/-- The notifier is called for an observer. -/
structure CallsNotifier (env : Env) (this : CoapServer) (pRes : Nat) (resource : CoapResource)
    (pObserver : CoapObserver) : Prop where
  free : ∀ pIA ∈ this.pInteractions, pIA.notifies pRes pObserver = false
  interaction : env.alloc this.allocs = true
  message : env.alloc (this.allocs + 1) = true
  notifier : resource.notifier = true

section
variable {env : Env} {this : CoapServer} {pRes : Nat} {resource : CoapResource} {pObserver : CoapObserver}

theorem freshCalled_asked : Asked this (freshCalled env this pRes pObserver) := by
  have prepared : Asked this { this.getNextMid.2 with allocs := this.allocs + 2 } :=
    (Asked.nextMid this).trans (.silent (allocs_silent _ _))
  exact prepared.trans (callNotifier_asked ..)

theorem notifyObserver_called (calls : CallsNotifier env this pRes resource pObserver) :
    this.notifyObserver env pRes resource pObserver =
      let notified := freshNotified env this pRes pObserver
      let called := freshCalled env this pRes pObserver
      if notified.result ≠ .ok then (true, called)
      else if notified.resp.code ≥ respErrorBadRequest then
        (true, called.removeInteractionsObserver (.notifying pRes pObserver notified.resp) notified.resp.token64)
      else (true, (called.memGet env).2.startInteraction
        (.notifying pRes pObserver (completed (called.memGet env).1 notified.resp resource.updateCnt))) := by
  have free : this.pInteractions.find? (fun pIA => pIA.notifies pRes pObserver) = none := by
    rw [List.find?_eq_none]
    intro pIA member
    simp [calls.free pIA member]
  simp only [notifyObserver, free, memGet, calls.interaction, createMessage, getNextMid, calls.message,
    calls.notifier, Bool.true_eq_false, if_false]
  rfl

/-- One turn of the loop of `CoAP_StartNotifyInteractions`. -/
inductive Notifies (env : Env) (this : CoapServer) (pRes : Nat) (resource : CoapResource)
    (pObserver : CoapObserver) : Bool × CoapServer → Prop
  | pending {pIA : CoapInteraction} (member : pIA ∈ this.pInteractions) (notifies : pIA.notifies pRes pObserver = true) :
      Notifies env this pRes resource pObserver (true, this.storeInteraction { pIA with updatePendingNotification := true })
  | nothing (goesOn : Bool) {after : CoapServer} (asked : Asked this after) :
      Notifies env this pRes resource pObserver (goesOn, after)
  | rejected (calls : CallsNotifier env this pRes resource pObserver)
      (result : (freshNotified env this pRes pObserver).result = .ok)
      (code : (freshNotified env this pRes pObserver).resp.code ≥ respErrorBadRequest) :
      Notifies env this pRes resource pObserver (true,
        (freshCalled env this pRes pObserver).removeInteractionsObserver
          (.notifying pRes pObserver (freshNotified env this pRes pObserver).resp)
          (freshNotified env this pRes pObserver).resp.token64)
  | started (available : Bool) {after : CoapServer} (calls : CallsNotifier env this pRes resource pObserver)
      (result : (freshNotified env this pRes pObserver).result = .ok)
      (code : (freshNotified env this pRes pObserver).resp.code < respErrorBadRequest)
      (same : Silent (freshCalled env this pRes pObserver) after) :
      Notifies env this pRes resource pObserver (true, after.startInteraction
        (.notifying pRes pObserver (completed available (freshNotified env this pRes pObserver).resp resource.updateCnt)))

theorem notifyObserver_notifies (env : Env) (this : CoapServer) (pRes : Nat) (resource : CoapResource)
    (pObserver : CoapObserver) :
    Notifies env this pRes resource pObserver (this.notifyObserver env pRes resource pObserver) := by
  cases found : this.pInteractions.find? fun pIA => pIA.notifies pRes pObserver with
  | some pIA =>
    simp only [notifyObserver, found]
    have notifies := List.find?_some found
    exact .pending (List.mem_of_find?_eq_some found) notifies
  | none =>
    have free : ∀ pIA ∈ this.pInteractions, pIA.notifies pRes pObserver = false := by
      intro pIA member
      exact Bool.eq_false_iff.mpr (List.find?_eq_none.mp found pIA member)
    -- the interaction and its message are allocated before the notifier is looked at
    cases interaction : env.alloc this.allocs with
    | false =>
      simp only [notifyObserver, found, memGet, interaction]
      exact .nothing false (.silent (allocs_silent this _))
    | true =>
      have drawn : Asked this { this.getNextMid.2 with allocs := this.allocs + 2 } :=
        (Asked.nextMid this).trans (.silent (allocs_silent _ _))
      cases message : env.alloc (this.allocs + 1) with
      | false =>
        simp only [notifyObserver, found, memGet, interaction, createMessage, getNextMid, message]
        exact .nothing true drawn
      | true =>
        cases notifier : resource.notifier with
        | false =>
          simp only [notifyObserver, found, memGet, interaction, createMessage, getNextMid, message, notifier, if_true]
          exact .nothing true drawn
        | true =>
          have calls : CallsNotifier env this pRes resource pObserver := ⟨free, interaction, message, notifier⟩
          rw [notifyObserver_called calls]
          simp only
          split
          next => exact .nothing true freshCalled_asked
          next result =>
            have ok : (freshNotified env this pRes pObserver).result = .ok := Decidable.not_not.mp result
            split
            next code => exact .rejected calls ok code
            next code => exact .started _ calls ok (UInt8.not_le.mp code) (memGet_silent env _)

end

/-! ## A pending notification -/

/-- The outcome of the notifier when a notification is refreshed. -/
def refreshNotified (env : Env) (this : CoapServer) (pRes : Nat) (resource : CoapResource) (pIA : CoapInteraction)
    (resp : CoapMessage) : Notified :=
  env.notifier this.callbacks pRes
    (pIA.pObserver.bind fun ref => resource.observers.find? fun observer => observer.ref = ref)
    { resp with messageID := this.getNextMid.1 }

/-- The stack as the notifier leaves it. -/
def refreshCalled (env : Env) (this : CoapServer) (pRes : Nat) (resource : CoapResource) (pIA : CoapInteraction)
    (resp : CoapMessage) : CoapServer :=
  (this.getNextMid.2.callNotifier env pRes
    (pIA.pObserver.bind fun ref => resource.observers.find? fun observer => observer.ref = ref)
    { resp with messageID := this.getNextMid.1 }).2

/-- What a handler returns is never as large as the code of an error. -/
theorem handlerResult_lt (result : HandlerResult) : ¬ result.toNat ≥ respErrorBadRequest.toNat := by
  cases result with
  | ok => decide
  | postpone => decide
  | error => decide

section
variable {env : Env} {this : CoapServer} {pIA : CoapInteraction} {resp : CoapMessage}

theorem refreshCalled_asked (pRes : Nat) (resource : CoapResource) :
    Asked this (refreshCalled env this pRes resource pIA resp) :=
  (Asked.nextMid this).trans (callNotifier_asked ..)

/-- Whatever the notifier puts into the message, the observer stays and the message gets the option. -/
theorem refresh_eq {pRes : Nat} {resource : CoapResource} (asked : pIA.pRes = some pRes)
    (found : this.resources[pRes]? = some resource) (notifier : resource.notifier = true) :
    this.refresh env pIA resp =
      let called := refreshCalled env this pRes resource pIA resp
      some (updateObserveOptionInMsg (called.memGet env).1 (refreshNotified env this pRes resource pIA resp).resp
        resource.updateCnt, (called.memGet env).2) := by
  simp only [refresh, asked, found, notifier, Option.bind_eq_bind, Option.bind_some, Bool.true_eq_false, if_false]
  exact if_neg (handlerResult_lt _)

theorem refresh_some {refreshed : CoapMessage × CoapServer} (worked : this.refresh env pIA resp = some refreshed) :
    ∃ pRes resource, pIA.pRes = some pRes ∧ this.resources[pRes]? = some resource ∧ resource.notifier = true ∧
      refreshed = (updateObserveOptionInMsg ((refreshCalled env this pRes resource pIA resp).memGet env).1
        (refreshNotified env this pRes resource pIA resp).resp resource.updateCnt,
        ((refreshCalled env this pRes resource pIA resp).memGet env).2) := by
  have taken := worked
  simp only [refresh, Option.bind_eq_bind, Option.bind_eq_some_iff] at taken
  obtain ⟨pRes, asked, resource, found, taken⟩ := taken
  split at taken
  next => cases taken
  next notifier =>
    have notifies : resource.notifier = true := Bool.eq_true_of_not_eq_false notifier
    rw [refresh_eq asked found notifies] at worked
    exact ⟨pRes, resource, asked, found, notifies, (Option.some.inj worked).symm⟩

end

end CoapServer

end SmingCoap.Server
