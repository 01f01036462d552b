import SmingCoap.Server.NotifierSteps
import SmingCoap.Server.RegistrySoundness

/-! # What the stack makes of a notifier's outcome

A message with the code of an error ends an observation: it carries no Observe
option, and its observer goes.  For a new notification the stack looks at the
code, and only when the notifier reports success; where it refreshes a pending
one it compares what the notifier returns with the smallest error code, which no
return value reaches.
-/

namespace SmingCoap.Server

/-! ## The Observe option -/

/-- The message carries an Observe option. -/
def CarriesObserve (msg : CoapMessage) : Prop := ∃ option ∈ msg.options, option.number = optNumObserve

/-- A message that already carries one keeps it when there is no memory for another, since the option is
not the first that would go behind a new one. -/
def KeepsObserve (msg : CoapMessage) : Prop :=
  CarriesObserve msg ∧ ∃ first, msg.options.head? = some first ∧ first.number ≤ optNumObserve

theorem addObserveOptionToMsg_carries (available : Bool) (msg : CoapMessage) (val : UInt32) :
    CarriesObserve (addObserveOptionToMsg available msg val) ↔ available = true ∨ KeepsObserve msg := by
  cases available with
  | true =>
    simp only [CarriesObserve, addObserveOptionToMsg, appendOptionToList, if_true, true_or, iff_true]
    exact ⟨⟨optNumObserve, observeBytes val⟩, List.mem_append_right _ List.mem_cons_self, rfl⟩
  | false =>
    simp only [CarriesObserve, KeepsObserve, addObserveOptionToMsg, appendOptionToList, Bool.false_eq_true, if_false,
      false_or]
    cases options : msg.options with
    | nil => simp
    | cons first rest =>
      by_cases before : first.number ≤ optNumObserve
      · simp [before]
      · simp [before]

theorem completed_options (available : Bool) (resp : CoapMessage) (updateCnt : UInt32) :
    (CoapServer.completed available resp updateCnt).options =
      (addObserveOptionToMsg available resp updateCnt).options := by
  unfold CoapServer.completed
  simp only
  split <;> rfl

theorem completed_code (available : Bool) (resp : CoapMessage) (updateCnt : UInt32) :
    (CoapServer.completed available resp updateCnt).code = resp.code := by
  unfold CoapServer.completed
  simp only
  split <;> rfl

namespace CoapServer

/-! ## The rule -/

/-- The rule for a notifier that left a message with this code, the messages the stack sends for it and
whether its observer was removed. -/
structure Follows (code : UInt8) (sends : CoapMessage → Prop) (removed : Prop) : Prop where
  observe : ∀ msg, sends msg → (CarriesObserve msg ↔ msg.code < respErrorBadRequest)
  removed : removed ↔ code ≥ respErrorBadRequest

/-- The observer is in the list of the resource. -/
def Listed (this : CoapServer) (pRes : Nat) (pObserver : CoapObserver) : Prop :=
  ∃ resource, this.resources[pRes]? = some resource ∧ pObserver ∈ resource.observers

/-- A notification with the message was put into the list. -/
def Starts (this after : CoapServer) (msg : CoapMessage) : Prop :=
  ∃ new, after.pInteractions = this.pInteractions ++ new ∧
    ∃ pIA ∈ new, pIA.role = .notification ∧ pIA.pRespMsg = some msg

/-- The message is the last that was sent. -/
def Sends (after : CoapServer) (msg : CoapMessage) : Prop :=
  ∃ ia origin ifID receiver earlier, after.log = .sent (some ia) origin ifID receiver msg :: earlier

/-- The message waits to be sent, in the last interaction of the list. -/
def Readies (after : CoapServer) (msg : CoapMessage) : Prop :=
  ∃ pIA, after.pInteractions.getLast? = some pIA ∧ pIA.state = .readyToNotify ∧ pIA.pRespMsg = some msg

/-- A new notification follows the rule. -/
def FreshFollows (env : Env) (this : CoapServer) (pRes : Nat) (pObserver : CoapObserver) : Prop :=
  let notified := freshNotified env this pRes pObserver
  if notified.resp.code ≥ respErrorBadRequest then notified.result = .ok ∧ notified.resp.token64 = pObserver.token
  else notified.result = .ok →
    ((freshCalled env this pRes pObserver).memGet env).1 = true ∨ KeepsObserve notified.resp

/-- A pending notification that is refreshed follows the rule. -/
def RefreshFollows (env : Env) (this : CoapServer) (pRes : Nat) (resource : CoapResource) (pIA : CoapInteraction)
    (resp : CoapMessage) : Prop :=
  let notified := refreshNotified env this pRes resource pIA resp
  notified.resp.code < respErrorBadRequest ∧
    (((refreshCalled env this pRes resource pIA resp).memGet env).1 = true ∨
      KeepsObserve (removeObserveOptionFromMsg notified.resp))

/-! ## New notifications -/

section
variable {env : Env} {this : CoapServer} {pRes : Nat} {resource current : CoapResource} {pObserver : CoapObserver}

/-- An observer is taken out under its own token and under no other. -/
theorem removeObserver_mem (distinct : Distinct current.observers) (member : pObserver ∈ current.observers)
    (token : UInt64) :
    pObserver ∈ (current.removeObserver pObserver.ifID pObserver.ep token).observers ↔ token ≠ pObserver.token := by
  constructor
  · rintro kept rfl
    have none := distinct.erased pObserver.ifID pObserver.ep pObserver.token
    rw [List.filter_eq_nil_iff] at none
    apply none pObserver kept
    simp [CoapObserver.matches, epAreEqual_refl]
  · intro other
    apply (List.mem_eraseP_of_neg _).mpr member
    simp [CoapObserver.matches, other]

theorem not_starts {called after : CoapServer} (asked : Asked this called)
    (same : after.pInteractions = called.pInteractions) (msg : CoapMessage) : ¬ Starts this after msg := by
  rintro ⟨new, list, pIA, member, role, _⟩
  obtain ⟨clients, sameList, areClients⟩ := asked.list
  rw [same, sameList, List.append_cancel_left_eq] at list
  have client := (areClients pIA (list ▸ member)).1
  rw [role] at client
  cases client

theorem starts_started {called : CoapServer} {resp : CoapMessage} (asked : Asked this called) (msg : CoapMessage) :
    Starts this (called.startInteraction (.notifying pRes pObserver resp)) msg ↔ msg = resp := by
  obtain ⟨clients, list, areClients⟩ := asked.list
  have grown : (called.startInteraction (.notifying pRes pObserver resp)).pInteractions =
      this.pInteractions ++ (clients ++ [{ CoapInteraction.notifying pRes pObserver resp with
        ref := called.interactions }]) := by
    rw [← List.append_assoc, ← list]
    rfl
  constructor
  · rintro ⟨new, sameList, pIA, member, role, response⟩
    rw [grown, List.append_cancel_left_eq] at sameList
    rw [← sameList] at member
    cases List.mem_append.mp member with
    | inl earlier =>
      have client := (areClients pIA earlier).1
      rw [role] at client
      cases client
    | inr last =>
      rw [List.mem_singleton.mp last] at response
      exact (Option.some.inj response).symm
  · rintro rfl
    exact ⟨_, grown, _, List.mem_append_right _ (List.mem_singleton.mpr rfl), rfl, rfl⟩

/-- The observer that is taken out is the one with the token of the message. -/
theorem removed_iff {called : CoapServer} (distinct : Distinct current.observers)
    (there : called.resources[pRes]? = some current) (member : pObserver ∈ current.observers) (resp : CoapMessage) :
    ¬ Listed (called.removeInteractionsObserver (.notifying pRes pObserver resp) resp.token64) pRes pObserver ↔
      resp.token64 = pObserver.token := by
  simp only [Listed, removeInteractionsObserver, CoapInteraction.notifying, modifyResource, List.getElem?_modify, there,
    Option.map_eq_map, Option.map_some, if_true, Option.some.injEq, exists_eq_left']
  rw [removeObserver_mem distinct member, not_not]

theorem completed_carries (inserted : Bool) (resp : CoapMessage) (updateCnt : UInt32) :
    CarriesObserve (completed inserted resp updateCnt) ↔ inserted = true ∨ KeepsObserve resp := by
  rw [← addObserveOptionToMsg_carries _ _ updateCnt, CarriesObserve, completed_options]
  rfl

/-- The path for a new notification. -/
theorem notifyObserver_follows (distinct : Distinct current.observers)
    (found : this.resources[pRes]? = some current) (member : pObserver ∈ current.observers)
    (calls : CallsNotifier env this pRes resource pObserver) :
    let after := (this.notifyObserver env pRes resource pObserver).2
    Follows (freshNotified env this pRes pObserver).resp.code (Starts this after) (¬ Listed after pRes pObserver) ↔
      FreshFollows env this pRes pObserver := by
  have asked : Asked this (freshCalled env this pRes pObserver) := freshCalled_asked
  have there : (freshCalled env this pRes pObserver).resources[pRes]? = some current := asked.resources ▸ found
  have listed : ∀ after : CoapServer, after.resources = (freshCalled env this pRes pObserver).resources →
      Listed after pRes pObserver := fun after same => ⟨current, same ▸ there, member⟩
  simp only [notifyObserver_called calls, FreshFollows]
  generalize freshNotified env this pRes pObserver = notified
  generalize freshCalled env this pRes pObserver = called at asked there listed
  by_cases error : notified.resp.code ≥ respErrorBadRequest
  · by_cases ok : notified.result = .ok
    · -- the observer with the token of the message goes, and the message with it
      have removed := removed_iff distinct there member notified.resp
      have unsent := not_starts asked (removeInteractionsObserver_pInteractions called
        (.notifying pRes pObserver notified.resp) notified.resp.token64)
      simp only [ok, error, ne_eq, not_true_eq_false, if_false, if_true, true_and]
      rw [← removed]
      constructor
      · exact fun follows => follows.removed.mpr error
      · exact fun gone => ⟨fun msg starts => absurd starts (unsent msg), iff_of_true gone error⟩
    · -- the notifier reports no success, and the observer stays
      simp only [ok, error, ne_eq, not_false_eq_true, if_true, false_and, iff_false]
      exact fun follows => follows.removed.mpr error (listed called rfl)
  · by_cases ok : notified.result = .ok
    · simp only [ok, error, ne_eq, not_true_eq_false, if_false, forall_const]
      have starts : ∀ msg, Starts this ((called.memGet env).2.startInteraction (.notifying pRes pObserver
          (completed (called.memGet env).1 notified.resp resource.updateCnt))) msg ↔ _ :=
        fun msg => starts_started (asked.trans (.silent (memGet_silent env called))) msg
      have low : notified.resp.code < respErrorBadRequest := UInt8.not_le.mp error
      have stays := listed ((called.memGet env).2.startInteraction (.notifying pRes pObserver
        (completed (called.memGet env).1 notified.resp resource.updateCnt))) rfl
      rw [← completed_carries _ _ resource.updateCnt]
      constructor
      · intro follows
        apply (follows.observe _ ((starts _).mpr rfl)).mpr
        rw [completed_code]
        exact low
      · intro carrying
        refine ⟨fun msg started => ?_, iff_of_false (not_not.mpr stays) error⟩
        rw [(starts msg).mp started, completed_code]
        exact iff_of_true carrying low
    · simp only [ok, error, ne_eq, not_false_eq_true, if_true, if_false, false_implies, iff_true]
      exact ⟨fun msg starts => absurd starts (not_starts asked rfl msg),
        iff_of_false (not_not.mpr (listed called rfl)) error⟩

end

/-! ## Pending notifications -/

/-- A turn finds a pending notification that is out of date. -/
structure Outdated (this : CoapServer) (now : UInt32) (pIA : CoapInteraction) (rest : List CoapInteraction)
    (resp : CoapMessage) (pRes : Nat) (resource : CoapResource) : Prop where
  list : this.pInteractions = pIA :: rest
  due : pIA.sleepUntil ≤ now
  role : pIA.role = .notification
  state : pIA.state = .notificationSent
  flagged : pIA.updatePendingNotification = true
  response : pIA.pRespMsg = some resp
  asked : pIA.pRes = some pRes
  found : this.resources[pRes]? = some resource

/-- The observer a pending notification refers to was taken out of the list. -/
def LosesObserver (this after : CoapServer) (pRes : Nat) (pIA : CoapInteraction) : Prop :=
  ∃ resource pObserver, this.resources[pRes]? = some resource ∧ pObserver ∈ resource.observers ∧
    pIA.pObserver = some pObserver.ref ∧ ¬ Listed after pRes pObserver

section
variable {env : Env} {this after : CoapServer} {now : UInt32} {pIA : CoapInteraction} {rest : List CoapInteraction}
  {resp : CoapMessage} {pRes : Nat} {resource : CoapResource}

theorem Outdated.works (outdated : Outdated this now pIA rest resp pRes resource) :
    this.doWork env now = this.checkNotification env now pIA := by
  simp only [doWork, outdated.list, if_neg (UInt32.not_lt.mpr outdated.due), work, outdated.role, outdated.state]

/-- No observer goes while the resources stay as they are. -/
theorem not_losesObserver (same : after.resources = this.resources) : ¬ LosesObserver this after pRes pIA := by
  rintro ⟨resource, pObserver, found, member, _, gone⟩
  exact gone ⟨resource, same ▸ found, member⟩

/-- Without a removal the rule is about the message. -/
theorem follows_kept {code : UInt8} {sends : CoapMessage → Prop} {removed : Prop} {msg : CoapMessage}
    (kept : ¬ removed) (sent : ∀ other, sends other ↔ other = msg) (sameCode : msg.code = code) :
    Follows code sends removed ↔ code < respErrorBadRequest ∧ CarriesObserve msg := by
  constructor
  · intro follows
    have low : code < respErrorBadRequest := UInt8.not_le.mp fun error => kept (follows.removed.mpr error)
    exact ⟨low, (follows.observe msg ((sent msg).mpr rfl)).mpr (sameCode ▸ low)⟩
  · rintro ⟨low, carries⟩
    refine ⟨fun other sending => ?_, iff_of_false kept (UInt8.not_le.mpr low)⟩
    rw [(sent other).mp sending, sameCode]
    exact iff_of_true carries low

/-- The message of a refreshed notification. -/
theorem refreshed_follows {sends : CoapMessage → Prop} {msg : CoapMessage}
    (same : after.resources = this.resources) (sent : ∀ other, sends other ↔ other = msg)
    (sameCode : msg.code = (refreshNotified env this pRes resource pIA resp).resp.code)
    (options : msg.options = (updateObserveOptionInMsg ((refreshCalled env this pRes resource pIA resp).memGet env).1
      (refreshNotified env this pRes resource pIA resp).resp resource.updateCnt).options) :
    Follows (refreshNotified env this pRes resource pIA resp).resp.code sends (LosesObserver this after pRes pIA) ↔
      RefreshFollows env this pRes resource pIA resp := by
  rw [follows_kept (not_losesObserver same) sent sameCode, RefreshFollows, CarriesObserve, options,
    ← addObserveOptionToMsg_carries _ _ resource.updateCnt]
  rfl

theorem retryResp_unrequested (sent : this.retryResp env now pIA = some after) (response : pIA.pRespMsg = some resp)
    (unrequested : pIA.pReqMsg = none) :
    after.log = sending now pIA resp :: this.log ∧ after.resources = this.resources := by
  cases success : env.transmit this.transmissions with
  | true =>
    have placed := retryResp_sent response success sent
    exact ⟨placed.log, placed.resources⟩
  | false =>
    -- the text of the error reads the request
    obtain ⟨_, failed⟩ := sendMsg_failed now (some pIA) pIA.origin resp pIA.ifID pIA.remoteEp success
    simp [retryResp, response, unrequested, failed] at sent

/-- The path for a retry. -/
theorem retry_follows (outdated : Outdated this now pIA rest resp pRes resource) (notifier : resource.notifier = true)
    (unrequested : pIA.pReqMsg = none) (status : checkRespStatus now pIA = some .retry)
    (worked : this.doWork env now = some after) :
    Follows (refreshNotified env this pRes resource pIA resp).resp.code (Sends after)
        (LosesObserver this after pRes pIA) ↔
      RefreshFollows env this pRes resource pIA resp := by
  have refreshes : this.refresh env { pIA with updatePendingNotification := false, pRespMsg := some resp } resp = _ :=
    refresh_eq outdated.asked outdated.found notifier
  rw [outdated.works] at worked
  simp only [checkNotification, status, Option.bind_eq_bind, Option.bind_some, outdated.flagged, if_true,
    outdated.response, refreshes] at worked
  obtain ⟨log, resources⟩ := retryResp_unrequested worked rfl unrequested
  have asked : Asked this (refreshCalled env this pRes resource pIA resp) := refreshCalled_asked pRes resource
  apply refreshed_follows (resources.trans asked.resources)
  · intro other
    simp only [Sends, log, sending, List.cons.injEq, Effect.sent.injEq]
    constructor
    · rintro ⟨_, _, _, _, _, ⟨_, _, _, _, same⟩, _⟩
      exact same.symm
    · rintro rfl
      exact ⟨_, _, _, _, _, ⟨rfl, rfl, rfl, rfl, rfl⟩, rfl⟩
  · rw [transmitted_code]
    rfl
  · rw [transmitted_options]
    rfl

/-- The path for a transfer that ended. -/
theorem completion_follows (outdated : Outdated this now pIA rest resp pRes resource)
    (notifier : resource.notifier = true) (status : checkRespStatus now pIA = some .ok)
    (worked : this.doWork env now = some after) :
    Follows (refreshNotified env this pRes resource pIA resp).resp.code (Readies after)
        (LosesObserver this after pRes pIA) ↔
      RefreshFollows env this pRes resource pIA resp := by
  have refreshes : this.refresh env { pIA with
      state := .readyToNotify
      retransCounter := 0
      updatePendingNotification := false
      respReliabilityState := .notSet
      pRespMsg := some resp } resp = _ :=
    refresh_eq outdated.asked outdated.found notifier
  rw [outdated.works] at worked
  simp only [checkNotification, status, Option.bind_eq_bind, Option.bind_some, outdated.flagged, if_true,
    outdated.response, refreshes, Option.some.injEq] at worked
  have asked : Asked this (refreshCalled env this pRes resource pIA resp) := refreshCalled_asked pRes resource
  rw [← worked]
  apply refreshed_follows asked.resources
  · intro other
    simp only [Readies, enqueueLastInteraction, appendInteraction, List.getLast?_append, List.getLast?_singleton,
      Option.some_or, Option.some.injEq]
    constructor
    · rintro ⟨_, rfl, _, response⟩
      exact (Option.some.inj response).symm
    · rintro rfl
      exact ⟨_, rfl, rfl, rfl⟩
  · rfl
  · rfl

end

/-- A pending notification has a notifier to ask, and no request. -/
theorem Outdated.shaped {env : Env} {resources : List CoapResource} {this : CoapServer} {now : UInt32}
    {pIA : CoapInteraction} {rest : List CoapInteraction} {resp : CoapMessage} {pRes : Nat} {resource : CoapResource}
    (reaches : Reaches env resources this) (outdated : Outdated this now pIA rest resp pRes resource) :
    resource.notifier = true ∧ pIA.pReqMsg = none := by
  have holds := run_shaped reaches
  have shaped := holds.interactions pIA (outdated.list ▸ List.mem_cons_self)
  obtain ⟨_, index, listed, _, asked, found, notifier⟩ := shaped.notifying outdated.role
  -- the resource that was found has the notifier of the one the stack was made with
  obtain rfl : index = pRes := Option.some.inj (asked.symm.trans outdated.asked)
  obtain ⟨kept, foundNow, same⟩ := layout_getElem? holds.layouts found
  obtain rfl : kept = resource := Option.some.inj (foundNow.symm.trans outdated.found)
  exact ⟨(layout_singleton same).2.2.2.trans notifier, shaped.unrequested outdated.role⟩

/-- Which notifiers' outcomes are treated by the rule: for a new notification, in every state in which the
loop over the observers may find the stack; for a pending one in every state that is reached, on a retry and
at the end of a transfer. -/
theorem outcomes_follow_iff (env : Env) (resources : List CoapResource) (this : CoapServer)
    (reaches : Reaches env resources this) :
    (∀ pIA midway, Midway env pIA this midway → ∀ pRes resource current pObserver,
      midway.resources[pRes]? = some current → pObserver ∈ current.observers →
        CallsNotifier env midway pRes resource pObserver →
          let after := (midway.notifyObserver env pRes resource pObserver).2
          Follows (freshNotified env midway pRes pObserver).resp.code (Starts midway after)
              (¬ Listed after pRes pObserver) ↔
            FreshFollows env midway pRes pObserver) ∧
      ∀ now pIA rest resp pRes resource after, Outdated this now pIA rest resp pRes resource →
        this.doWork env now = some after →
          (checkRespStatus now pIA = some .retry →
            (Follows (refreshNotified env this pRes resource pIA resp).resp.code (Sends after)
                (LosesObserver this after pRes pIA) ↔
              RefreshFollows env this pRes resource pIA resp)) ∧
          (checkRespStatus now pIA = some .ok →
            (Follows (refreshNotified env this pRes resource pIA resp).resp.code (Readies after)
                (LosesObserver this after pRes pIA) ↔
              RefreshFollows env this pRes resource pIA resp)) := by
  constructor
  · intro pIA midway halfway pRes resource current pObserver found member calls
    have distinct := halfway.resources distinct_stable (reaches.resources distinct_stable)
    exact notifyObserver_follows (distinct current (List.mem_of_getElem? found)) found member calls
  · intro now pIA rest resp pRes resource after outdated worked
    obtain ⟨notifier, unrequested⟩ := outdated.shaped reaches
    constructor
    · exact fun status => retry_follows outdated notifier unrequested status worked
    · exact fun status => completion_follows outdated notifier status worked

/-- A registration, a notification and a second update while the first is not acknowledged. -/
def twoUpdates : List Event :=
  [.packet (datagram 0 observeSensor) 0, .doWork 0, .doWork 1, .call (.notify 0), .doWork 1, .call (.notify 0)]

/-- What they leave: a notification that is sent once more at the time 4. -/
def IsOverdue (pIA : CoapInteraction) : Bool :=
  pIA.sleepUntil = 0 && pIA.role = .notification && pIA.state = .notificationSent &&
    pIA.updatePendingNotification && pIA.pRes = some 0 && checkRespStatus 4 pIA = some .retry &&
    pIA.pRespMsg.any fun resp => resp.code = respSuccessContent

theorem IsOverdue.outdated {env : Env} {this : CoapServer} (overdue : this.pInteractions.map IsOverdue = [true])
    (works : (this.doWork env 4).isSome = true) (listed : this.resources[0]?.isSome = true) :
    ∃ pIA resp resource after, Outdated this 4 pIA [] resp 0 resource ∧ this.doWork env 4 = some after ∧
      checkRespStatus 4 pIA = some .retry ∧ resp.code = respSuccessContent := by
  obtain ⟨pIA, list, facts⟩ := List.map_eq_singleton_iff.mp overdue
  simp only [IsOverdue, Bool.and_eq_true, decide_eq_true_eq, Option.any_eq_true] at facts
  obtain ⟨⟨⟨⟨⟨⟨sleepUntil, role⟩, state⟩, flagged⟩, asked⟩, status⟩, resp, response, code⟩ := facts
  obtain ⟨after, worked⟩ := Option.isSome_iff_exists.mp works
  obtain ⟨resource, found⟩ := Option.isSome_iff_exists.mp listed
  have due : pIA.sleepUntil ≤ 4 := by simp [sleepUntil]
  exact ⟨pIA, resp, resource, after, ⟨list, due, role, state, flagged, response, asked, found⟩, worked, status, code⟩

/-- A retry with a fresher representation. -/
theorem sensor_outcome_follows : ∃ (this after : CoapServer) (pIA : CoapInteraction) (resp : CoapMessage)
    (resource : CoapResource), Outdated this 4 pIA [] resp 0 resource ∧ this.doWork idealEnv 4 = some after ∧
      Follows (refreshNotified idealEnv this 0 resource pIA resp).resp.code (Sends after)
        (LosesObserver this after 0 pIA) := by
  have reached : (twoUpdates.foldlM (step idealEnv) (new [sensor])).map (fun this =>
      (this.pInteractions.map IsOverdue, (this.doWork idealEnv 4).isSome, this.resources[0]?.isSome)) =
      some ([true], true, true) := by
    decide +kernel
  obtain ⟨this, taken, facts⟩ := Option.map_eq_some_iff.mp reached
  simp only [Prod.mk.injEq] at facts
  obtain ⟨pIA, resp, resource, after, outdated, worked, status, code⟩ :=
    IsOverdue.outdated facts.1 facts.2.1 facts.2.2
  obtain ⟨_, refreshes⟩ := outcomes_follow_iff idealEnv [sensor] this (.of_events _ .refl taken)
  obtain ⟨retries, _⟩ := refreshes 4 pIA [] resp 0 resource after outdated worked
  have low : resp.code < respErrorBadRequest := by
    rw [code]
    decide
  exact ⟨this, after, pIA, resp, resource, outdated, worked, (retries status).mpr ⟨low, .inl rfl⟩⟩

/-- A notifier that reports an error when it is called for the second time. -/
def failingNotifier : Env :=
  { idealEnv with notifier := fun turn _ _ pResp =>
      ⟨.ok, { pResp with code := if turn = 2 then respInternalServerError else pResp.code }, []⟩ }

/-- A retry sends the error as an update, and the observer stays. -/
theorem error_sent_as_update : ¬ ∀ (env : Env) (resources : List CoapResource) (this : CoapServer),
    Reaches env resources this → ∀ now pIA rest resp pRes resource after,
      Outdated this now pIA rest resp pRes resource → this.doWork env now = some after →
        checkRespStatus now pIA = some .retry →
          Follows (refreshNotified env this pRes resource pIA resp).resp.code (Sends after)
            (LosesObserver this after pRes pIA) := by
  intro alike
  have reached : (twoUpdates.foldlM (step failingNotifier) (new [sensor])).map (fun this =>
      (this.pInteractions.map IsOverdue, (this.doWork failingNotifier 4).isSome, this.resources[0]?.isSome,
        this.callbacks)) = some ([true], true, true, 2) := by
    decide +kernel
  obtain ⟨this, taken, facts⟩ := Option.map_eq_some_iff.mp reached
  simp only [Prod.mk.injEq] at facts
  obtain ⟨pIA, resp, resource, after, outdated, worked, status, _⟩ :=
    IsOverdue.outdated facts.1 facts.2.1 facts.2.2.1
  have reaches : Reaches failingNotifier [sensor] this := .of_events _ .refl taken
  have follows := alike failingNotifier [sensor] this reaches 4 pIA [] resp 0 resource after outdated worked status
  obtain ⟨notifier, unrequested⟩ := outdated.shaped reaches
  obtain ⟨low, _⟩ := (retry_follows outdated notifier unrequested status worked).mp follows
  have error : (refreshNotified failingNotifier this 0 resource pIA resp).resp.code = respInternalServerError := by
    show (if this.callbacks = 2 then respInternalServerError else resp.code) = respInternalServerError
    exact if_pos facts.2.2.2
  rw [error] at low
  exact absurd low (by decide)

end CoapServer

end SmingCoap.Server
