import SmingCoap.Server.OwnershipSteps

/-! # Nothing is lost

In a run without the exits that forget a message or an interaction, the live
blocks are those of the interactions in the list, each once, and nothing is
released twice.
-/

namespace SmingCoap.Server

open Ownership (Ledger)

namespace CoapServer

/-! ## The ends of a turn -/

section
variable {env : Env} {now : UInt32} {resources : List CoapResource} {held : Hand} {this after : CoapServer} {heap : Heap}
  {pIA : CoapInteraction} {effects : List Effect}

/-- The interaction in hand has the pointers that its record has. -/
structure Held (resources : List CoapResource) (held : Hand) (pIA : CoapInteraction) : Prop where
  ref : pIA.ref = held.ref
  role : pIA.role = held.role
  points : Points resources held.pointers pIA

theorem sendMemory_failed (failure : env.transmit this.transmissions = false) :
    this.sendMemory env pIA heap = heap.deleteInteraction pIA.ref := by
  simp [sendMemory, failure]

theorem sendMemory_sent (success : env.transmit this.transmissions = true) : this.sendMemory env pIA heap = heap := by
  simp [sendMemory, success]

/-- Its message could not be sent. -/
theorem Places.dropped_tracks (tracks : Tracks resources (some held) this heap []) (ref : pIA.ref = held.ref)
    (placed : Places this after effects (this.pInteractions.eraseP fun other => other.ref = pIA.ref)) :
    Tracks resources none after (heap.deleteInteraction pIA.ref) [] := by
  rw [ref] at placed ⊢
  exact tracks.dropped.unlisted placed.pInteractions placed.interactions.ge

/-- A response is sent. -/
theorem sendResp_tracks {next : InteractionState} (sent : this.sendResp env now pIA next = some after)
    (tracks : Tracks resources (some held) this heap []) (ref : pIA.ref = held.ref)
    (request : held.pointers.pReqMsg.isSome = pIA.pReqMsg.isSome)
    (response : held.pointers.pRespMsg.isSome = pIA.pRespMsg.isSome)
    (answered : next = .responseSent ∨ next = .notificationSent) :
    Tracks resources none after (this.sendMemory env pIA heap) [] := by
  cases success : env.transmit this.transmissions with
  | false =>
    rw [sendMemory_failed success]
    exact Places.dropped_tracks tracks ref (sendResp_failed success sent)
  | true =>
    rw [sendMemory_sent success]
    have taken := sent
    obtain ⟨resp, found, _⟩ := Option.bind_eq_some_iff.mp taken
    have placed := sendResp_sent found success sent
    obtain ⟨sameRef, _, state, _, sameRequest, sameResponse, _⟩ := responded_fields now pIA resp next
    have points : Points resources held.pointers (responded now pIA resp next) := by
      refine ⟨by rw [sameRequest, request], by rw [sameResponse, response, found]; rfl, ?_⟩
      intro _ unanswered
      rw [Unanswered, state] at unanswered
      rcases answered with rfl | rfl <;> simp at unanswered
    exact (tracks.enqueue points (sameRef.trans ref)).unlisted placed.pInteractions placed.interactions.ge

theorem retryResp_tracks (tracks : Tracks resources (some held) this heap []) (holds : Held resources held pIA)
    (sent : this.retryResp env now pIA = some after) :
    Tracks resources none after (this.sendMemory env pIA heap) [] := by
  cases success : env.transmit this.transmissions with
  | false =>
    rw [sendMemory_failed success]
    exact Places.dropped_tracks tracks holds.ref (retryResp_failed success sent)
  | true =>
    rw [sendMemory_sent success]
    have taken := sent
    obtain ⟨resp, found, _⟩ := Option.bind_eq_some_iff.mp taken
    have placed := retryResp_sent found success sent
    have points : Points resources held.pointers (repeated now pIA resp) := by
      refine ⟨holds.points.request, by rw [holds.points.response, found]; rfl, ?_⟩
      intro server unanswered _
      exact holds.points.offered server unanswered (by simp [found])
    exact (tracks.store points holds.ref).unlisted placed.pInteractions placed.interactions.ge

theorem sendReq_tracks (tracks : Tracks resources (some held) this heap []) (holds : Held resources held pIA)
    (sent : this.sendReq env now pIA .waitingResponse = some after) :
    Tracks resources none after (this.sendMemory env pIA heap) [] := by
  cases success : env.transmit this.transmissions with
  | false =>
    rw [sendMemory_failed success]
    exact Places.dropped_tracks tracks holds.ref (sendReq_failed success sent)
  | true =>
    rw [sendMemory_sent success]
    have taken := sent
    obtain ⟨req, found, _⟩ := Option.bind_eq_some_iff.mp taken
    have placed := sendReq_sent found success sent
    obtain ⟨ref, _, state, request, _⟩ := requested_fields now pIA req
    have points : Points resources held.pointers (requested now pIA req) := by
      refine ⟨by rw [request, holds.points.request, found]; rfl, ?_, ?_⟩
      · rw [holds.points.response]
        unfold requested
        simp only
        split <;> rfl
      · intro _ unanswered
        simp [Unanswered, state] at unanswered
    exact (tracks.enqueue points (ref.trans holds.ref)).unlisted placed.pInteractions placed.interactions.ge

theorem retryReq_tracks (tracks : Tracks resources (some held) this heap []) (holds : Held resources held pIA)
    (role : pIA.role = .client) (sent : this.retryReq env now pIA = some after) :
    Tracks resources none after (this.sendMemory env pIA heap) [] := by
  cases success : env.transmit this.transmissions with
  | false =>
    rw [sendMemory_failed success]
    exact Places.dropped_tracks tracks holds.ref (retryReq_failed success sent)
  | true =>
    rw [sendMemory_sent success]
    have taken := sent
    obtain ⟨req, found, _⟩ := Option.bind_eq_some_iff.mp taken
    have placed := retryReq_sent found success sent
    have points : Points resources held.pointers (requestedAgain now pIA req) := by
      refine ⟨by rw [holds.points.request, found]; rfl, holds.points.response, ?_⟩
      intro server
      have clash : InteractionRole.client = .server := role.symm.trans server
      cases clash
    exact (tracks.store points holds.ref).unlisted placed.pInteractions placed.interactions.ge

end

/-! ## The turn of a request -/

section
variable {env : Env} {now : UInt32} {resources : List CoapResource} {hand : Option Hand} {held : Hand}
  {this after : CoapServer} {heap : Heap} {loose : List Nat} {pIA : CoapInteraction} {pRes : Nat} {req resp : CoapMessage}
  {resource : CoapResource} {origin : NetPacket}

theorem registerObserver_tracks (tracks : Tracks resources hand this heap loose) :
    Tracks resources hand (this.registerObserver env pIA pRes req origin).2 heap loose := by
  unfold registerObserver memGet
  cases env.alloc this.allocs with
  | false => exact tracks.unlisted rfl (Nat.le_refl _)
  | true =>
    simp only
    have copied := copyObserverOptions_silent env req.options []
      { this with allocs := this.allocs + 1, observers := this.observers + 1 }
    split
    next after failed =>
      rw [failed] at copied
      exact tracks.unlisted copied.pInteractions copied.interactions.ge
    next options after made =>
      rw [made] at copied
      exact tracks.unlisted copied.pInteractions copied.interactions.ge

/-- A notification that a deregistration aborts is not the request in hand. -/
theorem handleObservationInReq_tracks (tracks : Tracks resources (some held) this heap loose)
    (role : held.role = .server) :
    Tracks resources (some held) (this.handleObservationInReq env pIA pRes req origin).2
      (this.handleObservationInReqMemory pIA pRes req heap) loose := by
  unfold handleObservationInReq handleObservationInReqMemory
  cases found : this.resources[pRes]? with
  | none => exact tracks
  | some resource =>
    simp only
    split
    next => exact tracks
    next =>
      cases asked : getObserveOptionFromMsg req with
      | none => exact tracks
      | some obsVal =>
        simp only
        split
        next => exact registerObserver_tracks tracks
        next =>
          split
          next =>
            obtain ⟨list, interactions⟩ := removeInteractionsObserver_silently this pIA req.token64
            have removed : Tracks resources (some held) (this.removeInteractionsObserver pIA req.token64) heap loose :=
              tracks.unlisted list interactions.ge
            simp only [list]
            cases first : this.pInteractions.find? fun pending => pending.isPendingFor pIA req.token64 with
            | none => exact removed
            | some pending =>
              have member := List.mem_of_find?_eq_some first
              have pends := List.find?_some first
              simp only [CoapInteraction.isPendingFor, Bool.and_eq_true, decide_eq_true_eq] at pends
              have differs : pending.ref ≠ held.ref := by
                intro same
                obtain ⟨entry, listed, ref, server⟩ := tracks.listed held rfl
                obtain rfl : pending = entry := eq_of_ref tracks.owned.owners member listed (same.trans ref.symm)
                rw [role, pends.1.1.1] at server
                cases server
              apply removed.delete
              · rw [refs, list]
                exact List.mem_map_of_mem member
              · simpa using differs.symm
          next => exact tracks

theorem addObservation_tracks (tracks : Tracks resources (some held) this heap loose) (role : held.role = .server) :
    Tracks resources (some held) (this.addObservation env pIA pRes req resp).2
      (this.addObservationMemory pIA pRes req resp heap) loose := by
  unfold addObservation addObservationMemory
  cases packet : pIA.origin with
  | none => exact tracks
  | some origin =>
    simp only
    split
    next =>
      have observed : Tracks resources (some held) (this.handleObservationInReq env pIA pRes req origin).2 _ loose :=
        handleObservationInReq_tracks tracks role
      split
      next after registered =>
        rw [registered] at observed
        exact observed.silent (memGet_silent env after)
      next after other =>
        rw [other] at observed
        exact observed
    next => exact tracks

theorem respond_tracks (tracks : Tracks resources (some held) this heap []) (ref : pIA.ref = held.ref)
    (role : held.role = .server) (request : held.pointers.pReqMsg.isSome = pIA.pReqMsg.isSome)
    (response : held.pointers.pRespMsg.isSome = true) (worked : this.respond env now pIA pRes req resp = some after) :
    Tracks resources none after (this.respondMemory env pIA pRes req resp heap) [] := by
  have prepared : Tracks resources (some held) (this.beforeObservation env pIA req resp).2 heap [] := by
    have typed : Tracks resources (some held) (this.setRespType pIA req resp).2 heap [] := by
      unfold setRespType
      split
      next =>
        split
        next => exact tracks.unlisted rfl (Nat.le_refl _)
        next => exact tracks
      next => exact tracks
    exact typed.silent (addPathOption_silent ..).1
  have sent : ((this.beforeObservation env pIA req resp).2.addObservation env pIA pRes req
      (this.beforeObservation env pIA req resp).1).2.sendResp env now { pIA with
        pRespMsg := some ((this.beforeObservation env pIA req resp).2.addObservation env pIA pRes req
          (this.beforeObservation env pIA req resp).1).1 } .responseSent = some after := worked
  unfold respondMemory
  generalize this.beforeObservation env pIA req resp = before at *
  have observed : Tracks resources (some held) (before.2.addObservation env pIA pRes req before.1).2
      (before.2.addObservationMemory pIA pRes req before.1 heap) [] := addObservation_tracks prepared role
  have finished := sendResp_tracks sent observed ref request response (.inl rfl)
  exact finished

theorem postpone_tracks {offered : Option CoapMessage} (tracks : Tracks resources (some held) this heap [])
    (ref : pIA.ref = held.ref) (role : held.role = .server)
    (request : held.pointers.pReqMsg.isSome = pIA.pReqMsg.isSome)
    (response : held.pointers.pRespMsg.isSome = offered.isSome) (allowed : Allowed resources pIA)
    (worked : this.postpone env now pIA pRes req offered = some after) :
    Tracks resources none after (this.postponeMemory env now pIA pRes req offered heap) [] := by
  have points : ∀ other : CoapInteraction, other.pReqMsg = pIA.pReqMsg → other.pRes = pIA.pRes →
      other.pRespMsg = offered → Points resources held.pointers other := by
    intro other sameRequest sameRes sameResponse
    refine ⟨by rw [sameRequest, request], by rw [sameResponse, response], fun _ _ _ => ?_⟩
    rw [Allowed, sameRequest, sameRes]
    exact allowed
  simp only [postpone] at worked
  unfold postponeMemory
  split at worked
  -- the first time an empty acknowledgement goes out, and the interaction with it if that fails
  next first =>
    rw [if_pos first]
    simp only [sendEmptyAck, sendShortResp] at worked
    cases success : env.transmit this.transmissions with
    | true =>
      rw [sendMsg_sent now _ _ _ _ _ success] at worked
      cases worked
      rw [sendMemory_sent success]
      have postponed := points { pIA with
        pRespMsg := offered
        reqReliabilityState := .ackSet
        state := .resourcePostponeEmptyAckSent
        sleepUntil := now + postponeWaitTimeSek } rfl rfl rfl
      exact (tracks.enqueue postponed ref).unlisted rfl (Nat.le_refl _)
    | false =>
      obtain ⟨_, failed⟩ := sendMsg_failed now (some { pIA with pRespMsg := offered }) pIA.origin
        { coapInitToEmptyResetMsg with type := .ack, code := empty, messageID := req.messageID, token64 := 0 } pIA.ifID
        pIA.remoteEp success
      rw [failed] at worked
      cases worked
      rw [sendMemory_failed success, ref]
      exact tracks.dropped.unlisted rfl (Nat.le_refl _)
  next later =>
    rw [if_neg later]
    split at worked
    next late =>
      obtain ⟨resp, made, sent⟩ := Option.bind_eq_some_iff.mp worked
      subst made
      rw [if_pos late]
      exact respond_tracks tracks ref role request response sent
    next early =>
      cases worked
      rw [if_neg early]
      have asleep := points { pIA with pRespMsg := offered, sleepUntil := now + postponeWaitTimeSek } rfl rfl rfl
      exact tracks.enqueue asleep ref

theorem allocRespMsg_unlisted (env : Env) (this : CoapServer) (req : CoapMessage) (code : UInt8) (payloadMaxSize : Nat) :
    (this.allocRespMsg env req code payloadMaxSize).2.pInteractions = this.pInteractions ∧
      (this.allocRespMsg env req code payloadMaxSize).2.interactions = this.interactions := by
  unfold allocRespMsg
  split
  next =>
    have created := createMessage_silent env this .ack code req.messageID payloadMaxSize req.token64
    exact ⟨created.pInteractions, created.interactions⟩
  next =>
    have created := createMessage_silent env this.getNextMid.2 .non code this.getNextMid.1 payloadMaxSize req.token64
    exact ⟨created.pInteractions, created.interactions⟩

/-- A response is allocated, or its pointer stays null. -/
theorem allocResponse_tracks (offered : Option CoapMessage) (tracks : Tracks resources (some held) this heap [])
    (none : held.pointers.pRespMsg = none) :
    ∃ pRespMsg : Option Nat, pRespMsg.isSome = offered.isSome ∧
      Tracks resources (some { held with pointers := { held.pointers with pRespMsg } }) this
        (heap.allocResponse held.ref offered) [] := by
  cases offered with
  | none =>
    have ready : Tracks resources (some held) this heap ((Option.none : Option Nat).toList ++ []) := tracks
    have written := ready.setResponse
    rw [none] at written
    exact ⟨_, rfl, written⟩
  | some resp =>
    have ready : Tracks resources (some held) this heap.memGet.2 ((some heap.memGet.1).toList ++ []) := tracks.memGet
    have written := ready.setResponse
    rw [none] at written
    exact ⟨_, rfl, written⟩

/-- A handler is called, and its response sent or postponed. -/
theorem handle_tracks (tracks : Tracks resources (some held) this heap []) (holds : Held resources held pIA)
    (role : held.role = .server) (owns : CallsOwn env (handlerBegun env this pIA req) (handlerOutcome env this pIA pRes req).calls)
    (allowed : Allowed resources pIA)
    (worked : (if (handlerOutcome env this pIA pRes req).result = .postpone then
        (handlerCalled env this pIA pRes req).postpone env now pIA pRes req
          ((handlerGiven env this pIA req).1.map fun _ => (handlerOutcome env this pIA pRes req).resp)
      else ((handlerGiven env this pIA req).1.map fun _ => (handlerOutcome env this pIA pRes req).resp).bind
        fun resp => (handlerCalled env this pIA pRes req).respond env now pIA pRes req
          (completeCode (handlerOutcome env this pIA pRes req).result resp)) = some after) :
    Tracks resources none after (this.handleMemory env now pIA pRes req heap) [] := by
  -- the handler's response is in the memory of the interaction
  have given : ∃ pRespMsg : Option Nat, pRespMsg.isSome = (handlerGiven env this pIA req).1.isSome ∧
      Tracks resources (some { held with pointers := { held.pointers with pRespMsg } }) this
        (if pIA.pRespMsg = none then heap.allocResponse pIA.ref (handlerGiven env this pIA req).1 else heap) [] := by
    cases response : pIA.pRespMsg with
    | some resp =>
      refine ⟨held.pointers.pRespMsg, ?_, ?_⟩
      · rw [holds.points.response, handlerGiven, response]
      · rw [if_neg (by simp)]
        exact tracks
    | none =>
      have null : held.pointers.pRespMsg = none := by
        have points := holds.points.response
        rw [response] at points
        exact Option.isNone_iff_eq_none.mp (by simp [← Option.not_isSome, points])
      rw [if_pos rfl, holds.ref]
      exact allocResponse_tracks _ tracks null
  obtain ⟨pRespMsg, made, offered⟩ := given
  have unlisted : (handlerBegun env this pIA req).pInteractions = this.pInteractions ∧
      (handlerBegun env this pIA req).interactions = this.interactions := by
    unfold handlerBegun handlerGiven
    split
    next => exact ⟨rfl, rfl⟩
    next => exact allocRespMsg_unlisted env this req empty preferedPayloadSize
  have called : Tracks resources (some { held with pointers := { held.pointers with pRespMsg } })
      (handlerCalled env this pIA pRes req) _ [] :=
    calls_tracks _ (offered.unlisted unlisted.1 unlisted.2.ge) owns
  unfold handleMemory
  simp only
  split at worked
  next postponed =>
    rw [if_pos postponed]
    exact postpone_tracks called holds.ref role holds.points.request (by simp [made]) allowed worked
  next final =>
    rw [if_neg final]
    obtain ⟨resp, left, sent⟩ := Option.bind_eq_some_iff.mp worked
    rw [left]
    apply respond_tracks called holds.ref role holds.points.request _ sent
    obtain ⟨_, some, _⟩ := Option.map_eq_some_iff.mp left
    rw [made, some]
    rfl

theorem handleRequest_tracks (tracks : Tracks resources none this heap []) (member : pIA ∈ this.pInteractions)
    (role : pIA.role = .server) (unanswered : Unanswered pIA) (layouts : layout this.resources = layout resources)
    (owns : ∀ req pRes resource, pIA.pReqMsg = some req → pIA.pRes = some pRes → this.resources[pRes]? = some resource →
      methodNotAllowed req.code resource.flags = false →
        CallsOwn env (handlerBegun env this pIA req) (handlerOutcome env this pIA pRes req).calls)
    (worked : this.handleRequest env now pIA = some after) :
    Tracks resources none after (this.handleRequestMemory env now pIA heap) [] := by
  obtain ⟨held, points⟩ := tracks.take member
  obtain ⟨req, pRes, resource, request, asked, found⟩ := handleRequest_asked worked
  obtain ⟨original, listed, kept⟩ := layout_getElem? layouts.symm found
  have flags : original.flags = resource.flags := (layout_singleton kept).1
  rw [handleRequest_eq request asked found] at worked
  simp only [handleRequestMemory, request, asked, found]
  split at worked
  next refused =>
    rw [if_pos refused]
    -- its handler was never called, so there is no older response to lose
    have fresh : pIA.pRespMsg = none := by
      by_contra offered
      obtain ⟨other, index, resourceToo, sameRequest, sameIndex, foundToo, allowed⟩ :=
        points.offered role unanswered offered
      obtain rfl := Option.some.inj (request.symm.trans sameRequest)
      obtain rfl := Option.some.inj (asked.symm.trans sameIndex)
      obtain rfl := Option.some.inj (listed.symm.trans foundToo)
      rw [flags, refused] at allowed
      cases allowed
    have null : (heap.record pIA.ref).pRespMsg = none := by
      have response := points.response
      rw [fresh] at response
      exact Option.isNone_iff_eq_none.mp (by simp [← Option.not_isSome, response])
    obtain ⟨pRespMsg, made, allocated⟩ :=
      allocResponse_tracks (this.allocRespMsg env req respMethodNotAllowed 0).1 held null
    obtain ⟨list, interactions⟩ := allocRespMsg_unlisted env this req respMethodNotAllowed 0
    have finished := sendResp_tracks worked (allocated.unlisted list interactions.ge) rfl points.request made (.inl rfl)
    exact finished
  next supported =>
    rw [if_neg supported]
    have allowed := Bool.eq_false_iff.mpr supported
    have handled := owns req pRes resource request asked found allowed
    exact handle_tracks held ⟨rfl, rfl, points⟩ role handled
      ⟨req, pRes, original, request, asked, listed, flags ▸ allowed⟩ worked

end

/-! ## The other turns -/

/-- The requests of a notifier that is asked for a fresher representation. -/
def RefreshOwns (env : Env) (this : CoapServer) (pIA : CoapInteraction) (pRespMsg : CoapMessage) : Prop :=
  ∀ pRes resource, pIA.pRes = some pRes → this.resources[pRes]? = some resource →
    NotifierOwns env this.getNextMid.2 pRes
      (pIA.pObserver.bind fun ref => resource.observers.find? fun observer => observer.ref = ref)
      { pRespMsg with messageID := this.getNextMid.1 }

section
variable {env : Env} {now : UInt32} {resources : List CoapResource} {hand : Option Hand} {held : Hand}
  {this after : CoapServer} {heap : Heap} {loose : List Nat} {pIA : CoapInteraction} {resp : CoapMessage}

theorem refresh_tracks {refreshed : CoapMessage × CoapServer} (tracks : Tracks resources hand this heap loose)
    (owns : RefreshOwns env this pIA resp) (refreshes : this.refresh env pIA resp = some refreshed) :
    Tracks resources hand refreshed.2 (this.refreshMemory env pIA resp heap) loose := by
  obtain ⟨pRes, resource, asked, found, _, rfl⟩ := refresh_some refreshes
  simp only [refreshMemory, asked, Option.bind_some, found, Option.map_some]
  have drawn : Tracks resources hand this.getNextMid.2 heap loose := tracks.unlisted rfl (Nat.le_refl _)
  have called := callNotifier_tracks drawn (owns pRes resource asked found)
  exact called.silent (memGet_silent env _)

/-- The role decides what an interaction in hand can be. -/
theorem Points.answered {pointers : Pointers} {worked : CoapInteraction} (points : Points resources pointers pIA)
    (role : pIA.role ≠ .server) (sameRole : worked.role = pIA.role) (request : worked.pReqMsg = pIA.pReqMsg)
    (response : worked.pRespMsg.isSome = pIA.pRespMsg.isSome) : Points resources pointers worked := by
  refine ⟨request ▸ points.request, response ▸ points.response, ?_⟩
  intro server
  exact absurd (sameRole.symm.trans server) role

theorem checkResponse_tracks (tracks : Tracks resources none this heap []) (member : pIA ∈ this.pInteractions)
    (worked : this.checkResponse env now pIA = some after) :
    Tracks resources none after (this.checkResponseMemory env now pIA heap) [] := by
  obtain ⟨held, points⟩ := tracks.take member
  simp only [checkResponse, Option.bind_eq_bind, Option.bind_eq_some_iff] at worked
  obtain ⟨status, checked, worked⟩ := worked
  rw [checkResponseMemory, checked]
  cases status with
  | waiting =>
    cases worked
    exact held.enqueue points rfl
  | holdingBack =>
    cases worked
    exact held.enqueue points rfl
  | retry => exact retryResp_tracks held ⟨rfl, rfl, points⟩ worked
  | _ =>
    cases worked
    exact held.dropped

theorem checkRequest_tracks (tracks : Tracks resources none this heap []) (member : pIA ∈ this.pInteractions)
    (role : pIA.role = .client) (worked : this.checkRequest env now pIA = some after) :
    Tracks resources none after (this.checkRequestMemory env now pIA heap) [] := by
  obtain ⟨held, points⟩ := tracks.take member
  simp only [checkRequest, Option.bind_eq_bind, Option.bind_eq_some_iff] at worked
  obtain ⟨status, checked, worked⟩ := worked
  rw [checkRequestMemory, checked]
  cases status with
  | waiting =>
    cases worked
    exact held.enqueue points rfl
  | retry => exact retryReq_tracks held ⟨rfl, rfl, points⟩ role worked
  | _ =>
    cases worked
    exact held.dropped

theorem checkNotification_tracks (tracks : Tracks resources none this heap []) (member : pIA ∈ this.pInteractions)
    (role : pIA.role = .notification)
    (owns : pIA.updatePendingNotification = true → ∀ status, checkRespStatus now pIA = some status →
      status = .retry ∨ status = .ok → ∀ resp, pIA.pRespMsg = some resp → RefreshOwns env this pIA resp)
    (worked : this.checkNotification env now pIA = some after) :
    Tracks resources none after (this.checkNotificationMemory env now pIA heap) [] := by
  obtain ⟨held, points⟩ := tracks.take member
  have notServer : pIA.role ≠ .server := by simp [role]
  have abandoned : ∀ token, Tracks resources none
      ((this.removeInteractionsObserver pIA token).deleteInteraction pIA.ref) (heap.deleteInteraction pIA.ref) [] := by
    intro token
    obtain ⟨list, interactions⟩ := removeInteractionsObserver_silently this pIA token
    exact (held.unlisted list interactions.ge).dropped
  simp only [checkNotification, Option.bind_eq_bind, Option.bind_eq_some_iff] at worked
  obtain ⟨status, checked, worked⟩ := worked
  rw [checkNotificationMemory, checked]
  cases status with
  | waiting =>
    cases worked
    exact held.enqueue points rfl
  | holdingBack =>
    cases worked
    exact held.enqueue points rfl
  | retry =>
    simp only at worked ⊢
    split at worked
    -- a newer value waits: the message sent again is a fresh one in the old block
    next flag =>
      obtain ⟨resp, response, further⟩ := Option.bind_eq_some_iff.mp worked
      obtain ⟨refreshed, refreshes, sent⟩ := Option.bind_eq_some_iff.mp further
      have asked := owns flag .retry checked (.inl rfl) resp response
      have fresh := refresh_tracks held asked refreshes
      have holds : Held resources ⟨pIA.ref, pIA.role, heap.record pIA.ref⟩ { pIA with
          updatePendingNotification := false
          pRespMsg := some { refreshed.1 with type := resp.type } } :=
        ⟨rfl, rfl, points.answered notServer rfl rfl (by simp [response])⟩
      have again := retryResp_tracks fresh holds sent
      rw [if_pos flag]
      split
      next none => cases none.symm.trans response
      next given same =>
        obtain rfl : given = resp := Option.some.inj (same.symm.trans response)
        simp only [refreshes]
        exact again
    next plain =>
      rw [if_neg plain]
      exact retryResp_tracks held ⟨rfl, rfl, points⟩ worked
  | ok =>
    simp only at worked ⊢
    split at worked
    -- the acknowledged message is refilled with the newer value
    next flag =>
      obtain ⟨resp, response, further⟩ := Option.bind_eq_some_iff.mp worked
      obtain ⟨refreshed, refreshes, moved⟩ := Option.bind_eq_some_iff.mp further
      cases moved
      have asked := owns flag .ok checked (.inr rfl) resp response
      have fresh := refresh_tracks held asked refreshes
      simp only [flag, if_true, response]
      exact fresh.enqueue (points.answered notServer rfl rfl (by simp [response])) rfl
    next plain =>
      cases worked
      rw [if_neg plain]
      exact held.dropped
  | errOutOfAttempts =>
    obtain ⟨resp, _, deleted⟩ := Option.bind_eq_some_iff.mp worked
    cases deleted
    exact abandoned resp.token64
  | errRemoteRst =>
    obtain ⟨resp, _, deleted⟩ := Option.bind_eq_some_iff.mp worked
    cases deleted
    exact abandoned resp.token64
  | _ =>
    cases worked
    exact held.dropped

theorem handleResponse_tracks (tracks : Tracks resources none this heap []) (member : pIA ∈ this.pInteractions)
    (owns : pIA.respCB = true → ∀ resp, pIA.pRespMsg = some resp →
      CallsOwn env { this with callbacks := this.callbacks + 1 } (env.respCB this.callbacks resp pIA.remoteEp))
    (worked : this.handleResponse env pIA = some after) :
    Tracks resources none after (this.handleResponseMemory env pIA heap) [] := by
  obtain ⟨held, points⟩ := tracks.take member
  unfold handleResponse at worked
  split at worked
  next callback =>
    obtain ⟨resp, response, deleted⟩ := Option.bind_eq_some_iff.mp worked
    cases deleted
    have begun : Tracks resources _ { this with callbacks := this.callbacks + 1 } heap [] :=
      held.unlisted rfl (Nat.le_refl _)
    have called := calls_tracks _ begun (owns callback resp response)
    rw [handleResponseMemory, callback, response]
    exact called.dropped
  next silent =>
    cases worked
    rw [handleResponseMemory, Bool.eq_false_iff.mpr silent]
    exact held.dropped

end

/-! ## Steps -/

/-- What user code does in the turn of an interaction owns its messages. -/
def WorkOwns (env : Env) (this : CoapServer) (now : UInt32) (pIA : CoapInteraction) : Prop :=
  match pIA.role with
  | .server => Unanswered pIA → ∀ req pRes resource, pIA.pReqMsg = some req → pIA.pRes = some pRes →
      this.resources[pRes]? = some resource → methodNotAllowed req.code resource.flags = false →
        CallsOwn env (handlerBegun env this pIA req) (handlerOutcome env this pIA pRes req).calls
  | .notification => pIA.state = .notificationSent → pIA.updatePendingNotification = true →
      ∀ status, checkRespStatus now pIA = some status → status = .retry ∨ status = .ok →
        ∀ resp, pIA.pRespMsg = some resp → RefreshOwns env this pIA resp
  | .client => pIA.state = .handleResponse → pIA.respCB = true → ∀ resp, pIA.pRespMsg = some resp →
      CallsOwn env { this with callbacks := this.callbacks + 1 } (env.respCB this.callbacks resp pIA.remoteEp)

/-- A step that takes none of the exits that forget a message or an interaction. -/
def StepOwns (env : Env) (this : CoapServer) : Event → Prop
  | .packet pckt now => PacketOwns env this pckt now
  | .doWork now => ∀ pIA rest, this.pInteractions = pIA :: rest → ¬ pIA.sleepUntil > now → WorkOwns env this now pIA
  | .call request => CallOwns env this request

section
variable {env : Env} {now : UInt32} {resources : List CoapResource} {this after : CoapServer} {heap : Heap}
  {pIA : CoapInteraction}

theorem work_tracks (tracks : Tracks resources none this heap []) (member : pIA ∈ this.pInteractions)
    (layouts : layout this.resources = layout resources) (staged : Staged pIA) (owns : WorkOwns env this now pIA)
    (worked : this.work env now pIA = some after) : Tracks resources none after (this.workMemory env now pIA heap) [] := by
  -- the interaction is taken out of the list, with the blocks it has, for as long as it is worked on
  obtain ⟨held, points⟩ := tracks.take member
  unfold WorkOwns at owns
  cases work_cases staged worked with
  | handlesRequest role unanswered done =>
    simp only [role] at owns
    have requested := handleRequest_tracks tracks member role unanswered layouts (owns unanswered) done
    cases unanswered with
    | inl state => simpa only [workMemory, role, state] using requested
    | inr state => simpa only [workMemory, role, state] using requested
  | checksResponse role state done =>
    simp only [workMemory, role, state]
    exact checkResponse_tracks tracks member done
  | notifies role state done =>
    simp only [workMemory, role, state]
    exact sendResp_tracks done held rfl points.request points.response (.inr rfl)
  | checksNotification role state done =>
    simp only [role] at owns
    simp only [workMemory, role, state]
    exact checkNotification_tracks tracks member role (owns state) done
  | requests role state done =>
    simp only [workMemory, role, state]
    exact sendReq_tracks held ⟨rfl, rfl, points⟩ done
  | checksRequest role state done =>
    simp only [workMemory, role, state]
    exact checkRequest_tracks tracks member role done
  | handlesResponse role state done =>
    simp only [role] at owns
    simp only [workMemory, role, state]
    exact handleResponse_tracks tracks member (owns state) done

/-- One step. -/
theorem step_tracks {event : Event} (reaches : Reaches env resources this) (tracks : Tracks resources none this heap [])
    (owns : StepOwns env this event) (taken : step env this event = some after) :
    Tracks resources none after (this.stepMemory env event heap) [] := by
  have holds := run_shaped reaches
  have staged : ∀ pIA ∈ this.pInteractions, Staged pIA := fun pIA member => (holds.interactions pIA member).staged
  cases event with
  | packet pckt now =>
    cases taken
    exact onNewPacketHandler_tracks tracks owns staged
  | doWork now =>
    rcases doWork_cases taken with ⟨list, rfl⟩ | ⟨pIA, rest, list, ⟨asleep, rfl⟩ | ⟨due, worked⟩⟩
    · simp only [stepMemory, doWorkMemory, list]
      exact tracks
    · have member : pIA ∈ this.pInteractions := list ▸ List.mem_cons_self
      simp only [stepMemory, doWorkMemory, list]
      rw [if_pos asleep]
      obtain ⟨held, points⟩ := tracks.take member
      exact held.enqueue points rfl
    · have member : pIA ∈ this.pInteractions := list ▸ List.mem_cons_self
      simp only [stepMemory, doWorkMemory, list]
      rw [if_neg due]
      exact work_tracks tracks member holds.layouts (staged pIA member) (owns pIA rest list due) worked
  | call request =>
    cases taken
    exact call_tracks tracks owns

end

/-! ## Runs -/

/-- Each live block belongs to exactly one interaction of the list, whose blocks are all live, and nothing was
released twice. -/
structure Conserved (this : CoapServer) (heap : Heap) : Prop where
  owner : ∀ block ∈ heap.live, ∃! ref, ref ∈ this.refs ∧ block ∈ (heap.record ref).blocks
  held : ∀ ref ∈ this.refs, (∀ block ∈ (heap.record ref).blocks, block ∈ heap.live) ∧ (heap.record ref).blocks.Nodup
  distinct : this.refs.Nodup
  pointers : ∀ pIA ∈ this.pInteractions, (heap.record pIA.ref).pReqMsg.isSome = pIA.pReqMsg.isSome ∧
    (heap.record pIA.ref).pRespMsg.isSome = pIA.pRespMsg.isSome
  faultless : heap.faults = 0

theorem Tracks.conserved {resources : List CoapResource} {this : CoapServer} {heap : Heap}
    (tracks : Tracks resources none this heap []) : Conserved this heap where
  owner := fun _ live => tracks.owned.belongs live
  held := fun _ member => tracks.owned.held member
  distinct := tracks.owned.owners
  pointers := by
    intro pIA member
    have points := tracks.points pIA member (by simp)
    exact ⟨points.request, points.response⟩
  faultless := tracks.owned.faultless

/-- The stack does not see its memory. -/
theorem step_of_allocatingStep {env : Env} {before after : CoapServer × Heap} {event : Event}
    (taken : allocatingStep env before event = some after) : step env before.1 event = some after.1 ∧
      after.2 = before.1.stepMemory env event before.2 := by
  obtain ⟨this, stepped, rfl⟩ := Option.map_eq_some_iff.mp taken
  exact ⟨stepped, rfl⟩

/-- In a run that takes none of the exits that forget, the interactions of the list own the memory. -/
theorem memory_conserved (env : Env) (resources : List CoapResource) (state : CoapServer × Heap)
    (run : Transition.Run (allocatingStep env) (fun before event => StepOwns env before.1 event) (new resources, Heap.new)
      state) : Conserved state.1 state.2 := by
  have tracks : Tracks resources none state.1 state.2 [] := by
    induction run with
    | refl =>
      have none : ∀ pIA ∈ (new resources).pInteractions, False := fun _ member => List.not_mem_nil member
      refine ⟨⟨.refl _, .nil, .nil, fun _ member => absurd member List.not_mem_nil, rfl⟩, ?_, ?_, ?_, ?_⟩
      · exact fun pIA member => (none pIA member).elim
      · exact fun pIA member => (none pIA member).elim
      · exact fun _ held => by cases held
      · exact fun _ held => by cases held
    | next before event owns taken inductionHypothesis =>
      obtain ⟨stepped, memory⟩ := step_of_allocatingStep taken
      have reaches := before.map Prod.fst fun _ _ _ taken => (step_of_allocatingStep taken).1
      rw [memory]
      exact step_tracks (reaches.weaken fun _ _ _ => trivial) inductionHypothesis owns stepped
  exact tracks.conserved

/-- A notifier that leaves its response alone owns nothing and reports no error. -/
theorem loopOwns_ideal (pRes : Nat) (resource : CoapResource) (observers : List CoapObserver) (this : CoapServer) :
    LoopOwns idealEnv pRes resource this observers := by
  induction observers generalizing this with
  | nil => trivial
  | cons pObserver rest inductionHypothesis =>
    refine ⟨fun _ => ⟨trivial, fun _ => ?_⟩, fun _ => inductionHypothesis _⟩
    show respSuccessContent < respErrorBadRequest
    decide

theorem workOwns_ideal (this : CoapServer) (now : UInt32) (pIA : CoapInteraction) : WorkOwns idealEnv this now pIA := by
  unfold WorkOwns
  split
  next => exact fun _ _ _ _ _ _ _ _ => trivial
  next => exact fun _ _ _ _ _ _ _ _ _ _ _ => trivial
  next => exact fun _ _ _ _ => trivial

/-- An answered registration and a notification. -/
def notifiedSensor : List Event := [.packet (datagram 0 observeSensor) 0, .doWork 0, .call (.notify 0)]

/-- The registration has three blocks and the notification two. -/
theorem sensor_memory_conserved : ∃ state : CoapServer × Heap,
    (state.1.refs, state.2.live) = ([0, 1], [4, 3, 2, 1, 0]) ∧ Conserved state.1 state.2 := by
  have reached : (notifiedSensor.foldlM (allocatingStep idealEnv) (new [sensor], Heap.new)).map
      (fun state => (state.1.refs, state.2.live)) = some ([0, 1], [4, 3, 2, 1, 0]) := by
    decide +kernel
  obtain ⟨state, taken, facts⟩ := Option.map_eq_some_iff.mp reached
  simp only [notifiedSensor, List.foldlM_cons, List.foldlM_nil, Option.bind_eq_bind, Option.pure_def,
    Option.bind_eq_some_iff, Option.some.injEq, exists_eq_right] at taken
  obtain ⟨first, received, second, worked, notified⟩ := taken
  let permitted (before : CoapServer × Heap) (event : Event) : Prop := StepOwns idealEnv before.1 event
  have unasked : permitted (new [sensor], Heap.new) (.packet (datagram 0 observeSensor) 0) := by
    intro _ _ _ _ _ _ pIA found
    cases found
  have answered : permitted first (.doWork 0) := fun pIA _ _ _ => workOwns_ideal first.1 0 pIA
  have told : permitted second (.call (.notify 0)) := fun resource _ => loopOwns_ideal 0 resource _ _
  have run : Transition.Run (allocatingStep idealEnv) permitted (new [sensor], Heap.new) state :=
    ((Transition.Run.refl.next _ unasked received).next _ answered worked).next _ told notified
  exact ⟨state, facts, memory_conserved idealEnv [sensor] state run⟩

/-- The notification whose notifier reports an error is neither in the list nor released. -/
theorem notification_lost : ¬ ∀ (env : Env) (resources : List CoapResource) (state : CoapServer × Heap),
    Transition.Run (allocatingStep env) (fun _ _ => True) (new resources, Heap.new) state →
      Conserved state.1 state.2 := by
  intro conserved
  let env : Env :=
    { idealEnv with notifier := fun _ _ _ pResp => ⟨.ok, { pResp with code := respErrorBadRequest }, []⟩ }
  have reached : (notifiedSensor.foldlM (allocatingStep env) (new [sensor], Heap.new)).map (fun state =>
      (state.1.refs, state.2.live, (state.2.record 0).blocks)) = some ([0], [4, 3, 2, 1, 0], [0, 2, 1]) := by
    decide +kernel
  obtain ⟨state, taken, facts⟩ := Option.map_eq_some_iff.mp reached
  simp only [Prod.mk.injEq] at facts
  obtain ⟨refs, live, blocks⟩ := facts
  have owners := conserved env [sensor] state (.of_events _ .refl taken)
  obtain ⟨ref, ⟨member, held⟩, _⟩ := owners.owner 4 (by simp [live])
  rw [refs, List.mem_singleton] at member
  rw [member, blocks] at held
  simp at held

end CoapServer

end SmingCoap.Server
